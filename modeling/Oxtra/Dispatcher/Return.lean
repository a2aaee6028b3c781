import Oxtra.Dispatcher.CallTable
import Oxtra.Helper.LoadImmediate
import Oxtra.Instructions.ControlFlow

/-!
# Where a return goes

A return looks for its address in the call table, at the place that the return
stack says, and goes through the dispatcher if it is not there.  Wherever it
looks, it ends at the code of the address on the stack of the guest.
-/

namespace Oxtra
namespace Ret

open RiscV
open Encoding
open Helper
open Dispatcher

/-! ## Reading the address and the entry -/

/-- The entry of the call table that the return stack points to. -/
def entryOf (state : State) : Word :=
  state.get callTableAddress + (applyAll 0 state popOffset).get .t0

/-- The address and the immediate have been popped from the stack of the
guest. -/
structure Popped (immediate : Word) (state popped : State) : Prop where
  address : popped.get addressDestination = state.mem.load (state.get rsp) 8
  stack : popped.get rsp = state.get rsp + 8 + immediate
  others : ∀ register, register ∉ [addressDestination, .t0, rsp] →
    popped.get register = state.get register
  memory : popped.mem = state.mem

theorem popped_of_set
    {immediate : Word}
    {state other : State}
    (address : other.get addressDestination = state.mem.load (state.get rsp) 8)
    (others : ∀ register, register ∉ [addressDestination, .t0, rsp] →
      other.get register = state.get register)
    (memory : other.mem = state.mem) :
    Popped immediate state
      (other.set rsp (state.get rsp + (immediate + 8))) := by
  refine ⟨?_, ?_, ?_, memory⟩
  · rw [State.set_get_of_ne _ _ (by decide), address]
  · rw [State.set_get_self _ _ (by decide), BitVec.add_comm immediate,
      BitVec.add_assoc]
  · intro register absent
    have different : register ≠ rsp := by
      rintro rfl
      exact absent (by decide)
    rw [State.set_get_of_ne _ _ different, others register absent]

theorem popReturnAddress_spec (pc : Word) (state : State) (immediate : Word) :
    Popped immediate state
      (applyAll pc state (popReturnAddress immediate)) := by
  let loaded :=
    state.set addressDestination (state.mem.load (state.get rsp) 8)
  have loadedOthers : ∀ register, register ∉ [addressDestination, .t0, rsp] →
      loaded.get register = state.get register := by
    intro register absent
    apply State.set_get_of_ne
    rintro rfl
    exact absent (by decide)
  have stack : loaded.get rsp = state.get rsp :=
    State.set_get_of_ne _ _ (by decide)
  have first : (ld addressDestination rsp 0).apply pc state = loaded :=
    apply_ld_zero pc state addressDestination rsp
  rw [popReturnAddress, applyAll_cons, first]
  by_cases small : immediate + 8 < 0x800
  · have bound : (immediate + 8).toNat < 0x800 := small
    have value : (((immediate + 8).setWidth 16).setWidth 12).toNat =
        (immediate + 8).toNat := by
      rw [BitVec.toNat_setWidth, BitVec.toNat_setWidth]
      omega
    have extended : (((immediate + 8).setWidth 16).setWidth 12).signExtend 64 =
        immediate + 8 := by
      rw [signExtend_small (by omega), value, BitVec.ofNat_toNat,
        BitVec.setWidth_eq]
    rw [if_pos small, applyAll_cons, applyAll_nil]
    simp only [addi, opImm, Inst.apply, OpImm.eval]
    rw [extended, stack]
    exact popped_of_set (State.set_get_self _ _ (by decide)) loadedOthers rfl
  · rw [if_neg small, applyAll_append, applyAll_loadImmediate (by decide),
      applyAll_cons, applyAll_nil]
    simp only [Encoding.add, Inst.apply, Op.eval]
    rw [State.set_get_self _ _ (by decide), State.set_get_of_ne _ _ (by decide),
      stack]
    refine popped_of_set ?_ ?_ rfl
    · rw [State.set_get_of_ne _ _ (by decide),
        State.set_get_self _ _ (by decide)]
    · intro register absent
      have different : register ≠ .t0 := by
        rintro rfl
        exact absent (by decide)
      rw [State.set_get_of_ne _ _ different, loadedOthers register absent]

/-- What the instructions before the branches leave. -/
structure Prepared (immediate : Word) (state prepared : State) : Prop where
  address : prepared.get addressDestination = state.mem.load (state.get rsp) 8
  entry : prepared.get .t1 = entryOf state
  guest : prepared.get .t2 = state.mem.load (entryOf state) 8
  stack : prepared.get rsp = state.get rsp + 8 + immediate
  others : ∀ register, register ∉
      [addressDestination, .t0, .t1, .t2, rsp, returnStack] →
    prepared.get register = state.get register
  memory : prepared.mem = state.mem

/-- The offset depends on the return stack only. -/
theorem popOffset_congr
    {first second : State}
    (pc : Word)
    (stack : first.get returnStack = second.get returnStack)
    (memory : first.mem = second.mem) :
    (applyAll pc first popOffset).get .t0 =
      (applyAll 0 second popOffset).get .t0 := by
  simp only [popOffset, applyAll_cons, applyAll_nil, addi, andi, lwu,
    Encoding.load, opImm, Inst.apply, OpImm.eval, effectiveAddress,
    State.set_mem]
  rw [State.set_get_self _ _ (by decide), State.set_get_self _ _ (by decide),
    State.set_get_self _ _ (by decide), State.set_get_self _ _ (by decide),
    State.set_get_self _ _ (by decide), State.set_get_self _ _ (by decide),
    stack, memory]

theorem loadEntry_spec (pc : Word) (state : State) :
    applyAll pc state loadEntry =
      (state.set .t1 (state.get callTableAddress + state.get .t0)).set .t2
        (state.mem.load (state.get callTableAddress + state.get .t0) 8) := by
  rw [loadEntry, applyAll_cons, applyAll_cons, apply_ld_zero, applyAll_nil]
  simp only [Encoding.add, Inst.apply, Op.eval]
  rw [State.set_get_self _ _ (by decide), State.set_mem]

theorem prepared (pc : Word) (state : State) (immediate : Word) :
    Prepared immediate state
      (applyAll pc state
        (popReturnAddress immediate ++ popOffset ++ loadEntry)) := by
  rw [applyAll_append, applyAll_append]
  have popped := popReturnAddress_spec pc state immediate
  generalize applyAll pc state (popReturnAddress immediate) = first at popped
  generalize pc + BitVec.ofNat 64 (4 * (popReturnAddress immediate).length) =
    middle
  have index : (applyAll middle first popOffset).get .t0 =
      (applyAll 0 state popOffset).get .t0 :=
    popOffset_congr middle (popped.others returnStack (by decide))
      popped.memory
  have kept : ∀ register, register ≠ .t0 → register ≠ returnStack →
      (applyAll middle first popOffset).get register =
        first.get register := by
    intro register notT0 notStack
    apply applyAll_get_of_not_target
    intro inst member
    have target : inst.target = some .t0 ∨ inst.target = some returnStack := by
      revert member
      revert inst
      decide
    rintro equal
    rw [equal] at target
    simp [notT0, notStack] at target
  have memory : (applyAll middle first popOffset).mem = first.mem :=
    applyAll_mem_of_target middle first (by decide)
  generalize applyAll middle first popOffset = second at index kept memory
  have entry : second.get callTableAddress + second.get .t0 =
      entryOf state := by
    rw [kept _ (by decide) (by decide), index,
      popped.others callTableAddress (by decide), entryOf]
  rw [loadEntry_spec, entry, memory, popped.memory]
  refine ⟨?_, ?_, ?_, ?_, ?_, ?_⟩
  · rw [State.set_get_of_ne _ _ (by decide), State.set_get_of_ne _ _ (by decide),
      kept _ (by decide) (by decide), popped.address]
  · rw [State.set_get_of_ne _ _ (by decide), State.set_get_self _ _ (by decide)]
  · rw [State.set_get_self _ _ (by decide)]
  · rw [State.set_get_of_ne _ _ (by decide), State.set_get_of_ne _ _ (by decide),
      kept _ (by decide) (by decide), popped.stack]
  · intro register absent
    simp only [List.mem_cons, List.not_mem_nil, or_false, not_or] at absent
    obtain ⟨notAddress, notT0, notT1, notT2, notRsp, notStack⟩ := absent
    rw [State.set_get_of_ne _ _ notT2, State.set_get_of_ne _ _ notT1,
      kept _ notT0 notStack]
    apply popped.others
    simp [notAddress, notT0, notRsp]
  · rw [State.set_mem, State.set_mem, memory, popped.memory]

/-! ## The branches -/

/-- Where a jump to an entry of the jump table goes. -/
def tableTarget (state : State) (entry : JumpTable.Entry) : Word :=
  jumpTarget state jumpTableAddress (entry.offset.setWidth 12)

section

variable
  {env : Environment}
  {state : State}

theorem popReturnAddress_straight (immediate : Word) :
    ∀ inst ∈ popReturnAddress immediate, inst.isStraight = true := by
  intro inst member
  rw [popReturnAddress] at member
  rcases List.mem_cons.mp member with rfl | rest
  · rfl
  · split at rest
    · rw [List.mem_singleton.mp rest]
      rfl
    · rcases List.mem_append.mp rest with loads | last
      · exact (target_of_mem_loadImmediate loads).1
      · rw [List.mem_singleton.mp last]
        rfl

theorem exits_jumpTableEntry
    (permits : env.PermitsEverything)
    (noCall : env.call = fun _ _ => none)
    (entry : JumpTable.Entry) :
    ∃ link, env.Exits (JumpTable.jumpTableEntry entry) state
      (.left (tableTarget state entry) (state.set .ra link)) :=
  ⟨_, @Environment.exits_jump env state [] [] .ra jumpTableAddress
    (entry.offset.setWidth 12) (by simp) permits noCall⟩

theorem exits_register
    (permits : env.PermitsEverything)
    (noCall : env.call = fun _ _ => none) :
    ∃ link, env.Exits [jalr .zero .t3 0] state
      (.left (state.get .t3 &&& ~~~(1 : Word)) (state.set .zero link)) := by
  have jump := @Environment.exits_jump env state [] [] .zero .t3 0 (by simp)
    permits noCall
  rw [applyAll_nil, jumpTarget,
    show (0 : BitVec 12).signExtend 64 = 0#64 by decide,
    BitVec.add_zero] at jump
  exact ⟨_, jump⟩

/-- The end of a return whose entry has its address. -/
theorem exits_enterEntry
    (permits : env.PermitsEverything)
    (noCall : env.call = fun _ _ => none) :
    let riscv := state.mem.load (state.get .t1 + 8) 8
    let loaded := state.set .t3 riscv
    ∃ target left, env.Exits enterEntry state (.left target left) ∧
      ((riscv ≠ 0 ∧ target = riscv &&& ~~~(1 : Word) ∧
          ∃ link, left = loaded.set .zero link) ∨
        (riscv = 0 ∧ target = tableTarget loaded .rerouteReturn ∧
          ∃ link, left = loaded.set .ra link)) := by
  intro riscv loaded
  have permitsLater : ∀ count, (env.shift count).PermitsEverything :=
    fun _ inst state => permits inst state
  have load : env.Exits [ld .t3 .t1 8] state (.ended loaded) :=
    Environment.exits_straight (by decide) (permits.permitsAll _ _)
  by_cases zero : riscv = 0
  · obtain ⟨link, exits⟩ := @exits_jumpTableEntry
      (((env.shift 1).shift 2)) loaded (fun inst state => permits inst state)
      noCall .rerouteReturn
    have guarded : (env.shift 1).Exits (branchOver (beqz .t3) [jalr .zero .t3 0])
        loaded (.ended loaded) := by
      apply Environment.exits_branch_taken (permitsLater 1)
      · simp only [Branch.eval, State.get_zero, beq_iff_eq]
        rw [State.set_get_self _ _ (by decide), zero]
      · decide
    have rest := guarded.append exits (by simp)
    exact ⟨_, _, load.append rest (by simp), .inr ⟨zero, rfl, link, rfl⟩⟩
  · obtain ⟨link, jump⟩ := @exits_register ((env.shift 1).shift 1) loaded
      (fun inst state => permits inst state) noCall
    rw [State.set_get_self _ _ (by decide)] at jump
    have guarded : (env.shift 1).Exits (branchOver (beqz .t3) [jalr .zero .t3 0])
        loaded (.left (riscv &&& ~~~(1 : Word)) (loaded.set .zero link)) := by
      apply Environment.exits_branch_skipped (permitsLater 1) _ jump (by simp)
      simp only [Branch.eval, State.get_zero, beq_iff_eq]
      rw [State.set_get_self _ _ (by decide)]
      exact zero
    have rest := guarded.append_left (JumpTable.jumpTableEntry .rerouteReturn)
      (by simp) (by simp)
    exact ⟨_, _, load.append rest (by simp), .inl ⟨zero, rfl, link, rfl⟩⟩

/-- The three ways out of a return. -/
inductive WayOut (prepared : State) : Word → State → Prop where
  | dynamic (link : Word) :
      prepared.get .t3 ≠ prepared.get .t2 →
        WayOut prepared (tableTarget prepared .rerouteDynamic)
          (prepared.set .ra link)
  | cached {riscv : Word} (link : Word) :
      prepared.get .t3 = prepared.get .t2 →
        prepared.mem.load (prepared.get .t1 + 8) 8 = riscv →
          riscv ≠ 0 →
            WayOut prepared (riscv &&& ~~~(1 : Word))
              ((prepared.set .t3 riscv).set .zero link)
  | «return» (link : Word) :
      prepared.get .t3 = prepared.get .t2 →
        prepared.mem.load (prepared.get .t1 + 8) 8 = 0 →
          WayOut prepared (tableTarget prepared .rerouteReturn)
            ((prepared.set .t3 0).set .ra link)

theorem exits_branches
    (permits : env.PermitsEverything)
    (noCall : env.call = fun _ _ => none) :
    ∃ target left, env.Exits
        (branchOver (beq addressDestination .t2)
          (appendEobRegister addressDestination) ++ enterEntry)
        state (.left target left) ∧
      WayOut state target left := by
  by_cases equal : state.get .t3 = state.get .t2
  · have guarded : env.Exits (branchOver (beq addressDestination .t2)
        (appendEobRegister addressDestination)) state (.ended state) := by
      apply Environment.exits_branch_taken permits
      · simp only [Branch.eval, beq_iff_eq]
        exact equal
      · decide
    obtain ⟨target, left, exits, way⟩ := @exits_enterEntry (env.shift 2) state
      (fun inst state => permits inst state) noCall
    refine ⟨target, left, guarded.append exits (by simp), ?_⟩
    rcases way with ⟨nonzero, rfl, link, rfl⟩ | ⟨zero, rfl, link, rfl⟩
    · exact .cached link equal rfl nonzero
    · rw [zero]
      exact .return link equal zero
  · obtain ⟨link, jump⟩ := @exits_jumpTableEntry (env.shift 1) state
      (fun inst state => permits inst state) noCall .rerouteDynamic
    have guarded : env.Exits (branchOver (beq addressDestination .t2)
          (appendEobRegister addressDestination)) state
        (.left (tableTarget state .rerouteDynamic) (state.set .ra link)) := by
      apply Environment.exits_branch_skipped permits _ jump (by simp)
      simp only [Branch.eval, beq_iff_eq]
      exact equal
    exact ⟨_, _, guarded.append_left enterEntry (by simp) (by simp), .dynamic link equal⟩

/-- A return leaves in one of the three ways. -/
theorem exits_generate
    (permits : env.PermitsEverything)
    (noCall : env.call = fun _ _ => none)
    (immediate : Word) :
    ∃ ready target left, Prepared immediate state ready ∧
      env.Exits (generate immediate) state (.left target left) ∧
        WayOut ready target left := by
  let code := popReturnAddress immediate ++ popOffset ++ loadEntry
  have straightRest : ∀ inst ∈ popOffset ++ loadEntry,
      inst.isStraight = true := by
    decide
  have straight : ∀ inst ∈ code, inst.isStraight = true := by
    intro inst member
    simp only [code, List.append_assoc] at member
    rcases List.mem_append.mp member with popped | rest
    · exact popReturnAddress_straight immediate inst popped
    · exact straightRest inst rest
  have before := Environment.exits_straight straight
    (permits.permitsAll state code)
  obtain ⟨target, left, exits, way⟩ := @exits_branches
    (env.shift code.length) (applyAll env.origin state code)
    (fun inst state => permits inst state) noCall
  refine ⟨_, target, left, prepared env.origin state immediate, ?_, way⟩
  have shape : generate immediate =
      code ++ (branchOver (beq addressDestination .t2)
        (appendEobRegister addressDestination) ++ enterEntry) := by
    rw [generate, List.append_assoc]
  rw [shape]
  exact before.append exits (by simp)

end

/-! ## Behind the branches -/

/-- Where control is after a jump out of the code.  The entries of the jump
table lead through the routines of the dispatcher. -/
def enter
    (runtime : Runtime)
    (target : Word)
    (state : State) : Option (Word × State) :=
  if target = tableTarget state .rerouteDynamic then
    (rerouteDynamic runtime state).map fun result =>
      (result.target, result.state)
  else if target = tableTarget state .rerouteReturn then
    (rerouteReturn runtime state).map fun result =>
      (result.target, result.state)
  else
    some (target, state)

theorem tableTarget_ne (state : State) :
    tableTarget state .rerouteReturn ≠ tableTarget state .rerouteDynamic := by
  intro equal
  have halves : ∀ word : Word,
      ((word &&& ~~~(1 : Word)) >>> 1).toNat = word.toNat / 2 := by
    intro word
    have bits : (word &&& ~~~(1 : Word)) >>> 1 = word >>> 1 := by
      apply BitVec.eq_of_getLsbD_eq
      intro index inside
      simp only [BitVec.getLsbD_ushiftRight, BitVec.getLsbD_and,
        BitVec.getLsbD_not]
      have high : (1 : Word).getLsbD (1 + index) = false := by
        simp [BitVec.getLsbD_one]
      rw [high]
      by_cases bound : 1 + index < 64
      · simp [bound]
      · simp [BitVec.getLsbD_of_ge word (1 + index) (by omega)]
    rw [bits, BitVec.toNat_ushiftRight, Nat.shiftRight_eq_div_pow]
  have first := halves (state.get jumpTableAddress + 12)
  have second := halves (state.get jumpTableAddress + 8)
  have same : (state.get jumpTableAddress + 12) &&& ~~~(1 : Word) =
      (state.get jumpTableAddress + 8) &&& ~~~(1 : Word) := equal
  rw [same, second] at first
  have twelve : (12 : Word).toNat = 12 := rfl
  have eight : (8 : Word).toNat = 8 := rfl
  have tableLt := (state.get jumpTableAddress).isLt
  simp only [BitVec.toNat_add, twelve, eight] at first
  omega

/-- A return in sound surroundings: the buffer and the entry of the call table
have nothing but code addresses of the translation, the data of the runtime and
the memory of the guest do not overlap, and the functions keep the latter. -/
structure Situation
    (runtime : Runtime)
    (kept translated guest : Word → Prop)
    (code : Word → Word)
    (state : State) : Prop where
  follows : runtime.Follows kept translated
  logs : ∀ state, runtime.reroutes state ≠ none
  translates : ∀ {called returned}, runtime.translate called = some returned →
    returned.get .a0 = code (called.get .a1)
  codeEven : ∀ address, (code address).toNat % 2 = 0
  codeOutside : ∀ address,
    ∀ entry ∈ [JumpTable.Entry.rerouteDynamic, .rerouteReturn],
      code address ≠ tableTarget state entry
  tlb : ∀ address, state.mem.load (tlbEntry state address) 8 = address →
    state.mem.load (tlbEntry state address + 8) 8 = code address
  entry : state.mem.load (entryOf state + 8) 8 = 0 ∨
    state.mem.load (entryOf state + 8) 8 =
      code (state.mem.load (entryOf state) 8)
  keepsContext : ∀ pointer, KeptContext (state.get contextAddress) pointer →
    kept pointer ∧ translated pointer
  keepsEntry : ∀ pointer, Within (entryOf state) 8 pointer → kept pointer
  keepsGuest : ∀ pointer, guest pointer → kept pointer ∧ translated pointer
  tlbContext : ∀ address, Apart (tlbEntry state address) 16
    (state.get contextAddress) ExecutionContext.size
  entryContext : Apart (entryOf state) 16 (state.get contextAddress)
    ExecutionContext.size
  guestContext : ∀ pointer, guest pointer →
    ¬ Within (state.get contextAddress) ExecutionContext.size pointer
  guestTlb : ∀ pointer, guest pointer →
    ∀ address, ¬ Within (tlbEntry state address) 16 pointer
  guestEntry : ∀ pointer, guest pointer →
    ¬ Within (entryOf state) 16 pointer

/-- What the guest sees of a return. -/
structure Returned
    (guest : Word → Prop)
    (immediate : Word)
    (state final : State) : Prop where
  stack : final.get rsp = state.get rsp + 8 + immediate
  registers : ∀ register, mapReg register ≠ rsp →
    final.get (mapReg register) = state.get (mapReg register)
  memory : ∀ pointer, guest pointer → final.mem pointer = state.mem pointer
  flagInfo : ∀ pointer,
    Within (state.get contextAddress + FlagInfo.flagInfoOffset.setWidth 64)
        0x48 pointer →
      final.mem pointer = state.mem pointer

section

variable
  {runtime : Runtime}
  {kept translated guest : Word → Prop}
  {code : Word → Word}
  {state ready left : State}
  {immediate : Word}

theorem guest_temporaries :
    ∀ register, mapReg register ≠ .t3 ∧ mapReg register ≠ .ra := by
  decide

theorem guest_others :
    ∀ register, mapReg register ≠ rsp →
      mapReg register ∉
        [addressDestination, .t0, .t1, .t2, rsp, returnStack] := by
  decide

/-- The registers in front of a jump are those that were prepared. -/
theorem Prepared.returned
    (isPrepared : Prepared immediate state ready)
    {final : State}
    (registers : ∀ register, final.get (mapReg register) =
      ready.get (mapReg register))
    (memory : ∀ pointer, guest pointer →
      final.mem pointer = ready.mem pointer)
    (flagInfo : ∀ pointer,
      Within (state.get contextAddress + FlagInfo.flagInfoOffset.setWidth 64)
          0x48 pointer →
        final.mem pointer = ready.mem pointer) :
    Returned guest immediate state final := by
  rw [isPrepared.memory] at memory flagInfo
  refine ⟨?_, ?_, memory, flagInfo⟩
  · exact (registers 4).trans isPrepared.stack
  · intro register notStack
    rw [registers, isPrepared.others _ (guest_others register notStack)]

/-- A routine that was entered with what was prepared leaves it to the guest. -/
theorem Situation.resumed
    (situation : Situation runtime kept translated guest code state)
    (isPrepared : Prepared immediate state ready)
    (registers : ∀ register, register ≠ .t3 → register ≠ .ra →
      left.get register = ready.get register)
    (memory : left.mem = ready.mem)
    {same : Word → Prop}
    {result : Rerouted}
    (resumed : Resumed left same result)
    (spares : ∀ pointer,
      ¬ Within (state.get contextAddress) contextSize pointer →
        kept pointer → translated pointer →
          (∀ address, ¬ Within (tlbEntry state address) 16 pointer) →
            ¬ Within (entryOf state) 16 pointer → same pointer) :
    Returned guest immediate state result.state := by
  refine isPrepared.returned ?_ ?_ ?_
  · intro register
    obtain ⟨slot, member, equal, notTable⟩ := mapReg_slot register
    have temporaries := guest_temporaries register
    rw [← equal, resumed.registers slot member notTable, equal,
      registers _ temporaries.1 temporaries.2]
  · intro pointer inside
    have outside : ¬ Within (state.get contextAddress) contextSize pointer :=
      fun overlap => situation.guestContext pointer inside
        (Nat.lt_trans overlap (by decide))
    obtain ⟨isKept, isTranslated⟩ := situation.keepsGuest pointer inside
    rw [resumed.bytes pointer (spares pointer outside isKept isTranslated
      (situation.guestTlb pointer inside) (situation.guestEntry pointer inside)),
      memory]
  · intro pointer inside
    obtain ⟨context, outside⟩ := flagInfo_within inside
    obtain ⟨isKept, isTranslated⟩ := situation.keepsContext pointer context
    rw [resumed.bytes pointer (spares pointer outside isKept isTranslated
      (fun address overlap =>
        situation.tlbContext address pointer overlap context.1)
      (fun overlap => situation.entryContext pointer overlap context.1)),
      memory]

/-- The registers and the memory in front of a routine. -/
theorem Situation.placed
    (situation : Situation runtime kept translated guest code state)
    (s9 : left.get .s9 = state.get .s9)
    (s11 : left.get .s11 = state.get .s11)
    (address : Word) :
    Placed kept translated left address := by
  have entry : tlbEntry left address = tlbEntry state address := by
    rw [tlbEntry, tlbEntry, s9]
  refine ⟨?_, ?_, ?_⟩
  · rw [entry, s11]
    exact situation.tlbContext address
  · intro pointer inside
    rw [s11] at inside
    exact (situation.keepsContext pointer inside).1
  · intro pointer inside
    rw [s11] at inside
    exact (situation.keepsContext pointer inside).2

/-- What a hit or a translation gives is the code of the address. -/
theorem Situation.hit_riscv
    (situation : Situation runtime kept translated guest code state)
    (s9 : left.get .s9 = state.get .s9)
    (memory : left.mem = state.mem)
    {result : Rerouted}
    (hit : Hit left result) :
    result.riscv = code result.address := by
  have entry : result.entry = tlbEntry state result.address := by
    rw [hit.resumed.entry, tlbEntry, tlbEntry, s9]
  have key := hit.found.key
  rw [memory, entry] at key
  rw [hit.found.riscv, memory, entry, situation.tlb _ key]

theorem Situation.target
    (situation : Situation runtime kept translated guest code state)
    {same : Word → Prop}
    {result : Rerouted}
    (resumed : Resumed left same result)
    (riscv : result.riscv = code result.address) :
    result.target = code result.address := by
  rw [resumed.target, riscv, clear_lowest_bit (situation.codeEven _)]

/-- The way through `reroute_dynamic`. -/
theorem Situation.dynamic
    (situation : Situation runtime kept translated guest code state)
    (isPrepared : Prepared immediate state ready)
    (link : Word) :
    let left := ready.set .ra link
    let address := state.mem.load (state.get rsp) 8
    (rerouteDynamic runtime left = none ∧
      ∃ called, runtime.translate called = none ∧ called.get .a1 = address) ∨
    ∃ result, rerouteDynamic runtime left = some result ∧
      result.target = code address ∧
        Returned guest immediate state result.state := by
  intro left address
  have kept : ∀ register, register ≠ .t3 → register ≠ .ra →
      left.get register = ready.get register :=
    fun register _ notRa => State.set_get_of_ne _ _ notRa
  have s9 : left.get .s9 = state.get .s9 := by
    rw [kept _ (by decide) (by decide), isPrepared.others _ (by decide)]
  have s11 : left.get .s11 = state.get .s11 := by
    rw [kept _ (by decide) (by decide), isPrepared.others _ (by decide)]
  have t3 : left.get .t3 = address := by
    rw [State.set_get_of_ne _ _ (by decide)]
    exact isPrepared.address
  have placed := situation.placed s9 s11 (left.get .t3)
  cases ran : rerouteDynamic runtime left with
  | none =>
      obtain ⟨called, fails, argument⟩ := rerouteDynamic_none
        situation.follows.reroutes placed.kept situation.logs ran
      exact .inl ⟨rfl, called, fails, by rw [argument, t3]⟩
  | some result =>
      refine .inr ⟨result, rfl, ?_⟩
      obtain ⟨isAddress, hit | ⟨called, returned, miss, -⟩⟩ :=
        rerouteDynamic_spec situation.follows placed ran
      · rw [← t3, ← isAddress]
        refine ⟨situation.target hit.resumed
          (situation.hit_riscv s9 isPrepared.memory hit), ?_⟩
        apply situation.resumed isPrepared kept rfl hit.resumed
        intro pointer outside _ _ _ _
        rwa [s11]
      · rw [← t3, ← isAddress]
        refine ⟨situation.target miss.resumed ?_, ?_⟩
        · rw [miss.missed.riscv, situation.translates miss.missed.translate,
            miss.missed.argument trivial]
        · apply situation.resumed isPrepared kept rfl miss.resumed
          intro pointer outside isKept isTranslated notTlb _
          rw [miss.resumed.entry, tlbEntry, s9]
          refine ⟨⟨isKept, isTranslated, ?_, notTlb _⟩, rfl⟩
          rwa [s11]

/-- The way through `reroute_return`. -/
theorem Situation.return
    (situation : Situation runtime kept translated guest code state)
    (isPrepared : Prepared immediate state ready)
    (link : Word) :
    let left := (ready.set .t3 0).set .ra link
    let address := state.mem.load (entryOf state) 8
    (rerouteReturn runtime left = none ∧
      ∃ called, runtime.translate called = none ∧ called.get .a1 = address) ∨
    ∃ result, rerouteReturn runtime left = some result ∧
      result.target = code address ∧
        Returned guest immediate state result.state := by
  intro left address
  have others : ∀ register, register ≠ .t3 → register ≠ .ra →
      left.get register = ready.get register := by
    intro register notT3 notRa
    rw [State.set_get_of_ne _ _ notRa, State.set_get_of_ne _ _ notT3]
  have s9 : left.get .s9 = state.get .s9 := by
    rw [others _ (by decide) (by decide), isPrepared.others _ (by decide)]
  have s11 : left.get .s11 = state.get .s11 := by
    rw [others _ (by decide) (by decide), isPrepared.others _ (by decide)]
  have t1 : left.get .t1 = entryOf state := by
    rw [others _ (by decide) (by decide), isPrepared.entry]
  have guestAddress : left.mem.load (left.get .t1) 8 = address := by
    rw [t1, show left.mem = state.mem from isPrepared.memory]
  have placed := situation.placed s9 s11 (left.mem.load (left.get .t1) 8)
  have apart : Apart (left.get .t1) 16 (left.get .s11)
      ExecutionContext.size := by
    rw [t1, s11]
    exact situation.entryContext
  have logger : ∀ pointer, Within (left.get .t1) 8 pointer → kept pointer := by
    rw [t1]
    exact situation.keepsEntry
  cases ran : rerouteReturn runtime left with
  | none =>
      obtain ⟨called, fails, argument⟩ := rerouteReturn_none apart
        situation.follows.reroutes placed.kept logger situation.logs ran
      exact .inl ⟨rfl, called, fails, by rw [argument, guestAddress]⟩
  | some result =>
      refine .inr ⟨result, rfl, ?_⟩
      obtain ⟨isAddress, hit | ⟨called, returned, miss, s2⟩⟩ :=
        rerouteReturn_spec apart situation.follows.reroutes
          situation.follows.translate placed ran
      · rw [← guestAddress, ← isAddress]
        refine ⟨situation.target hit.resumed
          (situation.hit_riscv s9 isPrepared.memory hit), ?_⟩
        apply situation.resumed isPrepared others rfl hit.resumed
        intro pointer outside _ _ _ _
        rwa [s11]
      · rw [← guestAddress, ← isAddress]
        refine ⟨situation.target miss.resumed ?_, ?_⟩
        · rw [miss.missed.riscv, situation.translates miss.missed.translate,
            miss.missed.argument logger]
        · apply situation.resumed isPrepared others rfl miss.resumed
          intro pointer outside isKept isTranslated notTlb notEntry
          rw [miss.resumed.entry, tlbEntry, s9]
          refine ⟨⟨isKept, isTranslated, ?_, notTlb _⟩, ?_⟩
          · rwa [s11]
          · rw [cacheEntry_spec, State.set_mem, State.store_mem, s2, t1]
            apply store_of_not_within
            exact fun inside => notEntry (within_high inside)

/-- The way to the code address in the entry. -/
theorem Situation.cached
    (situation : Situation runtime kept translated guest code state)
    (isPrepared : Prepared immediate state ready)
    {riscv : Word}
    (link : Word)
    (loaded : ready.mem.load (ready.get .t1 + 8) 8 = riscv)
    (nonzero : riscv ≠ 0) :
    let left := (ready.set .t3 riscv).set .zero link
    let address := state.mem.load (entryOf state) 8
    enter runtime (riscv &&& ~~~(1 : Word)) left = some (code address, left) ∧
      Returned guest immediate state left := by
  intro left address
  rw [isPrepared.entry, isPrepared.memory] at loaded
  have isCode : riscv = code address := by
    rcases situation.entry with zero | cached
    · exact absurd (loaded.symm.trans zero) nonzero
    · exact loaded.symm.trans cached
  have others : ∀ register, register ≠ .t3 →
      left.get register = ready.get register := by
    intro register notT3
    rw [State.set_zero_get, State.set_get_of_ne _ _ notT3]
  have target : riscv &&& ~~~(1 : Word) = code address := by
    rw [isCode, clear_lowest_bit (situation.codeEven _)]
  have table : ∀ entry, tableTarget left entry = tableTarget state entry := by
    intro entry
    rw [tableTarget, tableTarget, jumpTarget, jumpTarget,
      others _ (by decide), isPrepared.others _ (by decide)]
  refine ⟨?_, isPrepared.returned ?_ (fun _ _ => rfl) (fun _ _ => rfl)⟩
  · rw [enter, target, table, table,
      if_neg (situation.codeOutside _ _ (by decide)),
      if_neg (situation.codeOutside _ _ (by decide))]
  · intro register
    exact others _ (guest_temporaries register).1

/-- A return goes to the code of the address on the stack of the guest, or
fails like the translation of this address, and the guest sees nothing but the
new stack pointer. -/
theorem generate_returns
    {env : Environment}
    (situation : Situation runtime kept translated guest code state)
    (permits : env.PermitsEverything)
    (noCall : env.call = fun _ _ => none)
    (immediate : Word) :
    ∃ target left, env.Exits (generate immediate) state (.left target left) ∧
      ((enter runtime target left = none ∧
          ∃ called, runtime.translate called = none ∧
            called.get .a1 = state.mem.load (state.get rsp) 8) ∨
        ∃ final, enter runtime target left =
            some (code (state.mem.load (state.get rsp) 8), final) ∧
          Returned guest immediate state final) := by
  obtain ⟨ready, target, left, isPrepared, exits, way⟩ :=
    exits_generate permits noCall immediate
  refine ⟨target, left, exits, ?_⟩
  have jumpTable : ∀ (other : State) entry,
      other.get jumpTableAddress = ready.get jumpTableAddress →
        tableTarget ready entry = tableTarget other entry := by
    intro other entry same
    rw [tableTarget, tableTarget, jumpTarget, jumpTarget, same]
  cases way with
  | dynamic link different =>
      have entered : enter runtime (tableTarget ready .rerouteDynamic)
          (ready.set .ra link) = (rerouteDynamic runtime
            (ready.set .ra link)).map fun result =>
              (result.target, result.state) := by
        rw [enter, if_pos (jumpTable _ _ (State.set_get_of_ne _ _ (by decide)))]
      rw [entered]
      rcases situation.dynamic isPrepared link with
        ⟨ran, fails⟩ | ⟨result, ran, isCode, returned⟩
      · exact .inl ⟨by rw [ran]; rfl, fails⟩
      · exact .inr ⟨result.state, by rw [ran, ← isCode]; rfl, returned⟩
  | cached link same loaded nonzero =>
      have address : state.mem.load (entryOf state) 8 =
          state.mem.load (state.get rsp) 8 := by
        rw [← isPrepared.guest, ← same]
        exact isPrepared.address
      rw [← address]
      exact .inr ⟨_, situation.cached isPrepared link loaded nonzero⟩
  | «return» link same zero =>
      have address : state.mem.load (entryOf state) 8 =
          state.mem.load (state.get rsp) 8 := by
        rw [← isPrepared.guest, ← same]
        exact isPrepared.address
      have entered : enter runtime (tableTarget ready .rerouteReturn)
          ((ready.set .t3 0).set .ra link) = (rerouteReturn runtime
            ((ready.set .t3 0).set .ra link)).map fun result =>
              (result.target, result.state) := by
        have sameTable : ((ready.set .t3 0).set .ra link).get
            jumpTableAddress = ready.get jumpTableAddress := by
          rw [State.set_get_of_ne _ _ (by decide),
            State.set_get_of_ne _ _ (by decide)]
        rw [jumpTable _ _ sameTable, enter, if_neg (tableTarget_ne _),
          if_pos rfl]
      rw [entered, ← address]
      rcases situation.return isPrepared link with
        ⟨ran, fails⟩ | ⟨result, ran, isCode, returned⟩
      · exact .inl ⟨by rw [ran]; rfl, fails⟩
      · exact .inr ⟨result.state, by rw [ran, ← isCode]; rfl, returned⟩

end

/-! ## A return to another address than the one that was called from -/

/-- Nothing is forbidden and nothing returns. -/
def leaving : Environment where
  origin := 0
  aligned := by decide
  call _ _ := none
  permits _ _ := true

/-- The guest returns to 0x40 with an empty call table.  The buffer has the code
of the address zero. -/
def unbalanced : State where
  regs
    | .sp => 0x50000
    | .s1 => 0x40000
    | .s8 => 0x30000
    | .s9 => 0x20000
    | .s10 => 0x60000
    | .s11 => 0x10000
    | _ => 0
  mem := (Memory.store (fun _ => 0) 0x20008 8 0x5000).store 0x50000 8 0x40

theorem unbalanced_entry (address : Word) :
    (tlbEntry unbalanced address).toNat % 16 = 0 ∧
      0x20000 ≤ (tlbEntry unbalanced address).toNat ∧
        (tlbEntry unbalanced address).toNat + 16 ≤ 0x20800 := by
  obtain ⟨aligned, bound⟩ := hash_toNat address
  have s9 : unbalanced.get .s9 = 0x20000 := rfl
  have base : (0x20000 : Word).toNat = 0x20000 := rfl
  have entry : (tlbEntry unbalanced address).toNat =
      (Dispatcher.hash address).toNat + 0x20000 := by
    rw [tlbEntry, s9, BitVec.toNat_add, base]
    omega
  omega

theorem unbalanced_tlb (address : Word) :
    unbalanced.mem.load (tlbEntry unbalanced address) 8 = 0 := by
  obtain ⟨aligned, low, high⟩ := unbalanced_entry address
  have first : (0x20008 : Word).toNat = 0x20008 := rfl
  have second : (0x50000 : Word).toNat = 0x50000 := rfl
  have memory : unbalanced.mem =
      (Memory.store (fun _ => 0) 0x20008 8 0x5000).store 0x50000 8 0x40 := rfl
  rw [memory, Memory.load_store_of_apart, Memory.load_store_of_apart,
    Memory.load_zero]
  all_goals
    rw [BitVec.toNat_sub]
    omega

theorem situation_unbalanced :
    Situation CallTable.steady (fun _ => True) (fun _ => True)
      (Within 0x70000 0x1000) (fun _ => 0x5000) unbalanced where
  follows := CallTable.steady_follows
  logs _ := Option.some_ne_none _
  translates := by
    rintro called returned ⟨⟩
    rfl
  codeEven _ := by decide
  codeOutside _ := by decide +kernel
  tlb address found := by
    rw [unbalanced_tlb] at found
    subst found
    decide +kernel
  entry := by decide +kernel
  keepsContext _ _ := ⟨trivial, trivial⟩
  keepsEntry _ _ := trivial
  keepsGuest _ _ := ⟨trivial, trivial⟩
  tlbContext address := by
    obtain ⟨-, low, high⟩ := unbalanced_entry address
    have context : (unbalanced.get contextAddress).toNat = 0x10000 := rfl
    have size : ExecutionContext.size = 0x278 := rfl
    apply apart_of_sub <;>
      rw [BitVec.toNat_sub, context] <;> omega
  entryContext := apart_of_sub (by decide +kernel) (by decide +kernel)
  guestContext := apart_of_sub (by decide +kernel) (by decide +kernel)
  guestTlb pointer inside address overlap := by
    obtain ⟨-, low, high⟩ := unbalanced_entry address
    have guest : (0x70000 : Word).toNat = 0x70000 := rfl
    have apart : Apart (tlbEntry unbalanced address) 16 0x70000 0x1000 := by
      apply apart_of_sub <;> rw [BitVec.toNat_sub, guest] <;> omega
    exact apart pointer overlap inside
  guestEntry := apart_of_sub (by decide +kernel) (by decide +kernel)

/-- The return goes to 0x40 by a translation. -/
theorem generate_returns_unbalanced :
    ∃ target left, leaving.Exits (generate 0) unbalanced (.left target left) ∧
      ∃ final, enter CallTable.steady target left = some (0x5000, final) ∧
        Returned (Within 0x70000 0x1000) 0 unbalanced final := by
  have permits : leaving.PermitsEverything := fun _ _ => rfl
  have noCall : leaving.call = fun _ _ => none := rfl
  obtain ⟨target, left, exits, ⟨-, called, fails, -⟩ | returned⟩ :=
    generate_returns situation_unbalanced permits noCall 0
  · cases fails
  · exact ⟨target, left, exits, returned⟩

end Ret
end Oxtra
