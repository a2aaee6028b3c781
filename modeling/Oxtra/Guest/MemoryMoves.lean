import Oxtra.Guest.Moves

/-!
# Moves between the registers and the memory of the guest

Loads and stores of the guest are done in place.  Their code makes the address
of its operand, which is the one of the machine if the operand has addresses of
eight bytes and no register of it is overwritten too early.
-/

namespace Oxtra
namespace Guest

open RiscV
open Encoding
open Helper
open FlagInfo
open Instruction
open TwosComplement
open Fadec (Operand OperandSize)

variable {layout : Layout} {known : Flag -> Prop} {machine after : Machine}
variable {inst : Instruction} {state final : State}
variable {runtime : JumpTable.Runtime} {env : Environment}

/-! ## Loads -/

/-- The address of an operand has eight bytes, and a register that is written
in front of a large displacement is not a part of it. -/
structure AddressMade
    (inst : Instruction)
    (op : Operand)
    (dest : Register) : Prop where
  wide : inst.addressSizeQword = true
  kept : inst.smallDisplacement = false -> ¬ inst.Clobbers op dest

theorem AddressMade.loadedAddress
    {op : Operand}
    {dest : Register}
    (made : AddressMade inst op dest)
    (represents : Represents layout known machine state) :
    inst.loadedAddress op dest state = machine.address inst op := by
  rw [← represents.guestAddress]
  refine (inst.loadedAddress_eq_iff op dest state).mpr ⟨?_, ?_⟩
  · intro _ short
    rw [made.wide] at short
    cases short
  · intro large clobbers
    exact absurd clobbers (made.kept large)

/-- A load into a register, with code behind it that keeps the loaded word. -/
theorem load_follows
    (represents : Represents layout known machine state)
    (permits : env.PermitsEverything)
    (noUpdate : ∀ flag, flag ∉ inst.updateFlags)
    {size : OperandSize}
    {number : Fadec.Register}
    {op : Operand}
    (made : AddressMade inst op (mapReg number))
    {temp : Register}
    (isTemp : temp = .t0 ∨ temp = .t1)
    {signed : Bool}
    {rest : List Inst}
    (computes : ComputesInto [mapReg number] rest)
    {word : Word}
    (loaded : (operandLoad op.size signed).eval state.mem
      (machine.address inst op) = word)
    (keeps : ∀ pc between, State.get between (mapReg number) = word ->
      (applyAll pc between rest).get (mapReg number) = word)
    (fills : ∀ old, (RegisterAccess.ofSize size).merge old word = word)
    (write : machine.write layout.mapped inst (.reg size number .gpl) word =
      some after) :
    ∃ final, (JumpTable.dispatch runtime env).Exits
        ((inst.readFromMemory op (mapReg number) temp signed).1 ++ rest) state
        (.ended final) ∧
      Follows layout inst after state final := by
  have guest := isGuest_mapReg number
  have destScratch : Scratch (mapReg number) :=
    ⟨ne_of_isGuest guest (by decide), ne_of_isGuest guest (by decide)⟩
  have reserved : isGuest temp = false := by
    rcases isTemp with rfl | rfl <;> rfl
  have tempScratch : Scratch temp := by
    rcases isTemp with rfl | rfl <;> decide
  have tempInside : temp ∈ temporaries := by
    rcases isTemp with rfl | rfl <;> decide
  have reached := @readBase_loadedAddress inst op (mapReg number) temp
    destScratch tempScratch reserved (ne_of_isGuest guest reserved).symm
    env.origin state
  rw [made.loadedAddress represents] at reached
  have applied := inst.readFromMemory_apply env.origin state reached signed
  rw [loaded] at applied
  have straight : ∀ written ∈
      (inst.readFromMemory op (mapReg number) temp signed).1 ++ rest,
        written.isStraight = true := by
    intro written member
    rcases List.mem_append.mp member with read | further
    · exact inst.readFromMemory_straight _ temp signed written read
    · exact computes.straight written further
  have dispatched : (JumpTable.dispatch runtime env).PermitsEverything :=
    permits
  refine ⟨applyAll env.origin state _,
    Environment.exits_straight straight (dispatched.permitsAll _ _),
    follows_of_register represents noUpdate (Unchanged.of_mem ?_ ?_) ?_ write⟩
  · intro register free
    have notDest : register ≠ mapReg number := by
      rintro rfl
      exact free List.mem_cons_self
    have notTemp : register ≠ temp := by
      rintro rfl
      exact free (List.mem_cons_of_mem _ tempInside)
    rw [applyAll_append, computes.get _ _ (by simpa using notDest), applied,
      State.set_get_of_ne _ _ notDest,
      inst.readBase_get _ _ _ _ notDest notTemp]
  · rw [applyAll_append, computes.mem, applied, State.set_mem,
      inst.readBase_mem]
  · refine Eq.trans ?_ (fills _).symm
    rw [applyAll_append, applied]
    exact keeps _ _ (State.set_get_self _ _ destScratch.1)

/-! ## Stores -/

section Store

variable {address value : Word} {bytes : Nat}
variable (covered : layout.mapped.covers address bytes = true)

include covered

/-- A store of the guest keeps what is not mapped. -/
theorem store_unmapped
    (mem : Memory)
    {pointer : Word}
    (unmapped : layout.mapped pointer = false) :
    mem.store address bytes value pointer = mem pointer := by
  apply Memory.store_of_outside
  by_contra inside
  have mapped := AddressSpace.covers_iff.mp covered (pointer - address).toNat
    (by omega)
  rw [BitVec.ofNat_toNat, BitVec.setWidth_eq, add_sub_cancel, unmapped]
    at mapped
  cases mapped

/-- A store of the guest keeps the lazy information. -/
theorem store_fields
    (context : state.get contextAddress = layout.context)
    (sameContext : final.get contextAddress = state.get contextAddress)
    (memory : final.mem = state.mem.store address bytes value) :
    fields final = fields state := by
  funext field
  obtain ⟨-, high⟩ := field.offset_lt
  have place : field.address final = field.address state := by
    rw [Field.address, Field.address, sameContext]
  change field.read final = field.read state
  rw [Field.read, Field.read, place, memory]
  apply Memory.load_congr
  intro index inside
  apply store_unmapped covered
  by_contra mapped
  have behind := layout.apart _ (by simpa using mapped)
  have short := field.bytes_le
  rw [Field.limit] at high
  rw [Field.address, context, add_assoc, add_sub_cancel_left,
    BitVec.toNat_add, BitVec.toNat_setWidth, BitVec.toNat_ofNat,
    ExecutionContext.size] at behind
  omega

/-- A word is stored in the memory of the guest, and some registers of the
guest are changed. -/
theorem follows_of_store
    (represents : Represents layout known machine state)
    (noUpdate : ∀ flag, flag ∉ inst.updateFlags)
    (registers : ∀ reg, final.get (mapReg reg) = after.registers reg)
    (others : ∀ register, isGuest register = false ->
      register ∉ temporaries -> final.get register = state.get register)
    (memory : final.mem = state.mem.store address bytes value)
    (stored : after.memory = machine.memory.store address bytes value) :
    Follows layout inst after state final := by
  have sameFields := store_fields covered represents.context
    (others _ (by decide) (by decide)) memory
  refine ⟨registers, fun pointer mapped => ?_,
    fun flag member => absurd member (noUpdate flag),
    fun field _ => congrFun sameFields field, others,
    fun pointer unmapped _ _ => ?_⟩
  · rw [memory, stored]
    simp only [Memory.store, represents.memory pointer mapped]
  · rw [memory, store_unmapped covered _ unmapped]

end Store

/-! ## Moves from the memory -/

/-- A move from the memory to a register of four or eight bytes, which the
loaded word fills. -/
structure LoadForm
    (inst : Instruction)
    (size sourceSize : OperandSize)
    (number : Fadec.Register)
    (base : Option Fadec.Register)
    (signed : Bool) : Prop where
  first : inst.getOperand 0 = .reg size number .gpl
  second : inst.getOperand 1 = .mem sourceSize base
  moves : inst.MovesInto sourceSize size signed
  short : inst.instructionClass ≠ .mov -> sourceSize ≠ .qword
  whole : size = .qword ∨ size = .dword ∧ signed = false
  made : AddressMade inst (.mem sourceSize base) (mapReg number)

section Load

variable {size sourceSize : OperandSize} {number : Fadec.Register}
variable {base : Option Fadec.Register} {signed : Bool}

/-- The low bits of a word are written to a register. -/
theorem write_register_congr
    {value other : Word}
    (same : value.setWidth size.bits = other.setWidth size.bits) :
    machine.write layout.mapped inst (.reg size number .gpl) value =
      machine.write layout.mapped inst (.reg size number .gpl) other := by
  have bits : (RegisterAccess.ofType size .gpl).bits = size.bits :=
    ofSize_bits size
  exact congrArg (fun word => some (machine.setRegister _ word))
    (RegisterAccess.merge_congr _ _ (by rw [bits]; exact same))

theorem LoadForm.notLong
    (form : LoadForm inst size sourceSize number base signed)
    (half : size = .dword) : sourceSize ≠ .qword := by
  rcases form.moves with ⟨-, same, -⟩ | ⟨kind, -⟩ | ⟨kind, -⟩
  · rw [same, half]
    decide
  · exact form.short (by simp [kind])
  · exact form.short (by simp [kind])

/-- The loaded word fills the register. -/
theorem LoadForm.fills
    (form : LoadForm inst size sourceSize number base signed)
    (bits : BitVec sourceSize.bits)
    (old : Word) :
    (RegisterAccess.ofSize size).merge old (extend signed bits 64) =
      extend signed bits 64 := by
  rcases form.whole with rfl | ⟨half, unsigned⟩
  · rfl
  · exact merge_extend (form.notLong half) (Or.inr ⟨half, unsigned⟩) bits old

/-- What a move from the memory does to the machine. -/
theorem LoadForm.performs
    (form : LoadForm inst size sourceSize number base signed)
    (performs : perform layout.mapped inst machine = some after) :
    ∃ value, machine.load layout.mapped
          (machine.address inst (.mem sourceSize base)) sourceSize.bytes =
        some value ∧
      machine.write layout.mapped inst (.reg size number .gpl)
        (extend signed (value.setWidth sourceSize.bits) 64) = some after := by
  have low : sourceSize.bits ≤ 64 := by cases sourceSize <;> decide
  rcases form.moves with ⟨kind, rfl, rfl⟩ | ⟨kind, rfl⟩ | ⟨kind, rfl⟩ <;>
    simp only [perform, kind, form.first, form.second, Option.bind_eq_bind,
      Option.bind_eq_some_iff] at performs <;>
    obtain ⟨value, read, write⟩ := performs
  · refine ⟨value, read, ?_⟩
    rw [write_register_congr (setWidth_extend _ _ low)]
    exact write
  · rw [form.second] at write
    exact ⟨value, read, write⟩
  · rw [form.second] at write
    exact ⟨value, read, write⟩

/-- The code of a move from the memory, with what is behind the load. -/
theorem LoadForm.generate
    (form : LoadForm inst size sourceSize number base signed)
    (symbols : HostSymbols)
    (entries : Nat) :
    ∃ temp rest, (temp = .t0 ∨ temp = .t1) ∧
      inst.generate symbols entries =
        some ((inst.readFromMemory (.mem sourceSize base) (mapReg number) temp
          signed).1 ++ rest) ∧
      (rest = [] ∨ sourceSize = .dword ∧ signed = false ∧
        rest = [slli (mapReg number) (mapReg number) 32,
          srli (mapReg number) (mapReg number) 32]) := by
  have first : inst.firstRegister = mapReg number := by
    rw [firstRegister, form.first]
  rcases form.moves with ⟨kind, rfl, rfl⟩ | ⟨kind, rfl⟩ | ⟨kind, rfl⟩
  · rcases form.whole with rfl | ⟨rfl, -⟩
    · refine ⟨.t1, [], Or.inr rfl, ?_, Or.inl rfl⟩
      simp [Instruction.generate, kind, Mov.generate, form.first, form.second,
        translateOperand]
    · refine ⟨.t1, _, Or.inr rfl, ?_, Or.inr ⟨rfl, rfl, rfl⟩⟩
      simp [Instruction.generate, kind, Mov.generate, form.first, form.second,
        translateOperand, Operand.isImm]
  · refine ⟨.t0, [], Or.inl rfl, ?_, Or.inl rfl⟩
    simp [Instruction.generate, kind, Movzx.generate, form.second, first]
  · refine ⟨.t0, [], Or.inl rfl, ?_, Or.inl rfl⟩
    simp [Instruction.generate, kind, Movsx.generate, form.second, first]

theorem load_move_follows
    (form : LoadForm inst size sourceSize number base signed)
    (noUpdate : ∀ flag, flag ∉ inst.updateFlags)
    (represents : Represents layout known machine state)
    (performs : perform layout.mapped inst machine = some after)
    (permits : env.PermitsEverything)
    (symbols : HostSymbols)
    (entries : Nat) :
    ∃ code final, inst.generate symbols entries = some code ∧
      (JumpTable.dispatch runtime env).Exits code state (.ended final) ∧
      Follows layout inst after state final := by
  obtain ⟨value, read, write⟩ := form.performs performs
  obtain ⟨temp, rest, isTemp, generated, further⟩ :=
    form.generate symbols entries
  have nonzero : mapReg number ≠ .zero :=
    ne_of_isGuest (isGuest_mapReg number) (by decide)
  have computes : ComputesInto [mapReg number] rest := by
    rcases further with rfl | ⟨-, -, rfl⟩
    · exact ComputesInto.nil
    · exact ComputesInto.cons_iff.mpr
        ⟨Inst.computesInto_of_target rfl rfl (by simp),
          ComputesInto.singleton rfl rfl (by simp)⟩
  have loaded := operandLoad_eval sourceSize signed state.mem
    (machine.address inst (.mem sourceSize base))
  rw [represents.load read] at loaded
  obtain ⟨final, exits, follows⟩ := @load_follows layout known machine after
    inst state runtime env represents permits noUpdate size number
    (.mem sourceSize base) form.made temp isTemp signed rest computes _ loaded
    (fun pc between held => by
      rcases further with rfl | ⟨half, unsigned, rfl⟩
      · exact held
      · subst half unsigned
        simp only [applyAll_cons, applyAll_nil, apply_slli, apply_srli,
          State.set_get_self _ _ nonzero, truncate_eq, held]
        exact @merge_extend .dword _ _ (by decide) (Or.inr ⟨rfl, rfl⟩) _ 0)
    (form.fills _) write
  exact ⟨_, final, generated, exits, follows⟩

end Load

/-! ## Moves to the memory -/

/-- A move of a register or an immediate to the memory. -/
structure StoreForm
    (inst : Instruction)
    (size : OperandSize)
    (base : Option Fadec.Register) : Prop where
  kind : inst.instructionClass = .mov
  first : inst.getOperand 0 = .mem size base
  source : (inst.getOperand 1).isReg = true ∨ (inst.getOperand 1).isImm = true
  valid : (inst.getOperand 1).valid = true
  sameSize : (inst.getOperand 1).size = size
  wide : inst.addressSizeQword = true

section StoreMove

variable {size : OperandSize} {base : Option Fadec.Register}

theorem StoreForm.accessed
    (wide : inst.addressSizeQword = true)
    (represents : Represents layout known machine state)
    (op : Operand) :
    inst.accessedAddress op state + inst.segmentBase state =
      machine.address inst op := by
  rw [← represents.guestAddress, Instruction.guestAddress]
  congr 1
  refine (inst.accessedAddress_eq_iff op state).mpr fun _ short => ?_
  rw [wide] at short
  cases short

/-- The code of a store with the value in a register. -/
theorem store_follows
    (represents : Represents layout known machine state)
    (permits : env.PermitsEverything)
    (noUpdate : ∀ flag, flag ∉ inst.updateFlags)
    {op : Operand}
    (wide : inst.addressSizeQword = true)
    {loading : List Inst}
    (loads : ComputesInto [.t0] loading)
    {source : Register}
    (notTemps : source ≠ .t1 ∧ source ≠ .t2)
    {value : Word}
    (loaded : ((applyAll env.origin state loading).get source).setWidth
      op.size.bits = value.setWidth op.size.bits)
    (store : machine.store layout.mapped (machine.address inst op)
      op.size.bytes value = some after) :
    ∃ final, (JumpTable.dispatch runtime env).Exits
        (loading ++ inst.writeToMemory op source .t1 .t2 .zero) state
        (.ended final) ∧
      Follows layout inst after state final := by
  have dispatched : (JumpTable.dispatch runtime env).PermitsEverything :=
    permits
  have straight : ∀ written ∈
      loading ++ inst.writeToMemory op source .t1 .t2 .zero,
        written.isStraight = true := by
    intro written member
    rcases List.mem_append.mp member with load | write
    · exact loads.straight written load
    · exact inst.writeToMemory_straight source .t1 .t2 .zero written write
  let pc := env.origin + BitVec.ofNat 64 (4 * loading.length)
  let prepared := applyAll env.origin state loading
  let addressed := applyAll pc prepared (inst.writeBase op .t1 .t2 .zero).1
  have still := represents.computed loads (by decide) env.origin
  have scratch : Scratch .t1 ∧ Scratch .t2 := by
    decide
  have reached := inst.address_add prepared (inst.writeBase_value pc prepared
    scratch.1 scratch.2 (by decide)
    (fun base _ => ne_of_isGuest (isGuest_mapReg base) (by decide))
    (fun _ => inst.not_clobbers_of_reserved op (by decide)))
  rw [StoreForm.accessed wide still] at reached
  have applied : applyAll env.origin state
      (loading ++ inst.writeToMemory op source .t1 .t2 .zero) =
        addressed.store (machine.address inst op) op.size.bytes
          (addressed.get source) := by
    rw [applyAll_append]
    exact inst.writeToMemory_apply pc prepared reached
  have kept : ∀ register, register ≠ .t0 -> register ≠ .t1 ->
      register ≠ .t2 -> addressed.get register = state.get register := by
    intro register notSource notA notB
    exact (inst.writeBase_get _ _ _ _ _ notA notB).trans
      (loads.get _ _ (by simpa using notSource))
  have memory : addressed.mem = state.mem :=
    (inst.writeBase_mem _ _ _ _ _).trans (loads.mem _ _)
  have word : addressed.get source = prepared.get source :=
    inst.writeBase_get _ _ _ _ _ notTemps.1 notTemps.2
  unfold Machine.store at store
  split at store
  · rename_i covered
    obtain rfl := Option.some.inj store
    refine ⟨_, Environment.exits_straight straight (dispatched.permitsAll _ _),
      ?_⟩
    change Follows layout inst _ state (applyAll env.origin state _)
    rw [applied]
    refine follows_of_store covered represents noUpdate (fun reg => ?_)
      (fun register reserved free => ?_) ?_ rfl
    · have guest := isGuest_mapReg reg
      rw [State.store_get, kept _ (ne_of_isGuest guest (by decide))
        (ne_of_isGuest guest (by decide)) (ne_of_isGuest guest (by decide))]
      exact represents.registers reg
    · rw [State.store_get]
      apply kept <;> rintro rfl <;> exact free (by decide)
    · rw [State.store_mem, memory, word]
      exact Memory.store_congr _ _ loaded
  · cases store

theorem store_move_follows
    (form : StoreForm inst size base)
    (noUpdate : ∀ flag, flag ∉ inst.updateFlags)
    (represents : Represents layout known machine state)
    (performs : perform layout.mapped inst machine = some after)
    (permits : env.PermitsEverything) :
    ∃ final, (JumpTable.dispatch runtime env).Exits (Mov.generate inst) state
        (.ended final) ∧
      Follows layout inst after state final := by
  simp only [perform, form.kind, form.first, Option.bind_eq_bind,
    Option.bind_eq_some_iff] at performs
  obtain ⟨value, read, write⟩ := performs
  let source := inst.translateOperand (inst.getOperand 1) .t0 .t2 false false
    false false
  have code : Mov.generate inst =
      source.code ++ inst.writeToMemory (.mem size base) source.value .t1 .t2
        .zero := by
    simp only [Mov.generate, form.first, translateDestination, source]
  have notMem : (inst.getOperand 1).isMem = false := by
    rcases form.source with isReg | isImm
    · obtain ⟨_, _, _, second⟩ := Operand.exists_reg isReg
      rw [second]
      rfl
    · cases second : inst.getOperand 1 <;> rw [second] at isImm <;>
        first | rfl | cases isImm
  have register := inst.translateOperand_register form.source .t0 .t2 false
    false false false
  have notTemps : source.value ≠ .t1 ∧ source.value ≠ .t2 := by
    rcases register with temporary | guest
    · rw [show source.value = .t0 from temporary]
      decide
    · exact ⟨ne_of_isGuest guest (by decide), ne_of_isGuest guest (by decide)⟩
  have loaded := inst.translateOperand_value env.origin state form.source
    form.valid (by decide : Register.t0 ≠ .zero) .t2 false false
  rw [represents.operandBits read, form.sameSize] at loaded
  rw [code]
  exact store_follows represents permits noUpdate form.wide
    (inst.translateOperand_computesInto notMem _ _ _ _ _ _) notTemps loaded
    write

end StoreMove

/-! ## Immediates -/

/-- A move of an immediate to a register of four or eight bytes. -/
structure ImmediateForm
    (inst : Instruction)
    (size : OperandSize)
    (number : Fadec.Register) : Prop where
  kind : inst.instructionClass = .mov
  first : inst.getOperand 0 = .reg size number .gpl
  second : inst.getOperand 1 = .imm size
  long : size = .qword ∨ size = .dword

section Immediate

variable {size : OperandSize} {number : Fadec.Register}

/-- The loaded immediate fills the register. -/
theorem ImmediateForm.merge_masked
    (form : ImmediateForm inst size number)
    (old : Word) :
    (RegisterAccess.ofType size .gpl).merge old inst.immediate =
      inst.maskedImmediate size false false := by
  rcases form.long with rfl | rfl
  · rfl
  · change ((inst.immediate).setWidth 32).setWidth 64 =
      inst.immediate &&& (BitVec.allOnes 64 >>> 32)
    apply BitVec.eq_of_getLsbD_eq
    intro index inside
    simp only [BitVec.getLsbD_setWidth, BitVec.getLsbD_and,
      BitVec.getLsbD_ushiftRight, BitVec.getLsbD_allOnes]
    have low : 32 + index < 64 ↔ index < 32 := by omega
    simp only [low, inside, decide_true, Bool.true_and, Bool.and_comm]

theorem immediate_move_follows
    (form : ImmediateForm inst size number)
    (noUpdate : ∀ flag, flag ∉ inst.updateFlags)
    (represents : Represents layout known machine state)
    (performs : perform layout.mapped inst machine = some after)
    (permits : env.PermitsEverything) :
    ∃ final, (JumpTable.dispatch runtime env).Exits (Mov.generate inst) state
        (.ended final) ∧
      Follows layout inst after state final := by
  have nonzero : mapRegType number .gpl ≠ .zero :=
    ne_of_isGuest (isGuest_mapRegType number .gpl) (by decide)
  simp only [perform, form.kind, form.first, form.second,
    Option.bind_eq_bind, Option.bind_eq_some_iff] at performs
  obtain ⟨value, read, write⟩ := performs
  obtain rfl := Option.some.inj read
  have code : Mov.generate inst =
      loadImmediate (inst.maskedImmediate size false false)
        (mapRegType number .gpl) := by
    rcases form.long with rfl | rfl <;>
      simp [Mov.generate, form.first, form.second, translateOperand,
        Operand.isImm, mapRegType]
  rw [code]
  refine computed_follows represents permits noUpdate
    (loadImmediate_computesInto _ _) (by simp) ?_ write
  rw [form.merge_masked, applyAll_loadImmediate nonzero]
  exact State.set_get_self _ _ nonzero

end Immediate

/-! ## The stack -/

section Stack

/-- A push of an operand that does not use the stack pointer. -/
structure PushForm (inst : Instruction) : Prop where
  kind : inst.instructionClass = .push
  long : inst.LongOperand (inst.getOperand 0)
  unused : ¬ inst.UsesStackPointer (inst.getOperand 0)
  wide : (inst.getOperand 0).isMem = true -> inst.addressSizeQword = true

theorem PushForm.stable
    (form : PushForm inst)
    (state : State) :
    Push.OperandStable inst state := by
  refine ⟨form.unused, fun isMem _ short => ?_⟩
  rw [form.wide isMem] at short
  cases short

/-- The code of a push keeps the registers of the host. -/
theorem push_others
    (long : inst.LongOperand (inst.getOperand 0))
    (pc : Word)
    {register : Register}
    (notStack : register ≠ rsp)
    (notA : register ≠ .t0)
    (notB : register ≠ .t1) :
    (applyAll pc state (Push.generate inst)).get register =
      state.get register := by
  rw [Push.generate_eq long, applyAll_cons, applyAll_append, sd_eq,
    applyAll_cons, apply_store, applyAll_nil, State.store_get]
  refine (translateLong_get (by decide) (by decide) (by decide) (by decide)
    (by decide) false _ _ notA notB).trans ?_
  exact State.set_get_of_ne _ _ notStack

theorem push_straight
    (long : inst.LongOperand (inst.getOperand 0)) :
    ∀ written ∈ Push.generate inst, written.isStraight = true := by
  rw [Push.generate_eq long]
  intro written member
  rcases List.mem_cons.mp member with rfl | further
  · rfl
  · rcases List.mem_append.mp further with load | store
    · exact translateLong_straight false written load
    · rw [List.mem_singleton.mp store]
      rfl

/-- The registers of the guest behind a move of the stack pointer. -/
theorem Represents.movedStack
    (represents : Represents layout known machine state)
    (amount : Word)
    (reg : Fadec.Register) :
    (Instruction.movedStack amount state).get (mapReg reg) =
      (machine.setRegister stackRegister
        (machine.registers stackRegister + amount)).registers reg := by
  have stack : rsp = mapReg stackRegister := by decide
  simp only [Machine.setRegister]
  by_cases isStack : reg = stackRegister
  · rw [isStack, Function.update_self, ← represents.registers, ← stack,
      movedStack_rsp]
  · rw [Function.update_of_ne isStack, movedStack_get, represents.registers]
    rw [stack]
    exact fun same => isStack (mapReg_injective same)

theorem push_follows
    (form : PushForm inst)
    (noUpdate : ∀ flag, flag ∉ inst.updateFlags)
    (represents : Represents layout known machine state)
    (performs : perform layout.mapped inst machine = some after)
    (permits : env.PermitsEverything) :
    ∃ final, (JumpTable.dispatch runtime env).Exits (Push.generate inst) state
        (.ended final) ∧
      Follows layout inst after state final := by
  simp only [perform, form.kind, Option.bind_eq_bind, Option.bind_eq_some_iff]
    at performs
  obtain ⟨value, read, stored, store, result⟩ := performs
  obtain rfl := Option.some.inj result
  have dispatched : (JumpTable.dispatch runtime env).PermitsEverything :=
    permits
  have straight := push_straight form.long
  have exits := Environment.exits_straight straight
    (dispatched.permitsAll state _)
  obtain ⟨visited, final, traces, -, same⟩ :=
    (Push.generate_iff form.long dispatched state).mpr (form.stable state)
  obtain rfl := exits_ended_unique traces.exits exits
  have pointer : state.get rsp = machine.registers stackRegister :=
    represents.registers stackRegister
  rw [represents.operandValue read] at same
  unfold Machine.store at store
  split at store
  · rename_i covered
    obtain rfl := Option.some.inj store
    refine ⟨_, exits, follows_of_store covered represents noUpdate
      (fun reg => ?_) (fun register reserved free => ?_) ?_ rfl⟩
    · have moved := represents.movedStack (-8) reg
      rw [← BitVec.sub_eq_add_neg] at moved
      rw [same.registers]
      exact moved
    · apply push_others form.long <;> rintro rfl
      · cases reserved
      · exact free (by decide)
      · exact free (by decide)
    · rw [same.memory, ← pointer]
      rfl
  · cases store

/-- A pop into a register but the stack pointer. -/
structure PopForm
    (inst : Instruction)
    (number : Fadec.Register) : Prop where
  kind : inst.instructionClass = .pop
  first : inst.getOperand 0 = .reg .qword number .gpl
  unused : number ≠ stackRegister

theorem pop_follows
    {number : Fadec.Register}
    (form : PopForm inst number)
    (noUpdate : ∀ flag, flag ∉ inst.updateFlags)
    (represents : Represents layout known machine state)
    (performs : perform layout.mapped inst machine = some after)
    (permits : env.PermitsEverything) :
    ∃ final, (JumpTable.dispatch runtime env).Exits (Pop.generate inst) state
        (.ended final) ∧
      Follows layout inst after state final := by
  simp only [perform, form.kind, form.first, Option.bind_eq_bind,
    Option.bind_eq_some_iff] at performs
  obtain ⟨value, load, write⟩ := performs
  obtain rfl := Option.some.inj write
  have pointer : state.get rsp = machine.registers stackRegister :=
    represents.registers stackRegister
  have notStack : mapReg number ≠ rsp := fun same =>
    form.unused (mapReg_injective same)
  have nonzero : mapReg number ≠ .zero :=
    ne_of_isGuest (isGuest_mapReg number) (by decide)
  have code : Pop.generate inst = [ld (mapReg number) rsp 0, addi rsp rsp 8] := by
    simp only [Pop.generate, form.first, Pop.popRegister]
    rfl
  have dispatched : (JumpTable.dispatch runtime env).PermitsEverything :=
    permits
  have straight : ∀ written ∈ Pop.generate inst, written.isStraight = true := by
    rw [code]
    simp only [List.forall_mem_cons]
    exact ⟨rfl, rfl, by simp⟩
  have zero : signedImm (0 : BitVec 16) = 0 := by decide
  have eight : signedImm (8 : BitVec 16) = 8 := by decide
  have word : Load.ld.eval state.mem (state.get rsp) = value := by
    rw [pointer]
    exact represents.load load
  let moved := (state.set (mapReg number) value).set rsp (state.get rsp + 8)
  have final : applyAll env.origin state (Pop.generate inst) = moved := by
    rw [code, ld_eq]
    simp only [applyAll_cons, applyAll_nil, apply_load, apply_addi, zero,
      eight, add_zero, word, State.set_get_of_ne _ _ notStack.symm, moved]
  have others : ∀ register, register ≠ mapReg number -> register ≠ rsp ->
      moved.get register = state.get register :=
    fun register notDest notPointer =>
      (State.set_get_of_ne _ _ notPointer).trans
        (State.set_get_of_ne _ _ notDest)
  have guest := isGuest_mapReg number
  have unchanged : Unchanged [mapReg number, rsp] state moved := by
    refine Unchanged.of_mem (fun register free => ?_) rfl
    simp only [List.mem_cons, List.not_mem_nil, or_false, not_or] at free
    exact others register free.1 free.2
  have context : contextAddress ∉ [mapReg number, rsp] := by
    have apart : contextAddress ≠ mapReg number :=
      (ne_of_isGuest guest (by decide)).symm
    simpa using ⟨apart, by decide⟩
  have inside : ∀ register ∈ [mapReg number, rsp],
      isGuest register = true ∨ register ∈ temporaries := by
    simp only [List.forall_mem_cons]
    exact ⟨Or.inl guest, Or.inl rfl, by simp⟩
  refine ⟨_, Environment.exits_straight straight (dispatched.permitsAll _ _),
    ?_⟩
  change Follows layout inst _ state (applyAll env.origin state _)
  rw [final]
  refine ⟨fun reg => ?_, represents.memory,
    fun flag member => absurd member (noUpdate flag),
    fun field _ => congrFun (unchanged.fields_eq context) field,
    KeepsHost.of_unchanged unchanged inside⟩
  simp only [Machine.setRegister, fullRegister]
  by_cases isDest : reg = number
  · subst isDest
    rw [Function.update_self, State.set_get_of_ne _ _ notStack,
      State.set_get_self _ _ nonzero]
    rfl
  · rw [Function.update_of_ne isDest]
    by_cases isStack : reg = stackRegister
    · subst isStack
      rw [Function.update_self, ← pointer]
      exact State.set_get_self _ _ (by decide)
    · rw [Function.update_of_ne isStack, ← represents.registers]
      exact others _ (fun same => isDest (mapReg_injective same))
        fun same => isStack (mapReg_injective same)

end Stack

end Guest
end Oxtra
