import Oxtra.Dispatcher.SavedContext

/-!
# How the routines end

What each routine leaves in the registers and in the memory, when its address
is in the buffer and when it is not.
-/

namespace Oxtra
namespace Dispatcher

open RiscV
open Encoding

/-! ## The entry of an address -/

/-- Offset of the entry of an address. -/
def hash (address : Word) : Word :=
  ((address >>> 11) ^^^ address) &&& 0x7f0

/-- The entry of an address in the buffer. -/
def tlbEntry (state : State) (address : Word) : Word :=
  hash address + state.get .s9

theorem computeTlbAddress_spec (state : State) :
    exec state computeTlbAddress =
      ((state.set .t0 (hash (state.get .t3))).set .s4
        (tlbEntry state (state.get .t3))).set .t0
          (state.mem.load (tlbEntry state (state.get .t3)) 8) := by
  simp only [exec, computeTlbAddress, applyAll_cons, applyAll_nil,
    Encoding.srli, shift, Encoding.xor, Encoding.andi, opImm, Encoding.add, ld,
    load, Inst.apply, OpImm.eval, Op.eval, Shift.eval, effectiveAddress,
    State.set_set]
  rw [State.set_get_self _ _ (by decide), State.set_get_self _ _ (by decide),
    State.set_get_self _ _ (by decide), State.set_get_self _ _ (by decide),
    State.set_get_of_ne _ _ (by decide : Register.t3 ≠ .t0),
    State.set_get_of_ne _ _ (by decide : Register.s9 ≠ .t0)]
  simp only [hash, tlbEntry]
  rw [show ((0x7f0 : BitVec 16).setWidth 12).signExtend 64 = (0x7f0 : Word) by
      decide,
    show ((0 : BitVec 16).setWidth 12).signExtend 64 = 0#64 by decide,
    show ((11 : BitVec 8).setWidth 6).toNat = 11 by decide, BitVec.add_zero]
  rfl

theorem isHit_computeTlbAddress (state : State) :
    isHit (exec state computeTlbAddress) =
      (state.mem.load (tlbEntry state (state.get .t3)) 8 ==
        state.get .t3) := by
  rw [computeTlbAddress_spec, isHit, State.set_get_self _ _ (by decide),
    State.set_get_of_ne _ _ (by decide), State.set_get_of_ne _ _ (by decide),
    State.set_get_of_ne _ _ (by decide)]

/-- The entries of the buffer are double words of 16 bytes in its 2048
bytes. -/
theorem hash_toNat (address : Word) :
    (hash address).toNat % 16 = 0 ∧ (hash address).toNat + 16 ≤ 0x800 := by
  have masked : (hash address).toNat =
      (((address >>> 11) ^^^ address).toNat &&& 0x7f0) := by
    rw [hash, BitVec.toNat_and]
    rfl
  have bound : (hash address).toNat ≤ 0x7f0 := by
    rw [masked]
    exact Nat.and_le_right
  have aligned : (hash address).toNat % 2 ^ 4 = 0 := by
    rw [masked, Nat.and_mod_two_pow]
    exact Nat.and_zero _
  omega

/-! ## Pieces of the routines -/

theorem apply_mv (pc : Word) (state : State) (rd rs : Register) :
    (mv rd rs).apply pc state = state.set rd (state.get rs) := by
  simp only [mv, addi, opImm, Inst.apply, OpImm.eval]
  rw [show ((0 : BitVec 16).setWidth 12).signExtend 64 = 0#64 by decide,
    BitVec.add_zero]

theorem apply_ld_zero (pc : Word) (state : State) (rd base : Register) :
    (ld rd base 0).apply pc state =
      state.set rd (state.mem.load (state.get base) 8) := by
  simp only [ld, load, Inst.apply, effectiveAddress]
  rw [show ((0 : BitVec 16).setWidth 12).signExtend 64 = 0#64 by decide,
    BitVec.add_zero]
  rfl

theorem loadTlbEntry_spec (state : State) :
    exec state loadTlbEntry =
      state.set .s2 (state.mem.load (state.get .s4 + 8) 8) := rfl

theorem updateTlbEntry_spec (pc : Word) (state : State) :
    applyAll pc state updateTlbEntry =
      (state.store (state.get .s4) 8 (state.get .s2)).store
        (state.get .s4 + 8) 8 (state.get .a0) := by
  simp only [updateTlbEntry, applyAll_cons, applyAll_nil, sd, Encoding.store,
    Inst.apply, effectiveAddress, State.store_get]
  rw [show ((0 : BitVec 32).setWidth 12).signExtend 64 = 0#64 by decide,
    BitVec.add_zero]
  rfl

theorem finishHit_spec (state : State) :
    finishHit state =
      ((state.set .t3 (state.get .s2)).set .s2
        (state.mem.load (slotAddress (state.get .s11) guestS2Offset) 8)).set .s4
          (state.mem.load (slotAddress (state.get .s11) guestS4Offset) 8) := by
  simp only [finishHit, exec, applyAll_cons, applyAll_nil, apply_mv]
  rfl

/-! ## What the ways through the routines have in common -/

/-- The registers are back, apart from that of the call table. -/
structure Resumed
    (state : State)
    (same : Word → Prop)
    (result : Rerouted) : Prop where
  target : result.target = result.riscv &&& ~~~(1 : Word)
  entry : result.entry = tlbEntry state result.address
  registers : ∀ slot ∈ restoreSlots, slot.1 ≠ .s8 →
    result.state.get slot.1 = state.get slot.1
  bytes : ∀ pointer, same pointer →
    result.state.mem pointer = state.mem pointer

/-- The register of the call table has what the context says. -/
def Tabled (state : State) (result : Rerouted) : Prop :=
  result.state.get .s8 =
    result.state.mem.load (slotAddress (state.get .s11) 0xB8) 8

/-- The address was in the buffer. -/
structure Found (state : State) (result : Rerouted) : Prop where
  hit : result.hit = true
  key : state.mem.load result.entry 8 = result.address
  riscv : result.riscv = state.mem.load (result.entry + 8) 8

/-- The address was translated, if it was carried to the translation. -/
structure Missed
    (runtime : Runtime)
    (kept : Word → Prop)
    (carried : Prop)
    (state called returned : State)
    (result : Rerouted) : Prop where
  hit : result.hit = false
  key : state.mem.load result.entry 8 ≠ result.address
  translate : runtime.translate called = some returned
  argument : carried → called.get .a1 = result.address
  saved : Saved state called
  bytes : ∀ pointer, kept pointer →
    ¬ Within (state.get .s11) contextSize pointer →
      called.mem pointer = state.mem pointer
  table : (∀ pointer, Within (slotAddress (state.get .s11) 0xB8) 8 pointer →
      kept pointer) →
    called.mem.load (slotAddress (state.get .s11) 0xB8) 8 = state.get .s8
  riscv : result.riscv = returned.get .a0

theorem leave_target
    {state : State}
    {address entry riscv : Word}
    {hit : Bool}
    (t3 : state.get .t3 = riscv) :
    (leave state address entry riscv hit).target = riscv &&& ~~~(1 : Word) := by
  simp only [leave, jumpTarget, t3]
  rw [show (0 : BitVec 12).signExtend 64 = 0#64 by decide, BitVec.add_zero]

/-- The entry is apart from the context, which the functions keep. -/
structure Placed
    (kept translated : Word → Prop)
    (state : State)
    (address : Word) : Prop where
  entry : Apart (tlbEntry state address) 16 (state.get .s11)
    ExecutionContext.size
  kept : ∀ pointer, KeptContext (state.get .s11) pointer → kept pointer
  translated : ∀ pointer, KeptContext (state.get .s11) pointer →
    translated pointer

/-- Every register of the context belongs to one of the two captures. -/
theorem restoreSlots_split :
    ∀ slot ∈ restoreSlots, slot ∈ tlbSlots ∨ slot ∈ probeSlots := by
  decide

theorem restoreSlots_general :
    ∀ slot ∈ restoreSlots, slot.1 ≠ .t0 ∧ slot.1 ≠ .t3 ∧ slot.1 ≠ .zero := by
  decide

theorem tlbSlots_general :
    ∀ slot ∈ tlbSlots, slot.1 ≠ .t0 ∧ slot.1 ≠ .t3 ∧ slot.1 ≠ .s4 := by
  decide

theorem probeSlots_absent :
    ∀ slot ∈ probeSlots, slot.2 ∉ tlbSlots.map Prod.snd := by
  decide

theorem validSlots_probeSlots : ValidSlots probeSlots := by decide

theorem validSlots_tlbSlots : ValidSlots tlbSlots := by decide

/-! ## Looking for an address -/

/-- A write to an entry, as one write to its 16 bytes. -/
theorem within_entry
    {entry pointer : Word}
    {offset : Nat}
    (bound : offset + 8 ≤ 16)
    (inside : Within (entry + BitVec.ofNat 64 offset) 8 pointer) :
    Within entry 16 pointer := by
  have entryLt := entry.isLt
  have pointerLt := pointer.isLt
  simp only [Within, BitVec.toNat_sub, BitVec.toNat_add,
    BitVec.toNat_ofNat] at inside ⊢
  omega

section

variable
  {runtime : Runtime}
  {kept translated : Word → Prop}
  {state : State}
  {result : Rerouted}

/-- The registers for the search are saved, and the address was looked for. -/
structure Probed (state probed : State) (address : Word) : Prop where
  registers : ∀ register, register ≠ .t0 → register ≠ .t3 → register ≠ .s4 →
    probed.get register = state.get register
  t3 : probed.get .t3 = address
  entry : probed.get .s4 = tlbEntry state address
  key : isHit probed =
    (probed.mem.load (tlbEntry state address) 8 == address)
  slots : ∀ slot ∈ probeSlots,
    probed.mem.load (slotAddress (state.get .s11) slot.2) 8 =
      state.get slot.1
  table : probed.mem.load (slotAddress (state.get .s11) 0xB8) 8 =
    state.mem.load (slotAddress (state.get .s11) 0xB8) 8
  bytes : ∀ pointer, ¬ Within (state.get .s11) contextSize pointer →
    probed.mem pointer = state.mem pointer

/-- The address is put into `t3` after `s2` and `s4` are saved. -/
theorem probed_of_capture
    {before : State}
    {address : Word}
    (memory : before.mem = (exec state (capture .s11 probeSlots)).mem)
    (registers : ∀ register, register ≠ .t3 →
      before.get register = state.get register)
    (t3 : before.get .t3 = address) :
    Probed state (exec before computeTlbAddress) address := by
  have tlb : tlbEntry before address = tlbEntry state address := by
    rw [tlbEntry, tlbEntry, registers .s9 (by decide)]
  have sameMemory : (exec before computeTlbAddress).mem = before.mem := by
    rw [computeTlbAddress_spec]
    rfl
  constructor
  case registers =>
    intro register notT0 notT3 notS4
    rw [computeTlbAddress_spec, State.set_get_of_ne _ _ notT0,
      State.set_get_of_ne _ _ notS4, State.set_get_of_ne _ _ notT0,
      registers register notT3]
  case t3 =>
    rw [computeTlbAddress_spec, State.set_get_of_ne _ _ (by decide),
      State.set_get_of_ne _ _ (by decide), State.set_get_of_ne _ _ (by decide),
      t3]
  case entry =>
    rw [computeTlbAddress_spec, State.set_get_of_ne _ _ (by decide),
      State.set_get_self _ _ (by decide), t3, tlb]
  case key =>
    rw [isHit_computeTlbAddress, sameMemory, t3, tlb]
  case slots =>
    intro slot member
    rw [sameMemory, memory]
    exact capture_load 0 state validSlots_probeSlots member
  case table =>
    rw [sameMemory, memory]
    exact capture_load_other 0 state validSlots_probeSlots (by decide)
      (by decide)
  case bytes =>
    intro pointer outside
    rw [sameMemory, memory]
    exact capture_outside 0 state validSlots_probeSlots
      (Nat.le_of_not_lt outside)

/-- The double words of the entry are not touched by the search. -/
theorem Probed.load_entry
    {probed : State}
    {address : Word}
    {offset : Nat}
    (found : Probed state probed address)
    (apart : Apart (tlbEntry state address) 16 (state.get .s11)
      ExecutionContext.size)
    (inside : offset + 8 ≤ 16) :
    probed.mem.load (tlbEntry state address + BitVec.ofNat 64 offset) 8 =
      state.mem.load (tlbEntry state address + BitVec.ofNat 64 offset) 8 := by
  apply load_of_same (by decide)
  intro pointer within
  apply found.bytes
  intro overlap
  exact apart pointer (within_entry inside within)
    (Nat.lt_trans overlap (by decide))

/-- The end of a dynamic routine whose address is in the buffer. -/
theorem Probed.finishHit
    {probed : State}
    {address : Word}
    (found : Probed state probed address)
    (apart : Apart (tlbEntry state address) 16 (state.get .s11)
      ExecutionContext.size)
    (hit : isHit probed = true) :
    let loaded := exec probed loadTlbEntry
    let result := leave (Dispatcher.finishHit loaded) address
      (probed.get .s4) (loaded.get .s2) true
    Resumed state (fun pointer =>
      ¬ Within (state.get .s11) contextSize pointer) result ∧
    Found state result ∧
    result.state.get .s8 = state.get .s8 ∧
    result.state.mem.load (slotAddress (state.get .s11) 0xB8) 8 =
      state.mem.load (slotAddress (state.get .s11) 0xB8) 8 := by
  intro loaded result
  have context := found.registers .s11 (by decide) (by decide) (by decide)
  have memory : result.state.mem = probed.mem := by
    simp only [result, loaded, leave, finishHit_spec, loadTlbEntry_spec]
    rfl
  have final : result.state =
      ((loaded.set .t3 (loaded.get .s2)).set .s2 (state.get .s2)).set .s4
        (state.get .s4) := by
    have loadedContext : loaded.get .s11 = state.get .s11 := by
      simp only [loaded, loadTlbEntry_spec]
      rw [State.set_get_of_ne _ _ (by decide), context]
    change Dispatcher.finishHit loaded = _
    rw [finishHit_spec, loadedContext]
    change ((loaded.set .t3 (loaded.get .s2)).set .s2
      (probed.mem.load _ 8)).set .s4 (probed.mem.load _ 8) = _
    rw [found.slots (.s2, guestS2Offset) (by decide),
      found.slots (.s4, guestS4Offset) (by decide)]
  have others : ∀ register, register ≠ .t0 → register ≠ .t3 →
      register ≠ .zero → result.state.get register = state.get register := by
    intro register notT0 notT3 nonzero
    rw [final]
    by_cases isS4 : register = .s4
    · rw [isS4, State.set_get_self _ _ (by decide)]
    · rw [State.set_get_of_ne _ _ isS4]
      by_cases isS2 : register = .s2
      · rw [isS2, State.set_get_self _ _ (by decide)]
      · rw [State.set_get_of_ne _ _ isS2, State.set_get_of_ne _ _ notT3]
        simp only [loaded, loadTlbEntry_spec]
        rw [State.set_get_of_ne _ _ isS2,
          found.registers register notT0 notT3 isS4]
  have loadedS2 : loaded.get .s2 =
      state.mem.load (tlbEntry state address + 8) 8 := by
    simp only [loaded, loadTlbEntry_spec]
    rw [State.set_get_self _ _ (by decide), found.entry]
    exact found.load_entry apart (by decide : 8 + 8 ≤ 16)
  refine ⟨⟨?_, found.entry, ?_, ?_⟩, ⟨rfl, ?_, ?_⟩, ?_, ?_⟩
  · apply leave_target
    change result.state.get .t3 = _
    rw [final, State.set_get_of_ne _ _ (by decide),
      State.set_get_of_ne _ _ (by decide), State.set_get_self _ _ (by decide)]
  · intro slot member _
    have general := restoreSlots_general slot member
    exact others slot.1 general.1 general.2.1 general.2.2
  · intro pointer outside
    rw [memory]
    exact found.bytes pointer outside
  · have same := found.load_entry apart (by decide : 0 + 8 ≤ 16)
    rw [found.key, beq_iff_eq] at hit
    rw [BitVec.add_zero] at same
    change state.mem.load (probed.get .s4) 8 = address
    rw [found.entry, ← same, hit]
  · change loaded.get .s2 = state.mem.load (probed.get .s4 + 8) 8
    rw [found.entry, loadedS2]
  · exact others .s8 (by decide) (by decide) (by decide)
  · rw [memory, found.table]

/-! ## Calling the functions -/

/-- All registers are saved, before the first call. -/
structure Ready (state ready : State) : Prop where
  saved : Saved state ready
  table : ready.mem.load (slotAddress (state.get .s11) 0xB8) 8 = state.get .s8
  bytes : ∀ pointer, ¬ Within (state.get .s11) contextSize pointer →
    ready.mem pointer = state.mem pointer

/-- Computations leave the registers saved. -/
theorem Ready.computes
    {ready : State}
    {code : List Inst}
    (isReady : Ready state ready)
    (pc : Word)
    (computes : ∀ inst ∈ code, inst.target.isSome = true)
    (context : ∀ inst ∈ code, inst.target ≠ some .s11) :
    Ready state (applyAll pc ready code) := by
  have memory : (applyAll pc ready code).mem = ready.mem :=
    applyAll_mem_of_target pc ready computes
  refine ⟨isReady.saved.of_same ?_ ?_, ?_, ?_⟩
  · exact applyAll_get_of_not_target pc ready context
  · intro pointer _
    rw [memory]
  · rw [memory, isReady.table]
  · intro pointer outside
    rw [memory, isReady.bytes pointer outside]

/-- The rest of the registers is saved after a search. -/
theorem Probed.ready
    {probed : State}
    {address : Word}
    (found : Probed state probed address) :
    Ready state (exec probed (captureContextTlb .s11)) := by
  have context := found.registers .s11 (by decide) (by decide) (by decide)
  have captured : ∀ slot ∈ tlbSlots,
      (exec probed (captureContextTlb .s11)).mem.load
        (slotAddress (state.get .s11) slot.2) 8 = state.get slot.1 := by
    intro slot member
    have general := tlbSlots_general slot member
    have loaded := @capture_load 0 probed .s11 _ _ validSlots_tlbSlots
      member
    rw [context, found.registers slot.1 general.1 general.2.1 general.2.2]
      at loaded
    exact loaded
  refine ⟨⟨?_, ?_⟩, captured (.s8, 0xB8) (by decide), ?_⟩
  · rw [exec, captureContextTlb, capture_get, context]
  · intro slot member _
    rcases restoreSlots_split slot member with early | late
    · exact captured slot early
    · have kept := @capture_load_other 0 probed .s11 _ _
        validSlots_tlbSlots (validSlots_probeSlots.1 slot late)
        (probeSlots_absent slot late)
      rw [context] at kept
      rw [exec, captureContextTlb, kept, found.slots slot late]
  · intro pointer outside
    rw [exec, captureContextTlb, capture_outside 0 probed validSlots_tlbSlots
      (by rw [context]; exact Nat.le_of_not_lt outside)]
    exact found.bytes pointer outside

/-- A value that the calls must not change goes to `s2`. -/
theorem Probed.backedUp
    {probed : State}
    {address : Word}
    (found : Probed state probed address)
    (source : Register)
    (notStack : source ≠ .sp) :
    let ready := exec (exec probed (captureContextTlb .s11 ++ skipRedZone))
      [mv .s2 source]
    Ready state ready ∧ ready.get .s4 = tlbEntry state address ∧
      ready.get .s2 = probed.get source := by
  intro ready
  let position : Word :=
    0 + BitVec.ofNat 64 (4 * (captureContextTlb .s11).length)
  let stacked := applyAll position (exec probed (captureContextTlb .s11))
    skipRedZone
  have kept : ∀ register, register ≠ .sp →
      stacked.get register = probed.get register := by
    intro register notSp
    have others : ∀ inst ∈ skipRedZone, inst.target ≠ some register := by
      intro inst member
      obtain rfl := List.mem_singleton.mp member
      rintro ⟨⟩
      exact notSp rfl
    rw [applyAll_get_of_not_target _ _ others, exec, captureContextTlb,
      capture_get]
  have shape : ready = stacked.set .s2 (probed.get source) := by
    change exec (applyAll 0 probed _) [mv .s2 source] = _
    rw [applyAll_append, exec, applyAll_cons, apply_mv, applyAll_nil]
    exact congrArg (State.set stacked .s2) (kept source notStack)
  have stackedReady : Ready state stacked :=
    found.ready.computes position (by decide) (by decide)
  refine ⟨?_, ?_, ?_⟩
  · have moved := @Ready.computes _ _ [mv .s2 source] stackedReady 0
      (by simp [mv, Encoding.addi, opImm, Inst.target])
      (by simp [mv, Encoding.addi, opImm, Inst.target])
    rw [applyAll_cons, apply_mv, applyAll_nil, kept source notStack] at moved
    rwa [shape]
  · rw [shape, State.set_get_of_ne _ _ (by decide), kept .s4 (by decide),
      found.entry]
  · rw [shape, State.set_get_self _ _ (by decide)]

/-- `capture_context` saves all registers. -/
theorem ready_captureContext :
    Ready state (exec state (captureContext .s11)) := by
  have valid : ValidSlots (tlbSlots ++ probeSlots) := by decide
  have code : captureContext .s11 =
      capture .s11 (tlbSlots ++ probeSlots) := by
    rw [captureContext, captureContextTlb, capture, capture, capture,
      List.map_append]
  rw [code, exec]
  refine ⟨⟨capture_get 0 state .s11 _ .s11, ?_⟩,
    @capture_load 0 state _ _ (.s8, 0xB8) valid (by decide), ?_⟩
  · intro slot member _
    exact capture_load 0 state valid
      (List.mem_append.mpr (restoreSlots_split slot member))
  · intro pointer outside
    exact capture_outside 0 state valid (Nat.le_of_not_lt outside)

/-- What the logger and the translation leave. -/
structure Called
    (runtime : Runtime)
    (kept translated : Word → Prop)
    (carried : Prop)
    (state ready called returned : State)
    (address : Word) : Prop where
  translate : runtime.translate called = some returned
  argument : carried → called.get .a1 = address
  before : Saved state called
  after : Saved state returned
  registers : ∀ register ∈ calleeSaved,
    returned.get register = ready.get register
  bytesBefore : ∀ pointer, kept pointer →
    called.mem pointer = ready.mem pointer
  bytesAfter : ∀ pointer, kept pointer → translated pointer →
    returned.mem pointer = ready.mem pointer

/-- The translation sees the call table that the register had. -/
theorem Called.table
    {ready called returned : State}
    {address : Word}
    {carried : Prop}
    (calls : Called runtime kept translated carried state ready called returned
      address)
    (isReady : Ready state ready)
    (keepsSlot : ∀ pointer,
      Within (slotAddress (state.get .s11) 0xB8) 8 pointer → kept pointer) :
    called.mem.load (slotAddress (state.get .s11) 0xB8) 8 =
      state.get .s8 := by
  rw [← isReady.table]
  apply load_of_same (by decide)
  intro pointer inside
  exact calls.bytesBefore pointer (keepsSlot pointer inside)

/-- The state in which the translation is called. -/
structure Calling
    (runtime : Runtime)
    (kept : Word → Prop)
    (carried : Prop)
    (state ready logged called : State)
    (load : List Inst)
    (address : Word) : Prop where
  translate : runtime.translateCall logged load = runtime.translate called
  argument : carried → called.get .a1 = address
  saved : Saved state called
  registers : ∀ register ∈ calleeSaved,
    called.get register = ready.get register
  bytes : ∀ pointer, kept pointer → called.mem pointer = ready.mem pointer

/-- The address is the argument of the translation, wherever it was kept while
the logger ran. -/
theorem calling_of_log
    {ready logged : State}
    {address : Word}
    {load : List Inst}
    {carried : Prop}
    (follows : Dispatcher.Follows kept runtime.reroutes)
    (saved : Saved state ready)
    (keptContext : ∀ pointer, KeptContext (state.get .s11) pointer →
      kept pointer)
    (target : ∀ inst ∈ load, inst.target = some .a1)
    (argument : carried → ∀ pc other,
      (∀ register ∈ calleeSaved, other.get register = ready.get register) →
        (∀ pointer, kept pointer → other.mem pointer = ready.mem pointer) →
          (applyAll pc other load).get .a1 = address)
    (log : runtime.log ready load = some logged) :
    ∃ called,
      Calling runtime kept carried state ready logged called load address := by
  have computes : ∀ inst ∈ load, inst.target.isSome = true := by
    intro inst member
    rw [target inst member]
    rfl
  have keepsMemory : ∀ pc other, (applyAll pc other load).mem = other.mem :=
    fun pc other => applyAll_mem_of_target pc other computes
  have keepsRegister : ∀ pc other register, register ∈ calleeSaved →
      (applyAll pc other load).get register = other.get register := by
    intro pc other register member
    apply applyAll_get_of_not_target
    intro inst inside equal
    rw [target inst inside] at equal
    cases equal
    exact absurd member (by decide)
  have notCalleeSaved : ∀ register ∈ calleeSaved,
      register ≠ .a0 ∧ register ≠ .ra := by
    decide
  have loggedRegisters : ∀ register ∈ calleeSaved,
      logged.get register = ready.get register := by
    intro register member
    have different := notCalleeSaved register member
    rw [follows.registers log register member,
      State.set_get_of_ne _ _ different.2, exec,
      keepsRegister _ _ register member, State.set_get_of_ne _ _ different.1]
  have loggedBytes : ∀ pointer, kept pointer →
      logged.mem pointer = ready.mem pointer := by
    intro pointer inside
    rw [follows.bytes log pointer inside, State.set_mem, exec, keepsMemory,
      State.set_mem]
  let prepared := logged.set .a0
    (Load.ld.eval logged.mem (effectiveAddress logged .s11
      ((BitVec.ofNat 16 codegenOffset).setWidth 12)))
  let called := (applyAll (0 + 4) prepared load).set .ra runtime.returnAddress
  have registers : ∀ register ∈ calleeSaved,
      called.get register = ready.get register := by
    intro register member
    have different := notCalleeSaved register member
    rw [State.set_get_of_ne _ _ different.2, keepsRegister _ _ _ member,
      State.set_get_of_ne _ _ different.1, loggedRegisters register member]
  have bytes : ∀ pointer, kept pointer →
      called.mem pointer = ready.mem pointer := by
    intro pointer inside
    rw [State.set_mem, keepsMemory, State.set_mem, loggedBytes pointer inside]
  refine ⟨called, rfl, ?_, ?_, registers, bytes⟩
  · intro isCarried
    rw [State.set_get_of_ne _ _ (by decide)]
    apply argument isCarried
    · intro register member
      rw [State.set_get_of_ne _ _ (notCalleeSaved register member).1,
        loggedRegisters register member]
    · intro pointer inside
      rw [State.set_mem, loggedBytes pointer inside]
  · refine saved.of_same (registers .s11 (by decide)) ?_
    intro pointer inside
    exact bytes pointer (keptContext pointer inside)

/-- The translation returns. -/
theorem Calling.returns
    {ready logged called returned : State}
    {address : Word}
    {load : List Inst}
    {carried : Prop}
    (calling : Calling runtime kept carried state ready logged called load
      address)
    (follows : Dispatcher.Follows translated runtime.translate)
    (translatedContext : ∀ pointer, KeptContext (state.get .s11) pointer →
      translated pointer)
    (translates : runtime.translateCall logged load = some returned) :
    Called runtime kept translated carried state ready called returned
      address := by
  rw [calling.translate] at translates
  have registers : ∀ register ∈ calleeSaved,
      returned.get register = ready.get register := by
    intro register member
    rw [follows.registers translates register member,
      calling.registers register member]
  refine ⟨translates, calling.argument, calling.saved, ?_, registers,
    calling.bytes, ?_⟩
  · refine calling.saved.of_same ?_ ?_
    · rw [follows.registers translates .s11 (by decide)]
    · intro pointer inside
      exact follows.bytes translates pointer (translatedContext pointer inside)
  · intro pointer inside translatedInside
    rw [follows.bytes translates pointer translatedInside,
      calling.bytes pointer inside]

/-! ## Going on -/

theorem within_low
    {entry pointer : Word}
    (inside : Within entry 8 pointer) :
    Within entry 16 pointer :=
  Nat.lt_trans inside (by decide)

theorem within_high
    {entry pointer : Word}
    (inside : Within (entry + 8) 8 pointer) :
    Within entry 16 pointer :=
  within_entry (by decide : 8 + 8 ≤ 16) inside

/-- The memory with a new entry. -/
def updateEntry (mem : Memory) (entry key riscv : Word) : Memory :=
  (mem.store entry 8 key).store (entry + 8) 8 riscv

theorem updateEntry_outside
    {mem : Memory}
    {entry key riscv pointer : Word}
    (outside : ¬ Within entry 16 pointer) :
    updateEntry mem entry key riscv pointer = mem pointer := by
  have high : ¬ Within (entry + 8) 8 pointer :=
    fun inside => outside (within_high inside)
  have low : ¬ Within entry 8 pointer :=
    fun inside => outside (within_low inside)
  rw [updateEntry, store_of_not_within _ _ high, store_of_not_within _ _ low]

@[simp] theorem updateEntry_riscv (mem : Memory) (entry key riscv : Word) :
    (updateEntry mem entry key riscv).load (entry + 8) 8 = riscv :=
  Memory.load_store_double _ _ _

@[simp] theorem updateEntry_key (mem : Memory) (entry key riscv : Word) :
    (updateEntry mem entry key riscv).load entry 8 = key := by
  have entryLt := entry.isLt
  have eight : (8 : Word).toNat = 8 := rfl
  rw [updateEntry, Memory.load_store_of_apart, Memory.load_store_double]
  all_goals
    simp only [BitVec.toNat_sub, BitVec.toNat_add, eight]
    omega

/-- The new entry is written and the registers come back. -/
theorem Saved.finishMiss
    {returned : State}
    (saved : Saved state returned)
    (apart : Apart (returned.get .s4) 16 (state.get .s11)
      ExecutionContext.size) :
    let final := Dispatcher.finishMiss returned
    final.get .t3 = returned.get .a0 ∧
      (∀ slot ∈ restoreSlots, slot.1 ≠ .s8 →
        final.get slot.1 = state.get slot.1) ∧
      final.get .s8 =
        final.mem.load (slotAddress (state.get .s11) 0xB8) 8 ∧
      final.mem = updateEntry returned.mem (returned.get .s4)
        (returned.get .s2) (returned.get .a0) := by
  intro final
  let written : State :=
    { returned with
      mem := updateEntry returned.mem (returned.get .s4) (returned.get .s2)
        (returned.get .a0) }
  have savedWritten : Saved state (written.set .t3 (returned.get .a0)) := by
    refine saved.of_same ?_ ?_
    · rw [State.set_get_of_ne _ _ (by decide)]
      rfl
    · intro pointer inside
      exact updateEntry_outside fun overlap =>
        apart pointer overlap inside.1
  have shape : final = applyAll (0 + 4 + 4 + 4)
      (written.set .t3 (returned.get .a0)) (restoreContext .s11) := by
    change applyAll _ _ _ = _
    rw [applyAll_append, updateTlbEntry_spec, applyAll_cons, apply_mv]
    rfl
  have memory : final.mem = written.mem := by
    rw [shape, restoreContext, restore_mem, State.set_mem]
  obtain ⟨registers, table⟩ := savedWritten.restore (0 + 4 + 4 + 4)
  refine ⟨?_, ?_, ?_, memory⟩
  · rw [shape, restoreContext, restore_get_of_not_mem _ _ _ (by decide),
      State.set_get_self _ _ (by decide)]
  · rw [shape]
    exact registers
  · rw [memory, shape]
    exact table

/-- The bytes that a routine leaves as they were when it translates. -/
def Spared
    (kept translated : Word → Prop)
    (state : State)
    (entry pointer : Word) : Prop :=
  kept pointer ∧ translated pointer ∧
    ¬ Within (state.get .s11) contextSize pointer ∧
      ¬ Within entry 16 pointer

/-- The outcome of a dynamic routine that finds its address. -/
structure Hit (state : State) (result : Rerouted) : Prop where
  resumed : Resumed state
    (fun pointer => ¬ Within (state.get .s11) contextSize pointer) result
  found : Found state result
  callTable : result.state.get .s8 = state.get .s8
  field : result.state.mem.load (slotAddress (state.get .s11) 0xB8) 8 =
    state.mem.load (slotAddress (state.get .s11) 0xB8) 8

theorem Resumed.mono
    {same other : Word → Prop}
    (resumed : Resumed state same result)
    (implies : ∀ pointer, other pointer → same pointer) :
    Resumed state other result :=
  ⟨resumed.target, resumed.entry, resumed.registers,
    fun pointer inside => resumed.bytes pointer (implies pointer inside)⟩

/-- The outcome of a dynamic routine that translates its address and then
writes the entry in some state. -/
structure Miss
    (runtime : Runtime)
    (kept translated : Word → Prop)
    (carried : Prop)
    (state called returned updated : State)
    (result : Rerouted) : Prop where
  missed : Missed runtime kept carried state called returned result
  resumed : Resumed state (fun pointer =>
    Spared kept translated state result.entry pointer ∧
      updated.mem pointer = returned.mem pointer) result
  table : Tabled state result
  memory : result.state.mem =
    updateEntry updated.mem result.entry (updated.get .s2) result.riscv

/-- The end of a dynamic routine whose address is not in the buffer. -/
theorem Probed.finishMiss
    {probed ready called returned updated : State}
    {address : Word}
    {carried : Prop}
    (found : Probed state probed address)
    (placed : Placed kept translated state address)
    (miss : ¬ isHit probed = true)
    (isReady : Ready state ready)
    (calls : Called runtime kept translated carried state ready called returned
      address)
    (saved : Saved state updated)
    (entry : updated.get .s4 = tlbEntry state address)
    (riscv : updated.get .a0 = returned.get .a0) :
    Miss runtime kept translated carried state called returned updated
      (leave (Dispatcher.finishMiss updated) address (probed.get .s4)
        (returned.get .a0) false) := by
  have apart := placed.entry
  rw [← entry] at apart
  obtain ⟨t3, registers, table, memory⟩ := saved.finishMiss apart
  rw [riscv] at t3 memory
  have shape : (leave (Dispatcher.finishMiss updated) address (probed.get .s4)
      (returned.get .a0) false).entry = updated.get .s4 := by
    rw [entry]
    exact found.entry
  refine ⟨⟨rfl, ?_, calls.translate, calls.argument, calls.before, ?_,
      calls.table isReady, rfl⟩,
    ⟨leave_target t3, found.entry, registers, ?_⟩, table, ?_⟩
  · intro key
    apply miss
    have same := found.load_entry placed.entry (by decide : 0 + 8 ≤ 16)
    rw [BitVec.add_zero] at same
    rw [found.key, beq_iff_eq, same, ← found.entry]
    exact key
  · intro pointer inside outside
    rw [calls.bytesBefore pointer inside, isReady.bytes pointer outside]
  · rintro pointer ⟨⟨inside, translatedInside, outside, notEntry⟩, same⟩
    rw [shape] at notEntry
    change (Dispatcher.finishMiss updated).mem pointer = _
    rw [memory, updateEntry_outside notEntry, same,
      calls.bytesAfter pointer inside translatedInside,
      isReady.bytes pointer outside]
  · rw [shape]
    exact memory

/-- `reroute_dynamic` looks for the address in `t3`. -/
theorem probed_dynamic :
    Probed state
      (exec (exec state (capture .s11 probeSlots)) computeTlbAddress)
      (state.get .t3) :=
  probed_of_capture rfl
    (fun register _ => capture_get 0 state .s11 probeSlots register)
    (capture_get 0 state .s11 probeSlots .t3)

/-- `reroute_dynamic` calls the translation for its address. -/
theorem Probed.calling_dynamic
    {probed logged : State}
    {address : Word}
    (found : Probed state probed address)
    (follows : Dispatcher.Follows kept runtime.reroutes)
    (keptContext : ∀ pointer, KeptContext (state.get .s11) pointer →
      kept pointer)
    (log : runtime.log
      (exec (exec probed (captureContextTlb .s11 ++ skipRedZone))
        [mv .s2 .t3]) [mv .a1 .s2] = some logged) :
    ∃ called, Calling runtime kept True state
      (exec (exec probed (captureContextTlb .s11 ++ skipRedZone)) [mv .s2 .t3])
      logged called [mv .a1 .s2] address := by
  obtain ⟨ready, -, backedUp⟩ := found.backedUp .t3 (by decide)
  exact calling_of_log follows ready.saved keptContext (by decide)
    (fun (_ : True) pc other registers _ => by
      rw [applyAll_cons, apply_mv, applyAll_nil,
        State.set_get_self _ _ (by decide), registers .s2 (by decide),
        backedUp, found.t3]) log

theorem rerouteDynamic_spec
    (follows : runtime.Follows kept translated)
    (placed : Placed kept translated state (state.get .t3))
    (ran : rerouteDynamic runtime state = some result) :
    result.address = state.get .t3 ∧
      (Hit state result ∨
        ∃ called returned,
          Miss runtime kept translated True state called returned returned
            result ∧
            returned.get .s2 = result.address) := by
  have probed := @probed_dynamic state
  rw [rerouteDynamic] at ran
  generalize exec (exec state (capture .s11 probeSlots)) computeTlbAddress =
    search at ran probed
  by_cases hit : isHit search = true
  · simp only [if_pos hit, Option.pure_def, Option.some.injEq] at ran
    obtain ⟨resumed, found, callTable, field⟩ :=
      probed.finishHit placed.entry hit
    subst ran
    exact ⟨rfl, .inl ⟨resumed, found, callTable, field⟩⟩
  · simp only [if_neg hit, Option.pure_def, Option.bind_eq_bind,
      Option.bind_eq_some_iff, Option.some.injEq] at ran
    obtain ⟨logged, log, returned, translates, ended⟩ := ran
    obtain ⟨ready, entry, address⟩ := probed.backedUp .t3 (by decide)
    obtain ⟨called, calling⟩ := probed.calling_dynamic follows.reroutes
      placed.kept log
    have calls := calling.returns follows.translate placed.translated translates
    have returnedEntry := calls.registers .s4 (by decide)
    have returnedAddress := calls.registers .s2 (by decide)
    rw [entry] at returnedEntry
    rw [address, probed.t3] at returnedAddress
    subst ended
    exact ⟨rfl, .inr ⟨called, returned,
      probed.finishMiss placed hit ready calls calls.after returnedEntry rfl,
      returnedAddress⟩⟩

/-- `reroute_dynamic` does not come back only if the translation does not. -/
theorem rerouteDynamic_none
    (follows : Dispatcher.Follows kept runtime.reroutes)
    (keptContext : ∀ pointer, KeptContext (state.get .s11) pointer →
      kept pointer)
    (logs : ∀ state, runtime.reroutes state ≠ none)
    (ran : rerouteDynamic runtime state = none) :
    ∃ called, runtime.translate called = none ∧
      called.get .a1 = state.get .t3 := by
  have probed := @probed_dynamic state
  rw [rerouteDynamic] at ran
  generalize exec (exec state (capture .s11 probeSlots)) computeTlbAddress =
    search at ran probed
  by_cases hit : isHit search = true
  · simp [if_pos hit] at ran
  · simp only [if_neg hit, Option.pure_def, Option.bind_eq_bind,
      Option.bind_eq_none_iff] at ran
    obtain ⟨logged, log⟩ := Option.ne_none_iff_exists'.mp (logs _)
    obtain ⟨called, calling⟩ := probed.calling_dynamic follows keptContext log
    refine ⟨called, ?_, calling.argument trivial⟩
    rw [← calling.translate]
    cases translates : runtime.translateCall logged [mv .a1 .s2] with
    | none => rfl
    | some returned => exact absurd (ran logged log returned translates) (by simp)

/-- The load into `s2` that the next one overwrites. -/
theorem finishHit_twice :
    exec state [mv .t3 .s2, ld .s2 .t1 8,
        ld .s2 .s11 (BitVec.ofNat 16 guestS2Offset),
        ld .s4 .s11 (BitVec.ofNat 16 guestS4Offset)] =
      finishHit state := by
  rw [finishHit_spec]
  simp only [exec, applyAll_cons, applyAll_nil, apply_mv]
  simp only [ld, Encoding.load, Inst.apply, effectiveAddress, State.set_set]
  rw [State.set_get_of_ne _ _ (by decide : Register.s11 ≠ .s2)]
  rfl

/-- The code address is stored and the guest address is loaded again. -/
def cacheEntry (state : State) : State :=
  exec state [sd .s2 .a0 8, ld .s2 .s2 0]

theorem cacheEntry_spec :
    cacheEntry state =
      (state.store (state.get .s2 + 8) 8 (state.get .a0)).set .s2
        ((state.mem.store (state.get .s2 + 8) 8 (state.get .a0)).load
          (state.get .s2) 8) := by
  simp only [cacheEntry, exec, applyAll_cons, applyAll_nil, apply_ld_zero]
  rfl

section

variable
  (callEntry : Apart (state.get .t1) 16 (state.get .s11)
    ExecutionContext.size)

include callEntry

theorem callEntry_outside :
    ∀ pointer, Within (state.get .t1) 8 pointer →
      ¬ Within (state.get .s11) contextSize pointer := by
  intro pointer inside overlap
  exact callEntry pointer (within_low inside)
    (Nat.lt_trans overlap (by decide))

/-- `reroute_return` looks for the address in the entry of the call table. -/
theorem probed_return :
    let before := exec (exec state (capture .s11 probeSlots)) [ld .t3 .t1 0]
    before.get .t3 = state.mem.load (state.get .t1) 8 ∧
      Probed state (exec before computeTlbAddress)
        (state.mem.load (state.get .t1) 8) := by
  intro before
  have capturedGet : ∀ register,
      (exec state (capture .s11 probeSlots)).get register =
        state.get register :=
    capture_get 0 state .s11 probeSlots
  have loaded : (exec state (capture .s11 probeSlots)).mem.load
      (state.get .t1) 8 = state.mem.load (state.get .t1) 8 := by
    apply load_of_same (by decide)
    intro pointer inside
    exact capture_outside 0 state validSlots_probeSlots
      (Nat.le_of_not_lt (callEntry_outside callEntry pointer inside))
  have shape : before = (exec state (capture .s11 probeSlots)).set .t3
      (state.mem.load (state.get .t1) 8) := by
    rw [← loaded, ← capturedGet .t1]
    change applyAll 0 _ [ld .t3 .t1 0] = _
    rw [applyAll_cons, apply_ld_zero, applyAll_nil]
  have address : before.get .t3 = state.mem.load (state.get .t1) 8 := by
    rw [shape, State.set_get_self _ _ (by decide)]
  refine ⟨address, probed_of_capture ?_ ?_ address⟩
  · rw [shape, State.set_mem]
  · intro register notT3
    rw [shape, State.set_get_of_ne _ _ notT3, capturedGet]

/-- `reroute_return` calls the translation for its address, if the logger keeps
the entry. -/
theorem Probed.calling_return
    {probed logged : State}
    (found : Probed state probed (state.mem.load (state.get .t1) 8))
    (follows : Dispatcher.Follows kept runtime.reroutes)
    (keptContext : ∀ pointer, KeptContext (state.get .s11) pointer →
      kept pointer)
    (log : runtime.log
      (exec (exec probed (captureContextTlb .s11 ++ skipRedZone))
        [mv .s2 .t1]) [ld .a1 .s2 0] = some logged) :
    ∃ called, Calling runtime kept
      (∀ pointer, Within (state.get .t1) 8 pointer → kept pointer) state
      (exec (exec probed (captureContextTlb .s11 ++ skipRedZone)) [mv .s2 .t1])
      logged called [ld .a1 .s2 0] (state.mem.load (state.get .t1) 8) := by
  obtain ⟨ready, -, backedUp⟩ := found.backedUp .t1 (by decide)
  rw [found.registers .t1 (by decide) (by decide) (by decide)] at backedUp
  refine calling_of_log follows ready.saved keptContext (by decide) ?_ log
  intro logger pc other registers bytes
  rw [applyAll_cons, applyAll_nil, apply_ld_zero,
    State.set_get_self _ _ (by decide), registers .s2 (by decide), backedUp]
  apply load_of_same (by decide)
  intro pointer inside
  rw [bytes pointer (logger pointer inside),
    ready.bytes pointer (callEntry_outside callEntry pointer inside)]

/-- `reroute_return` ends like `reroute_dynamic` does for the address in the
entry of the call table, which is outside of the context. -/
theorem rerouteReturn_spec
    (reroutes : Dispatcher.Follows kept runtime.reroutes)
    (translate : Dispatcher.Follows translated runtime.translate)
    (placed : Placed kept translated state (state.mem.load (state.get .t1) 8))
    (ran : rerouteReturn runtime state = some result) :
    result.address = state.mem.load (state.get .t1) 8 ∧
      (Hit state result ∨
        ∃ called returned,
          Miss runtime kept translated
            (∀ pointer, Within (state.get .t1) 8 pointer → kept pointer)
            state called returned (cacheEntry returned) result ∧
          returned.get .s2 = state.get .t1) := by
  obtain ⟨t3, probed⟩ := probed_return callEntry
  simp only [rerouteReturn, finishHit_twice, t3] at ran
  generalize exec (exec (exec state (capture .s11 probeSlots)) [ld .t3 .t1 0])
    computeTlbAddress = search at ran probed
  by_cases hit : isHit search = true
  · simp only [if_pos hit, Option.pure_def, Option.some.injEq] at ran
    obtain ⟨resumed, found, callTable, field⟩ :=
      probed.finishHit placed.entry hit
    subst ran
    exact ⟨rfl, .inl ⟨resumed, found, callTable, field⟩⟩
  · simp only [if_neg hit, Option.pure_def, Option.bind_eq_bind,
      Option.bind_eq_some_iff, Option.some.injEq] at ran
    obtain ⟨logged, log, returned, translates, ended⟩ := ran
    obtain ⟨ready, entry, backedUp⟩ := probed.backedUp .t1 (by decide)
    rw [probed.registers .t1 (by decide) (by decide) (by decide)] at backedUp
    obtain ⟨called, calling⟩ := probed.calling_return callEntry
      reroutes placed.kept log
    have calls := calling.returns translate placed.translated translates
    have returnedEntry := calls.registers .s4 (by decide)
    have returnedCall := calls.registers .s2 (by decide)
    rw [entry] at returnedEntry
    rw [backedUp] at returnedCall
    have apart : Apart (returned.get .s2 + 8) 8 (state.get .s11)
        ExecutionContext.size := by
      intro pointer inside
      rw [returnedCall] at inside
      exact callEntry pointer (within_high inside)
    have saved : Saved state (cacheEntry returned) := by
      rw [cacheEntry_spec]
      refine (calls.after.store apart).of_same ?_ (fun _ _ => rfl)
      rw [State.set_get_of_ne _ _ (by decide)]
    subst ended
    refine ⟨rfl, .inr ⟨called, returned, probed.finishMiss placed hit ready
      calls saved ?_ ?_, returnedCall⟩⟩
    · rw [cacheEntry_spec, State.set_get_of_ne _ _ (by decide),
        State.store_get, returnedEntry]
    · rw [cacheEntry_spec, State.set_get_of_ne _ _ (by decide),
        State.store_get]

/-- `reroute_return` does not come back only if the translation does not. -/
theorem rerouteReturn_none
    (follows : Dispatcher.Follows kept runtime.reroutes)
    (keptContext : ∀ pointer, KeptContext (state.get .s11) pointer →
      kept pointer)
    (logger : ∀ pointer, Within (state.get .t1) 8 pointer → kept pointer)
    (logs : ∀ state, runtime.reroutes state ≠ none)
    (ran : rerouteReturn runtime state = none) :
    ∃ called, runtime.translate called = none ∧
      called.get .a1 = state.mem.load (state.get .t1) 8 := by
  obtain ⟨t3, probed⟩ := probed_return callEntry
  simp only [rerouteReturn, finishHit_twice, t3] at ran
  generalize exec (exec (exec state (capture .s11 probeSlots)) [ld .t3 .t1 0])
    computeTlbAddress = search at ran probed
  by_cases hit : isHit search = true
  · simp [if_pos hit] at ran
  · simp only [if_neg hit, Option.pure_def, Option.bind_eq_bind,
      Option.bind_eq_none_iff] at ran
    obtain ⟨logged, log⟩ := Option.ne_none_iff_exists'.mp (logs _)
    obtain ⟨called, calling⟩ := probed.calling_return callEntry follows
      keptContext log
    refine ⟨called, ?_, calling.argument logger⟩
    rw [← calling.translate]
    cases translates : runtime.translateCall logged [ld .a1 .s2 0] with
    | none => rfl
    | some returned => exact absurd (ran logged log returned translates) (by simp)

end

/-! ## The static routine -/

/-- The end of the static routine, which updates the block that it was called
from. -/
theorem Saved.finishStatic
    {start : State}
    {address entry : Word}
    {hit : Bool}
    (saved : Saved state start)
    (follows : runtime.Follows kept translated)
    (keptContext : ∀ pointer, KeptContext (state.get .s11) pointer →
      kept pointer)
    (ran : Dispatcher.finishStatic runtime start address entry hit =
      some result) :
    result.address = address ∧ result.entry = entry ∧ result.hit = hit ∧
      result.riscv = start.get .s2 ∧
      result.target = result.riscv &&& ~~~(1 : Word) ∧
      (∀ slot ∈ restoreSlots, slot.1 ≠ .s8 →
        result.state.get slot.1 = state.get slot.1) ∧
      Tabled state result ∧
      ∀ pointer, kept pointer → result.state.mem pointer = start.mem pointer := by
  simp only [Dispatcher.finishStatic, Option.pure_def, Option.bind_eq_bind,
    Option.bind_eq_some_iff, Option.some.injEq] at ran
  obtain ⟨after, updates, rfl⟩ := ran
  let code := [ld .a0 .s11 (BitVec.ofNat 16 codegenOffset), mv .a1 .s1,
    mv .a2 .s2]
  have computes : ∀ inst ∈ code, inst.target.isSome = true := by decide
  have savedAfter := (saved.computes computes (by decide)).returns
    follows.updateBasicBlock keptContext updates
  have s2 : after.get .s2 = start.get .s2 := by
    rw [follows.updateBasicBlock.registers updates .s2 (by decide),
      State.set_get_of_ne _ _ (by decide)]
    exact applyAll_get_of_not_target 0 start
      (by decide : ∀ inst ∈ code, inst.target ≠ some .s2)
  have bytes : ∀ pointer, kept pointer →
      after.mem pointer = start.mem pointer := by
    intro pointer inside
    rw [follows.updateBasicBlock.bytes updates pointer inside, State.set_mem,
      exec, applyAll_mem_of_target 0 start computes]
  have shape : exec after (mv .t3 .s2 :: restoreContext .s11) =
      applyAll (0 + 4) (after.set .t3 (start.get .s2))
        (restoreContext .s11) := by
    rw [exec, applyAll_cons, apply_mv, s2]
  have savedMoved : Saved state (after.set .t3 (start.get .s2)) := by
    refine savedAfter.of_same ?_ fun _ _ => rfl
    rw [State.set_get_of_ne _ _ (by decide)]
  obtain ⟨registers, table⟩ := savedMoved.restore (0 + 4)
  refine ⟨rfl, rfl, rfl, rfl, ?_, ?_, ?_, ?_⟩
  · apply leave_target
    rw [shape, restoreContext, restore_get_of_not_mem _ _ _ (by decide),
      State.set_get_self _ _ (by decide)]
  · simp only [leave, shape]
    exact registers
  · simp only [Tabled, leave, shape]
    rw [table, restoreContext, restore_mem]
  · intro pointer inside
    simp only [leave, shape]
    rw [restoreContext, restore_mem, State.set_mem, bytes pointer inside]

/-- Everything is saved and the address was looked for. -/
theorem ready_static :
    let saved := exec state (captureContext .s11 ++ mv .s1 .ra :: skipRedZone)
    Ready state saved ∧ ∀ register, register ≠ .s1 → register ≠ .sp →
      saved.get register = state.get register := by
  intro saved
  let position : Word :=
    0 + BitVec.ofNat 64 (4 * (captureContext .s11).length)
  have shape : saved = applyAll position (exec state (captureContext .s11))
      (mv .s1 .ra :: skipRedZone) :=
    applyAll_append 0 state _ _
  refine ⟨?_, ?_⟩
  · rw [shape]
    exact ready_captureContext.computes position (by decide) (by decide)
  · intro register notS1 notSp
    have others : ∀ inst ∈ mv .s1 .ra :: skipRedZone,
        inst.target ≠ some register := by
      intro inst member
      rcases List.mem_cons.mp member with rfl | rest
      · rintro ⟨⟩
        exact notS1 rfl
      · obtain rfl := List.mem_singleton.mp rest
        rintro ⟨⟩
        exact notSp rfl
    rw [shape, applyAll_get_of_not_target _ _ others, exec, captureContext,
      captureContextTlb, applyAll_append, capture_get, capture_get]

/-- A search after everything was saved. -/
theorem Ready.load_entry
    {ready : State}
    {entry : Word}
    {offset : Nat}
    (isReady : Ready state ready)
    (apart : Apart entry 16 (state.get .s11) ExecutionContext.size)
    (inside : offset + 8 ≤ 16) :
    ready.mem.load (entry + BitVec.ofNat 64 offset) 8 =
      state.mem.load (entry + BitVec.ofNat 64 offset) 8 := by
  apply load_of_same (by decide)
  intro pointer within
  apply isReady.bytes
  intro overlap
  exact apart pointer (within_entry inside within)
    (Nat.lt_trans overlap (by decide))

theorem rerouteStatic_spec
    (follows : runtime.Follows kept translated)
    (placed : Placed kept translated state (state.get .t3))
    (ran : rerouteStatic runtime state = some result) :
    result.address = state.get .t3 ∧
      Resumed state (Spared kept translated state result.entry) result ∧
      Tabled state result ∧
      ((Found state result ∧ ∀ pointer, kept pointer →
          ¬ Within (state.get .s11) contextSize pointer →
            result.state.mem pointer = state.mem pointer) ∨
        ∃ called returned,
          Missed runtime kept True state called returned result ∧
            ∀ pointer, kept pointer → result.state.mem pointer =
              updateEntry returned.mem result.entry result.address
                result.riscv pointer) := by
  obtain ⟨ready, registers⟩ := @ready_static state
  rw [rerouteStatic] at ran
  generalize exec state (captureContext .s11 ++ mv .s1 .ra :: skipRedZone) =
    saved at ran ready registers
  have tlb : tlbEntry saved (saved.get .t3) =
      tlbEntry state (state.get .t3) := by
    rw [tlbEntry, tlbEntry, registers .s9 (by decide) (by decide),
      registers .t3 (by decide) (by decide)]
  let search := exec saved computeTlbAddress
  have searched : search = ((saved.set .t0 (hash (saved.get .t3))).set .s4
      (tlbEntry state (state.get .t3))).set .t0
        (saved.mem.load (tlbEntry state (state.get .t3)) 8) := by
    simp only [search]
    rw [computeTlbAddress_spec, tlb]
  have searchReady : Ready state search :=
    ready.computes 0 (by decide) (by decide)
  have entry : search.get .s4 = tlbEntry state (state.get .t3) := by
    rw [searched, State.set_get_of_ne _ _ (by decide),
      State.set_get_self _ _ (by decide)]
  have address : search.get .t3 = state.get .t3 := by
    rw [searched, State.set_get_of_ne _ _ (by decide),
      State.set_get_of_ne _ _ (by decide), State.set_get_of_ne _ _ (by decide),
      registers .t3 (by decide) (by decide)]
  have key : isHit search = (state.mem.load (tlbEntry state (state.get .t3)) 8
      == state.get .t3) := by
    have same := ready.load_entry placed.entry (by decide : 0 + 8 ≤ 16)
    rw [BitVec.add_zero] at same
    simp only [search]
    rw [isHit_computeTlbAddress, tlb, same,
      registers .t3 (by decide) (by decide)]
  change (if isHit search then _ else _) = _ at ran
  by_cases hit : isHit search = true
  · rw [if_pos hit] at ran
    have loaded : exec search loadTlbEntry = search.set .s2
        (state.mem.load (tlbEntry state (state.get .t3) + 8) 8) := by
      rw [loadTlbEntry_spec, entry]
      exact congrArg (State.set search .s2)
        (searchReady.load_entry placed.entry (by decide : 8 + 8 ≤ 16))
    have start : Saved state (exec search loadTlbEntry) :=
      searchReady.saved.computes (by decide) (by decide)
    obtain ⟨isAddress, isEntry, isHit, riscv, target, back, table, bytes⟩ :=
      start.finishStatic follows placed.kept ran
    rw [loaded, State.set_get_self _ _ (by decide)] at riscv
    rw [key, beq_iff_eq] at hit
    rw [entry] at isEntry
    have same : ∀ pointer, kept pointer →
        ¬ Within (state.get .s11) contextSize pointer →
          result.state.mem pointer = state.mem pointer := by
      intro pointer inside outside
      rw [bytes pointer inside, loaded, State.set_mem,
        searchReady.bytes pointer outside]
    refine ⟨isAddress, ⟨target, by rw [isEntry, isAddress], back, ?_⟩, table,
      .inl ⟨⟨isHit, by rw [isEntry, isAddress, hit], by rw [isEntry, riscv]⟩,
        same⟩⟩
    rintro pointer ⟨inside, -, outside, -⟩
    exact same pointer inside outside
  · rw [if_neg hit] at ran
    simp only [Option.bind_eq_bind, Option.bind_eq_some_iff] at ran
    obtain ⟨logged, log, returned, translates, ended⟩ := ran
    have backedUp : exec search [mv .s2 .t3] =
        search.set .s2 (state.get .t3) := by
      rw [exec, applyAll_cons, apply_mv, applyAll_nil, address]
    have backedUpReady : Ready state (exec search [mv .s2 .t3]) :=
      searchReady.computes 0 (by decide) (by decide)
    obtain ⟨called, calling⟩ := calling_of_log follows.reroutes
      backedUpReady.saved placed.kept (by decide)
      (fun (_ : True) pc other registers _ =>
        show (applyAll pc other [mv .a1 .s2]).get .a1 = state.get .t3 by
        rw [applyAll_cons, apply_mv, applyAll_nil,
          State.set_get_self _ _ (by decide), registers .s2 (by decide),
          backedUp, State.set_get_self _ _ (by decide)]) log
    have calls := calling.returns follows.translate placed.translated translates
    have returnedEntry : returned.get .s4 =
        tlbEntry state (state.get .t3) := by
      rw [calls.registers .s4 (by decide), backedUp,
        State.set_get_of_ne _ _ (by decide), entry]
    have returnedAddress : returned.get .s2 = state.get .t3 := by
      rw [calls.registers .s2 (by decide), backedUp,
        State.set_get_self _ _ (by decide)]
    let memory := updateEntry returned.mem (tlbEntry state (state.get .t3))
      (state.get .t3) (returned.get .a0)
    have updated : exec returned (updateTlbEntry ++ [mv .s2 .a0]) =
        State.set { returned with mem := memory } .s2 (returned.get .a0) := by
      rw [exec, applyAll_append, updateTlbEntry_spec, applyAll_cons, apply_mv,
        returnedEntry, returnedAddress]
      rfl
    have start : Saved state (exec returned (updateTlbEntry ++ [mv .s2 .a0])) := by
      rw [updated]
      refine calls.after.of_same (State.set_get_of_ne _ _ (by decide)) ?_
      intro pointer inside
      exact updateEntry_outside fun overlap =>
        placed.entry pointer overlap inside.1
    obtain ⟨isAddress, isEntry, isHit, riscv, target, back, table, bytes⟩ :=
      start.finishStatic follows placed.kept ended
    rw [updated, State.set_get_self _ _ (by decide)] at riscv
    rw [entry] at isEntry
    refine ⟨isAddress, ⟨target, by rw [isEntry, isAddress], back, ?_⟩, table,
      .inr ⟨called, returned, ⟨isHit, ?_, calls.translate, ?_, calls.before, ?_,
        calls.table backedUpReady, riscv⟩, ?_⟩⟩
    · rintro pointer ⟨inside, translatedInside, outside, notEntry⟩
      rw [isEntry] at notEntry
      rw [bytes pointer inside, updated, State.set_mem]
      change memory pointer = _
      rw [show memory pointer = _ from updateEntry_outside notEntry,
        calls.bytesAfter pointer inside translatedInside,
        backedUpReady.bytes pointer outside]
    · intro same
      rw [isEntry, isAddress] at same
      rw [key, beq_iff_eq] at hit
      exact hit same
    · intro _
      rw [isAddress, calls.argument trivial]
    · intro pointer inside outside
      rw [calls.bytesBefore pointer inside,
        backedUpReady.bytes pointer outside]
    · intro pointer inside
      rw [bytes pointer inside, updated, isEntry, isAddress, riscv]
      rfl

/-- `reroute_static` does not come back only if the translation does not. -/
theorem rerouteStatic_none
    (follows : Dispatcher.Follows kept runtime.reroutes)
    (keptContext : ∀ pointer, KeptContext (state.get .s11) pointer →
      kept pointer)
    (logs : ∀ state, runtime.reroutes state ≠ none)
    (updates : ∀ state, runtime.updateBasicBlock state ≠ none)
    (ran : rerouteStatic runtime state = none) :
    ∃ called, runtime.translate called = none ∧
      called.get .a1 = state.get .t3 := by
  have finishes : ∀ start address entry hit,
      finishStatic runtime start address entry hit ≠ none := by
    intro start address entry hit
    obtain ⟨updated, update⟩ := Option.ne_none_iff_exists'.mp
      (updates ((exec start [ld .a0 .s11 (BitVec.ofNat 16 codegenOffset),
        mv .a1 .s1, mv .a2 .s2]).set .ra runtime.returnAddress))
    rw [finishStatic, Runtime.call, update]
    exact Option.some_ne_none _
  obtain ⟨ready, registers⟩ := @ready_static state
  rw [rerouteStatic] at ran
  generalize exec state (captureContext .s11 ++ mv .s1 .ra :: skipRedZone) =
    saved at ran ready registers
  let search := exec saved computeTlbAddress
  have searchReady : Ready state search :=
    ready.computes 0 (by decide) (by decide)
  have address : search.get .t3 = state.get .t3 := by
    simp only [search]
    rw [exec, applyAll_get_of_not_target 0 _ (by decide),
      registers .t3 (by decide) (by decide)]
  change (if isHit search then _ else _) = _ at ran
  by_cases hit : isHit search = true
  · rw [if_pos hit] at ran
    exact absurd ran (finishes _ _ _ _)
  · rw [if_neg hit] at ran
    simp only [Option.bind_eq_bind, Option.bind_eq_none_iff] at ran
    have backedUp : (exec search [mv .s2 .t3]).get .s2 = state.get .t3 := by
      rw [exec, applyAll_cons, apply_mv, applyAll_nil,
        State.set_get_self _ _ (by decide), address]
    have backedUpReady : Ready state (exec search [mv .s2 .t3]) :=
      searchReady.computes 0 (by decide) (by decide)
    obtain ⟨logged, log⟩ := Option.ne_none_iff_exists'.mp (logs _)
    obtain ⟨called, calling⟩ := calling_of_log follows backedUpReady.saved
      keptContext (by decide)
      (fun (_ : True) pc other registers _ =>
        show (applyAll pc other [mv .a1 .s2]).get .a1 = state.get .t3 by
        rw [applyAll_cons, apply_mv, applyAll_nil,
          State.set_get_self _ _ (by decide), registers .s2 (by decide),
          backedUp]) log
    refine ⟨called, ?_, calling.argument trivial⟩
    rw [← calling.translate]
    cases translates : runtime.translateCall logged [mv .a1 .s2] with
    | none => rfl
    | some returned =>
        exact absurd (ran logged log returned translates) (finishes _ _ _ _)

end

end Dispatcher
end Oxtra
