import Oxtra.Dispatcher.Reroute
import Mathlib.Tactic.Common

/-!
# The saved context

Registers that are stored into the context come back from it.  In between, the
called functions keep what the calling convention says and the context.
-/

namespace Oxtra
namespace Dispatcher

open RiscV
open Encoding

/-! ## Slots -/

/-- Number of bytes of the registers in the context. -/
def contextSize : Nat := 0xF8

/-- The slots are double words of the context that do not overlap. -/
def ValidSlots (slots : List (Register × Nat)) : Prop :=
  (∀ slot ∈ slots, slot.2 % 8 = 0 ∧ slot.2 + 8 ≤ contextSize) ∧
    (slots.map Prod.snd).Nodup

instance (slots : List (Register × Nat)) : Decidable (ValidSlots slots) :=
  inferInstanceAs (Decidable (_ ∧ _))

/-- Address of a slot. -/
def slotAddress (context : Word) (offset : Nat) : Word :=
  context + BitVec.ofNat 64 offset

theorem ValidSlots.tail
    {slot : Register × Nat}
    {slots : List (Register × Nat)}
    (valid : ValidSlots (slot :: slots)) :
    ValidSlots slots :=
  ⟨fun other member => valid.1 other (List.mem_cons_of_mem _ member),
    (List.nodup_cons.mp valid.2).2⟩

theorem slotAddress_sub
    (context : Word)
    (first second : Nat) :
    slotAddress context second - slotAddress context first =
      BitVec.ofNat 64 second - BitVec.ofNat 64 first := by
  apply BitVec.eq_of_toNat_eq
  have contextLt := context.isLt
  simp only [slotAddress, BitVec.toNat_sub, BitVec.toNat_add,
    BitVec.toNat_ofNat]
  omega

/-- A slot is not changed by a store to another one. -/
theorem load_store_slot
    (mem : Memory)
    (context value : Word)
    {first second : Nat}
    (firstBound : first % 8 = 0 ∧ first + 8 ≤ contextSize)
    (secondBound : second % 8 = 0 ∧ second + 8 ≤ contextSize)
    (different : first ≠ second) :
    (mem.store (slotAddress context first) 8 value).load
        (slotAddress context second) 8 =
      mem.load (slotAddress context second) 8 := by
  simp only [contextSize] at firstBound secondBound
  have distance : (slotAddress context second -
      slotAddress context first).toNat =
        (2 ^ 64 - first + second) % 2 ^ 64 := by
    rw [slotAddress_sub, BitVec.toNat_sub, BitVec.toNat_ofNat,
      BitVec.toNat_ofNat]
    omega
  apply Memory.load_store_of_apart
  · omega
  · omega

/-- What is behind the slots is not changed by a store to one of them. -/
theorem store_slot_outside
    (mem : Memory)
    (value : Word)
    {context pointer : Word}
    {offset : Nat}
    (bound : offset + 8 ≤ contextSize)
    (outside : contextSize ≤ (pointer - context).toNat) :
    mem.store (slotAddress context offset) 8 value pointer = mem pointer := by
  apply Memory.store_of_outside
  have contextLt := context.isLt
  have pointerLt := pointer.isLt
  simp only [contextSize] at bound outside
  rw [BitVec.toNat_sub] at outside
  rw [slotAddress, BitVec.toNat_sub, BitVec.toNat_add, BitVec.toNat_ofNat]
  omega

theorem signExtend_small {imm : BitVec 12} (small : imm.toNat < 0x800) :
    imm.signExtend 64 = BitVec.ofNat 64 imm.toNat := by
  have positive : imm.msb = false := by
    rw [BitVec.msb_eq_decide, decide_eq_false_iff_not]
    omega
  rw [BitVec.signExtend_eq_setWidth_of_msb_false positive,
    BitVec.ofNat_toNat]

theorem store_offset {offset : Nat} (bound : offset < 0x800) :
    ((BitVec.ofNat 32 offset).setWidth 12).signExtend 64 =
      BitVec.ofNat 64 offset := by
  have value : ((BitVec.ofNat 32 offset).setWidth 12).toNat = offset := by
    rw [BitVec.toNat_setWidth, BitVec.toNat_ofNat]
    omega
  rw [signExtend_small (by omega), value]

theorem load_offset {offset : Nat} (bound : offset < 0x800) :
    ((BitVec.ofNat 16 offset).setWidth 12).signExtend 64 =
      BitVec.ofNat 64 offset := by
  have value : ((BitVec.ofNat 16 offset).setWidth 12).toNat = offset := by
    rw [BitVec.toNat_setWidth, BitVec.toNat_ofNat]
    omega
  rw [signExtend_small (by omega), value]

theorem slot_lt {offset : Nat} (bound : offset + 8 ≤ contextSize) :
    offset < 0x800 := by
  simp only [contextSize] at bound
  omega

/-! ## Saving registers -/

theorem capture_cons
    (pc : Word)
    (state : State)
    (base : Register)
    (slot : Register × Nat)
    (slots : List (Register × Nat))
    (bound : slot.2 + 8 ≤ contextSize) :
    applyAll pc state (capture base (slot :: slots)) =
      applyAll (pc + 4)
        (state.store (slotAddress (state.get base) slot.2) 8
          (state.get slot.1)) (capture base slots) := by
  rw [capture, List.map_cons, applyAll_cons]
  simp only [sd, store, Inst.apply, effectiveAddress,
    store_offset (slot_lt bound)]
  rfl

@[simp] theorem capture_get
    (pc : Word)
    (state : State)
    (base : Register)
    (slots : List (Register × Nat))
    (register : Register) :
    (applyAll pc state (capture base slots)).get register =
      state.get register := by
  apply applyAll_get_of_not_target
  intro inst member
  obtain ⟨slot, -, rfl⟩ := List.mem_map.mp member
  simp [sd, store, Inst.target]

theorem capture_outside
    (pc : Word)
    (state : State)
    {base : Register}
    {slots : List (Register × Nat)}
    {pointer : Word}
    (valid : ValidSlots slots)
    (outside : contextSize ≤ (pointer - state.get base).toNat) :
    (applyAll pc state (capture base slots)).mem pointer =
      state.mem pointer := by
  induction slots generalizing pc state with
  | nil => rfl
  | cons slot slots inductionHypothesis =>
      have bound := (valid.1 slot List.mem_cons_self).2
      rw [capture_cons pc state base slot slots bound,
        inductionHypothesis _ _ valid.tail (by rwa [State.store_get]),
        State.store_mem, store_slot_outside _ _ bound outside]

theorem capture_load_other
    (pc : Word)
    (state : State)
    {base : Register}
    {slots : List (Register × Nat)}
    {offset : Nat}
    (valid : ValidSlots slots)
    (bound : offset % 8 = 0 ∧ offset + 8 ≤ contextSize)
    (absent : offset ∉ slots.map Prod.snd) :
    (applyAll pc state (capture base slots)).mem.load
        (slotAddress (state.get base) offset) 8 =
      state.mem.load (slotAddress (state.get base) offset) 8 := by
  induction slots generalizing pc state with
  | nil => rfl
  | cons slot slots inductionHypothesis =>
      have slotBound := valid.1 slot List.mem_cons_self
      rw [List.map_cons, List.mem_cons, not_or] at absent
      have rest := inductionHypothesis (pc + 4)
        (state.store (slotAddress (state.get base) slot.2) 8
          (state.get slot.1)) valid.tail absent.2
      rw [State.store_get] at rest
      rw [capture_cons pc state base slot slots slotBound.2, rest,
        State.store_mem,
        load_store_slot _ _ _ slotBound bound (Ne.symm absent.1)]

theorem capture_load
    (pc : Word)
    (state : State)
    {base : Register}
    {slots : List (Register × Nat)}
    {slot : Register × Nat}
    (valid : ValidSlots slots)
    (member : slot ∈ slots) :
    (applyAll pc state (capture base slots)).mem.load
        (slotAddress (state.get base) slot.2) 8 =
      state.get slot.1 := by
  induction slots generalizing pc state with
  | nil => cases member
  | cons head slots inductionHypothesis =>
      have bound := valid.1 head List.mem_cons_self
      have fresh := (List.nodup_cons.mp valid.2).1
      rw [capture_cons pc state base head slots bound.2]
      rcases List.mem_cons.mp member with rfl | inside
      · have kept := @capture_load_other (pc + 4)
          (state.store (slotAddress (state.get base) slot.2) 8
            (state.get slot.1)) base _ _ valid.tail bound fresh
        rw [State.store_get] at kept
        rw [kept, State.store_mem, Memory.load_store_double]
      · have rest := inductionHypothesis (pc + 4)
          (state.store (slotAddress (state.get base) head.2) 8
            (state.get head.1)) valid.tail inside
        rwa [State.store_get, State.store_get] at rest

/-! ## Restoring registers -/

theorem restore_cons
    (pc : Word)
    (state : State)
    (base : Register)
    (slot : Register × Nat)
    (slots : List (Register × Nat))
    (bound : slot.2 + 8 ≤ contextSize) :
    applyAll pc state (restore base (slot :: slots)) =
      applyAll (pc + 4)
        (state.set slot.1
          (state.mem.load (slotAddress (state.get base) slot.2) 8))
        (restore base slots) := by
  rw [restore, List.map_cons, applyAll_cons]
  simp only [ld, load, Inst.apply, effectiveAddress,
    load_offset (slot_lt bound)]
  rfl

@[simp] theorem restore_mem
    (pc : Word)
    (state : State)
    (base : Register)
    (slots : List (Register × Nat)) :
    (applyAll pc state (restore base slots)).mem = state.mem := by
  apply applyAll_mem_of_target
  intro inst member
  obtain ⟨slot, -, rfl⟩ := List.mem_map.mp member
  rfl

theorem restore_get_of_not_mem
    (pc : Word)
    (state : State)
    (base : Register)
    {slots : List (Register × Nat)}
    {register : Register}
    (absent : register ∉ slots.map Prod.fst) :
    (applyAll pc state (restore base slots)).get register =
      state.get register := by
  apply applyAll_get_of_not_target
  intro inst member
  obtain ⟨slot, inside, rfl⟩ := List.mem_map.mp member
  rintro ⟨⟩
  exact absent (List.mem_map_of_mem inside)

/-- Every register gets its slot, if the slot of the pointer to the context
holds this pointer. -/
theorem restore_get
    (pc : Word)
    (state : State)
    {base : Register}
    {slots : List (Register × Nat)}
    {slot : Register × Nat}
    (valid : ValidSlots slots)
    (registers : (slots.map Prod.fst).Nodup)
    (nonzero : slot.1 ≠ .zero)
    (baseSlot : ∀ offset, (base, offset) ∈ slots ->
      state.mem.load (slotAddress (state.get base) offset) 8 = state.get base)
    (member : slot ∈ slots) :
    (applyAll pc state (restore base slots)).get slot.1 =
      state.mem.load (slotAddress (state.get base) slot.2) 8 := by
  induction slots generalizing pc state with
  | nil => cases member
  | cons head slots inductionHypothesis =>
      have bound := valid.1 head List.mem_cons_self
      rw [List.map_cons, List.nodup_cons] at registers
      rw [restore_cons pc state base head slots bound.2]
      have sameBase : (state.set head.1 (state.mem.load
          (slotAddress (state.get base) head.2) 8)).get base =
            state.get base := by
        by_cases equal : head.1 = base
        · have loaded := baseSlot head.2 (by simp [← equal])
          rw [loaded, ← equal, State.set_get]
          split
          case isTrue zero => rw [zero, State.get_zero]
          case isFalse => rw [if_pos rfl]
        · exact State.set_get_of_ne _ _ (Ne.symm equal)
      rcases List.mem_cons.mp member with rfl | inside
      · rw [restore_get_of_not_mem _ _ _ registers.1,
          State.set_get_self _ _ nonzero]
      · rw [inductionHypothesis (pc + 4) _ valid.tail registers.2
          (fun offset there => by
            rw [sameBase]
            exact baseSlot offset (List.mem_cons_of_mem _ there)) inside,
          sameBase]
        rfl

/-! ## Regions of the memory -/

/-- An address within some bytes. -/
def Within (start : Word) (size : Nat) (pointer : Word) : Prop :=
  (pointer - start).toNat < size

instance (start : Word) (size : Nat) (pointer : Word) :
    Decidable (Within start size pointer) :=
  inferInstanceAs (Decidable (_ < _))

/-- Two regions do not overlap. -/
def Apart (first : Word) (size : Nat) (second : Word) (other : Nat) : Prop :=
  ∀ pointer, Within first size pointer → ¬ Within second other pointer

theorem apart_of_sub
    {first second : Word}
    {size other : Nat}
    (behind : size ≤ (second - first).toNat)
    (inFront : (second - first).toNat + other ≤ 2 ^ 64) :
    Apart first size second other := by
  intro pointer inside overlap
  have firstLt := first.isLt
  have secondLt := second.isLt
  have pointerLt := pointer.isLt
  simp only [Within, BitVec.toNat_sub] at *
  omega

theorem store_of_not_within
    (mem : Memory)
    (value : Word)
    {address pointer : Word}
    {bytes : Nat}
    (outside : ¬ Within address bytes pointer) :
    mem.store address bytes value pointer = mem pointer :=
  Memory.store_of_outside mem value (Nat.le_of_not_lt outside)

theorem within_add
    {start : Word}
    {size offset : Nat}
    (inside : offset < size)
    (bound : size ≤ 2 ^ 64) :
    Within start size (start + BitVec.ofNat 64 offset) := by
  have startLt := start.isLt
  simp only [Within, BitVec.toNat_sub, BitVec.toNat_add, BitVec.toNat_ofNat]
  omega

/-- A load of bytes that are the same. -/
theorem load_of_same
    {first second : Memory}
    {address : Word}
    {bytes : Nat}
    (bound : bytes ≤ 2 ^ 64)
    (same : ∀ pointer, Within address bytes pointer →
      first pointer = second pointer) :
    first.load address bytes = second.load address bytes :=
  Memory.load_congr fun _ inside => same _ (within_add inside bound)

/-! ## The calling convention -/

/-- The registers that a function keeps. -/
def calleeSaved : List Register :=
  [.sp, .gp, .tp, .s0, .s1, .s2, .s3, .s4, .s5, .s6, .s7, .s8, .s9, .s10, .s11]

/-- A function follows the calling convention and does not write to some bytes
of the memory. -/
structure Follows
    (kept : Word → Prop)
    (function : State → Option State) : Prop where
  registers : ∀ {state after}, function state = some after →
    ∀ register ∈ calleeSaved, after.get register = state.get register
  bytes : ∀ {state after}, function state = some after →
    ∀ pointer, kept pointer → after.mem pointer = state.mem pointer

/-- The logger and the update of a block keep some bytes, the translation
possibly fewer. -/
structure Runtime.Follows
    (runtime : Runtime)
    (kept translated : Word → Prop) : Prop where
  reroutes : Dispatcher.Follows kept runtime.reroutes
  translate : Dispatcher.Follows translated runtime.translate
  updateBasicBlock : Dispatcher.Follows kept runtime.updateBasicBlock

/-- The bytes of the context apart from the address of the call table. -/
def KeptContext (context pointer : Word) : Prop :=
  Within context ExecutionContext.size pointer ∧
    ¬ Within (slotAddress context 0xB8) 8 pointer

/-- The slot of the call table is in the context. -/
theorem slot_context
    {context pointer : Word}
    (inside : Within (slotAddress context 0xB8) 8 pointer) :
    Within context ExecutionContext.size pointer := by
  have contextLt := context.isLt
  have pointerLt := pointer.isLt
  simp only [Within, slotAddress, ExecutionContext.size, BitVec.toNat_sub,
    BitVec.toNat_add, BitVec.toNat_ofNat] at inside ⊢
  omega

/-! ## What is saved -/

/-- The context holds the registers of another state, apart from the address of
the call table, which the translation may have changed. -/
structure Saved (first state : State) : Prop where
  context : state.get .s11 = first.get .s11
  slots : ∀ slot ∈ restoreSlots, slot.1 ≠ .s8 →
    state.mem.load (slotAddress (first.get .s11) slot.2) 8 = first.get slot.1

theorem validSlots_restoreSlots : ValidSlots restoreSlots := by decide

theorem restoreSlots_bounds :
    ∀ slot ∈ restoreSlots, slot.1 ≠ .s8 →
      slot.2 % 8 = 0 ∧ slot.2 + 8 ≤ contextSize ∧ slot.2 ≠ 0xB8 := by
  decide

/-- The bytes of a slot other than that of the call table. -/
theorem keptContext_slot
    {context pointer : Word}
    {slot : Register × Nat}
    (member : slot ∈ restoreSlots)
    (notTable : slot.1 ≠ .s8)
    (inside : Within (slotAddress context slot.2) 8 pointer) :
    KeptContext context pointer := by
  have bounds := restoreSlots_bounds slot member notTable
  have contextLt := context.isLt
  have pointerLt := pointer.isLt
  simp only [Within, slotAddress, contextSize, BitVec.toNat_sub,
    BitVec.toNat_add, BitVec.toNat_ofNat] at inside bounds
  constructor
  · simp only [Within, ExecutionContext.size, BitVec.toNat_sub]
    omega
  · simp only [Within, slotAddress, BitVec.toNat_sub, BitVec.toNat_add,
      BitVec.toNat_ofNat]
    omega

theorem Saved.of_same
    {first state after : State}
    (saved : Saved first state)
    (context : after.get .s11 = state.get .s11)
    (bytes : ∀ pointer, KeptContext (first.get .s11) pointer →
      after.mem pointer = state.mem pointer) :
    Saved first after := by
  refine ⟨context.trans saved.context, ?_⟩
  intro slot member notTable
  rw [← saved.slots slot member notTable]
  apply load_of_same (by decide)
  intro pointer inside
  exact bytes pointer (keptContext_slot member notTable inside)

/-- Code that computes and loads keeps what is saved. -/
theorem Saved.computes
    {first state : State}
    {code : List Inst}
    (saved : Saved first state)
    (computes : ∀ inst ∈ code, inst.target.isSome = true)
    (context : ∀ inst ∈ code, inst.target ≠ some .s11) :
    Saved first (exec state code) := by
  apply saved.of_same
  · exact applyAll_get_of_not_target 0 state context
  · intro pointer _
    rw [exec, applyAll_mem_of_target 0 state computes]

theorem Saved.returns
    {first state after : State}
    {kept : Word → Prop}
    {runtime : Runtime}
    {function : State → Option State}
    (saved : Saved first state)
    (follows : Follows kept function)
    (context : ∀ pointer, KeptContext (first.get .s11) pointer → kept pointer)
    (returned : runtime.call function state = some after) :
    Saved first after := by
  have registers := follows.registers returned .s11 (by decide)
  rw [State.set_get_of_ne _ _ (by decide)] at registers
  apply saved.of_same registers
  intro pointer inside
  exact follows.bytes returned pointer (context pointer inside)

theorem Saved.store
    {first state : State}
    {address value : Word}
    {bytes : Nat}
    (saved : Saved first state)
    (apart : Apart address bytes (first.get .s11) ExecutionContext.size) :
    Saved first (state.store address bytes value) := by
  refine saved.of_same rfl ?_
  intro pointer inside
  apply store_of_not_within
  intro overlap
  exact apart pointer overlap inside.1

/-- The registers come back from the context. -/
theorem Saved.restore
    {first state : State}
    (saved : Saved first state)
    (pc : Word) :
    let final := applyAll pc state (restoreContext .s11)
    (∀ slot ∈ restoreSlots, slot.1 ≠ .s8 →
      final.get slot.1 = first.get slot.1) ∧
    final.get .s8 = state.mem.load (slotAddress (first.get .s11) 0xB8) 8 := by
  have baseSlot : ∀ offset, (Register.s11, offset) ∈ restoreSlots →
      state.mem.load (slotAddress (state.get .s11) offset) 8 =
        state.get .s11 := by
    intro offset member
    have loaded := saved.slots (.s11, offset) member
      (show Register.s11 ≠ .s8 by decide)
    rw [saved.context, loaded]
  have restored : ∀ slot ∈ restoreSlots,
      (applyAll pc state (restoreContext .s11)).get slot.1 =
        state.mem.load (slotAddress (first.get .s11) slot.2) 8 := by
    intro slot member
    have nonzero : slot.1 ≠ .zero := by
      revert member
      revert slot
      decide
    rw [restoreContext, restore_get pc state validSlots_restoreSlots (by decide)
      nonzero baseSlot member, saved.context]
  refine ⟨?_, restored (.s8, 0xB8) (by decide)⟩
  intro slot member notTable
  rw [restored slot member, saved.slots slot member notTable]

end Dispatcher
end Oxtra
