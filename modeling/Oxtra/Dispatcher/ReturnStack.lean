import Oxtra.Helper.LoadImmediate
import Oxtra.Instructions.ControlFlow
import Oxtra.Library.Ring

/-!
# The return stack

Calls push the offsets of their call table entries onto a ring of 256 words at
the start of a page, and returns pop them.  The register `s1` points behind the
newest word.
-/

namespace Oxtra
namespace ReturnStack

open RiscV
open Helper

/-! ## The ring in the memory -/

/-- Number of words of the ring. -/
def length : Nat := 0x100

/-- Address of a word of the ring. -/
def cell (base : Word) (index : Nat) : Word := base + BitVec.ofNat 64 (4 * index)

/-- The return stack of a state. -/
structure Represents
    (base : Word)
    (state : State)
    (ring : Ring length (BitVec 32)) : Prop where
  position : state.get returnStack = cell base ring.position.val
  cells : ∀ index : Fin length,
    state.mem.load (cell base index.val) 4 = (ring.cells index).setWidth 64

/-- The mask of the return stack clears the bit behind its offsets. -/
theorem mask_eq :
    (((0b101111111111 : BitVec 16).setWidth 12).signExtend 64 : Word) =
      ~~~(BitVec.twoPow 64 10) := by
  decide

theorem and_not_twoPow_add (word : Word) :
    (word &&& ~~~(BitVec.twoPow 64 10)) + (word &&& BitVec.twoPow 64 10) =
      word := by
  rw [BitVec.add_eq_or_of_and_eq_zero]
  · ext index inside
    simp only [BitVec.getElem_or, BitVec.getElem_and, BitVec.getElem_not]
    cases word[index] <;> cases (BitVec.twoPow 64 10)[index] <;> rfl
  · ext index inside
    simp only [BitVec.getElem_and, BitVec.getElem_not, BitVec.getElem_zero]
    cases word[index] <;> cases (BitVec.twoPow 64 10)[index] <;> rfl

/-- A pointer that went behind the ring comes back to its start. -/
theorem wrap
    {base : Word}
    {offset : Nat}
    (aligned : base.toNat % 0x1000 = 0)
    (bound : offset < 0x800) :
    (base + BitVec.ofNat 64 offset) &&&
        ((0b101111111111 : BitVec 16).setWidth 12).signExtend 64 =
      base + BitVec.ofNat 64 (offset % 0x400) := by
  have baseLt := base.isLt
  have split := and_not_twoPow_add (base + BitVec.ofNat 64 offset)
  rw [BitVec.and_twoPow] at split
  have bit : (base + BitVec.ofNat 64 offset).getLsbD 10 =
      decide (0x400 ≤ offset) := by
    rw [BitVec.getLsbD, Nat.testBit_eq_decide_div_mod_eq, decide_eq_decide,
      BitVec.toNat_add, BitVec.toNat_ofNat]
    omega
  have power : (BitVec.twoPow 64 10).toNat = 0x400 := by decide
  rw [bit] at split
  rw [mask_eq]
  generalize masked : (base + BitVec.ofNat 64 offset) &&&
    ~~~(BitVec.twoPow 64 10) = result at *
  apply BitVec.eq_of_toNat_eq
  have numbers := congrArg BitVec.toNat split
  have resultLt := result.isLt
  by_cases high : 0x400 ≤ offset
  · simp only [high, decide_true, if_true, BitVec.toNat_add, power,
      BitVec.toNat_ofNat] at numbers ⊢
    omega
  · simp only [high, decide_false, Bool.false_eq_true, if_false,
      BitVec.toNat_add, BitVec.toNat_ofNat] at numbers ⊢
    omega

/-! ## Pushes and pops -/

section Steps

variable
  {base : Word}
  {state : State}
  {ring : Ring length (BitVec 32)}

theorem cell_sub
    {first second : Nat}
    (firstLt : first < length)
    (secondLt : second < length)
    (different : first ≠ second) :
    4 ≤ (cell base second - cell base first).toNat ∧
      (cell base second - cell base first).toNat + 4 ≤ 2 ^ 64 := by
  have baseLt := base.isLt
  simp only [length] at *
  simp only [cell, BitVec.toNat_sub, BitVec.toNat_add, BitVec.toNat_ofNat]
  omega

/-- The code of a call pushes the low word of its offset. -/
theorem Represents.push
    (represents : Represents base state ring)
    (aligned : base.toNat % 0x1000 = 0)
    (pc tableOffset : Word) :
    Represents base (applyAll pc state (Call.pushOffset tableOffset))
      (ring.push (tableOffset.setWidth 32)) := by
  have bound : ring.position.val < 0x100 := ring.position.isLt
  have position := represents.position
  have wrapped := @wrap base (4 * ring.position.val + 4) aligned (by omega)
  have next : 4 * (Ring.next ring.position).val =
      (4 * ring.position.val + 4) % 0x400 := by
    simp only [Ring.next, length]
    omega
  have sum : cell base ring.position.val + 4 =
      base + BitVec.ofNat 64 (4 * ring.position.val + 4) := by
    rw [cell, BitVec.add_assoc, BitVec.ofNat_add]
    rfl
  rw [Call.pushOffset, applyAll_append, applyAll_loadImmediate (by decide)]
  have source : (state.set .t0 tableOffset).get returnStack =
      cell base ring.position.val := by
    rw [State.set_get_of_ne _ _ (by decide), position]
  simp only [applyAll_cons, applyAll_nil, Encoding.sw, Encoding.store,
    Encoding.addi, Encoding.andi, Encoding.opImm, Inst.apply, effectiveAddress,
    OpImm.eval]
  constructor
  · rw [State.set_get_self _ _ (by decide), State.set_get_self _ _ (by decide),
      State.store_get, source]
    rw [show (((4 : BitVec 16).setWidth 12).signExtend 64 : Word) = 4 by decide,
      sum, wrapped, ← next]
    rfl
  · intro index
    have inside : index.val < 0x100 := index.isLt
    simp only [State.set_mem, State.store_mem, source]
    rw [show (((0 : BitVec 32).setWidth 12).signExtend 64 : Word) = 0#64 by
      decide, BitVec.add_zero, State.set_get_self _ _ (by decide)]
    simp only [Ring.push]
    by_cases same : index = ring.position
    · rw [if_pos same, same]
      apply BitVec.eq_of_toNat_eq
      have stored := Memory.load_store_self state.mem
        (cell base ring.position.val) tableOffset (by decide : 4 ≤ 8)
      rw [BitVec.toNat_setWidth, BitVec.toNat_setWidth]
      change _ = tableOffset.toNat % 256 ^ 4 at stored
      rw [show Store.sw.width.bytes = 4 from rfl, stored]
      omega
    · have different : ring.position.val ≠ index.val := fun equal =>
        same (Fin.ext equal.symm)
      obtain ⟨behind, inFront⟩ :=
        @cell_sub base _ _ ring.position.isLt index.isLt different
      rw [if_neg same, ← represents.cells index]
      exact Memory.load_store_of_apart _ _ behind inFront

/-- The code of a return pops the newest word. -/
theorem Represents.pop
    (represents : Represents base state ring)
    (aligned : base.toNat % 0x1000 = 0)
    (pc : Word) :
    Represents base (applyAll pc state Ret.popOffset) ring.pop ∧
      (applyAll pc state Ret.popOffset).get .t0 = ring.top.setWidth 64 := by
  have bound : ring.position.val < 0x100 := ring.position.isLt
  have position := represents.position
  have wrapped := @wrap base (4 * ring.position.val + 0x3fc) aligned (by omega)
  have previous : 4 * (Ring.previous ring.position).val =
      (4 * ring.position.val + 0x3fc) % 0x400 := by
    simp only [Ring.previous, length]
    omega
  have sum : cell base ring.position.val + 0x3fc =
      base + BitVec.ofNat 64 (4 * ring.position.val + 0x3fc) := by
    rw [cell, BitVec.add_assoc, BitVec.ofNat_add]
    rfl
  have moved : (state.get returnStack +
      ((0b001111111100 : BitVec 16).setWidth 12).signExtend 64) &&&
        ((0b101111111111 : BitVec 16).setWidth 12).signExtend 64 =
      cell base (Ring.previous ring.position).val := by
    rw [position, show ((0b001111111100 : BitVec 16).setWidth 12).signExtend 64
      = (0x3fc : Word) by decide, sum, wrapped, ← previous]
    rfl
  simp only [Ret.popOffset, applyAll_cons, applyAll_nil, Encoding.addi,
    Encoding.andi, Encoding.lwu, Encoding.load, Encoding.opImm, Inst.apply,
    OpImm.eval, effectiveAddress]
  refine ⟨⟨?_, ?_⟩, ?_⟩
  · rw [State.set_get_of_ne _ _ (by decide), State.set_get_self _ _ (by decide),
      State.set_get_self _ _ (by decide), moved]
    rfl
  · exact represents.cells
  · rw [State.set_get_self _ _ (by decide), State.set_get_self _ _ (by decide),
      State.set_get_self _ _ (by decide), moved,
      show (((0 : BitVec 16).setWidth 12).signExtend 64 : Word) = 0#64 by decide,
      BitVec.add_zero]
    exact represents.cells (Ring.previous ring.position)

/-- The words of the ring, when the register points to one of them. -/
def ringOf (base : Word) (state : State) (position : Fin length) :
    Ring length (BitVec 32) where
  position := position
  cells index := (state.mem.load (cell base index.val) 4).setWidth 32

theorem represents_ringOf
    {position : Fin length}
    (points : state.get returnStack = cell base position.val) :
    Represents base state (ringOf base state position) := by
  refine ⟨points, ?_⟩
  intro index
  have bound := Memory.loadNat_lt state.mem (cell base index.val) 4
  apply BitVec.eq_of_toNat_eq
  rw [ringOf, BitVec.toNat_setWidth, BitVec.toNat_setWidth,
    Memory.load_toNat _ _ (by decide)]
  omega

/-- The ring is the same in states with the same pointer and the same bytes. -/
theorem Represents.congr
    {after : State}
    (represents : Represents base state ring)
    (pointer : after.get returnStack = state.get returnStack)
    (bytes : ∀ index < 4 * length,
      after.mem (base + BitVec.ofNat 64 index) =
        state.mem (base + BitVec.ofNat 64 index)) :
    Represents base after ring := by
  refine ⟨pointer.trans represents.position, ?_⟩
  intro index
  have inside : index.val < length := index.isLt
  rw [← represents.cells index]
  apply Memory.load_congr
  intro offset small
  rw [cell, BitVec.add_assoc, ← BitVec.ofNat_add]
  exact bytes _ (by omega)

end Steps

/-! ## Runs -/

/-- Calls and returns that are executed one after the other.  In between, other
code runs that does not know about the return stack. -/
inductive Run (base : Word) :
    State -> List (Ring.Event (BitVec 32)) -> State -> Prop where
  | start (state : State) : Run base state [] state
  | call {first state : State} {events : List (Ring.Event (BitVec 32))}
      (pc tableOffset : Word) :
      Run base first events state ->
        Run base first (events ++ [.push (tableOffset.setWidth 32)])
          (applyAll pc state (Call.pushOffset tableOffset))
  | ret {first state : State} {events : List (Ring.Event (BitVec 32))}
      (pc : Word) :
      Run base first events state ->
        Run base first (events ++ [.pop]) (applyAll pc state Ret.popOffset)
  | other {first state after : State} {events : List (Ring.Event (BitVec 32))} :
      Run base first events state ->
        after.get returnStack = state.get returnStack ->
          (∀ index < 4 * length,
            after.mem (base + BitVec.ofNat 64 index) =
              state.mem (base + BitVec.ofNat 64 index)) ->
            Run base first events after

/-- The register points to a word of the ring. -/
def InRing (base : Word) (state : State) : Prop :=
  (state.get returnStack).toNat % 4 = 0 ∧
    base.toNat ≤ (state.get returnStack).toNat ∧
      (state.get returnStack).toNat < base.toNat + 4 * length

theorem Represents.inRing
    {base : Word}
    {state : State}
    {ring : Ring length (BitVec 32)}
    (represents : Represents base state ring)
    (aligned : base.toNat % 0x1000 = 0) :
    InRing base state := by
  have bound : ring.position.val < 0x100 := ring.position.isLt
  have baseLt := base.isLt
  have pointer : (state.get returnStack).toNat =
      base.toNat + 4 * ring.position.val := by
    rw [represents.position, cell, BitVec.toNat_add, BitVec.toNat_ofNat]
    omega
  refine ⟨?_, ?_, ?_⟩
  · rw [pointer]
    omega
  · rw [pointer]
    omega
  · rw [pointer]
    exact Nat.add_lt_add_left (by simp only [length]; omega) _

/-- A run does to the ring what its calls and returns do. -/
theorem Run.represents
    {base : Word}
    {first state : State}
    {events : List (Ring.Event (BitVec 32))}
    {ring : Ring length (BitVec 32)}
    (run : Run base first events state)
    (aligned : base.toNat % 0x1000 = 0)
    (represents : Represents base first ring) :
    Represents base state (ring.run events) := by
  induction run with
  | start => exact represents
  | call pc tableOffset _ inductionHypothesis =>
      rw [Ring.run, List.foldl_append]
      exact inductionHypothesis.push aligned pc tableOffset
  | ret pc _ inductionHypothesis =>
      rw [Ring.run, List.foldl_append]
      exact (inductionHypothesis.pop aligned pc).1
  | other _ pointer bytes inductionHypothesis =>
      exact inductionHypothesis.congr pointer bytes

/-- From a register at the start of its page on, the register always points
into the ring, and a return pops what the call that it belongs to pushed, if
the calls in between are not nested more than 255 deep. -/
theorem run_pops_pushed
    {base : Word}
    {first state : State}
    {events : List (Ring.Event (BitVec 32))}
    (aligned : base.toNat % 0x1000 = 0)
    (start : first.get returnStack = base)
    (run : Run base first events state) :
    InRing base state ∧
      ∀ before value between, events = before ++ .push value :: between ->
        Ring.Stays 255 0 between ->
          ∀ pc, (applyAll pc state Ret.popOffset).get .t0 =
            value.setWidth 64 := by
  have initial := @represents_ringOf base first ⟨0, by decide⟩
    (by simp [start, cell])
  have reached := run.represents aligned initial
  refine ⟨reached.inRing aligned, ?_⟩
  rintro before value between rfl balanced pc
  rw [(reached.pop aligned pc).2, Ring.run, List.foldl_append]
  exact congrArg (BitVec.setWidth 64)
    (Ring.top_of_balanced _ (by decide) balanced)

/-- Two returns without calls, and then a call around another one.  The ring is
full of fives before. -/
theorem run_pops_pushed_nested :
    ([Ret.popOffset, Ret.popOffset, Call.pushOffset 0x20, Call.pushOffset 0x30,
        Ret.popOffset, Ret.popOffset].foldl (applyAll 0)
      ⟨fun _ => 0x10000, fun _ => 5⟩).get .t0 = 0x20 :=
  (run_pops_pushed (by decide) rfl
    (.ret 0 (.call 0 0x30 (.call 0 0x20 (.ret 0 (.ret 0
      (.start ⟨fun _ => 0x10000, fun _ => 5⟩))))))).2 [.pop, .pop] 0x20
        [.push 0x30, .pop] rfl (by simp [Ring.Stays]) 0

end ReturnStack
end Oxtra
