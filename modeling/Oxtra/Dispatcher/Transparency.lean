import Oxtra.Dispatcher.Outcome
import Oxtra.Helper

/-!
# Rerouting does not show

The guest can not tell whether its code goes on by itself or through the
dispatcher.
-/

namespace Oxtra
namespace Dispatcher

open RiscV
open Helper

/-- The register with the address of the translation lookaside buffer. -/
def tlbAddress : Register := .s9

/-- The address that a routine looks for. -/
def Kind.address (kind : Kind) (state : State) : Word :=
  match kind with
  | static | dynamic => state.get .t3
  | «return» => state.mem.load (state.get .t1) 8

/-- The address that a routine looks for reaches the translation: where it is
read from the entry of the call table again, the logger leaves the entry
alone. -/
def Kind.Carries (kind : Kind) (runtime : Runtime) (state : State) : Prop :=
  kind = .return → ∀ before after, runtime.reroutes before = some after →
    ∀ pointer, Within (state.get .t1) 8 pointer →
      after.mem pointer = before.mem pointer

/-- `guest.map.call_table` of the context at an address. -/
def guestCallTable (context : Word) (mem : Memory) : Word :=
  mem.load (slotAddress context 0xB8) 8

/-- What the translation returned for the address that a routine looks for. -/
structure TranslatedTo
    (kind : Kind)
    (runtime : Runtime)
    (state : State)
    (riscv : Word)
    (called returned : State) : Prop where
  returns : runtime.translate called = some returned
  riscv : riscv = returned.get .a0
  argument : kind.Carries runtime state →
    called.get .a1 = kind.address state

/-- Where a routine goes on. -/
structure Reaches
    (kind : Kind)
    (runtime : Runtime)
    (state : State)
    (result : Rerouted) : Prop where
  target : result.target = result.riscv &&& ~~~(1 : Word)
  entry : result.entry = tlbEntry state (kind.address state)
  /-- The buffer is used if and only if its entry has the address. -/
  hit : result.hit = true ↔
    state.mem.load result.entry 8 = kind.address state
  found : result.hit = true →
    result.riscv = state.mem.load (result.entry + 8) 8
  missed : result.hit = false →
    ∃ called returned,
      TranslatedTo kind runtime state result.riscv called returned

theorem mapReg_slot (register : Fadec.Register) :
    ∃ slot ∈ restoreSlots, slot.1 = mapReg register ∧ slot.1 ≠ .s8 := by
  revert register
  decide

theorem reserved_slot :
    ∀ register ∈ [returnStack, tlbAddress, jumpTableAddress, contextAddress],
      ∃ slot ∈ restoreSlots, slot.1 = register ∧ slot.1 ≠ .s8 := by
  decide

theorem flagInfo_within
    {context pointer : Word}
    (inside : Within (context + FlagInfo.flagInfoOffset.setWidth 64) 0x48
      pointer) :
    KeptContext context pointer ∧ ¬ Within context contextSize pointer := by
  have offset : (FlagInfo.flagInfoOffset.setWidth 64).toNat = 0x200 := by
    decide
  have contextLt := context.isLt
  have pointerLt := pointer.isLt
  simp only [Within, BitVec.toNat_sub, BitVec.toNat_add, offset] at inside
  simp only [KeptContext, Within, slotAddress, contextSize,
    ExecutionContext.size, BitVec.toNat_sub, BitVec.toNat_add,
    BitVec.toNat_ofNat]
  omega

section Outcomes

variable {kind : Kind} {runtime : Runtime} {kept same : Word → Prop}
variable {carried : Prop} {state called returned : State} {result : Rerouted}

theorem Found.reaches
    (found : Found state result)
    (resumed : Resumed state same result)
    (address : result.address = kind.address state) :
    Reaches kind runtime state result where
  target := resumed.target
  entry := address ▸ resumed.entry
  hit := iff_of_true found.hit (found.key.trans address)
  found _ := found.riscv
  missed isMissed := by
    rw [found.hit] at isMissed
    cases isMissed

theorem Missed.reaches
    (missed : Missed runtime kept carried state called returned result)
    (resumed : Resumed state same result)
    (address : result.address = kind.address state)
    (carries : kind.Carries runtime state → carried) :
    Reaches kind runtime state result where
  target := resumed.target
  entry := address ▸ resumed.entry
  hit := by
    rw [missed.hit, ← address]
    exact iff_of_false Bool.false_ne_true missed.key
  found isFound := by
    rw [missed.hit] at isFound
    cases isFound
  missed _ := ⟨called, returned, missed.translate, missed.riscv,
    fun isCarried => (missed.argument (carries isCarried)).trans address⟩

end Outcomes

/-- Functions that do nothing. -/
def idle : Runtime where
  reroutes := some
  translate := some
  updateBasicBlock := some
  returnAddress := 0
  format := 0

theorem idle_follows (kept : Word → Prop) : idle.Follows kept kept := by
  have follows : Follows kept some := by
    constructor
    · rintro state after ⟨⟩ register _
      rfl
    · rintro state after ⟨⟩ pointer _
      rfl
  exact ⟨follows, follows, follows⟩

/-- A guest that wants to go to an address, in a memory of zeros. -/
def waiting (address callTable : Word) : State where
  regs
    | .t3 => address
    | .s8 => callTable
    | .s9 => 0x20000
    | .s11 => 0x10000
    | _ => 0
  mem := fun _ => 0

end Dispatcher
end Oxtra
