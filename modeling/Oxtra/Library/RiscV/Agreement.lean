import Oxtra.Library.RiscV.Frame

/-!
# States that agree outside some registers

Two runs may leave different words in some temporaries.  Code that computes
from the other registers keeps the rest of the registers the same in both.
-/

namespace Oxtra
namespace RiscV

/-- The registers of two states are the same outside some temporaries. -/
def AgreesOutside (temps : List Register) (first second : State) : Prop :=
  ∀ register, register ∉ temps -> first.get register = second.get register

/-- The instruction computes something from its address. -/
def Inst.readsAddress : Inst -> Bool
  | .auipc .. => true
  | _ => false

/-- The instruction computes from registers that are no temporaries, and not
from its address. -/
def Inst.computesOutside (temps : List Register) (inst : Inst) : Bool :=
  inst.isComputation && !inst.readsAddress &&
    inst.sources.all fun register => register ∉ temps

theorem Inst.computesOutside_of_sources
    {temps reads : List Register}
    {inst : Inst}
    (computes : inst.isComputation = true)
    (noAddress : inst.readsAddress = false)
    (sources : inst.sources = reads)
    (clean : ∀ register ∈ reads, register ∉ temps) :
    inst.computesOutside temps = true := by
  subst sources
  simpa [computesOutside, computes, noAddress] using clean

namespace AgreesOutside

variable {temps : List Register} {first second : State}

theorem refl (temps : List Register) (state : State) :
    AgreesOutside temps state state :=
  fun _ _ => rfl

theorem mono
    {more : List Register}
    (agrees : AgreesOutside temps first second)
    (subset : ∀ register ∈ temps, register ∈ more) :
    AgreesOutside more first second :=
  fun register outside =>
    agrees register fun member => outside (subset register member)

theorem set
    (agrees : AgreesOutside temps first second)
    (written : Register)
    {value other : Word}
    (same : value = other) :
    AgreesOutside temps (first.set written value)
      (second.set written other) := by
  intro register outside
  subst same
  exact State.set_get_congr (agrees register outside) written value

/-- A new value of a temporary on one side changes nothing. -/
theorem set_left
    (agrees : AgreesOutside temps first second)
    {written : Register}
    (member : written ∈ temps)
    (value : Word) :
    AgreesOutside temps (first.set written value) second := by
  intro register outside
  have different : register ≠ written := by
    rintro rfl
    exact outside member
  rw [State.set_get_of_ne _ _ different]
  exact agrees register outside

/-- An instruction that computes outside the temporaries keeps the
agreement. -/
theorem apply
    (agrees : AgreesOutside temps first second)
    {inst : Inst}
    (computes : inst.computesOutside temps = true)
    (firstPc secondPc : Word) :
    AgreesOutside temps (inst.apply firstPc first)
      (inst.apply secondPc second) := by
  rw [Inst.computesOutside, Bool.and_eq_true, Bool.and_eq_true,
    List.all_eq_true] at computes
  obtain ⟨⟨computation, notAddress⟩, clean⟩ := computes
  have reads : ∀ register ∈ inst.sources,
      first.get register = second.get register := by
    intro register member
    exact agrees register (by simpa using clean register member)
  cases inst
  case auipc => cases notAddress
  case load | store | jal | jalr | branch | ecall => cases computation
  all_goals
    apply agrees.set
    simp only [Inst.sources, List.forall_mem_cons] at reads
    simp only [reads]

/-- Code that computes outside the temporaries keeps the agreement. -/
theorem applyAll
    (agrees : AgreesOutside temps first second)
    {code : List Inst}
    (computes : ∀ inst ∈ code, inst.computesOutside temps = true)
    (firstPc secondPc : Word) :
    AgreesOutside temps (RiscV.applyAll firstPc first code)
      (RiscV.applyAll secondPc second code) := by
  induction code generalizing first second firstPc secondPc with
  | nil => exact agrees
  | cons inst rest inductionHypothesis =>
      rw [List.forall_mem_cons] at computes
      exact inductionHypothesis (agrees.apply computes.1 _ _) computes.2 _ _

end AgreesOutside
end RiscV
end Oxtra
