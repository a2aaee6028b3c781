import Oxtra.Library.RiscV.Semantics

/-!
# Code that computes into some registers

Such code has no jumps and does not access the memory: it changes the registers
it computes into and nothing else.  Other code also stores into a region of the
memory.
-/

namespace Oxtra
namespace RiscV

/-- The base register of a load or a store. -/
def Inst.base : Inst -> Option Register
  | .load _ _ rs1 _ | .store _ rs1 _ _ => some rs1
  | _ => none

/-- The instruction computes something. -/
def Inst.isComputation (inst : Inst) : Bool :=
  inst.isStraight && inst.base.isNone

/-- The instruction computes into one of some registers. -/
def Inst.computesInto (registers : List Register) (inst : Inst) : Bool :=
  inst.isComputation && match inst.target with
    | some register => register ∈ registers
    | none => false

theorem Inst.computesInto_iff
    {registers : List Register}
    {inst : Inst} :
    inst.computesInto registers = true ↔
      inst.isComputation = true ∧
        ∃ register ∈ registers, inst.target = some register := by
  unfold computesInto
  cases target : inst.target <;> simp

theorem Inst.computesInto_of_target
    {registers : List Register}
    {inst : Inst}
    {register : Register}
    (computation : inst.isComputation = true)
    (target : inst.target = some register)
    (inside : register ∈ registers) :
    inst.computesInto registers = true :=
  Inst.computesInto_iff.mpr ⟨computation, register, inside, target⟩

/-- Every instruction computes into one of some registers. -/
def ComputesInto (registers : List Register) (code : List Inst) : Prop :=
  ∀ inst ∈ code, inst.computesInto registers = true

namespace ComputesInto

variable {registers : List Register} {code : List Inst}

@[simp] theorem nil : ComputesInto registers [] := by
  simp [ComputesInto]

@[simp] theorem cons_iff {inst : Inst} :
    ComputesInto registers (inst :: code) ↔
      inst.computesInto registers = true ∧ ComputesInto registers code := by
  simp [ComputesInto]

theorem singleton
    {inst : Inst}
    {register : Register}
    (computation : inst.isComputation = true)
    (target : inst.target = some register)
    (inside : register ∈ registers) :
    ComputesInto registers [inst] :=
  cons_iff.mpr ⟨Inst.computesInto_of_target computation target inside, nil⟩

@[simp] theorem append_iff {further : List Inst} :
    ComputesInto registers (code ++ further) ↔
      ComputesInto registers code ∧ ComputesInto registers further := by
  simp only [ComputesInto, List.mem_append]
  constructor
  · intro computes
    exact ⟨fun inst member => computes inst (Or.inl member),
      fun inst member => computes inst (Or.inr member)⟩
  · rintro ⟨first, second⟩ inst (member | member)
    · exact first inst member
    · exact second inst member

theorem mono
    {more : List Register}
    (computes : ComputesInto registers code)
    (subset : ∀ register ∈ registers, register ∈ more) :
    ComputesInto more code := by
  intro inst member
  obtain ⟨computation, register, inside, target⟩ :=
    Inst.computesInto_iff.mp (computes inst member)
  exact Inst.computesInto_iff.mpr
    ⟨computation, register, subset register inside, target⟩

theorem straight
    (computes : ComputesInto registers code) :
    ∀ inst ∈ code, inst.isStraight = true := by
  intro inst member
  have computation := (Inst.computesInto_iff.mp (computes inst member)).1
  exact (Bool.and_eq_true_iff.mp computation).1

theorem base_none
    (computes : ComputesInto registers code) :
    ∀ inst ∈ code, inst.base = none := by
  intro inst member
  have computation := (Inst.computesInto_iff.mp (computes inst member)).1
  exact Option.isNone_iff_eq_none.mp (Bool.and_eq_true_iff.mp computation).2

theorem get
    (computes : ComputesInto registers code)
    (pc : Word)
    (state : State)
    {register : Register}
    (kept : register ∉ registers) :
    (applyAll pc state code).get register = state.get register := by
  apply applyAll_get_of_not_target
  intro inst member same
  obtain ⟨-, target, inside, equal⟩ :=
    Inst.computesInto_iff.mp (computes inst member)
  rw [equal] at same
  cases same
  exact kept inside

theorem mem
    (computes : ComputesInto registers code)
    (pc : Word)
    (state : State) :
    (applyAll pc state code).mem = state.mem := by
  apply applyAll_mem_of_target
  intro inst member
  obtain ⟨-, target, -, equal⟩ :=
    Inst.computesInto_iff.mp (computes inst member)
  rw [equal]
  rfl

end ComputesInto

/-! ## Stores into a region -/

/-- The instruction stores into a region behind the address in a register. -/
def Inst.storesInto (base : Register) (lower upper : Nat) : Inst -> Bool
  | .store kind rs1 _ imm =>
      rs1 = base && lower ≤ imm.toNat && imm.toNat + kind.width.bytes ≤ upper
  | _ => false

/-- The code computes into some registers and stores into a region of the
memory behind the address in another register. -/
structure Updates
    (registers : List Register)
    (base : Register)
    (lower upper : Nat)
    (code : List Inst) : Prop where
  each : ∀ inst ∈ code, inst.computesInto registers = true ∨
    inst.storesInto base lower upper = true

namespace Updates

variable {registers : List Register} {base : Register} {lower upper : Nat}
variable {code : List Inst}

@[simp] theorem nil : Updates registers base lower upper [] :=
  ⟨by simp⟩

theorem append
    {further : List Inst}
    (first : Updates registers base lower upper code)
    (second : Updates registers base lower upper further) :
    Updates registers base lower upper (code ++ further) := by
  constructor
  intro inst member
  rcases List.mem_append.mp member with left | right
  · exact first.each inst left
  · exact second.each inst right

theorem cons
    {inst : Inst}
    (head : inst.computesInto registers = true ∨
      inst.storesInto base lower upper = true)
    (tail : Updates registers base lower upper code) :
    Updates registers base lower upper (inst :: code) := by
  constructor
  intro other member
  rcases List.mem_cons.mp member with rfl | further
  · exact head
  · exact tail.each other further

theorem mono
    {more : List Register}
    (updates : Updates registers base lower upper code)
    (subset : ∀ register ∈ registers, register ∈ more) :
    Updates more base lower upper code := by
  constructor
  intro inst member
  rcases updates.each inst member with computes | stores
  · obtain ⟨computation, register, inside, target⟩ :=
      Inst.computesInto_iff.mp computes
    exact Or.inl (Inst.computesInto_iff.mpr
      ⟨computation, register, subset register inside, target⟩)
  · exact Or.inr stores

theorem straight
    (updates : Updates registers base lower upper code) :
    ∀ inst ∈ code, inst.isStraight = true := by
  intro inst member
  rcases updates.each inst member with computes | stores
  · have computation := (Inst.computesInto_iff.mp computes).1
    exact (Bool.and_eq_true_iff.mp computation).1
  · cases inst <;> first | rfl | cases stores

/-- Every access goes through the base register. -/
theorem base_eq
    (updates : Updates registers base lower upper code) :
    ∀ inst ∈ code, inst.base = none ∨ inst.base = some base := by
  intro inst member
  rcases updates.each inst member with computes | stores
  · have computation := (Inst.computesInto_iff.mp computes).1
    exact Or.inl
      (Option.isNone_iff_eq_none.mp (Bool.and_eq_true_iff.mp computation).2)
  · cases inst
    case store =>
      simp only [Inst.storesInto, Bool.and_eq_true,
        decide_eq_true_eq] at stores
      exact Or.inr (congrArg some stores.1.1)
    all_goals cases stores

theorem get
    (updates : Updates registers base lower upper code)
    (pc : Word)
    (state : State)
    {register : Register}
    (kept : register ∉ registers) :
    (applyAll pc state code).get register = state.get register := by
  apply applyAll_get_of_not_target
  intro inst member same
  rcases updates.each inst member with computes | stores
  · obtain ⟨-, target, inside, equal⟩ := Inst.computesInto_iff.mp computes
    rw [equal] at same
    cases same
    exact kept inside
  · cases inst <;> first | cases stores | cases same

end Updates

/-- A store into a region changes nothing outside of it. -/
theorem Inst.apply_mem_of_storesInto
    {inst : Inst}
    {base : Register}
    {lower upper : Nat}
    (stores : inst.storesInto base lower upper = true)
    (bound : upper ≤ 2 ^ 11)
    (pc : Word)
    (state : State)
    {pointer : Word}
    (outside : ¬ (lower ≤ (pointer - state.get base).toNat ∧
      (pointer - state.get base).toNat < upper)) :
    (inst.apply pc state).mem pointer = state.mem pointer := by
  cases inst
  case store kind rs1 rs2 imm =>
    simp only [storesInto, Bool.and_eq_true, decide_eq_true_eq] at stores
    obtain ⟨⟨rfl, above⟩, below⟩ := stores
    have nonempty : 0 < kind.width.bytes := by cases kind <;> decide
    have positive : imm.msb = false := by
      rw [BitVec.msb_eq_false_iff_two_mul_lt]
      omega
    have offset : (imm.signExtend 64).toNat = imm.toNat := by
      rw [BitVec.signExtend_eq_setWidth_of_msb_false positive,
        BitVec.toNat_setWidth_of_le (by decide)]
    have distance : pointer - (state.get rs1 + imm.signExtend 64) =
        pointer - state.get rs1 - imm.signExtend 64 := by
      rw [sub_sub]
    apply Memory.store_of_outside
    rw [effectiveAddress, distance, BitVec.toNat_sub, offset]
    have immLt := imm.isLt
    have distanceLt := (pointer - state.get rs1).isLt
    omega
  all_goals cases stores

/-- The memory outside of the region is kept. -/
theorem Updates.mem
    {registers : List Register}
    {base : Register}
    {lower upper : Nat}
    {code : List Inst}
    (updates : Updates registers base lower upper code)
    (bound : upper ≤ 2 ^ 11)
    (kept : base ∉ registers)
    (pc : Word)
    (state : State)
    {pointer : Word}
    (outside : ¬ (lower ≤ (pointer - state.get base).toNat ∧
      (pointer - state.get base).toNat < upper)) :
    (applyAll pc state code).mem pointer = state.mem pointer := by
  induction code generalizing pc state with
  | nil => rfl
  | cons inst rest inductionHypothesis =>
      have head : Updates registers base lower upper [inst] :=
        ⟨fun other member => updates.each other (by simp_all)⟩
      have tail : Updates registers base lower upper rest :=
        ⟨fun other member => updates.each other
          (List.mem_cons_of_mem _ member)⟩
      have same : (inst.apply pc state).get base = state.get base :=
        head.get pc state kept
      rw [applyAll_cons, inductionHypothesis tail _ _ (by rwa [same])]
      rcases updates.each inst List.mem_cons_self with computes | stores
      · obtain ⟨-, target, -, equal⟩ := Inst.computesInto_iff.mp computes
        rw [Inst.apply_mem_of_target pc state (by rw [equal]; rfl)]
      · exact Inst.apply_mem_of_storesInto stores bound pc state outside

end RiscV
end Oxtra
