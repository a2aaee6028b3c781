import Oxtra.Library.RiscV.Assertions
import Oxtra.Library.RiscV.Frame

/-!
# Code that spares a region

Code may store to the memory through any register and may still leave a region
behind the address in one register alone.  Whether it does so can be seen from
its instructions, if the other stores and the calls stay out of the region.
-/

namespace Oxtra
namespace RiscV

/-! ## Instructions -/

/-- A region of the memory behind the address in a register, and the registers
that are kept with it. -/
structure Region where
  kept : List Register
  base : Register
  offset : Nat
  bytes : Nat

namespace Region

/-- The region can be addressed by stores, and its address is kept. -/
structure WellPlaced (region : Region) : Prop where
  bound : region.offset + region.bytes ≤ 2 ^ 11
  address : region.base ∈ region.kept

/-- The address of a byte of the region. -/
def pointer (region : Region) (state : State) (index : Nat) : Word :=
  state.get region.base + BitVec.ofNat 64 (region.offset + index)

/-- The region and the registers are the same in two states. -/
structure Same (region : Region) (before after : State) : Prop where
  registers : ∀ register ∈ region.kept,
    after.get register = before.get register
  mem : ∀ index < region.bytes,
    after.mem (region.pointer before index) =
      before.mem (region.pointer before index)

theorem Same.refl (region : Region) (state : State) :
    region.Same state state :=
  ⟨fun _ _ => rfl, fun _ _ => rfl⟩

theorem Same.pointer_eq
    {region : Region}
    {before after : State}
    (placed : region.WellPlaced)
    (same : region.Same before after)
    (index : Nat) :
    region.pointer after index = region.pointer before index := by
  rw [pointer, pointer, same.registers _ placed.address]

theorem Same.trans
    {region : Region}
    {before middle after : State}
    (placed : region.WellPlaced)
    (first : region.Same before middle)
    (second : region.Same middle after) :
    region.Same before after where
  registers register inside :=
    (second.registers register inside).trans (first.registers register inside)
  mem index inside := by
    have pointers := first.pointer_eq placed index
    rw [← pointers, second.mem index inside, pointers,
      first.mem index inside]

end Region

/-- The instruction writes none of some registers. -/
def Inst.keeps (registers : List Register) (inst : Inst) : Bool :=
  match inst.target with
  | some register => register ∉ registers
  | none => true

/-- A store through the base of the region does not reach it. -/
def Inst.storesBeside (region : Region) : Inst -> Bool
  | .store kind rs1 _ imm =>
      rs1 ≠ region.base ||
        (imm.toNat < 2 ^ 11 &&
          (imm.toNat + kind.width.bytes ≤ region.offset ||
            region.offset + region.bytes ≤ imm.toNat))
  | _ => true

/-- The instruction leaves the region and the registers as they are. -/
def Inst.spares (region : Region) (inst : Inst) : Bool :=
  inst.keeps region.kept && inst.storesBeside region

theorem Inst.keeps_of_target
    {registers : List Register}
    {inst : Inst}
    {register : Register}
    (target : inst.target = some register) :
    inst.keeps registers = true ↔ register ∉ registers := by
  rw [keeps, target]
  exact decide_eq_true_iff

/-- Every instruction spares the region. -/
def Spares (region : Region) (code : List Inst) : Prop :=
  ∀ inst ∈ code, inst.spares region = true

namespace Spares

variable {region : Region} {code : List Inst}

@[simp] theorem nil : Spares region [] := by
  simp [Spares]

@[simp] theorem cons_iff {inst : Inst} :
    Spares region (inst :: code) ↔
      inst.spares region = true ∧ Spares region code := by
  simp [Spares]

@[simp] theorem append_iff {further : List Inst} :
    Spares region (code ++ further) ↔
      Spares region code ∧ Spares region further := by
  simp only [Spares, List.mem_append]
  constructor
  · intro spares
    exact ⟨fun inst member => spares inst (Or.inl member),
      fun inst member => spares inst (Or.inr member)⟩
  · rintro ⟨first, second⟩ inst (member | member)
    · exact first inst member
    · exact second inst member

/-- Code that computes into other registers spares the region. -/
theorem of_computesInto
    {registers : List Register}
    (computes : ComputesInto registers code)
    (outside : ∀ register ∈ registers, register ∉ region.kept) :
    Spares region code := by
  intro inst member
  obtain ⟨computation, register, inside, target⟩ :=
    Inst.computesInto_iff.mp (computes inst member)
  have beside : inst.storesBeside region = true := by
    cases inst <;> first | rfl | cases target
  rw [Inst.spares, beside, Bool.and_true, Inst.keeps_of_target target]
  exact outside register inside

end Spares

/-! ## Steps -/

/-- The stores of some code through other registers stay out of a region. -/
def Environment.StoresOutside
    (env : Environment)
    (region : Region)
    (code : List Inst) : Prop :=
  ∀ kind rs1 rs2 imm state, .store kind rs1 rs2 imm ∈ code ->
    rs1 ≠ region.base ->
    env.permits (.store kind rs1 rs2 imm) state = true ->
    ∀ index < region.bytes,
      kind.width.bytes ≤ (region.pointer state index -
        effectiveAddress state rs1 imm).toNat

theorem Environment.StoresOutside.mono
    {env : Environment}
    {region : Region}
    {code more : List Inst}
    (outside : env.StoresOutside region more)
    (subset : ∀ inst ∈ code, inst ∈ more) :
    env.StoresOutside region code :=
  fun kind rs1 rs2 imm state member =>
    outside kind rs1 rs2 imm state (subset _ member)

/-- The stores and the calls of some code stay out of a region. -/
structure Environment.StaysOutside
    (env : Environment)
    (region : Region)
    (code : List Inst) : Prop where
  stores : env.StoresOutside region code
  calls : ∀ target state returned, env.call target state = some returned ->
    region.Same state returned

section Steps

variable {region : Region} {env : Environment} {code : List Inst}

/-- A write of another register. -/
theorem Region.same_set
    {register : Register}
    (outside : register ∉ region.kept)
    (state : State)
    (value : Word) :
    region.Same state (state.set register value) where
  registers other inside := by
    have different : other ≠ register := by
      rintro rfl
      exact outside inside
    exact State.set_get_of_ne _ _ different
  mem _ _ := rfl

/-- The instruction stores to a byte of the region. -/
def Inst.StoresInto (region : Region) (state : State) : Inst -> Prop
  | .store kind rs1 _ imm =>
      ∃ index < region.bytes, (region.pointer state index -
        effectiveAddress state rs1 imm).toNat < kind.width.bytes
  | _ => False

/-- An access through the base of the region that is not to its bytes. -/
theorem Region.bytes_le_of_beside
    (placed : region.WellPlaced)
    {imm : BitVec 12}
    {bytes : Nat}
    (positive : imm.toNat < 2 ^ 11)
    (apart : imm.toNat + bytes ≤ region.offset ∨
      region.offset + region.bytes ≤ imm.toNat)
    (width : bytes ≤ 8)
    {index : Nat}
    (inside : index < region.bytes)
    (state : State) :
    bytes ≤ (region.pointer state index -
      effectiveAddress state region.base imm).toNat := by
  have sign : imm.msb = false := by
    rw [BitVec.msb_eq_false_iff_two_mul_lt]
    omega
  have offset : (imm.signExtend 64).toNat = imm.toNat := by
    rw [BitVec.signExtend_eq_setWidth_of_msb_false sign,
      BitVec.toNat_setWidth_of_le (by decide)]
  have bound := placed.bound
  rw [Region.pointer, effectiveAddress, add_sub_add_left_eq_sub,
    BitVec.toNat_sub, offset, BitVec.toNat_ofNat]
  omega

/-- No store of sparing code reaches the region. -/
theorem Inst.not_storesInto
    (placed : region.WellPlaced)
    (outside : env.StoresOutside region code)
    {inst : Inst}
    (member : inst ∈ code)
    (spares : inst.spares region = true)
    {state : State}
    (permitted : env.permits inst state = true) :
    ¬ inst.StoresInto region state := by
  rw [Inst.spares, Bool.and_eq_true] at spares
  obtain ⟨-, stores⟩ := spares
  cases inst
  case store kind rs1 rs2 imm =>
    rintro ⟨index, inside, reached⟩
    have width : kind.width.bytes ≤ 8 := by cases kind <;> decide
    by_cases based : rs1 = region.base
    · simp only [storesBeside, based, ne_eq, not_true_eq_false,
        decide_false, Bool.false_or, Bool.and_eq_true, Bool.or_eq_true,
        decide_eq_true_eq] at stores
      have beside := Region.bytes_le_of_beside placed stores.1 stores.2 width
        inside state
      rw [based] at reached
      omega
    · have beside := outside kind rs1 rs2 imm state member based permitted
        index inside
      omega
  all_goals exact id

/-- Some instruction that computes, loads or stores. -/
theorem Inst.apply_same
    (placed : region.WellPlaced)
    (outside : env.StaysOutside region code)
    {inst : Inst}
    (member : inst ∈ code)
    (spares : inst.spares region = true)
    {state : State}
    (permitted : env.permits inst state = true)
    (pc : Word) :
    region.Same state (inst.apply pc state) := by
  have notInto := inst.not_storesInto placed outside.stores member spares
    permitted
  rw [Inst.spares, Bool.and_eq_true] at spares
  cases inst
  case store kind rs1 rs2 imm =>
    refine ⟨fun _ _ => rfl, fun index inside => ?_⟩
    apply Memory.store_of_outside
    by_contra reached
    exact notInto ⟨index, inside, by omega⟩
  all_goals first
    | exact Region.same_set ((keeps_of_target rfl).mp spares.1) _ _
    | exact Region.Same.refl region _

/-- The region is the same behind an instruction, wherever it goes. -/
theorem Inst.behind_same
    (placed : region.WellPlaced)
    (outside : env.StaysOutside region code)
    {inst : Inst}
    (member : inst ∈ code)
    (spares : inst.spares region = true)
    {before state : State}
    (same : region.Same before state)
    (permitted : env.permits inst state = true) :
    env.Behind (region.Same before) (region.Same before) inst state := by
  intro index
  have stays := inst.apply_same placed outside member spares permitted
    (env.address index)
  rw [Inst.spares, Bool.and_eq_true] at spares
  cases inst
  case jal rd offset =>
    exact same.trans placed
      (Region.same_set ((keeps_of_target rfl).mp spares.1) _ _)
  case branch kind rs1 rs2 offset => exact same
  case ecall => exact same
  case jalr rd rs1 offset =>
    have linked := same.trans placed
      (Region.same_set ((keeps_of_target rfl).mp spares.1) state
        (env.address (index + 1)))
    simp only
    split
    · rename_i returned called
      exact linked.trans placed (outside.calls _ _ _ called)
    · exact linked
  all_goals exact same.trans placed stays

/-- A run of sparing code ends with the same region. -/
theorem run_same
    (placed : region.WellPlaced)
    (outside : env.StaysOutside region code)
    (spares : Spares region code)
    {steps index : Nat}
    {state after : State}
    (runs : (env.run code steps index state).state? = some after) :
    region.Same state after := by
  rw [← List.append_nil code] at runs
  have asserts (after : State) (same : region.Same state after) :
      env.Asserts (region.Same state) [] (region.Same state) after := same
  exact Environment.invariant_of_run
    (fun inst member _ same => inst.behind_same placed outside member
      (spares inst member) same)
    (avoids_zero _ _ code) (by simp) asserts (Region.Same.refl region state)
    (Nat.le_total _ _) runs

/-- No store that a run of sparing code performs reaches the region. -/
theorem not_storesInto_of_mem_trace
    (placed : region.WellPlaced)
    (outside : env.StoresOutside region code)
    (spares : Spares region code)
    {steps index : Nat}
    {state : State}
    {visit : Inst × State}
    (member : visit ∈ env.trace code steps index state)
    (permitted : env.permits visit.1 visit.2 = true) :
    ¬ visit.1.StoresInto region visit.2 :=
  have inCode := Environment.mem_of_mem_trace member
  visit.1.not_storesInto placed outside inCode (spares _ inCode) permitted

/-- Sparing code leaves the region as it is, however it ends. -/
theorem Environment.Exits.same
    (placed : region.WellPlaced)
    (outside : env.StaysOutside region code)
    (spares : Spares region code)
    {state after : State}
    {exit : Exit}
    (exits : env.Exits code state exit)
    (ends : exit.state? = some after) :
    region.Same state after := by
  obtain ⟨steps, runs⟩ := exits
  have reached : (env.run code steps 0 state).state? = some after := by
    rw [runs]
    exact ends
  exact run_same placed outside spares reached

end Steps

/-! ## Loads -/

/-- A load through the base of the region is not from it. -/
def Inst.loadsBeside (region : Region) : Inst -> Bool
  | .load kind _ rs1 imm =>
      rs1 ≠ region.base ||
        (imm.toNat < 2 ^ 11 &&
          (imm.toNat + kind.width.bytes ≤ region.offset ||
            region.offset + region.bytes ≤ imm.toNat))
  | _ => true

/-- No instruction loads from the region through its base. -/
def LoadsBeside (region : Region) (code : List Inst) : Prop :=
  ∀ inst ∈ code, inst.loadsBeside region = true

namespace LoadsBeside

variable {region : Region} {code : List Inst}

@[simp] theorem nil : LoadsBeside region [] := by
  simp [LoadsBeside]

@[simp] theorem cons_iff {inst : Inst} :
    LoadsBeside region (inst :: code) ↔
      inst.loadsBeside region = true ∧ LoadsBeside region code := by
  simp [LoadsBeside]

@[simp] theorem append_iff {further : List Inst} :
    LoadsBeside region (code ++ further) ↔
      LoadsBeside region code ∧ LoadsBeside region further := by
  simp only [LoadsBeside, List.forall_mem_append]

/-- Code whose accesses are stores. -/
theorem of_not_loads
    (stores : ∀ inst ∈ code, inst.base = none ∨ inst.target = none) :
    LoadsBeside region code := by
  intro inst member
  rcases stores inst member with none | none <;> cases inst <;>
    first | rfl | cases none

theorem of_computesInto
    {registers : List Register}
    (computes : ComputesInto registers code) :
    LoadsBeside region code :=
  of_not_loads fun inst member => Or.inl (computes.base_none inst member)

end LoadsBeside

/-- The instruction loads a byte of the region. -/
def Inst.LoadsFrom (region : Region) (state : State) : Inst -> Prop
  | .load kind _ rs1 imm =>
      ∃ index < region.bytes, (region.pointer state index -
        effectiveAddress state rs1 imm).toNat < kind.width.bytes
  | _ => False

/-- The loads of some code through other registers stay out of a region. -/
def Environment.LoadsOutside
    (env : Environment)
    (region : Region)
    (code : List Inst) : Prop :=
  ∀ kind rd rs1 imm state, .load kind rd rs1 imm ∈ code ->
    rs1 ≠ region.base ->
    env.permits (.load kind rd rs1 imm) state = true ->
    ∀ index < region.bytes,
      kind.width.bytes ≤ (region.pointer state index -
        effectiveAddress state rs1 imm).toNat

/-- No load that a run performs is from the region. -/
theorem not_loadsFrom_of_mem_trace
    {region : Region}
    {env : Environment}
    {code : List Inst}
    (placed : region.WellPlaced)
    (outside : env.LoadsOutside region code)
    (loads : LoadsBeside region code)
    {steps index : Nat}
    {state : State}
    {visit : Inst × State}
    (member : visit ∈ env.trace code steps index state)
    (permitted : env.permits visit.1 visit.2 = true) :
    ¬ visit.1.LoadsFrom region visit.2 := by
  have inCode := Environment.mem_of_mem_trace member
  have beside := loads _ inCode
  obtain ⟨inst, before⟩ := visit
  cases inst
  case load kind rd rs1 imm =>
    rintro ⟨index, inside, reached⟩
    have width : kind.width.bytes ≤ 8 := by cases kind <;> decide
    by_cases based : rs1 = region.base
    · simp only [Inst.loadsBeside, based, ne_eq, not_true_eq_false,
        decide_false, Bool.false_or, Bool.and_eq_true, Bool.or_eq_true,
        decide_eq_true_eq] at beside
      have apart := Region.bytes_le_of_beside placed beside.1 beside.2 width
        inside before
      rw [based] at reached
      exact Nat.not_lt.mpr apart reached
    · exact Nat.not_lt.mpr (outside kind rd rs1 imm before inCode based
        permitted index inside) reached
  all_goals exact id

end RiscV
end Oxtra
