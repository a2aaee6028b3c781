import Oxtra.Elf
import Oxtra.Instruction
import Oxtra.Library.FlowGraph

/-!
# Looking ahead for flag requirements

`recursiveFlagRequirements` decodes from an address and follows direct
branches up to a depth, to find which of the flags in question some
instruction may require before another one updates them.  It answers for the
guest control-flow graph, which is stated here without reference to it.
-/

namespace Oxtra

section Decoding

variable (decoder : Fadec.Decoder) (elf : Elf)

/-- The instruction object at an address, if the bytes there decode. -/
def instructionAt (addr : BitVec 64) : Option Instruction :=
  (decoder.decode (elf.codeBytes addr) addr).map transformInstruction

/-- The address after an instruction at `addr`. -/
def Instruction.following (inst : Instruction) (addr : BitVec 64) :
    BitVec 64 :=
  addr + BitVec.ofNat 64 inst.size

variable {decoder elf} {addr : BitVec 64} {inst : Instruction}

theorem instructionAt_eq_some
    (fetched : instructionAt decoder elf addr = some inst) :
    ∃ entry, decoder.decode (elf.codeBytes addr) addr = some entry ∧
      inst = transformInstruction entry := by
  obtain ⟨entry, decoded, rfl⟩ := Option.map_eq_some_iff.mp fetched
  exact ⟨entry, decoded, rfl⟩

theorem instructionAt_size_pos
    (fetched : instructionAt decoder elf addr = some inst) :
    0 < inst.size := by
  obtain ⟨entry, decoded, rfl⟩ := instructionAt_eq_some fetched
  exact decoder.size_pos decoded

theorem instructionAt_address
    (fetched : instructionAt decoder elf addr = some inst) :
    inst.address = addr := by
  obtain ⟨entry, decoded, rfl⟩ := instructionAt_eq_some fetched
  exact decoder.address_eq decoded

theorem instructionAt_size_le
    (fetched : instructionAt decoder elf addr = some inst) :
    inst.size ≤ Fadec.maxInstructionSize ∧
      inst.size ≤ (elf.getSize addr 1).toNat := by
  obtain ⟨entry, decoded, rfl⟩ := instructionAt_eq_some fetched
  have bounded := decoder.size_le decoded
  rw [Elf.length_codeBytes] at bounded
  exact Nat.le_min.mp bounded

/-- Only addresses of the image decode. -/
theorem instructionAt_contains
    (fetched : instructionAt decoder elf addr = some inst) :
    elf.Contains addr := by
  by_contra outside
  have bounded := (instructionAt_size_le fetched).2
  rw [Elf.getSize, dif_neg outside] at bounded
  have positive := instructionAt_size_pos fetched
  simp at bounded
  omega

/-- An instruction ends at the image end or before it, and its address does
not wrap around. -/
theorem instructionAt_following
    (fetched : instructionAt decoder elf addr = some inst) :
    (inst.following addr).toNat = addr.toNat + inst.size ∧
      addr.toNat + inst.size ≤ elf.base.toNat + elf.size.toNat := by
  have inside := instructionAt_contains fetched
  have bounded := (instructionAt_size_le fetched).2
  have available := elf.getSize_le inside
  have endLt := elf.end_lt
  refine ⟨?_, by omega⟩
  rw [Instruction.following, BitVec.toNat_add, BitVec.toNat_ofNat]
  omega

/-- What an object built by the translator has declared. -/
theorem instructionAt_declares
    (fetched : instructionAt decoder elf addr = some inst) :
    inst.updateFlags = inst.instructionClass.declaredUpdate ∧
      inst.requireFlags = inst.instructionClass.declaredRequire ∧
      inst.endOfBlock = inst.instructionClass.endsBlock := by
  obtain ⟨entry, _, rfl⟩ := instructionAt_eq_some fetched
  exact ⟨rfl, rfl, rfl⟩

end Decoding

/-! ## The guest control-flow graph -/

/-- The control may go from an instruction, which `following` comes after, to
`successor`.  Nothing is known after an indirect branch or after a block end
that is not a branch. -/
def Instruction.MayContinueAt
    (inst : Instruction)
    (following successor : BitVec 64) : Prop :=
  match inst.controlFlowDimension with
  | 0 => inst.endOfBlock = true ∨ successor = following
  | 1 => inst.branchAddress = 0 ∨ successor = inst.branchAddress
  | _ => inst.branchAddress = 0 ∨
      successor = inst.branchAddress ∨ successor = following

/-- The flow of control and of the flags through the guest code.  Nothing is
known either after bytes that do not decode. -/
def flagGraph (decoder : Fadec.Decoder) (elf : Elf) :
    FlowGraph (BitVec 64) Flag where
  next addr successor :=
    ∀ inst, instructionAt decoder elf addr = some inst ->
      inst.MayContinueAt (inst.following addr) successor
  reads addr flag :=
    ∃ inst, instructionAt decoder elf addr = some inst ∧
      flag ∈ inst.requireFlags
  writes addr flag :=
    ∃ inst, instructionAt decoder elf addr = some inst ∧
      flag ∈ inst.updateFlags

/-! ## The look-ahead -/

section Prediction

variable (decoder : Fadec.Decoder) (elf : Elf)

/-- The loop of `recursive_flag_requirements`, with the recursive calls as a
parameter.  The number bounds the instructions to decode; the flags that are
still unclear are returned if it runs out, which `scanFuel` excludes. -/
def scanFlagRequirements
    (recursion : BitVec 64 -> BitVec 64 -> BitVec 64) :
    Nat -> BitVec 64 -> BitVec 64 -> BitVec 64 -> BitVec 64
  | 0, unclear, mustUpdate, _ => unclear ||| mustUpdate
  | fuel + 1, unclear, mustUpdate, addr =>
      match instructionAt decoder elf addr with
      | none => unclear ||| mustUpdate
      | some inst =>
          let addr := inst.following addr
          let update := inst.updateFlags.setWidth 64
          let mustUpdate := mustUpdate ||| inst.requireFlags.setWidth 64
          match inst.controlFlowDimension with
          | 0 =>
              let unclear := unclear &&& ~~~(update ||| mustUpdate)
              if unclear = 0 then
                mustUpdate
              else if inst.endOfBlock then
                unclear ||| mustUpdate
              else
                scanFlagRequirements recursion fuel unclear mustUpdate addr
          | 1 =>
              if inst.branchAddress ≠ 0 then
                mustUpdate |||
                  recursion (unclear &&& ~~~update) inst.branchAddress
              else
                mustUpdate ||| unclear
          | _ =>
              if inst.branchAddress ≠ 0 then
                mustUpdate |||
                  recursion (unclear &&& ~~~update) inst.branchAddress |||
                  recursion (unclear &&& ~~~update) addr
              else
                mustUpdate ||| unclear

/-- More instructions than the image can hold. -/
def scanFuel : Nat := elf.size.toNat + 1

/-- `recursive_flag_requirements` -/
def recursiveFlagRequirements :
    Nat -> BitVec 64 -> BitVec 64 -> BitVec 64
  | 0, unclear, _ => unclear
  | depth + 1, unclear, addr =>
      scanFlagRequirements decoder elf (recursiveFlagRequirements depth)
        (scanFuel elf) unclear 0 addr

/-- The loop decodes at most as many instructions as there are bytes from its
address to the image end, so that more fuel changes nothing. -/
theorem scanFlagRequirements_fuel
    (recursion : BitVec 64 -> BitVec 64 -> BitVec 64)
    {fuel more : Nat}
    (le : fuel ≤ more)
    {unclear mustUpdate addr : BitVec 64}
    (enough : elf.base.toNat + elf.size.toNat - addr.toNat < fuel) :
    scanFlagRequirements decoder elf recursion more unclear mustUpdate addr =
      scanFlagRequirements decoder elf recursion fuel unclear mustUpdate
        addr := by
  induction fuel generalizing more unclear mustUpdate addr with
  | zero => omega
  | succ fuel inductionHypothesis =>
      obtain ⟨more, rfl⟩ : ∃ rest, more = rest + 1 := ⟨more - 1, by omega⟩
      simp only [scanFlagRequirements]
      cases fetched : instructionAt decoder elf addr with
      | none => rfl
      | some inst =>
          have positive := instructionAt_size_pos fetched
          obtain ⟨followingEq, inImage⟩ := instructionAt_following fetched
          have rest (unclear mustUpdate : BitVec 64) :
              scanFlagRequirements decoder elf recursion more unclear mustUpdate
                  (inst.following addr) =
                scanFlagRequirements decoder elf recursion fuel unclear
                  mustUpdate (inst.following addr) :=
            inductionHypothesis (by omega) (by omega)
          simp only [rest]

/-- From an address of the image, `scanFuel` is enough. -/
theorem scanFuel_enough {addr : BitVec 64} (inside : elf.Contains addr) :
    elf.base.toNat + elf.size.toNat - addr.toNat < scanFuel elf := by
  obtain ⟨low, _⟩ := (elf.contains_iff addr).mp inside
  unfold scanFuel
  omega

end Prediction

/-! ## Soundness -/

section Soundness

variable {decoder : Fadec.Decoder} {elf : Elf}

/-- An answer of the look-ahead is sound when no flag it leaves out is
exposed. -/
def SoundPrediction
    (decoder : Fadec.Decoder)
    (elf : Elf)
    (predict : BitVec 64 -> BitVec 64 -> BitVec 64) : Prop :=
  ∀ unclear addr flag, flag ∈ unclear -> flag ∉ predict unclear addr ->
    ¬(flagGraph decoder elf).Exposed flag addr

/-- A flag is not exposed at an instruction that does not require it and
either updates it or has it exposed at no successor. -/
theorem not_exposed_of_instruction
    {addr : BitVec 64}
    {inst : Instruction}
    {flag : Flag}
    (fetched : instructionAt decoder elf addr = some inst)
    (notRequired : flag ∉ inst.requireFlags)
    (handled : flag ∉ inst.updateFlags ->
      ∀ successor, inst.MayContinueAt (inst.following addr) successor ->
        ¬(flagGraph decoder elf).Exposed flag successor) :
    ¬(flagGraph decoder elf).Exposed flag addr := by
  rw [FlowGraph.exposed_iff]
  rintro (⟨other, otherFetched, required⟩ | ⟨noWriter, successor, step, rest⟩)
  · obtain rfl : inst = other := Option.some.inj (fetched.symm.trans otherFetched)
    exact notRequired required
  · have notUpdated : flag ∉ inst.updateFlags :=
      fun updated => noWriter ⟨inst, fetched, updated⟩
    exact handled notUpdated successor (step inst fetched) rest

/-- Flags that must be updated are part of the answer. -/
theorem mem_scanFlagRequirements_of_mustUpdate
    (recursion : BitVec 64 -> BitVec 64 -> BitVec 64)
    {fuel : Nat}
    {unclear mustUpdate addr : BitVec 64}
    {flag : Flag}
    (needed : flag ∈ mustUpdate) :
    flag ∈ scanFlagRequirements decoder elf recursion fuel unclear mustUpdate
      addr := by
  induction fuel generalizing unclear mustUpdate addr with
  | zero => simp [scanFlagRequirements, needed]
  | succ fuel inductionHypothesis =>
      simp only [scanFlagRequirements]
      split
      · simp [needed]
      · split
        · split
          · simp [needed]
          · split
            · simp [needed]
            · exact inductionHypothesis (by simp [needed])
        · split <;> simp [needed]
        · split <;> simp [needed]

/-- Flags that the instruction at the address requires are part of the
answer. -/
theorem mem_scanFlagRequirements_of_required
    (recursion : BitVec 64 -> BitVec 64 -> BitVec 64)
    {fuel : Nat}
    {unclear mustUpdate addr : BitVec 64}
    {inst : Instruction}
    {flag : Flag}
    (fetched : instructionAt decoder elf addr = some inst)
    (required : flag ∈ inst.requireFlags) :
    flag ∈ scanFlagRequirements decoder elf recursion (fuel + 1) unclear
      mustUpdate addr := by
  simp only [scanFlagRequirements, fetched]
  split
  · split
    · simp [required]
    · split
      · simp [required]
      · exact mem_scanFlagRequirements_of_mustUpdate _ (by simp [required])
  · split <;> simp [required]
  · split <;> simp [required]

/-- The scan is sound if the recursive calls are. -/
theorem scanFlagRequirements_sound
    {recursion : BitVec 64 -> BitVec 64 -> BitVec 64}
    (recursionSound : SoundPrediction decoder elf recursion)
    (fuel : Nat)
    (mustUpdate : BitVec 64) :
    SoundPrediction decoder elf fun unclear addr =>
      scanFlagRequirements decoder elf recursion fuel unclear mustUpdate
        addr := by
  induction fuel generalizing mustUpdate with
  | zero =>
      intro unclear addr flag asked absent
      simp [scanFlagRequirements, asked] at absent
  | succ fuel inductionHypothesis =>
      intro unclear addr flag asked absent
      cases fetched : instructionAt decoder elf addr with
      | none => simp [scanFlagRequirements, fetched, asked] at absent
      | some inst =>
          have notRequired : flag ∉ inst.requireFlags := fun required =>
            absent (mem_scanFlagRequirements_of_required _ fetched required)
          have notNeeded : flag ∉ mustUpdate := fun needed =>
            absent (mem_scanFlagRequirements_of_mustUpdate _ needed)
          refine not_exposed_of_instruction fetched notRequired ?_
          intro notUpdated successor step
          simp only [scanFlagRequirements, fetched] at absent
          unfold Instruction.MayContinueAt at step
          -- the flag is still asked for behind the instruction
          have stillAsked : flag ∈ unclear &&& ~~~inst.updateFlags.setWidth 64 := by
            simp [asked, notUpdated]
          split at step
          case h_1 dimension =>
            rw [dimension] at absent
            have stillUnclear : flag ∈ unclear &&& ~~~(
                inst.updateFlags.setWidth 64 |||
                  (mustUpdate ||| inst.requireFlags.setWidth 64)) := by
              simp [asked, notUpdated, notNeeded, notRequired]
            have nonzero : unclear &&& ~~~(inst.updateFlags.setWidth 64 |||
                (mustUpdate ||| inst.requireFlags.setWidth 64)) ≠ 0 :=
              fun empty => Flags.mem_zero (empty ▸ stillUnclear)
            simp only [if_neg nonzero] at absent
            split at absent
            case isTrue => exact absurd (Flags.mem_or.mpr (.inl stillUnclear)) absent
            case isFalse inBlock =>
              obtain rfl := step.resolve_left inBlock
              exact inductionHypothesis _ _ _ _ stillUnclear absent
          case h_2 dimension =>
            simp only [dimension] at absent
            split at absent
            case isTrue direct =>
              obtain rfl := step.resolve_left direct
              exact recursionSound _ _ _ stillAsked fun answered =>
                absent (Flags.mem_or.mpr (.inr answered))
            case isFalse =>
              exact absurd (Flags.mem_or.mpr (.inr asked)) absent
          case h_3 notZero notOne =>
            split at absent
            case h_1 dimension => exact absurd dimension notZero
            case h_2 dimension => exact absurd dimension notOne
            case h_3 =>
              split at absent
              case isTrue direct =>
                simp only [Flags.mem_or, not_or] at absent
                obtain ⟨⟨_, notAtBranch⟩, notFollowing⟩ := absent
                rcases step.resolve_left direct with rfl | rfl
                · exact recursionSound _ _ _ stillAsked notAtBranch
                · exact recursionSound _ _ _ stillAsked notFollowing
              case isFalse =>
                exact absurd (Flags.mem_or.mpr (.inr asked)) absent

/-- The look-ahead is sound at every depth. -/
theorem soundPrediction_recursiveFlagRequirements (depth : Nat) :
    SoundPrediction decoder elf (recursiveFlagRequirements decoder elf depth) := by
  induction depth with
  | zero =>
      intro unclear addr flag asked absent
      exact absurd asked absent
  | succ depth inductionHypothesis =>
      exact scanFlagRequirements_sound inductionHypothesis (scanFuel elf) 0

/-- A flag that is asked for and left out of the answer is updated before it
is required, on every path through the guest code. -/
theorem recursiveFlagRequirements_sound
    (depth : BitVec 8)
    {unclear addr : BitVec 64}
    {flag : Flag}
    (asked : flag ∈ unclear)
    (absent : flag ∉
      recursiveFlagRequirements decoder elf depth.toNat unclear addr)
    {path : Nat -> BitVec 64}
    {length : Nat}
    (start : path 0 = addr)
    (isPath : (flagGraph decoder elf).IsPath path length)
    (required : (flagGraph decoder elf).reads (path length) flag) :
    ∃ index < length, (flagGraph decoder elf).writes (path index) flag := by
  subst start
  exact FlowGraph.exists_writer_of_not_exposed
    (soundPrediction_recursiveFlagRequirements depth.toNat _ _ flag asked
      absent) isPath required

/-- In `cmp eax, eax; setz al` the comparison updates the zero flag. -/
theorem recursiveFlagRequirements_sound_cmp_setz :
    let decoder := Fadec.Decoder.ofEncodings [.cmpEaxEax, .setzAl]
    let elf := Elf.ofBytes [0x39, 0xc0, 0x0f, 0x94, 0xc0] 1 (by decide)
    let path : Nat -> BitVec 64 := fun index =>
      if index = 0 then 0x400000 else 0x400002
    ∃ index < 1, (flagGraph decoder elf).writes (path index) .zero := by
  intro decoder elf path
  have first : instructionAt decoder elf 0x400000 =
      some (transformInstruction (Fadec.Encoding.cmpEaxEax.decodedAt 0x400000)) := by
    decide +kernel
  have second : instructionAt decoder elf 0x400002 =
      some (transformInstruction (Fadec.Encoding.setzAl.decodedAt 0x400002)) := by
    decide +kernel
  have absent : .zero ∉ recursiveFlagRequirements decoder elf
      (1 : BitVec 8).toNat (Flags.all.setWidth 64) 0x400000 := by
    decide +kernel
  have start : path 0 = 0x400000 := rfl
  refine recursiveFlagRequirements_sound 1 (by decide) absent start ?isPath
    ?required
  case isPath =>
    intro index before inst fetched
    obtain rfl : index = 0 := by omega
    obtain rfl := Option.some.inj (first.symm.trans fetched)
    exact .inr (by decide)
  case required => exact ⟨_, second, by decide⟩

end Soundness
end Oxtra
