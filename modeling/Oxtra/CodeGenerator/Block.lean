import Oxtra.CodeStore
import Oxtra.FlagPrediction

/-!
# The instructions of a new block and their update sets

The first half of `translate`: the loop that decodes a block up to its end or
up to the start of the next stored block, and the passes that decide which
flags each of the instructions has to update.
-/

namespace Oxtra

namespace CodeGenerator

/-- A decoded block: its instructions, the address after the last one, and
whether the next stored block starts there. -/
structure DecodedBlock where
  instructions : List Instruction
  addr : BitVec 64
  reachesNextBlock : Bool
  deriving DecidableEq, Repr

section Decode

variable (decoder : Fadec.Decoder) (elf : Elf)

/-- The loop of `translate` that decodes a block, after `instructions` have
been decoded.  The start of the next stored block is given if there is one.
The number bounds the instructions, and is not reached from `scanFuel`. -/
def decodeBlock
    (nextBlock : Option (BitVec 64)) :
    Nat -> List Instruction -> BitVec 64 -> Except Fault DecodedBlock
  | 0, _, _ => .error .decodeFailed
  | fuel + 1, instructions, addr =>
      if nextBlock = some addr then
        if instructions = [] then
          .error .findFailed
        else
          .ok ⟨instructions, addr, true⟩
      else
        match instructionAt decoder elf addr with
        | none => .error .decodeFailed
        | some inst =>
            if inst.endOfBlock then
              .ok ⟨instructions ++ [inst], inst.following addr, false⟩
            else
              decodeBlock nextBlock fuel (instructions ++ [inst])
                (inst.following addr)

end Decode

/-! ## What the decode loop returns -/

section Decoded

variable {decoder : Fadec.Decoder} {elf : Elf}

/-- The instructions from `addr` to `stop` as they lie in the image. -/
def Consecutive (decoder : Fadec.Decoder) (elf : Elf) :
    BitVec 64 -> List Instruction -> BitVec 64 -> Prop
  | addr, [], stop => addr = stop
  | addr, inst :: rest, stop =>
      instructionAt decoder elf addr = some inst ∧
        Consecutive decoder elf (inst.following addr) rest stop

theorem Consecutive.append
    {addr middle stop : BitVec 64}
    {first second : List Instruction}
    (firstPart : Consecutive decoder elf addr first middle)
    (secondPart : Consecutive decoder elf middle second stop) :
    Consecutive decoder elf addr (first ++ second) stop := by
  induction first generalizing addr with
  | nil =>
      obtain rfl : addr = middle := firstPart
      exact secondPart
  | cons inst rest inductionHypothesis =>
      exact ⟨firstPart.1, inductionHypothesis firstPart.2⟩

theorem Consecutive.of_append
    {addr stop : BitVec 64}
    {first second : List Instruction}
    (parts : Consecutive decoder elf addr (first ++ second) stop) :
    ∃ middle, Consecutive decoder elf addr first middle ∧
      Consecutive decoder elf middle second stop := by
  induction first generalizing addr with
  | nil => exact ⟨addr, rfl, parts⟩
  | cons inst rest inductionHypothesis =>
      obtain ⟨middle, restPart, secondPart⟩ := inductionHypothesis parts.2
      exact ⟨middle, ⟨parts.1, restPart⟩, secondPart⟩

/-- The last of consecutive instructions lies right before their end. -/
theorem Consecutive.of_concat
    {addr stop : BitVec 64}
    {front : List Instruction}
    {last : Instruction}
    (parts : Consecutive decoder elf addr (front ++ [last]) stop) :
    ∃ lastAddr, Consecutive decoder elf addr front lastAddr ∧
      instructionAt decoder elf lastAddr = some last ∧
      stop = last.following lastAddr := by
  obtain ⟨lastAddr, frontPart, fetched, stopEq⟩ := parts.of_append
  exact ⟨lastAddr, frontPart, fetched, stopEq.symm⟩

/-- How a decoded block ends: at the next stored block, behind an instruction
that does not end a block, or behind one that does. -/
structure DecodedBlock.Describes
    (decoder : Fadec.Decoder)
    (elf : Elf)
    (addr : BitVec 64)
    (nextBlock : Option (BitVec 64))
    (block : DecodedBlock) : Prop where
  consecutive : Consecutive decoder elf addr block.instructions block.addr
  nonempty : block.instructions ≠ []
  front_continues : ∀ inst ∈ block.instructions.dropLast,
    inst.endOfBlock = false
  last_endOfBlock : (block.instructions.getLast nonempty).endOfBlock =
    !block.reachesNextBlock
  next_of_reaches : block.reachesNextBlock = true ->
    nextBlock = some block.addr

theorem decodeBlock_describes
    {nextBlock : Option (BitVec 64)}
    {fuel : Nat}
    {start addr : BitVec 64}
    {instructions : List Instruction}
    {block : DecodedBlock}
    (decoded : decodeBlock decoder elf nextBlock fuel instructions addr =
      .ok block)
    (before : Consecutive decoder elf start instructions addr)
    (continues : ∀ inst ∈ instructions, inst.endOfBlock = false) :
    block.Describes decoder elf start nextBlock := by
  induction fuel generalizing addr instructions with
  | zero => simp [decodeBlock] at decoded
  | succ fuel inductionHypothesis =>
      unfold decodeBlock at decoded
      split at decoded
      case isTrue reached =>
        split at decoded
        case isTrue => simp at decoded
        case isFalse nonempty =>
          obtain rfl := Except.ok.inj decoded
          exact
            { consecutive := before
              nonempty := nonempty
              front_continues := fun inst member =>
                continues inst (List.mem_of_mem_dropLast member)
              last_endOfBlock := continues _ (List.getLast_mem nonempty)
              next_of_reaches := fun _ => reached }
      case isFalse =>
        cases fetched : instructionAt decoder elf addr with
        | none => simp [fetched] at decoded
        | some inst =>
            simp only [fetched] at decoded
            have extended : Consecutive decoder elf start
                (instructions ++ [inst]) (inst.following addr) :=
              before.append ⟨fetched, rfl⟩
            split at decoded
            case isTrue ends =>
              obtain rfl := Except.ok.inj decoded
              exact
                { consecutive := extended
                  nonempty := by simp
                  front_continues := by simpa using continues
                  last_endOfBlock := by simpa using ends
                  next_of_reaches := by simp }
            case isFalse inBlock =>
              refine inductionHypothesis decoded extended ?_
              intro other member
              rcases List.mem_append.mp member with earlier | here
              · exact continues other earlier
              · obtain rfl := List.mem_singleton.mp here
                simpa using inBlock

/-- A block of `buildInstructions` starts at the address asked for. -/
theorem decodeBlock_nil_describes
    {nextBlock : Option (BitVec 64)}
    {fuel : Nat}
    {addr : BitVec 64}
    {block : DecodedBlock}
    (decoded : decodeBlock decoder elf nextBlock fuel [] addr = .ok block) :
    block.Describes decoder elf addr nextBlock :=
  decodeBlock_describes decoded rfl (by simp)

/-- The loop decodes at most as many instructions as there are bytes from its
address to the image end, so that more fuel changes nothing. -/
theorem decodeBlock_fuel
    (nextBlock : Option (BitVec 64))
    {fuel more : Nat}
    (le : fuel ≤ more)
    {instructions : List Instruction}
    {addr : BitVec 64}
    (enough : elf.base.toNat + elf.size.toNat - addr.toNat < fuel) :
    decodeBlock decoder elf nextBlock more instructions addr =
      decodeBlock decoder elf nextBlock fuel instructions addr := by
  induction fuel generalizing more instructions addr with
  | zero => omega
  | succ fuel inductionHypothesis =>
      obtain ⟨more, rfl⟩ : ∃ rest, more = rest + 1 := ⟨more - 1, by omega⟩
      unfold decodeBlock
      cases fetched : instructionAt decoder elf addr with
      | none => rfl
      | some inst =>
          have positive := instructionAt_size_pos fetched
          obtain ⟨followingEq, inImage⟩ := instructionAt_following fetched
          have rest :
              decodeBlock decoder elf nextBlock more (instructions ++ [inst])
                  (inst.following addr) =
                decodeBlock decoder elf nextBlock fuel (instructions ++ [inst])
                  (inst.following addr) :=
            inductionHypothesis (by omega) (by omega)
          simp only [rest]

end Decoded

section Assign

variable (decoder : Fadec.Decoder) (elf : Elf) (depth : Nat)

/-- All flags, as a `size_t`. -/
def allFlags : BitVec 64 := Flags.all.setWidth 64

/-- The flags that the last instruction leaves to the instructions before it,
and the last instruction with the flags it has to update. -/
def assignLast (block : DecodedBlock) (last : Instruction) :
    BitVec 64 × Instruction :=
  let predict := recursiveFlagRequirements decoder elf depth
  if last.branchAddress ≠ 0 then
    let required :=
      match last.controlFlowDimension with
      | 0 => allFlags
      | 1 =>
          let required := allFlags &&& ~~~last.updateFlags.setWidth 64
          predict required last.branchAddress |||
            last.requireFlags.setWidth 64
      | _ =>
          let required := allFlags &&& ~~~last.updateFlags.setWidth 64
          predict required block.addr ||| predict required last.branchAddress |||
            last.requireFlags.setWidth 64
    (required, last.setUpdate (required.setWidth 8))
  else if block.reachesNextBlock then
    let required := predict allFlags block.addr
    (required, last.setUpdate (required.setWidth 8))
  else
    (allFlags, last)

/-- The flags required before an instruction, when `required` are required
after it. -/
def requiredBefore (inst : Instruction) (required : BitVec 64) : BitVec 64 :=
  let needUpdate := inst.updateFlags.setWidth 64 &&& required
  let required := required ^^^ needUpdate
  let required := required ||| inst.requireFlags.setWidth 64
  if inst.controlFlowDimension ≠ 0 then
    if inst.branchAddress ≠ 0 then
      required ||| recursiveFlagRequirements decoder elf depth
        (allFlags &&& ~~~(inst.updateFlags.setWidth 64 &&& required))
        inst.branchAddress
    else
      allFlags
  else
    required

/-- The backward pass over the instructions in front of the last one. -/
def assignBackwards (required : BitVec 64) :
    List Instruction -> BitVec 64 × List Instruction
  | [] => (required, [])
  | inst :: rest =>
      let (required, rest) := assignBackwards required rest
      let needUpdate := inst.updateFlags.setWidth 64 &&& required
      (requiredBefore decoder elf depth inst required,
        inst.setUpdate (needUpdate.setWidth 8) :: rest)

/-- The instructions of a block with the flags they have to update. -/
def assignUpdates (block : DecodedBlock) : List Instruction :=
  match block.instructions.getLast? with
  | none => []
  | some last =>
      let (required, last) := assignLast decoder elf depth block last
      let (_, front) := assignBackwards decoder elf depth required
        block.instructions.dropLast
      front ++ [last]

end Assign

/-- The instructions that `translate` builds for a block at `addr`, when the
blocks of `store` exist already, and what it decoded for them. -/
def buildInstructions
    (decoder : Fadec.Decoder)
    (elf : Elf)
    (depth : BitVec 8)
    (store : CodeStore)
    (addr : BitVec 64) : Except Fault (DecodedBlock × List Instruction) := do
  let nextBlock := (store.getNextBlock elf addr).map fun index =>
    (store.block index).x86Start
  let block <- decodeBlock decoder elf nextBlock (scanFuel elf) [] addr
  return (block, assignUpdates decoder elf depth.toNat block)

end CodeGenerator
end Oxtra
