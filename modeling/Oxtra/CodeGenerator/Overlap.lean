import Oxtra.CodeGenerator.Translate

/-!
# Blocks without overlap

The blocks that a run of `translate` stores do not overlap as long as the
instructions that are decoded for a new block do not lie across the start of
the next one.
-/

namespace Oxtra
namespace CodeGenerator

open RiscV CodeStore

/-! ## Stored ranges -/

/-- No address lies in the ranges of two stored blocks. -/
def DisjointBlocks (store : CodeStore) : Prop :=
  ∀ first second, first < store.blocks.length ->
    second < store.blocks.length -> first ≠ second ->
      ∀ address, ¬(store.Covers first address ∧ store.Covers second address)

/-- If the address has not been translated yet, then none of the instructions
up to the end of its block lies across the start of the next block. -/
def Translator.MeetsNextBlock
    (translator : Translator)
    (store : CodeStore)
    (addr : BitVec 64) : Prop :=
  store.find translator.elf addr = .ok 0 ->
    ∀ start, nextStart translator.elf store addr = some start ->
      ∀ instructions inst reached,
        Consecutive translator.decoder translator.elf addr instructions
            reached ->
          (∀ other ∈ instructions, other.endOfBlock = false) ->
            instructionAt translator.decoder translator.elf reached =
                some inst ->
              ¬(reached < start ∧ start < inst.following reached)

/-- What is known of the store in between the calls. -/
structure Stored
    (translator : Translator)
    (store : CodeStore)
    (blocks : List GuestBlock) : Prop where
  held : Holds translator.elf translator.memory store blocks
  placed : ∀ block ∈ blocks, block.Placed translator.elf
  nonempty : ∀ block ∈ blocks, block.instructions ≠ []
  disjoint : blocks.Pairwise GuestBlock.Disjoint

section Ranges

variable
  {translator : Translator}
  {store after : CodeStore}
  {blocks : List GuestBlock}

theorem Stored.blocks_apart (stored : Stored translator store blocks) :
    DisjointBlocks store := by
  intro first second firstBound secondBound different address both
  rw [stored.held.length_blocks] at firstBound secondBound
  have ranges {index : Nat} (bound : index < blocks.length)
      (covers : store.Covers index address) :
      (blocks[index]).Contains address := by
    have found := List.getElem?_eq_getElem bound
    have entry := stored.held.stored index _ found
    have nonempty := stored.nonempty _ (List.getElem_mem bound)
    obtain ⟨low, high⟩ := covers
    rw [entry.starts nonempty, BitVec.le_def] at low
    rw [BitVec.lt_def, entry.stops nonempty] at high
    exact ⟨low, high⟩
  have apart : (blocks[first]).Disjoint blocks[second] := by
    have pairwise := List.pairwise_iff_getElem.mp stored.disjoint
    rcases Nat.lt_or_gt_of_ne different with less | greater
    · exact pairwise first second firstBound secondBound less
    · exact symm (pairwise second first secondBound firstBound greater)
  exact apart address ⟨ranges firstBound both.1, ranges secondBound both.2⟩

theorem stored_empty : Stored translator (.empty translator.elf) [] where
  held := empty_holds
  placed := by simp
  nonempty := by simp
  disjoint := .nil

/-! ## The end of a new block -/

/-- A block that is decoded in front of the next one ends at it at the
latest. -/
theorem decodeBlock_stop_le
    {decoder : Fadec.Decoder}
    {elf : Elf}
    {start addr first : BitVec 64}
    {fuel : Nat}
    {instructions : List Instruction}
    {block : DecodedBlock}
    (decoded : decodeBlock decoder elf (some start) fuel instructions addr =
      .ok block)
    (before : Consecutive decoder elf first instructions addr)
    (continues : ∀ inst ∈ instructions, inst.endOfBlock = false)
    (meets : ∀ instructions inst reached,
      Consecutive decoder elf first instructions reached ->
        (∀ other ∈ instructions, other.endOfBlock = false) ->
          instructionAt decoder elf reached = some inst ->
            ¬(reached < start ∧ start < inst.following reached))
    (addrLe : addr ≤ start) :
    block.addr ≤ start := by
  induction fuel generalizing addr instructions with
  | zero => simp [decodeBlock] at decoded
  | succ fuel inductionHypothesis =>
      unfold decodeBlock at decoded
      split at decoded
      case isTrue reached =>
        split at decoded
        case isTrue => simp at decoded
        case isFalse =>
          obtain rfl := Except.ok.inj decoded
          exact addrLe
      case isFalse notReached =>
        cases fetched : instructionAt decoder elf addr with
        | none => simp [fetched] at decoded
        | some inst =>
            simp only [fetched] at decoded
            have notAcross := meets instructions inst addr before continues
              fetched
            have followingLe : inst.following addr ≤ start := by
              have different : addr ≠ start := fun same =>
                notReached (congrArg some same.symm)
              have less : addr < start := by
                refine BitVec.lt_of_le_ne addrLe ?_
                exact different
              exact BitVec.not_lt.mp fun across => notAcross ⟨less, across⟩
            split at decoded
            case isTrue =>
              obtain rfl := Except.ok.inj decoded
              exact followingLe
            case isFalse inBlock =>
              refine inductionHypothesis decoded
                (before.append ⟨fetched, rfl⟩) ?_ followingLe
              intro other member
              rcases List.mem_append.mp member with earlier | here
              · exact continues other earlier
              · obtain rfl := List.mem_singleton.mp here
                simpa using inBlock

/-- Consecutive instructions do not wrap around. -/
theorem Consecutive.le
    {decoder : Fadec.Decoder}
    {elf : Elf}
    {addr stop : BitVec 64}
    {instructions : List Instruction}
    (consecutive : Consecutive decoder elf addr instructions stop) :
    addr.toNat ≤ stop.toNat := by
  induction instructions generalizing addr with
  | nil =>
      obtain rfl : addr = stop := consecutive
      exact le_rfl
  | cons inst rest inductionHypothesis =>
      have rest := inductionHypothesis consecutive.2
      rw [(instructionAt_following consecutive.1).1] at rest
      omega

theorem Consecutive.lt
    {decoder : Fadec.Decoder}
    {elf : Elf}
    {addr stop : BitVec 64}
    {instructions : List Instruction}
    (consecutive : Consecutive decoder elf addr instructions stop)
    (nonempty : instructions ≠ []) :
    addr.toNat < stop.toNat := by
  cases instructions with
  | nil => exact absurd rfl nonempty
  | cons inst rest =>
      have restLe := consecutive.2.le
      have sizePos := instructionAt_size_pos consecutive.1
      rw [(instructionAt_following consecutive.1).1] at restLe
      omega

/-! ## The additions of a new block -/

theorem Translator.batch_length_le
    {connection : List Inst}
    {inst : Instruction}
    {code : List (BitVec 32)}
    (batched : translator.batch connection inst = .ok code) :
    code.length ≤ maxRiscvInstructions := by
  rw [batch] at batched
  split at batched
  · cases batched
  · split at batched
    · cases batched
    · rename_i fits
      obtain rfl := Except.ok.inj batched
      rw [List.length_map]
      exact Nat.le_of_not_lt fits

/-- The instructions of a block and their code, as the store takes them
up. -/
theorem Translator.addGenerated_additions
    {connection : List Inst}
    {index : Nat}
    {addr stop : BitVec 64}
    {instructions : List Instruction}
    (consecutive : Consecutive translator.decoder translator.elf addr
      (instructions.map declared) stop)
    (generated : translator.addGenerated connection index store instructions =
      .ok after) :
    ∃ additions : List Addition,
      (∀ addition ∈ additions, addition.Encodable) ∧
      addr.toNat + Addition.guestLength additions = stop.toNat ∧
      addInstructions translator.elf translator.memory index store addr
        additions = .ok after := by
  induction instructions generalizing store addr with
  | nil =>
      obtain rfl : addr = stop := consecutive
      exact ⟨[], by simp, rfl, generated⟩
  | cons inst rest inductionHypothesis =>
      obtain ⟨fetched, restConsecutive⟩ := consecutive
      obtain ⟨address, _, sizePos, sizeLe, sizeEq, following, _⟩ :=
        instructionAt_declared fetched
      simp only [addGenerated, bind, Except.bind] at generated
      split at generated
      · cases generated
      · rename_i code batched
        split at generated
        · cases generated
        · rename_i next added
          obtain ⟨additions, encodable, extent, addedRest⟩ :=
            inductionHypothesis restConsecutive generated
          have size : (BitVec.ofNat 8 inst.size).toNat = inst.size := by
            rw [Fadec.maxInstructionSize] at sizeLe
            rw [BitVec.toNat_ofNat]
            omega
          have codeLe := batch_length_le batched
          refine ⟨⟨BitVec.ofNat 8 inst.size, code⟩ :: additions, ?_, ?_, ?_⟩
          · intro addition member
            rcases List.mem_cons.mp member with rfl | later
            · exact ⟨by rw [size]; exact sizePos, by rw [size]; exact sizeLe,
                codeLe⟩
            · exact encodable addition later
          · rw [Addition.guestLength_cons, size, ← extent]
            have next : (inst.following addr).toNat = addr.toNat + inst.size :=
              following
            change _ = (inst.following addr).toNat + _
            rw [next, Nat.add_assoc]
          · rw [addInstructions]
            rw [address] at added
            simp only [added, bind, Except.bind]
            rw [sizeEq]
            exact addedRest

/-! ## Runs -/

/-- A new block lies between the stored blocks. -/
theorem Stored.new_disjoint
    {addr : BitVec 64}
    {block : DecodedBlock}
    {instructions : List Instruction}
    {additions : List Addition}
    (stored : Stored translator store blocks)
    (inside : translator.elf.Contains addr)
    (meets : translator.MeetsNextBlock store addr)
    (unknown : store.find translator.elf addr = .ok 0)
    (built : buildInstructions translator.decoder translator.elf
      translator.depth store addr = .ok (block, instructions))
    (extent : addr.toNat + Addition.guestLength additions = block.addr.toNat) :
    ∀ other ∈ blocks, other.Disjoint ⟨addr, additions⟩ := by
  intro other member
  have outside := stored.held.not_contains_of_find_zero stored.placed
    stored.disjoint unknown other member
  by_cases behind : addr ≤ other.start
  · obtain ⟨start, next, addrLe, startLe⟩ := stored.held.nextStart_le
      stored.placed stored.disjoint inside member
      (stored.nonempty other member) behind
    have stopLe : block.addr ≤ start := by
      unfold buildInstructions at built
      cases decoded : decodeBlock translator.decoder translator.elf
          (nextStart translator.elf store addr)
          (scanFuel translator.elf) [] addr with
      | error fault =>
          rw [nextStart] at decoded
          simp [decoded] at built
      | ok decodedBlock =>
          have keeps := decoded
          rw [nextStart] at decoded
          simp only [decoded] at built
          obtain ⟨rfl, _⟩ := Prod.mk.inj (Except.ok.inj built)
          rw [next] at keeps
          exact decodeBlock_stop_le keeps rfl (by simp)
            (meets unknown start next) addrLe
    refine symm (GuestBlock.Disjoint.of_le ?_)
    change addr.toNat + Addition.guestLength additions ≤ other.start.toNat
    simp only [BitVec.le_def] at stopLe startLe
    omega
  · refine GuestBlock.Disjoint.of_le ?_
    by_contra overlap
    simp only [BitVec.le_def] at behind
    exact outside ⟨by omega, by simp only at overlap; omega⟩

/-- What a call returns: the host code that is stored already, or that of a
new block. -/
theorem Translator.translate_cases
    {addr riscvStart : BitVec 64}
    (translated : translator.translate store addr = .ok (riscvStart, after)) :
    translator.Executable addr ∧
      (after = store ∨
        store.find translator.elf addr = .ok 0 ∧
          ∃ block instructions,
            buildInstructions translator.decoder translator.elf
                translator.depth store addr = .ok (block, instructions) ∧
              translator.addGenerated (translator.connection store addr block)
                store.createBlock.1 store.createBlock.2 instructions =
                  .ok after) := by
  rw [translate] at translated
  split at translated
  case isFalse => cases translated
  case isTrue executable =>
    refine ⟨executable, ?_⟩
    cases known : store.find translator.elf addr with
    | error fault => simp [known] at translated
    | ok riscvCode =>
        simp only [known] at translated
        split at translated
        · obtain ⟨_, rfl⟩ := Prod.mk.inj (Except.ok.inj translated)
          exact Or.inl rfl
        · rename_i zero
          obtain rfl := not_not.mp zero
          refine Or.inr ⟨rfl, ?_⟩
          rw [translateBlock] at translated
          cases built : buildInstructions translator.decoder translator.elf
              translator.depth store addr with
          | error fault => simp [built] at translated
          | ok result =>
              obtain ⟨block, instructions⟩ := result
              refine ⟨block, instructions, rfl, ?_⟩
              simp only [built] at translated
              cases added : translator.addGenerated
                  (translator.connection store addr block) store.createBlock.1
                  store.createBlock.2 instructions with
              | error fault =>
                  rw [added] at translated
                  cases translated
              | ok next =>
                  rw [added] at translated
                  obtain ⟨_, rfl⟩ := Prod.mk.inj (Except.ok.inj translated)
                  rfl

/-- A new block ends in the image, and not where the image does if it could be
stored. -/
theorem Stored.stop_lt
    {addr : BitVec 64}
    {block : DecodedBlock}
    {additions : List Addition}
    (stored : Stored translator store blocks)
    (describes : block.Describes translator.decoder translator.elf addr
      (nextStart translator.elf store addr))
    (extent : addr.toNat + Addition.guestLength additions = block.addr.toNat)
    (added : addInstructions translator.elf translator.memory
      store.createBlock.1 store.createBlock.2 addr additions = .ok after) :
    block.addr.toNat <
      translator.elf.base.toNat + translator.elf.size.toNat := by
  have split := List.dropLast_append_getLast describes.nonempty
  have consecutive := describes.consecutive
  rw [← split] at consecutive
  obtain ⟨lastAddr, front, fetched, stopEq⟩ := consecutive.of_concat
  obtain ⟨following, le⟩ := instructionAt_following fetched
  have inside : translator.elf.Contains addr :=
    front.contained (instructionAt_contains fetched)
  have bounded := (stored.held.bounded stored.placed).createBlock
  have created : store.createBlock.1 <
      store.createBlock.2.blocks.length := by
    simp [createBlock]
  refine Nat.lt_of_le_of_ne (by rw [stopEq, following]; exact le) ?_
  intro ends
  exact addInstructions_ne_ok bounded created inside (extent.trans ends) added

/-- A call whose new block meets the next one keeps the blocks apart. -/
theorem Stored.translate
    {addr riscvStart : BitVec 64}
    (stored : Stored translator store blocks)
    (meets : translator.MeetsNextBlock store addr)
    (translated : translator.translate store addr =
      .ok (riscvStart, after)) :
    ∃ blocks, Stored translator after blocks := by
  obtain ⟨executable, rfl | ⟨unknown, block, instructions, built, added⟩⟩ :=
    Translator.translate_cases translated
  · exact ⟨blocks, stored⟩
  have inside := executable.contains
  obtain ⟨low, _⟩ := (translator.elf.contains_iff addr).mp inside
  obtain ⟨describes, _, consecutive⟩ := buildInstructions_cases built
  obtain ⟨additions, encodable, extent, inserted⟩ :=
    Translator.addGenerated_additions consecutive added
  have stopLt := stored.stop_lt describes extent inserted
  have nonempty : additions ≠ [] := by
    rintro rfl
    have further := describes.consecutive.lt describes.nonempty
    rw [Addition.guestLength_nil] at extent
    omega
  have newPlaced : GuestBlock.Placed translator.elf ⟨addr, additions⟩ :=
    ⟨low, by rw [GuestBlock.stop, extent]; exact stopLt, encodable⟩
  have disjoint := stored.new_disjoint inside meets unknown built extent
  refine ⟨blocks ++ [⟨addr, additions⟩], ?_, ?_, ?_, ?_⟩
  · exact insert_holds stored.held stored.placed newPlaced disjoint inserted
  · intro other member
    rcases List.mem_append.mp member with old | new
    · exact stored.placed other old
    · obtain rfl := List.mem_singleton.mp new
      exact newPlaced
  · intro other member
    rcases List.mem_append.mp member with old | new
    · exact stored.nonempty other old
    · obtain rfl := List.mem_singleton.mp new
      exact nonempty
  · rw [List.pairwise_append]
    refine ⟨stored.disjoint, List.pairwise_singleton .., ?_⟩
    intro other member new newMember
    obtain rfl := List.mem_singleton.mp newMember
    exact disjoint other member

/-- In every run of calls whose new blocks meet the next ones, the stored
blocks do not overlap. -/
theorem Translator.Runs.disjointBlocks
    (run : translator.Runs translator.MeetsNextBlock store) :
    DisjointBlocks store := by
  have stored : ∃ blocks, Stored translator store blocks := by
    induction run with
    | start => exact ⟨[], stored_empty⟩
    | call _ meets translated inductionHypothesis =>
        obtain ⟨blocks, stored⟩ := inductionHypothesis
        exact stored.translate meets translated
  obtain ⟨blocks, stored⟩ := stored
  exact stored.blocks_apart

end Ranges

/-! ## Two blocks at neighbouring addresses -/

instance (store : CodeStore) (index : Nat) (address : BitVec 64) :
    Decidable (store.Covers index address) :=
  inferInstanceAs (Decidable (_ ∧ _))

/-- Code of `mov eax, imm32` and of return instructions. -/
def neighbourTranslator
    (bytes : List (BitVec 8))
    (fits : bytes.length < 2 ^ 32) : Translator where
  decoder := .ofEncodings [.movEaxImm 0xc3 0x90 0x90 0x90, .ret]
  elf := .ofBytes bytes 1 fits
  depth := 1
  generate _ := some [Encoding.nop]
  memory := ⟨8, 8, .consecutive 8, .consecutive 8⟩

/-- Two return instructions, of which the second one is translated first. -/
theorem disjointBlocks_returns :
    ∃ store : CodeStore, store.blocks.length = 2 ∧ DisjointBlocks store := by
  let translator := neighbourTranslator [0xc3, 0xc3] (by decide)
  have succeeds : (match translator.translate (.empty translator.elf)
      0x400001 with
    | .ok (_, first) =>
        match translator.translate first 0x400000 with
        | .ok (_, second) =>
            decide (nextStart translator.elf first 0x400000 =
                some 0x400001 ∧ second.blocks.length = 2)
        | .error _ => false
    | .error _ => false) = true := by
    decide +kernel
  have fetched : instructionAt translator.decoder translator.elf 0x400000 =
      some (transformInstruction
        (Fadec.Encoding.ret.decodedAt 0x400000)) := by
    decide +kernel
  split at succeeds
  case h_2 => cases succeeds
  case h_1 firstStart first firstTranslated =>
    split at succeeds
    case h_2 => cases succeeds
    case h_1 secondStart second secondTranslated =>
      obtain ⟨next, length⟩ := of_decide_eq_true succeeds
      refine ⟨second, length, Translator.Runs.disjointBlocks
        (.call (.call .start ?_ firstTranslated) ?_ secondTranslated)⟩
      · intro _ start found
        have none : nextStart translator.elf (.empty translator.elf)
            0x400001 = none := by
          decide +kernel
        cases none.symm.trans found
      · intro _ start found instructions inst reached consecutive continues
          here across
        obtain rfl := Option.some.inj (next.symm.trans found)
        cases instructions with
        | nil =>
            obtain rfl : (0x400000 : BitVec 64) = reached := consecutive
            obtain rfl := Option.some.inj (fetched.symm.trans here)
            exact absurd across.2 (by decide)
        | cons other rest =>
            obtain rfl := Option.some.inj (fetched.symm.trans consecutive.1)
            exact absurd (continues _ List.mem_cons_self) (by decide)

/-- A return instruction is part of the immediate of a `mov`, and both are
translated. -/
theorem blocks_overlap :
    ¬∀ (translator : Translator) (store : CodeStore),
      translator.Runs (fun _ _ => True) store -> DisjointBlocks store := by
  intro allDisjoint
  let translator := neighbourTranslator
    [0xb8, 0xc3, 0x90, 0x90, 0x90, 0xc3] (by decide)
  have succeeds : (match translator.translate (.empty translator.elf)
      0x400001 with
    | .ok (_, first) =>
        match translator.translate first 0x400000 with
        | .ok (_, second) =>
            decide (second.blocks.length = 2 ∧ second.Covers 0 0x400001 ∧
              second.Covers 1 0x400001)
        | .error _ => false
    | .error _ => false) = true := by
    decide +kernel
  split at succeeds
  case h_2 => cases succeeds
  case h_1 firstStart first firstTranslated =>
    split at succeeds
    case h_2 => cases succeeds
    case h_1 secondStart second secondTranslated =>
      obtain ⟨length, covers⟩ := of_decide_eq_true succeeds
      have disjoint := allDisjoint translator second
        (.call (.call .start trivial firstTranslated) trivial secondTranslated)
      exact disjoint 0 1 (by omega) (by omega) (by decide) _ covers

end CodeGenerator
end Oxtra
