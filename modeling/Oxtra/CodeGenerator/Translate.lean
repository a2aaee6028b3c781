import Oxtra.CodeGenerator.Chaining
import Oxtra.CodeGenerator.FlagElimination
import Oxtra.CodeStore.Bounds
import Oxtra.CodeStore.NextBlock

/-!
# The translator

One call of `translate` finds the host code of a guest address or translates
the block that starts there.  In a run of calls the arrays of the pages are
accessed within their bounds as long as no translated block ends where the
image does.
-/

namespace Oxtra
namespace CodeGenerator

open RiscV CodeStore

/-! ## One call -/

/-- What the calls of `translate` share. -/
structure Translator where
  decoder : Fadec.Decoder
  elf : Elf
  /-- `_flag_prediction_depth` -/
  depth : BitVec 8
  /-- What `generate` of the instruction classes puts into the batch; nothing
  if it ends the program. -/
  generate : Instruction -> Option (List Inst)
  memory : CodeStore.Memory

namespace Translator

variable (translator : Translator)

/-- The batch of an instruction, with the jump to the next block if that is
stored already. -/
def batch
    (connection : List Inst)
    (inst : Instruction) : Except Fault (List (BitVec 32)) :=
  match translator.generate inst with
  | none => .error .generationFailed
  | some code =>
      if (code ++ connection).length > maxRiscvInstructions then
        .error .batchOverflow
      else
        .ok ((code ++ connection).map Inst.encode)

/-- The loop of `translate` that adds the instructions to the store.  The jump
to the next block follows the last instruction. -/
def addGenerated (connection : List Inst) (index : Nat) :
    CodeStore -> List Instruction -> Except Fault CodeStore
  | store, [] => .ok store
  | store, inst :: rest => do
      let code <- translator.batch (if rest.isEmpty then connection else []) inst
      let store <- store.addInstruction translator.elf translator.memory index
        inst.address (BitVec.ofNat 8 inst.size) code
      addGenerated connection index store rest

/-- The jump to the next block, if the decoded block ends at one. -/
def connection
    (store : CodeStore)
    (addr : BitVec 64)
    (block : DecodedBlock) : List Inst :=
  match store.getNextBlock translator.elf addr with
  | some next =>
      if block.reachesNextBlock then
        farJump (store.block next).riscvStart
      else
        []
  | none => []

/-- Pages of new blocks have to be readable and executable. -/
def Executable (addr : BitVec 64) : Prop :=
  translator.elf.getPageFlags addr &&& (pageExecute ||| pageRead) =
    pageExecute ||| pageRead

instance (addr : BitVec 64) : Decidable (translator.Executable addr) :=
  inferInstanceAs (Decidable (_ = _))

/-- The second half of `translate`: a new block is built and stored. -/
def translateBlock (store : CodeStore) (addr : BitVec 64) :
    Except Fault (BitVec 64 × CodeStore) :=
  match buildInstructions translator.decoder translator.elf translator.depth
      store addr with
  | .error fault => .error fault
  | .ok (block, instructions) =>
      let connection := translator.connection store addr block
      let (index, created) := store.createBlock
      (translator.addGenerated connection index created instructions).map
        fun after => ((after.block index).riscvStart, after)

/-- `translate` -/
def translate (store : CodeStore) (addr : BitVec 64) :
    Except Fault (BitVec 64 × CodeStore) :=
  if translator.Executable addr then
    match store.find translator.elf addr with
    | .error fault => .error fault
    | .ok riscvCode =>
        if riscvCode ≠ 0 then
          .ok (riscvCode, store)
        else
          translator.translateBlock store addr
  else
    .error .virtualSegmentationFault

/-- The stores of the runs of calls that return, when the condition holds of
each call. -/
inductive Runs (condition : CodeStore -> BitVec 64 -> Prop) : CodeStore -> Prop
  | start : Runs condition (CodeStore.empty translator.elf)
  | call {store after : CodeStore} {addr riscvStart : BitVec 64} :
      Runs condition store -> condition store addr ->
        translator.translate store addr = .ok (riscvStart, after) ->
          Runs condition after

end Translator

/-! ## Instructions that lie one behind the other -/

section Laid

variable {decoder : Fadec.Decoder} {elf : Elf}

/-- An instruction with the flags it has to update, as it lies in the
image. -/
theorem instructionAt_declared
    {addr : BitVec 64}
    {inst : Instruction}
    (fetched : instructionAt decoder elf addr = some (declared inst)) :
    inst.address = addr ∧
      elf.Contains addr ∧
      0 < inst.size ∧ inst.size ≤ Fadec.maxInstructionSize ∧
      (addr + (BitVec.ofNat 8 inst.size).setWidth 64) =
        inst.following addr ∧
      (inst.following addr).toNat = addr.toNat + inst.size ∧
      addr.toNat + inst.size ≤ elf.base.toNat + elf.size.toNat := by
  have address : (declared inst).address = addr :=
    instructionAt_address fetched
  have sizePos : 0 < (declared inst).size := instructionAt_size_pos fetched
  have sizeLe : inst.size ≤ Fadec.maxInstructionSize :=
    (instructionAt_size_le fetched).1
  have following := instructionAt_following fetched
  refine ⟨address, instructionAt_contains fetched, sizePos, sizeLe, ?_,
    following.1, following.2⟩
  rw [Instruction.following]
  congr 1
  apply BitVec.eq_of_toNat_eq
  rw [Fadec.maxInstructionSize] at sizeLe
  simp only [BitVec.toNat_setWidth, BitVec.toNat_ofNat]
  omega

theorem Consecutive.contained
    {addr stop : BitVec 64}
    {instructions : List Instruction}
    (consecutive : Consecutive decoder elf addr instructions stop)
    (inside : elf.Contains stop) :
    elf.Contains addr := by
  cases instructions with
  | nil =>
      obtain rfl : addr = stop := consecutive
      exact inside
  | cons inst rest => exact instructionAt_contains consecutive.1

/-- None of the instructions of a decoded block starts where the next block
does. -/
theorem decodeBlock_avoids
    {nextBlock : Option (BitVec 64)}
    {fuel : Nat}
    {addr : BitVec 64}
    {instructions : List Instruction}
    {block : DecodedBlock}
    (decoded : decodeBlock decoder elf nextBlock fuel instructions addr =
      .ok block)
    (before : ∀ inst ∈ instructions, nextBlock ≠ some inst.address) :
    ∀ inst ∈ block.instructions, nextBlock ≠ some inst.address := by
  induction fuel generalizing addr instructions with
  | zero => simp [decodeBlock] at decoded
  | succ fuel inductionHypothesis =>
      unfold decodeBlock at decoded
      split at decoded
      case isTrue reached =>
        split at decoded
        case isTrue => simp at decoded
        case isFalse =>
          obtain rfl := Except.ok.inj decoded
          exact before
      case isFalse notReached =>
        cases fetched : instructionAt decoder elf addr with
        | none => simp [fetched] at decoded
        | some inst =>
            simp only [fetched] at decoded
            have extended : ∀ other ∈ instructions ++ [inst],
                nextBlock ≠ some other.address := by
              intro other member
              rcases List.mem_append.mp member with earlier | here
              · exact before other earlier
              · obtain rfl := List.mem_singleton.mp here
                rwa [instructionAt_address fetched]
            split at decoded
            case isTrue =>
              obtain rfl := Except.ok.inj decoded
              exact extended
            case isFalse => exact inductionHypothesis decoded extended

theorem decodeBlock_inRange
    (nextBlock : Option (BitVec 64))
    (fuel : Nat)
    (instructions : List Instruction)
    (addr : BitVec 64) :
    InRange (decodeBlock decoder elf nextBlock fuel instructions addr) := by
  induction fuel generalizing addr instructions with
  | zero => exact fun _ => by simp [decodeBlock]
  | succ fuel inductionHypothesis =>
      unfold decodeBlock
      split
      · split
        · exact fun _ => by simp
        · exact fun _ => by simp
      · cases instructionAt decoder elf addr with
        | none => exact fun _ => by simp
        | some inst =>
            dsimp only
            split
            · exact fun _ => by simp
            · exact inductionHypothesis _ _

end Laid

/-! ## Bounds of the page array -/

section Bounds

variable {translator : Translator} {store after : CodeStore}

/-- If the address has not been translated yet, then the instruction that ends
its block does not end where the image does. -/
def Translator.EndsInside
    (translator : Translator)
    (store : CodeStore)
    (addr : BitVec 64) : Prop :=
  store.find translator.elf addr = .ok 0 ->
    ∀ instructions last stop,
      Consecutive translator.decoder translator.elf addr
          (instructions ++ [last]) stop ->
        (∀ inst ∈ instructions, inst.endOfBlock = false) ->
          last.endOfBlock = true ->
            (∀ inst ∈ instructions ++ [last],
              nextStart translator.elf store addr ≠ some inst.address) ->
              stop.toNat ≠
                translator.elf.base.toNat + translator.elf.size.toNat

theorem Translator.Executable.contains
    {addr : BitVec 64}
    (executable : translator.Executable addr) :
    translator.elf.Contains addr := by
  by_contra outside
  rw [Executable, Elf.getPageFlags, dif_neg outside] at executable
  exact absurd executable (by decide)

/-- The next block starts in the image. -/
theorem Bounded.nextStart_contained
    {elf : Elf}
    {addr start : BitVec 64}
    (bounded : Bounded elf store)
    (next : nextStart elf store addr = some start) :
    elf.Contains start := by
  obtain ⟨index, found, rfl⟩ := Option.map_eq_some_iff.mp next
  have member := List.mem_of_find?_eq_some found
  obtain ⟨entries, dropped, inside⟩ := List.mem_flatten.mp member
  exact bounded.start_contained index
    (Or.inr ⟨entries, List.mem_of_mem_drop dropped, inside⟩)

theorem Translator.batch_inRange
    (connection : List Inst)
    (inst : Instruction) :
    InRange (translator.batch connection inst) := by
  rw [batch]
  split
  · exact fun _ => by simp
  · split
    · exact fun _ => by simp
    · exact fun _ => by simp

/-- The instructions of a block that ends in the image are added within the
bounds. -/
theorem Translator.addGenerated_bounded
    {connection : List Inst}
    {index : Nat}
    {addr stop : BitVec 64}
    {instructions : List Instruction}
    (bounded : Bounded translator.elf store)
    (bound : index < store.blocks.length)
    (consecutive : Consecutive translator.decoder translator.elf addr
      (instructions.map declared) stop)
    (inside : translator.elf.Contains stop) :
    InRange (translator.addGenerated connection index store instructions) ∧
      ∀ after,
        translator.addGenerated connection index store instructions =
            .ok after ->
          Bounded translator.elf after := by
  induction instructions generalizing store addr with
  | nil =>
      refine ⟨fun _ => by simp [addGenerated], ?_⟩
      rintro after ⟨⟩
      exact bounded
  | cons inst rest inductionHypothesis =>
      obtain ⟨fetched, restConsecutive⟩ := consecutive
      obtain ⟨address, contained, _, _, sizeEq, _⟩ :=
        instructionAt_declared fetched
      have batched := @batch_inRange translator
        (if rest.isEmpty then connection else []) inst
      simp only [addGenerated, bind, Except.bind]
      cases batchEq : translator.batch
          (if rest.isEmpty then connection else []) inst with
      | error fault =>
          rw [batchEq] at batched
          exact ⟨batched.error, by simp⟩
      | ok code =>
          have following := restConsecutive.contained inside
          obtain ⟨inRange, steps⟩ := @addInstruction_steps _
            translator.memory store index inst.address
            (BitVec.ofNat 8 inst.size) code bounded bound
            (by rwa [address])
            (by rw [address, sizeEq]; exact following)
          dsimp only
          cases added : store.addInstruction translator.elf translator.memory
              index inst.address (BitVec.ofNat 8 inst.size) code with
          | error fault =>
              rw [added] at inRange
              exact ⟨inRange, by simp⟩
          | ok next =>
              obtain ⟨nextBounded, length, _⟩ := steps next added
              exact inductionHypothesis nextBounded (length ▸ bound)
                restConsecutive

/-- What `buildInstructions` returns. -/
theorem buildInstructions_cases
    {decoder : Fadec.Decoder}
    {elf : Elf}
    {depth : BitVec 8}
    {addr : BitVec 64}
    {block : DecodedBlock}
    {instructions : List Instruction}
    (built : buildInstructions decoder elf depth store addr =
      .ok (block, instructions)) :
    block.Describes decoder elf addr (nextStart elf store addr) ∧
      (∀ inst ∈ block.instructions,
        nextStart elf store addr ≠ some inst.address) ∧
      Consecutive decoder elf addr (instructions.map declared) block.addr := by
  unfold buildInstructions at built
  cases decoded : decodeBlock decoder elf (nextStart elf store addr)
      (scanFuel elf) [] addr with
  | error fault =>
      rw [nextStart] at decoded
      simp [decoded] at built
  | ok decodedBlock =>
      have describes := decodeBlock_nil_describes decoded
      have avoids := decodeBlock_avoids decoded (by simp)
      rw [nextStart] at decoded
      simp only [decoded] at built
      obtain ⟨rfl, rfl⟩ := Prod.mk.inj (Except.ok.inj built)
      refine ⟨describes, avoids, ?_⟩
      rw [map_declared_assignUpdates describes]
      exact describes.consecutive

theorem buildInstructions_inRange
    (decoder : Fadec.Decoder)
    (elf : Elf)
    (depth : BitVec 8)
    (store : CodeStore)
    (addr : BitVec 64) :
    InRange (buildInstructions decoder elf depth store addr) := by
  have inRange := @decodeBlock_inRange decoder elf (nextStart elf store addr)
    (scanFuel elf) [] addr
  rw [nextStart] at inRange
  cases decoded : decodeBlock decoder elf
      ((store.getNextBlock elf addr).map fun index =>
        (store.block index).x86Start) (scanFuel elf) [] addr with
  | error fault =>
      rw [decoded] at inRange
      have failed : buildInstructions decoder elf depth store addr =
          .error fault := by
        simp only [buildInstructions, decoded]
        rfl
      rw [failed]
      exact inRange.error
  | ok block =>
      have built : buildInstructions decoder elf depth store addr =
          .ok (block, assignUpdates decoder elf depth.toNat block) := by
        simp only [buildInstructions, decoded]
        rfl
      rw [built]
      exact fun _ => by simp

/-- A new block that does not end where the image does ends inside of it. -/
theorem Translator.EndsInside.contains
    {addr : BitVec 64}
    {block : DecodedBlock}
    {instructions : List Instruction}
    (bounded : Bounded translator.elf store)
    (inside : translator.EndsInside store addr)
    (found : store.find translator.elf addr = .ok 0)
    (built : buildInstructions translator.decoder translator.elf
      translator.depth store addr = .ok (block, instructions)) :
    translator.elf.Contains block.addr := by
  obtain ⟨describes, avoids, _⟩ := buildInstructions_cases built
  cases reaches : block.reachesNextBlock with
  | true =>
      exact Bounded.nextStart_contained bounded
        (describes.next_of_reaches reaches)
  | false =>
      have split := List.dropLast_append_getLast describes.nonempty
      have consecutive := describes.consecutive
      have ends := describes.last_endOfBlock
      rw [reaches] at ends
      rw [← split] at consecutive avoids
      have notEnd := inside found _ _ _ consecutive describes.front_continues
        ends avoids
      obtain ⟨lastAddr, _, fetched, stopEq⟩ := consecutive.of_concat
      obtain ⟨low, _⟩ := (translator.elf.contains_iff lastAddr).mp
        (instructionAt_contains fetched)
      obtain ⟨following, le⟩ := instructionAt_following fetched
      rw [stopEq] at notEnd
      rw [Elf.contains_iff, stopEq]
      omega

/-- A call keeps the page array and its accesses are within its bounds. -/
theorem Translator.translate_bounded
    {addr : BitVec 64}
    (bounded : Bounded translator.elf store)
    (inside : translator.EndsInside store addr) :
    InRange (translator.translate store addr) ∧
      ∀ riscvStart after,
        translator.translate store addr = .ok (riscvStart, after) ->
          Bounded translator.elf after := by
  rw [translate]
  split
  case isFalse => exact ⟨fun _ => by simp, by simp⟩
  case isTrue executable =>
    have inRange := bounded.find_inRange executable.contains
    cases found : store.find translator.elf addr with
    | error fault =>
        rw [found] at inRange
        exact ⟨inRange.error, by simp⟩
    | ok riscvCode =>
        dsimp only
        split
        · refine ⟨fun _ => by simp, ?_⟩
          rintro riscvStart after ⟨⟩
          exact bounded
        · rename_i zero
          obtain rfl := not_not.mp zero
          rw [translateBlock]
          have built := buildInstructions_inRange translator.decoder
            translator.elf translator.depth store addr
          cases builtEq : buildInstructions translator.decoder translator.elf
              translator.depth store addr with
          | error fault =>
              rw [builtEq] at built
              exact ⟨built.error, by simp⟩
          | ok result =>
              obtain ⟨block, instructions⟩ := result
              obtain ⟨_, _, consecutive⟩ := buildInstructions_cases builtEq
              have created : store.createBlock.1 <
                  store.createBlock.2.blocks.length := by
                simp [createBlock]
              obtain ⟨generated, kept⟩ := @addGenerated_bounded translator
                store.createBlock.2 (translator.connection store addr block) _
                _ _ _ bounded.createBlock created consecutive
                (inside.contains bounded found builtEq)
              dsimp only
              cases addedEq : translator.addGenerated
                  (translator.connection store addr block) store.createBlock.1
                  store.createBlock.2 instructions with
              | error fault =>
                  rw [addedEq] at generated
                  exact ⟨generated.error, by rintro _ _ ⟨⟩⟩
              | ok next =>
                  refine ⟨fun _ => by simp [Except.map], ?_⟩
                  rintro riscvStart after ⟨⟩
                  exact kept next addedEq

theorem Translator.Runs.bounded
    (run : translator.Runs translator.EndsInside store) :
    Bounded translator.elf store := by
  induction run with
  | start => exact empty_bounded
  | call _ inside translated inductionHypothesis =>
      exact (translate_bounded inductionHypothesis inside).2 _ _ translated

/-- In every run of calls whose new blocks do not end where the image does, all
accesses to the page array are within its bounds. -/
theorem Translator.Runs.pages_inRange
    {addr : BitVec 64}
    (run : translator.Runs translator.EndsInside store)
    (executable : translator.Executable addr)
    (inside : translator.EndsInside store addr) :
    getPageIndex translator.elf addr < store.pages.length ∧
      InRange (translator.translate store addr) :=
  ⟨getPageIndex_lt run.bounded executable.contains,
    (translate_bounded run.bounded inside).1⟩

end Bounds

/-! ## A block at the end of the image -/

/-- A page of zeros with one return instruction, and code without effect for
it. -/
def returnTranslator (position : BitVec 64) : Translator where
  decoder := .ofEncodings [.ret]
  elf := .ofPages 1 (fun addr => if addr = position then 0xc3 else 0)
    (by decide)
  depth := 1
  generate _ := some [Encoding.nop]
  memory := ⟨8, 8, .consecutive 8, .consecutive 8⟩

/-- A return instruction in the first byte of the page. -/
theorem pages_inRange_first :
    getPageIndex (returnTranslator 0x400000).elf 0x400000 <
        (CodeStore.empty (returnTranslator 0x400000).elf).pages.length ∧
      InRange ((returnTranslator 0x400000).translate
        (.empty (returnTranslator 0x400000).elf) 0x400000) := by
  refine Translator.Runs.pages_inRange .start (by decide +kernel) ?_
  have fetched : instructionAt (returnTranslator 0x400000).decoder
      (returnTranslator 0x400000).elf 0x400000 =
        some (transformInstruction
          (Fadec.Encoding.ret.decodedAt 0x400000)) := by
    decide +kernel
  intro _ instructions last stop consecutive continues _ _
  cases instructions with
  | nil =>
      obtain ⟨here, stopEq⟩ := consecutive
      obtain rfl := Option.some.inj (fetched.symm.trans here)
      obtain rfl : _ = stop := stopEq
      decide +kernel
  | cons first rest =>
      obtain rfl := Option.some.inj (fetched.symm.trans consecutive.1)
      exact absurd (continues _ List.mem_cons_self) (by decide)

/-- The page behind the last one is accessed when the return instruction in
the last byte of the image is translated. -/
theorem pages_outOfRange :
    ¬∀ (translator : Translator) (store : CodeStore) (addr : BitVec 64),
      translator.Runs (fun _ _ => True) store -> translator.Executable addr ->
        InRange (translator.translate store addr) := by
  intro allInRange
  have inRange := allInRange (returnTranslator 0x400fff) _ 0x400fff .start
    (by decide +kernel)
  have faults : (match (returnTranslator 0x400fff).translate
      (.empty (returnTranslator 0x400fff).elf) 0x400fff with
    | .error fault => decide (fault = .pageOutOfRange 1)
    | .ok _ => false) = true := by
    decide +kernel
  split at faults
  · rename_i fault failed
    exact inRange 1 (failed.trans (by rw [of_decide_eq_true faults]))
  · cases faults

end CodeGenerator
end Oxtra
