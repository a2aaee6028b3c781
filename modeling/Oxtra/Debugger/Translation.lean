import Oxtra.Debugger.BreakPoints

/-!
# Break-points behind a translation

The translation of a block moves the break-points in it to its instructions.
The loop keeps one entry for each instruction, in ascending order, and a
temporary entry behind them, unless the last break-point and the temporary entry
come to one instruction.
-/

namespace Oxtra
namespace Debugger

/-! ## Entries -/

/-- What an entry becomes behind the translation of a block. -/
def updateEntry (block : Block) (entry : BreakPoint) : BreakPoint :=
  if entry.riscv ≠ 0 then entry else translateEntry block entry

section UpdateEntry

variable {block : Block} {entry : BreakPoint}

theorem updateEntry_of_kept
    (kept : entry.riscv ≠ 0 ∨ ¬ block.Covers entry.x86) :
    updateEntry block entry = entry := by
  unfold updateEntry
  split
  · rfl
  · rename_i untranslated
    rw [translateEntry, if_neg (kept.resolve_left untranslated)]

theorem updateEntry_of_inInstruction
    {index : Nat}
    (untranslated : entry.riscv = 0)
    (inside : block.InInstruction index entry.x86) :
    updateEntry block entry = block.instructionEntry index := by
  rw [updateEntry, if_neg (not_not.2 untranslated), translateEntry,
    if_pos inside.covers, inside.breakPoint, Option.getD_some]

/-- An entry is kept, or becomes the one of its instruction. -/
theorem updateEntry_cases (block : Block) (entry : BreakPoint) :
    (entry.riscv ≠ 0 ∨ ¬ block.Covers entry.x86) ∧
        updateEntry block entry = entry ∨
      entry.riscv = 0 ∧ ∃ index, block.InInstruction index entry.x86 ∧
        updateEntry block entry = block.instructionEntry index := by
  by_cases kept : entry.riscv ≠ 0 ∨ ¬ block.Covers entry.x86
  · exact Or.inl ⟨kept, updateEntry_of_kept kept⟩
  · rw [not_or, not_not, not_not] at kept
    obtain ⟨untranslated, covers⟩ := kept
    obtain ⟨index, inside, -⟩ := Block.breakPoint_spec covers
    exact Or.inr ⟨untranslated, index, inside,
      updateEntry_of_inInstruction untranslated inside⟩

theorem updateEntry_le (block : Block) (entry : BreakPoint) :
    (updateEntry block entry).x86 ≤ entry.x86 := by
  obtain ⟨-, same⟩ | ⟨-, index, inside, becomes⟩ :=
    updateEntry_cases block entry
  · rw [same]
  · rw [becomes]
    exact inside.2.1

/-- An updated entry stays the same. -/
@[simp] theorem updateEntry_updateEntry (block : Block) (entry : BreakPoint) :
    updateEntry block (updateEntry block entry) = updateEntry block entry := by
  obtain ⟨kept, same⟩ | ⟨-, index, -, becomes⟩ :=
    updateEntry_cases block entry
  · rw [same, same]
  · rw [becomes]
    exact updateEntry_of_kept
      (Or.inl (block.instructionEntry_riscv_ne_zero index))

/-- An entry at the address of one that has changed keeps its address. -/
theorem updateEntry_x86_of_eq
    {other : BreakPoint}
    (changes : updateEntry block entry ≠ entry)
    (same : other.x86 = (updateEntry block entry).x86) :
    (updateEntry block other).x86 = other.x86 := by
  obtain ⟨-, unchanged⟩ | ⟨-, index, inside, becomes⟩ :=
    updateEntry_cases block entry
  · exact absurd unchanged changes
  · obtain ⟨-, unchanged⟩ | ⟨-, otherIndex, otherInside, otherBecomes⟩ :=
      updateEntry_cases block other
    · rw [unchanged]
    · rw [becomes] at same
      rw [same] at otherInside
      rw [otherBecomes, same, otherInside.unique inside.start]

/-- One pass of the loop. -/
theorem updateFrom_cons
    (previous : Option BreakPoint)
    (rest : List BreakPoint) :
    updateFrom block previous (entry :: rest) =
      if updateEntry block entry ≠ entry ∧
          (previous.map BreakPoint.x86 =
              some (updateEntry block entry).x86 ∨
            rest.head?.map BreakPoint.x86 =
              some (updateEntry block entry).x86) then
        updateFrom block previous rest
      else
        updateEntry block entry ::
          updateFrom block (some (updateEntry block entry)) rest := by
  obtain ⟨kept, same⟩ | ⟨untranslated, index, inside, becomes⟩ :=
    updateEntry_cases block entry
  · rw [same, if_neg fun dropped => dropped.1 rfl]
    by_cases translated : entry.riscv ≠ 0
    · rw [updateFrom, if_pos translated]
    · have outside := kept.resolve_left translated
      have unchanged : translateEntry block entry = entry := if_neg outside
      rw [not_not] at translated
      simp only [updateFrom, unchanged, translated, ne_eq, not_true_eq_false,
        if_false, if_true]
  · have translated := block.instructionEntry_riscv_ne_zero index
    have becomesAlso : translateEntry block entry =
        block.instructionEntry index := by
      rw [translateEntry, if_pos inside.covers, inside.breakPoint,
        Option.getD_some]
    have changes : block.instructionEntry index ≠ entry := by
      intro same
      rw [same] at translated
      exact translated untranslated
    rw [becomes]
    simp only [updateFrom, becomesAlso, untranslated, translated, changes,
      ne_eq, not_true_eq_false, not_false_eq_true, if_false, true_and]

end UpdateEntry

/-- The last of some entries and a temporary one do not become the same, unless
they are kept. -/
def TempApart
    (block : Block)
    (entries : List BreakPoint)
    (temp : Option BreakPoint) : Prop :=
  ∀ last ∈ entries.getLast?, ∀ entry ∈ temp,
    updateEntry block last ≠ last ∨ updateEntry block entry ≠ entry ->
      (updateEntry block last).x86 ≠ (updateEntry block entry).x86

/-- The entry behind which the loop goes on may stand for the last one. -/
theorem TempApart.next
    {block : Block}
    {front rest : List BreakPoint}
    {entry next : BreakPoint}
    {temp : Option BreakPoint}
    (apart : TempApart block (front ++ entry :: rest) temp)
    (updated : updateEntry block next = next)
    (same : next.x86 = (updateEntry block entry).x86) :
    TempApart block (next :: rest) temp := by
  intro last isLast
  cases rest with
  | nil =>
      obtain rfl : next = last := by simpa using isLast
      intro other isOther changes
      rw [updated, same]
      exact apart entry (by simp) other isOther
        (Or.inr (changes.resolve_left (not_not.2 updated)))
  | cons head tail =>
      apply apart last
      simpa using isLast

/-- An entry that changes does not become the next one, which is behind it or
temporary. -/
theorem TempApart.head_ne
    {block : Block}
    {front rest : List BreakPoint}
    {entry : BreakPoint}
    {temp : Option BreakPoint}
    (apart : TempApart block (front ++ entry :: rest) temp)
    (first : ∀ other ∈ rest, entry.x86 < other.x86)
    (changes : updateEntry block entry ≠ entry) :
    (rest ++ temp.toList).head?.map BreakPoint.x86 ≠
      some (updateEntry block entry).x86 := by
  intro isNext
  obtain ⟨next, there, equal⟩ := Option.map_eq_some_iff.1 isNext
  cases rest with
  | nil =>
      have isTemp : next ∈ temp := by simpa using there
      have different := apart entry (by simp) next isTemp (Or.inl changes)
      rw [updateEntry_x86_of_eq changes equal] at different
      exact different equal.symm
  | cons head tail =>
      obtain rfl : head = next := by simpa using there
      have above := first head List.mem_cons_self
      have lower := updateEntry_le block entry
      omega

section Run

variable {block : Block} {temp previous : Option BreakPoint}

/-- The loop keeps a temporary entry that is alone or behind another one. -/
theorem updateFrom_temp
    (updatedBefore : ∀ entry ∈ previous, updateEntry block entry = entry)
    (apart : TempApart block previous.toList temp) :
    updateFrom block previous temp.toList =
      (temp.map (updateEntry block)).toList := by
  cases temp with
  | none => rfl
  | some entry =>
      have kept : ¬ (updateEntry block entry ≠ entry ∧
          (previous.map BreakPoint.x86 =
              some (updateEntry block entry).x86 ∨
            ([] : List BreakPoint).head?.map BreakPoint.x86 =
              some (updateEntry block entry).x86)) := by
        rintro ⟨changes, same | same⟩
        · obtain ⟨last, isLast, equal⟩ := Option.map_eq_some_iff.1 same
          have different := apart last (by simp [isLast]) entry rfl
            (Or.inr changes)
          rw [updatedBefore last isLast] at different
          exact different equal
        · cases same
      rw [Option.toList_some, updateFrom_cons, if_neg kept]
      rfl

/-- Entries that the loop has put in order, behind another one. -/
structure Updates
    (block : Block)
    (previous : Option BreakPoint)
    (entries updated : List BreakPoint) : Prop where
  ascending : (previous.toList ++ updated).Pairwise fun first second =>
    first.x86 < second.x86
  mem_iff : ∀ key, key ∈ (previous.toList ++ updated).map BreakPoint.x86 ↔
    key ∈ (previous.toList ++ entries).map fun old =>
      (updateEntry block old).x86
  updates : ∀ entry ∈ updated, ∃ old ∈ entries, updateEntry block old = entry

/-- The loop puts an entry behind the other one and goes on behind it. -/
theorem Updates.cons
    {entry : BreakPoint}
    {rest updated : List BreakPoint}
    (updates : Updates block (some (updateEntry block entry)) rest updated)
    (updatedBefore : ∀ last ∈ previous, updateEntry block last = last)
    (behind : ∀ last ∈ previous, last.x86 < (updateEntry block entry).x86) :
    Updates block previous (entry :: rest)
      (updateEntry block entry :: updated) where
  ascending := by
    refine List.pairwise_append.2 ⟨?_, updates.ascending, ?_⟩
    · cases previous <;> simp
    · intro last isLast other member
      have less := behind last (by simpa using isLast)
      obtain rfl | inside := List.mem_cons.1 member
      · exact less
      · exact less.trans
          ((List.pairwise_cons.1 updates.ascending).1 other inside)
  mem_iff key := by
    have mem := updates.mem_iff key
    simp only [Option.toList_some, List.singleton_append, List.map_cons,
      updateEntry_updateEntry] at mem
    rw [List.map_append, List.map_append, List.mem_append, List.mem_append,
      List.map_cons, List.map_cons, mem]
    refine or_congr_left ?_
    cases previous with
    | none => rfl
    | some last => simp [updatedBefore last rfl]
  updates := by
    intro other member
    obtain rfl | inside := List.mem_cons.1 member
    · exact ⟨entry, List.mem_cons_self, rfl⟩
    · obtain ⟨old, oldMember, same⟩ := updates.updates other inside
      exact ⟨old, List.mem_cons_of_mem _ oldMember, same⟩

/-- The loop removes an entry that becomes the other one. -/
theorem Updates.drop
    {entry last : BreakPoint}
    {rest updated : List BreakPoint}
    (updates : Updates block (some last) rest updated)
    (updatedLast : updateEntry block last = last)
    (same : last.x86 = (updateEntry block entry).x86) :
    Updates block (some last) (entry :: rest) updated where
  ascending := updates.ascending
  mem_iff key := by
    rw [updates.mem_iff]
    simp [updatedLast, same]
  updates := by
    intro other member
    obtain ⟨old, oldMember, becomes⟩ := updates.updates other member
    exact ⟨old, List.mem_cons_of_mem _ oldMember, becomes⟩

/-- The loop puts ascending entries that keep their order when they are updated
in strict order, and a temporary entry behind them. -/
theorem updateFrom_append
    {entries : List BreakPoint}
    (ascending : (previous.toList ++ entries).Pairwise fun first second =>
      first.x86 < second.x86)
    (inOrder : (previous.toList ++ entries).Pairwise fun first second =>
      (updateEntry block first).x86 ≤ (updateEntry block second).x86)
    (updatedBefore : ∀ entry ∈ previous, updateEntry block entry = entry)
    (apart : TempApart block (previous.toList ++ entries) temp) :
    ∃ updated,
      updateFrom block previous (entries ++ temp.toList) =
          updated ++ (temp.map (updateEntry block)).toList ∧
        Updates block previous entries updated := by
  induction entries generalizing previous with
  | nil =>
      rw [List.append_nil] at ascending apart
      refine ⟨[], updateFrom_temp updatedBefore apart,
        by rwa [List.append_nil], fun key => ?_, by simp⟩
      cases previous with
      | none => rfl
      | some last => simp [updatedBefore last rfl]
  | cons entry rest inductionHypothesis =>
      obtain ⟨-, behind, between⟩ := List.pairwise_append.1 ascending
      obtain ⟨-, orderedBehind, orderedBetween⟩ := List.pairwise_append.1 inOrder
      obtain ⟨first, sortedRest⟩ := List.pairwise_cons.1 behind
      obtain ⟨firstOrdered, orderedRest⟩ := List.pairwise_cons.1 orderedBehind
      rw [List.cons_append, updateFrom_cons]
      split
      · -- The entry is removed, which only the one before it can cause.
        rename_i dropped
        obtain ⟨changes, same⟩ := dropped
        have isPrevious := same.resolve_right (apart.head_ne first changes)
        obtain ⟨last, rfl, equal⟩ := Option.map_eq_some_iff.1 isPrevious
        have updatedLast := updatedBefore last rfl
        obtain ⟨updated, runs, updates⟩ := @inductionHypothesis (some last)
          (List.pairwise_cons.2 ⟨fun other member =>
            between last (by simp) other (List.mem_cons_of_mem _ member),
            sortedRest⟩)
          (List.pairwise_cons.2 ⟨fun other member =>
            orderedBetween last (by simp) other
              (List.mem_cons_of_mem _ member), orderedRest⟩)
          updatedBefore (apart.next updatedLast equal)
        exact ⟨updated, runs, updates.drop updatedLast equal⟩
      · rename_i kept
        have lower := updateEntry_le block entry
        have above : ∀ last ∈ previous,
            last.x86 < (updateEntry block entry).x86 := by
          rintro last rfl
          have ordered := orderedBetween last (by simp) entry
            List.mem_cons_self
          rw [updatedBefore last rfl] at ordered
          refine lt_of_le_of_ne ordered fun equal => kept ⟨?_, Or.inl ?_⟩
          · intro same
            have less := between last (by simp) entry List.mem_cons_self
            rw [same] at equal
            omega
          · rw [Option.map_some, equal]
        obtain ⟨updated, runs, updates⟩ :=
          @inductionHypothesis (some (updateEntry block entry))
            (List.pairwise_cons.2 ⟨fun other member =>
              lower.trans_lt (first other member), sortedRest⟩)
            (List.pairwise_cons.2 ⟨fun other member => by
              rw [updateEntry_updateEntry]
              exact firstOrdered other member, orderedRest⟩)
            (by simp) (apart.next (updateEntry_updateEntry block entry) rfl)
        refine ⟨updateEntry block entry :: updated, ?_,
          updates.cons updatedBefore above⟩
        rw [runs, List.cons_append]

end Run

/-! ## What the table shows -/

section Blocks

variable {blocks : List Block} {block : Block} {entry : BreakPoint}

theorem startOf_perm {other : List Block} (perm : blocks.Perm other) :
    StartOf blocks = StartOf other := by
  funext address start
  simp only [StartOf, perm.mem_iff]

theorem breaksAt_perm {other : List Block} (perm : blocks.Perm other) :
    BreaksAt blocks = BreaksAt other := by
  funext entry
  simp only [BreaksAt, perm.mem_iff]

theorem Shows.perm
    {other : List Block}
    {table : List BreakPoint}
    {addresses : Set Nat}
    (shows : Shows blocks table addresses)
    (perm : blocks.Perm other) :
    Shows other table addresses where
  keyTable := startOf_perm perm ▸ shows.keyTable
  breaks := breaksAt_perm perm ▸ shows.breaks

/-- An entry breaks at its instruction behind the translation of a block. -/
theorem BreaksAt.update (breaks : BreaksAt blocks entry) :
    BreaksAt (block :: blocks) (updateEntry block entry) := by
  obtain ⟨kept, same⟩ | ⟨-, index, inside, becomes⟩ :=
    updateEntry_cases block entry
  · rw [same]
    obtain ⟨stored, member, found⟩ | ⟨uncovered, untranslated⟩ := breaks
    · exact Or.inl ⟨stored, List.mem_cons_of_mem _ member, found⟩
    · have outside := kept.resolve_left (not_not.2 untranslated)
      exact Or.inr ⟨List.forall_mem_cons.2 ⟨outside, uncovered⟩, untranslated⟩
  · rw [becomes]
    exact Or.inl ⟨block, List.mem_cons_self, index, inside.start, rfl⟩

/-- An entry at the start of an address stays there behind the translation of a
block. -/
theorem StartOf.update
    {address : Nat}
    (start : StartOf blocks address entry.x86)
    (breaks : BreaksAt blocks entry) :
    StartOf (block :: blocks) address (updateEntry block entry).x86 := by
  obtain ⟨stored, member, storedIndex, storedInside, isStart⟩ |
    ⟨uncovered, same⟩ := start
  · have translated : entry.riscv ≠ 0 := by
      obtain ⟨other, -, index, -, rfl⟩ | ⟨uncovered, -⟩ := breaks
      · exact other.instructionEntry_riscv_ne_zero index
      · rw [isStart] at uncovered
        exact absurd storedInside.start.covers (uncovered stored member)
    rw [updateEntry_of_kept (Or.inl translated)]
    exact Or.inl ⟨stored, List.mem_cons_of_mem _ member, storedIndex,
      storedInside, isStart⟩
  · subst same
    have untranslated : entry.riscv = 0 := by
      obtain ⟨other, member, index, inside, -⟩ | ⟨-, zero⟩ := breaks
      · exact absurd inside.covers (uncovered other member)
      · exact zero
    obtain ⟨kept, same⟩ | ⟨-, index, inside, becomes⟩ :=
      updateEntry_cases block entry
    · have outside := kept.resolve_left (not_not.2 untranslated)
      rw [same]
      exact Or.inr ⟨List.forall_mem_cons.2 ⟨outside, uncovered⟩, rfl⟩
    · rw [becomes]
      exact Or.inl ⟨block, List.mem_cons_self, index, inside, rfl⟩

/-- The table shows the same break-points behind the translation of a block,
if none of them is removed for the temporary entry. -/
theorem updateBreakPoints_shows
    {table : List BreakPoint}
    {addresses : Set Nat}
    {temp : Option BreakPoint}
    (snapping : Snapping (StartOf blocks) addresses)
    (finer : Snapping (StartOf (block :: blocks)) addresses)
    (shows : Shows blocks table addresses)
    (apart : TempApart block table temp) :
    ∃ updated,
      updateBreakPoints block (table ++ temp.toList) =
          updated ++ (temp.map (updateEntry block)).toList ∧
        Shows (block :: blocks) updated addresses := by
  have starts {old : BreakPoint} (member : old ∈ table) :
      ∃ address ∈ addresses, StartOf blocks address old.x86 ∧
        StartOf (block :: blocks) address (updateEntry block old).x86 := by
    obtain ⟨address, inside, start⟩ :=
      (shows.keyTable.mem_iff old.x86).1 (List.mem_map_of_mem member)
    exact ⟨address, inside, start, start.update (shows.breaks old member)⟩
  have inOrder : table.Pairwise fun first second =>
      (updateEntry block first).x86 ≤ (updateEntry block second).x86 := by
    refine shows.ascending.imp_of_mem ?_
    intro first second memFirst memSecond less
    obtain ⟨firstAddress, inFirst, firstStart, firstUpdate⟩ := starts memFirst
    obtain ⟨secondAddress, inSecond, secondStart, secondUpdate⟩ :=
      starts memSecond
    have before := snapping.lt_of_key_lt inSecond firstStart secondStart less
    exact finer.monotone inFirst before.le firstUpdate secondUpdate
  obtain ⟨updated, runs, updates⟩ := @updateFrom_append block temp none table
    shows.ascending inOrder (by simp) apart
  refine ⟨updated, runs, ⟨List.pairwise_map.2 updates.ascending, fun key => ?_⟩,
    fun entry member => ?_⟩
  · have mem := updates.mem_iff key
    rw [Option.toList_none, List.nil_append, List.nil_append] at mem
    rw [mem, List.mem_map]
    constructor
    · rintro ⟨old, member, rfl⟩
      obtain ⟨address, inside, -, start⟩ := starts member
      exact ⟨address, inside, start⟩
    · rintro ⟨address, inside, start⟩
      obtain ⟨before, isBefore⟩ := exists_startOf blocks address
      obtain ⟨old, member, rfl⟩ := List.mem_map.1
        ((shows.keyTable.mem_iff before).2 ⟨address, inside, isBefore⟩)
      exact ⟨old, member, finer.unique inside
        (isBefore.update (shows.breaks old member)) start⟩
  · obtain ⟨old, oldMember, rfl⟩ := updates.updates entry member
    exact (shows.breaks old oldMember).update

end Blocks

/-! ## The temporary entry -/

/-- The block moves an entry to an instruction, or has it there already. -/
def Block.Takes (block : Block) (index : Nat) (entry : BreakPoint) : Prop :=
  block.InInstruction index entry.x86 ∧
    (entry.riscv = 0 ∨ entry.x86 = block.instructionStart index)

/-- The last break-point and the temporary entry come to one instruction of the
block, and one of them is not translated before. -/
def Merges (block : Block) (last temp : BreakPoint) : Prop :=
  ∃ index, block.Takes index last ∧ block.Takes index temp ∧
    (last.riscv = 0 ∨ temp.riscv = 0)

section Merges

variable {block : Block} {index : Nat} {entry last temp : BreakPoint}

theorem takes_of_updateEntry
    (inside : block.InInstruction index (block.instructionStart index))
    (same : (updateEntry block entry).x86 = block.instructionStart index) :
    block.Takes index entry := by
  obtain ⟨-, unchanged⟩ | ⟨untranslated, other, otherInside, becomes⟩ :=
    updateEntry_cases block entry
  · rw [unchanged] at same
    rw [← same] at inside
    exact ⟨inside, Or.inr same⟩
  · rw [becomes] at same
    have start := otherInside.start
    rw [show block.instructionStart other = block.instructionStart index
      from same] at start
    rw [start.unique inside] at otherInside
    exact ⟨otherInside, Or.inl untranslated⟩

theorem Block.Takes.updateEntry_x86 (takes : block.Takes index entry) :
    (updateEntry block entry).x86 = block.instructionStart index := by
  obtain ⟨inside, untranslated | atStart⟩ := takes
  · rw [updateEntry_of_inInstruction untranslated inside]
    rfl
  · by_cases untranslated : entry.riscv = 0
    · rw [updateEntry_of_inInstruction untranslated inside]
      rfl
    · rw [updateEntry_of_kept (Or.inl untranslated), atStart]

theorem Block.Takes.changes
    (takes : block.Takes index entry)
    (untranslated : entry.riscv = 0) :
    updateEntry block entry ≠ entry := by
  rw [updateEntry_of_inInstruction untranslated takes.1]
  rintro rfl
  exact block.instructionEntry_riscv_ne_zero index untranslated

/-- The loop compares the last break-point and the temporary entry, and finds
them equal, exactly if the block merges them. -/
theorem merges_iff :
    Merges block last temp ↔
      (updateEntry block last ≠ last ∨ updateEntry block temp ≠ temp) ∧
        (updateEntry block last).x86 = (updateEntry block temp).x86 := by
  constructor
  · rintro ⟨index, takesLast, takesTemp, untranslated⟩
    refine ⟨untranslated.imp takesLast.changes takesTemp.changes, ?_⟩
    rw [takesLast.updateEntry_x86, takesTemp.updateEntry_x86]
  · rintro ⟨changes, same⟩
    obtain changesLast | changesTemp := changes
    · obtain ⟨-, unchanged⟩ | ⟨untranslated, index, inside, becomes⟩ :=
        updateEntry_cases block last
      · exact absurd unchanged changesLast
      · rw [becomes] at same
        exact ⟨index, ⟨inside, Or.inl untranslated⟩,
          takes_of_updateEntry inside.start same.symm, Or.inl untranslated⟩
    · obtain ⟨-, unchanged⟩ | ⟨untranslated, index, inside, becomes⟩ :=
        updateEntry_cases block temp
      · exact absurd unchanged changesTemp
      · rw [becomes] at same
        exact ⟨index, takes_of_updateEntry inside.start same,
          ⟨inside, Or.inl untranslated⟩, Or.inr untranslated⟩

theorem tempApart_of_not_merges
    {table : List BreakPoint}
    (notMerged : ∀ last ∈ table.getLast?, ¬ Merges block last temp) :
    TempApart block table (some temp) := by
  intro last isLast entry isTemp changes same
  obtain rfl := Option.some.inj isTemp
  exact notMerged last isLast (merges_iff.2 ⟨changes, same⟩)

end Merges

end Debugger
end Oxtra
