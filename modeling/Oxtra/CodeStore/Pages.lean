import Oxtra.CodeStore

/-!
# The page arrays of the code store

Every page array holds the blocks that reach into the page, strictly sorted by
their start addresses.  A new block is sorted into the page of its start, and
becomes the first block of every further page that it grows into.
-/

namespace Oxtra

/-! ## Pages of addresses -/

namespace Elf

/-- The page of a guest address that is given as a number. -/
def pageOfNat (elf : Elf) (address : Nat) : Nat :=
  (address - elf.base.toNat) / pageSize

variable {elf : Elf}

theorem pageOfNat_mono
    {first second : Nat}
    (le : first ≤ second) :
    elf.pageOfNat first ≤ elf.pageOfNat second :=
  Nat.div_le_div_right (Nat.sub_le_sub_right le _)

theorem pageOfNat_lt
    {address : Nat}
    (low : elf.base.toNat ≤ address)
    (high : address < elf.base.toNat + elf.size.toNat) :
    elf.pageOfNat address < elf.pageCount := by
  have aligned := elf.size_aligned
  simp only [pageOfNat, pageCount, pageSize] at *
  omega

/-- Since the image is aligned, its pages are those of the address space. -/
theorem pageOfNat_lt_iff
    {first second : Nat}
    (firstLow : elf.base.toNat ≤ first)
    (secondLow : elf.base.toNat ≤ second) :
    elf.pageOfNat first < elf.pageOfNat second ↔
      first / pageSize < second / pageSize := by
  have aligned := elf.base_aligned
  simp only [pageOfNat, pageSize] at *
  omega

/-- An instruction is shorter than a page. -/
theorem pageOfNat_add_le
    {address size : Nat}
    (short : size ≤ pageSize) :
    elf.pageOfNat (address + size) ≤ elf.pageOfNat address + 1 := by
  simp only [pageOfNat, pageSize] at *
  omega

end Elf

namespace CodeStore

variable {elf : Elf}

theorem getPageIndex_eq
    {address : BitVec 64}
    (low : elf.base.toNat ≤ address.toNat) :
    getPageIndex elf address = elf.pageOfNat address.toNat := by
  have addressLt := address.isLt
  rw [getPageIndex, Elf.pageOfNat, BitVec.toNat_ushiftRight,
    BitVec.toNat_sub_of_le low, Nat.shiftRight_eq_div_pow]
  rfl

theorem ushiftRight_pageShift_lt_iff
    {first second : BitVec 64}
    (firstLow : elf.base.toNat ≤ first.toNat)
    (secondLow : elf.base.toNat ≤ second.toNat) :
    first >>> pageShift < second >>> pageShift ↔
      elf.pageOfNat first.toNat < elf.pageOfNat second.toNat := by
  rw [Elf.pageOfNat_lt_iff firstLow secondLow, BitVec.lt_def,
    BitVec.toNat_ushiftRight, BitVec.toNat_ushiftRight,
    Nat.shiftRight_eq_div_pow, Nat.shiftRight_eq_div_pow]
  rfl

/-! ## Sorted pages -/

/-- The start address of each block. -/
def start (store : CodeStore) (index : Nat) : BitVec 64 :=
  (store.block index).x86Start

/-- The blocks of a page are strictly sorted by their starts. -/
def Sorted (starts : Nat -> BitVec 64) (entries : List Nat) : Prop :=
  entries.Pairwise fun first second => starts first < starts second

/-- Each page holds the blocks that reach into it, in order. -/
def PagesHold
    (elf : Elf)
    (starts : Nat -> BitVec 64)
    (reaches : Nat -> Nat -> Prop)
    (pages : List (List Nat)) : Prop :=
  pages.length = elf.pageCount ∧
    ∀ page entries, pages[page]? = some entries ->
      Sorted starts entries ∧ ∀ index, index ∈ entries ↔ reaches index page

section Pages

variable
  {starts : Nat -> BitVec 64}
  {reaches : Nat -> Nat -> Prop}
  {pages : List (List Nat)}
  {store : CodeStore}

theorem PagesHold.congr
    {starts' : Nat -> BitVec 64}
    {reaches' : Nat -> Nat -> Prop}
    (held : PagesHold elf starts reaches pages)
    (sameReach : ∀ index page, reaches' index page ↔ reaches index page)
    (sameStart : ∀ index page, reaches index page ->
      starts' index = starts index) :
    PagesHold elf starts' reaches' pages := by
  refine ⟨held.1, ?_⟩
  intro page entries found
  obtain ⟨sorted, members⟩ := held.2 page entries found
  refine ⟨sorted.imp_of_mem ?_, ?_⟩
  · intro first second firstMember secondMember less
    rwa [sameStart first page ((members first).mp firstMember),
      sameStart second page ((members second).mp secondMember)]
  · intro index
    rw [members, sameReach]

/-- A page of the image has an array. -/
theorem PagesHold.page
    (held : PagesHold elf starts reaches store.pages)
    {index : Nat}
    (inImage : index < elf.pageCount) :
    ∃ entries, store.pages[index]? = some entries ∧
      store.page index = .ok entries := by
  have bound : index < store.pages.length := by
    rw [held.1]
    exact inImage
  refine ⟨store.pages[index], List.getElem?_eq_getElem bound, ?_⟩
  simp [CodeStore.page, List.getElem?_eq_getElem bound]

/-- Replacement of one page array. -/
theorem PagesHold.set
    {index page : Nat}
    {entries : List Nat}
    (held : PagesHold elf starts reaches pages)
    (sorted : Sorted starts entries)
    (members : ∀ other, other ∈ entries ↔ other = index ∨ reaches other page)
    (reaches' : Nat -> Nat -> Prop)
    (grown : ∀ other at_, reaches' other at_ ↔
      other = index ∧ at_ = page ∨ reaches other at_) :
    PagesHold elf starts reaches' (pages.set page entries) := by
  refine ⟨by rw [List.length_set]; exact held.1, ?_⟩
  intro other contents found
  rw [List.getElem?_set] at found
  by_cases same : page = other
  · subst same
    simp only [if_true] at found
    split at found
    · obtain rfl := Option.some.inj found
      refine ⟨sorted, fun block => ?_⟩
      simp [members, grown]
    · cases found
  · rw [if_neg same] at found
    obtain ⟨otherSorted, otherMembers⟩ := held.2 other contents found
    refine ⟨otherSorted, fun block => ?_⟩
    rw [otherMembers, grown]
    simp [Ne.symm same]

/-! ## A new block in the page of its start -/

theorem mem_insertSorted
    (store : CodeStore)
    (x86Address : BitVec 64)
    (index other : Nat)
    (entries : List Nat) :
    other ∈ store.insertSorted x86Address index entries ↔
      other = index ∨ other ∈ entries := by
  induction entries with
  | nil => simp [insertSorted]
  | cons entry entries inductionHypothesis =>
      simp only [insertSorted]
      split
      · simp
      · rw [List.mem_cons, inductionHypothesis, List.mem_cons]
        tauto

/-- The new block is put between the blocks in front of it and those
behind. -/
theorem sorted_insertSorted
    {index : Nat}
    {entries : List Nat}
    (sorted : Sorted store.start entries)
    (different : ∀ other ∈ entries, store.start other ≠ store.start index) :
    Sorted store.start
      (store.insertSorted (store.start index) index entries) := by
  induction entries with
  | nil => simp [Sorted, insertSorted]
  | cons entry entries inductionHypothesis =>
      obtain ⟨first, rest⟩ := List.pairwise_cons.mp sorted
      simp only [insertSorted]
      split
      · rename_i behind
        refine List.pairwise_cons.mpr ⟨?_, sorted⟩
        intro other member
        rcases List.mem_cons.mp member with rfl | later
        · exact behind
        · exact BitVec.lt_trans behind (first other later)
      · rename_i notBehind
        have inFront : store.start entry < store.start index := by
          have apart := different entry (List.mem_cons_self ..)
          change ¬store.start entry > store.start index at notBehind
          bv_omega
        refine List.pairwise_cons.mpr ⟨?_, inductionHypothesis rest
          fun other member => different other (List.mem_cons_of_mem _ member)⟩
        intro other member
        rcases (mem_insertSorted store _ index other entries).mp member with
          rfl | later
        · exact inFront
        · exact first other later

/-! ## A block that spills into a further page -/

/-- A block that lies in front of all other blocks of a page is in the page
exactly when it is the first one. -/
theorem Sorted.head_eq_iff
    {entries : List Nat}
    {index : Nat}
    (sorted : Sorted starts entries)
    (inFront : ∀ other ∈ entries,
      other = index ∨ starts index < starts other) :
    entries.head? = some index ↔ index ∈ entries := by
  cases entries with
  | nil => simp
  | cons entry entries =>
      constructor
      · intro head
        obtain rfl := Option.some.inj head
        exact List.mem_cons_self ..
      · intro member
        rcases List.mem_cons.mp member with rfl | later
        · rfl
        · rcases inFront entry (List.mem_cons_self ..) with rfl | less
          · rfl
          · have greater := (List.pairwise_cons.mp sorted).1 index later
            exact absurd (BitVec.lt_trans less greater) (BitVec.lt_irrefl _)

/-- The page that the current end of a block lies in. -/
theorem spillBlock_spec
    {after : CodeStore}
    {index page : Nat}
    (held : PagesHold elf store.start reaches store.pages)
    (startLow : elf.base.toNat ≤ (store.block index).x86Start.toNat)
    (endLow : elf.base.toNat ≤ (store.block index).x86End.toNat)
    (pageEq : page = elf.pageOfNat (store.block index).x86End.toNat)
    (inImage : page < elf.pageCount)
    (startReached : reaches index
      (elf.pageOfNat (store.block index).x86Start.toNat))
    (ordered : (store.block index).x86Start.toNat ≤
      (store.block index).x86End.toNat)
    (inFront :
      elf.pageOfNat (store.block index).x86Start.toNat < page ->
        ∀ other, reaches other page ->
          other = index ∨ store.start index < store.start other)
    (spilled : store.spillBlock elf index = .ok after) :
    ∃ pages, after = { store with pages := pages } ∧
      PagesHold elf store.start
        (fun other at_ => other = index ∧ at_ = page ∨ reaches other at_)
        pages := by
  subst pageEq
  simp only [spillBlock, ushiftRight_pageShift_lt_iff startLow endLow,
    getPageIndex_eq endLow] at spilled
  split at spilled
  · rename_i further
    obtain ⟨entries, found, pageOk⟩ := held.page inImage
    obtain ⟨sorted, members⟩ := held.2 _ _ found
    have headIff := sorted.head_eq_iff fun other member =>
      inFront further other ((members other).mp member)
    simp only [pageOk, bind, Except.bind, pure, Except.pure] at spilled
    split at spilled
    · rename_i first
      obtain rfl := Except.ok.inj spilled
      refine ⟨store.pages, rfl, held.congr ?_ fun _ _ _ => rfl⟩
      intro other at_
      refine ⟨?_, Or.inr⟩
      rintro (⟨rfl, rfl⟩ | reached)
      · exact (members other).mp (headIff.mp first)
      · exact reached
    · rename_i notFirst
      obtain rfl := Except.ok.inj spilled
      have absent : index ∉ entries := fun member =>
        notFirst (headIff.mpr member)
      refine ⟨_, rfl, held.set ?_ ?_ _ fun _ _ => Iff.rfl⟩
      · refine List.pairwise_cons.mpr ⟨?_, sorted⟩
        intro other member
        rcases inFront further other ((members other).mp member) with
          rfl | less
        · exact absurd member absent
        · exact less
      · intro other
        rw [List.mem_cons, members]
  · rename_i notFurther
    obtain rfl := Except.ok.inj spilled
    have samePage := Nat.le_antisymm (Elf.pageOfNat_mono ordered)
      (Nat.le_of_not_lt notFurther)
    refine ⟨store.pages, rfl, held.congr ?_ fun _ _ _ => rfl⟩
    intro other at_
    refine ⟨?_, Or.inr⟩
    rintro (⟨rfl, rfl⟩ | reached)
    · rwa [← samePage]
    · exact reached

end Pages

end CodeStore
end Oxtra
