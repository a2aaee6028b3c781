import Mathlib.Order.Bounds.Defs
import Oxtra.Elf

/-!
# What the decoder may read

`get_size` counts the bytes behind an address that it can be read with: they
lie in the image, on pages with the same flags, and on a bounded number of
pages.
-/

namespace Oxtra
namespace Elf

/-! ## Pages -/

/-- The flags of a page of the image, and none behind it. -/
def flagsAt (elf : Elf) (page : Nat) : BitVec 8 :=
  if inside : page < elf.pageCount then
    elf.pageFlags.get ⟨page, inside⟩
  else
    0

theorem Contains.getPageFlags
    {elf : Elf}
    {address : BitVec 64}
    (inside : elf.Contains address) :
    elf.getPageFlags address = elf.flagsAt (elf.pageOf address) := by
  rw [Elf.getPageFlags, dif_pos inside, flagsAt, dif_pos inside.pageOf_lt]

/-- The loop adds the sizes of the pages in front of the first one that has
other flags. -/
theorem addPageSizes_counts
    (elf : Elf)
    (flags : BitVec 8)
    {pages page : Nat}
    {size : BitVec 64}
    (inImage : page + pages ≤ elf.pageCount)
    (fits : size.toNat + pages * pageSize < 2 ^ 64) :
    ∃ same ≤ pages,
      (elf.addPageSizes flags pages page size).toNat =
          size.toNat + same * pageSize ∧
        (∀ index < same, elf.flagsAt (page + index) = flags) ∧
        (same < pages -> elf.flagsAt (page + same) ≠ flags) := by
  induction pages generalizing page size with
  | zero => exact ⟨0, le_rfl, by simp [addPageSizes], by simp, by simp⟩
  | succ pages inductionHypothesis =>
      have inside : page < elf.pageCount := by omega
      have flagsHere : elf.flagsAt page = elf.pageFlags.get ⟨page, inside⟩ :=
        dif_pos inside
      rw [addPageSizes, dif_pos inside, ← flagsHere]
      by_cases here : elf.flagsAt page = flags
      · have grown : (size + 0x1000).toNat = size.toNat + pageSize := by
          rw [BitVec.toNat_add, Nat.mod_eq_of_lt]
          · rfl
          · rw [pageSize] at fits
            simp only [BitVec.ofNat_eq_ofNat, BitVec.toNat_ofNat]
            omega
        have rest : (size + 0x1000).toNat + pages * pageSize < 2 ^ 64 := by
          rw [grown]
          rw [pageSize] at *
          omega
        obtain ⟨same, atMost, sum, agree, differ⟩ :=
          inductionHypothesis (by omega : page + 1 + pages ≤ _) rest
        refine ⟨same + 1, by omega, ?_, ?_, ?_⟩
        · rw [if_neg (by simp [here]), sum, grown, pageSize]
          omega
        · intro index below
          cases index with
          | zero => exact here
          | succ index =>
              rw [← agree index (by omega), Nat.add_assoc, Nat.add_comm 1]
        · intro below
          rw [Nat.add_comm same, ← Nat.add_assoc]
          exact differ (by omega)
      · refine ⟨0, Nat.zero_le _, ?_, by simp, fun _ => here⟩
        rw [if_pos (by simpa using Ne.symm here)]
        simp

/-! ## Readable bytes -/

/-- So many bytes from an address on lie in the image, on pages with the flags
of the first one, of which there are at most some number behind it. -/
structure Readable
    (elf : Elf)
    (vaddr maxPage : BitVec 64)
    (count : Nat) : Prop where
  inImage : vaddr.toNat + count ≤ elf.base.toNat + elf.size.toNat
  flags : ∀ index < count,
    elf.getPageFlags (vaddr + BitVec.ofNat 64 index) =
      elf.getPageFlags vaddr
  pages : ∀ index < count,
    elf.pageOf (vaddr + BitVec.ofNat 64 index) ≤
      elf.pageOf vaddr + maxPage.toNat

/-- An address behind one of the image. -/
theorem Contains.add
    {elf : Elf}
    {vaddr : BitVec 64}
    (inside : elf.Contains vaddr)
    {index : Nat}
    (below : vaddr.toNat + index < elf.base.toNat + elf.size.toNat) :
    elf.Contains (vaddr + BitVec.ofNat 64 index) ∧
      elf.pageOf (vaddr + BitVec.ofNat 64 index) =
        ((vaddr - elf.base).toNat + index) / pageSize := by
  have low := ((elf.contains_iff vaddr).mp inside).1
  have endLt := elf.end_lt
  have value : (vaddr + BitVec.ofNat 64 index).toNat =
      vaddr.toNat + index := by
    rw [BitVec.toNat_add, BitVec.toNat_ofNat]
    omega
  have contained : elf.Contains (vaddr + BitVec.ofNat 64 index) := by
    rw [contains_iff, value]
    omega
  refine ⟨contained, ?_⟩
  rw [pageOf, contained.toNat_sub, inside.toNat_sub, value]
  congr 1
  omega

/-- The size is that of the rest of the first page and of the pages behind it
that have the same flags, up to the last page to check. -/
theorem getSize_counts
    {elf : Elf}
    {vaddr maxPage : BitVec 64}
    (inside : elf.Contains vaddr)
    (noWrap : maxPage.toNat + (elf.pageOf vaddr + 1) < 2 ^ 64) :
    let page := elf.pageOf vaddr + 1
    let lastPage := min (maxPage.toNat + page) elf.pageCount
    ∃ same ≤ lastPage - page,
      (elf.getSize vaddr maxPage).toNat =
          (page + same) * pageSize - (vaddr - elf.base).toNat ∧
        (∀ index < same, elf.flagsAt (page + index) =
          elf.getPageFlags vaddr) ∧
        (same < lastPage - page ->
          elf.flagsAt (page + same) ≠ elf.getPageFlags vaddr) := by
  intro page lastPage
  have pageLt := inside.pageOf_lt
  have sizeAligned := elf.size_aligned
  have endLt := elf.end_lt
  have below : (vaddr - elf.base).toNat < elf.size.toNat := inside
  set offset := vaddr - elf.base with offsetDef
  have pageDef : page = offset.toNat / 4096 + 1 := rfl
  have countDef : elf.pageCount = elf.size.toNat / 4096 := rfl
  have pageEq : ((offset >>> 12) + 1).toNat = page := by
    rw [BitVec.toNat_add, BitVec.toNat_ushiftRight, Nat.shiftRight_eq_div_pow]
    simp only [BitVec.ofNat_eq_ofNat, BitVec.toNat_ofNat]
    omega
  have firstSize :
      (0x1000 - (offset &&& 0xfff)).toNat = 4096 - offset.toNat % 4096 := by
    have masked : (offset &&& 0xfff).toNat = offset.toNat % 4096 := by
      rw [BitVec.toNat_and]
      exact Nat.and_two_pow_sub_one_eq_mod offset.toNat 12
    rw [BitVec.toNat_sub, masked]
    simp only [BitVec.ofNat_eq_ofNat, BitVec.toNat_ofNat]
    omega
  have lastEq : (elf.clipPage (maxPage + ((offset >>> 12) + 1))).toNat =
      lastPage := by
    have sum : (maxPage + ((offset >>> 12) + 1)).toNat =
        maxPage.toNat + page := by
      rw [BitVec.toNat_add, pageEq, Nat.mod_eq_of_lt noWrap]
    have countEq : (elf.size >>> 12).toNat = elf.pageCount := by
      rw [BitVec.toNat_ushiftRight, Nat.shiftRight_eq_div_pow]
      rfl
    unfold clipPage
    split
    · rename_i outer
      rw [gt_iff_lt, BitVec.lt_def, countEq, sum] at outer
      rw [countEq]
      omega
    · rename_i inner
      rw [gt_iff_lt, BitVec.lt_def, countEq, sum] at inner
      rw [sum]
      omega
  have fits : (0x1000 - (offset &&& 0xfff)).toNat +
      (lastPage - page) * pageSize < 2 ^ 64 := by
    rw [firstSize, pageSize]
    omega
  obtain ⟨same, atMost, sum, agree, differ⟩ := elf.addPageSizes_counts
    (elf.pageFlags.get ⟨elf.pageOf vaddr, inside.pageOf_lt⟩)
    (by omega : page + (lastPage - page) ≤ _) fits
  have flags : elf.pageFlags.get ⟨elf.pageOf vaddr, inside.pageOf_lt⟩ =
      elf.getPageFlags vaddr := by
    rw [getPageFlags, dif_pos inside]
  rw [flags] at agree differ
  refine ⟨same, atMost, ?_, agree, differ⟩
  rw [getSize, dif_pos inside]
  simp only [← offsetDef, lastEq, pageEq]
  rw [sum, firstSize, pageSize]
  omega

/-- The size is the largest number of readable bytes. -/
theorem Contains.getSize_isGreatest
    {elf : Elf}
    {vaddr maxPage : BitVec 64}
    (inside : elf.Contains vaddr)
    (noWrap : maxPage.toNat + (elf.pageOf vaddr + 1) < 2 ^ 64) :
    IsGreatest {count | elf.Readable vaddr maxPage count}
      (elf.getSize vaddr maxPage).toNat := by
  obtain ⟨same, atMost, counts, agree, differ⟩ :=
    getSize_counts inside noWrap
  have pageLt := inside.pageOf_lt
  have sizeAligned := elf.size_aligned
  have low := ((elf.contains_iff vaddr).mp inside).1
  have offset := inside.toNat_sub
  have pageDef : elf.pageOf vaddr = (vaddr - elf.base).toNat / 4096 := rfl
  have countDef : elf.pageCount = elf.size.toNat / 4096 := rfl
  simp only [pageSize] at counts sizeAligned
  have inImage : vaddr.toNat + (elf.getSize vaddr maxPage).toNat ≤
      elf.base.toNat + elf.size.toNat := by
    rw [counts]
    omega
  constructor
  · -- Every byte is on one of the pages that have been added.
    have page : ∀ index < (elf.getSize vaddr maxPage).toNat,
        elf.Contains (vaddr + BitVec.ofNat 64 index) ∧
          elf.pageOf vaddr ≤ elf.pageOf (vaddr + BitVec.ofNat 64 index) ∧
          elf.pageOf (vaddr + BitVec.ofNat 64 index) ≤
            elf.pageOf vaddr + same := by
      intro index below
      obtain ⟨contained, place⟩ := inside.add
        (by omega : vaddr.toNat + index < _)
      rw [place, pageSize]
      exact ⟨contained, by omega, by omega⟩
    refine ⟨inImage, ?_, ?_⟩
    · intro index below
      obtain ⟨contained, above, atEnd⟩ := page index below
      rw [contained.getPageFlags]
      by_cases first : elf.pageOf (vaddr + BitVec.ofNat 64 index) =
          elf.pageOf vaddr
      · rw [first, inside.getPageFlags]
      · have flags := agree
          (elf.pageOf (vaddr + BitVec.ofNat 64 index) -
            (elf.pageOf vaddr + 1)) (by omega)
        rwa [Nat.add_sub_cancel' (by omega)] at flags
    · intro index below
      have atEnd := (page index below).2.2
      omega
  · -- The byte behind them is out of the image, or on a page too far, or on a
    -- page with other flags.
    intro count readable
    by_contra more
    have more := not_le.mp more
    have inImage := readable.inImage
    obtain ⟨contained, place⟩ := inside.add (by omega :
      vaddr.toNat + (elf.getSize vaddr maxPage).toNat < _)
    have next : elf.pageOf (vaddr +
        BitVec.ofNat 64 (elf.getSize vaddr maxPage).toNat) =
          elf.pageOf vaddr + 1 + same := by
      rw [place, pageSize]
      omega
    have pages := readable.pages _ more
    have flags := readable.flags _ more
    have inCount := contained.pageOf_lt
    rw [contained.getPageFlags] at flags
    rw [next] at pages flags inCount
    exact differ (by omega) flags

/-- The size is zero for an address outside of the image, and else the largest
number of readable bytes. -/
theorem getSize_spec
    (elf : Elf)
    (vaddr maxPage : BitVec 64)
    (noWrap : maxPage.toNat + (elf.pageOf vaddr + 1) < 2 ^ 64) :
    (elf.getSize vaddr maxPage = 0 ↔ ¬ elf.Contains vaddr) ∧
      (elf.Contains vaddr ->
        IsGreatest {count | elf.Readable vaddr maxPage count}
          (elf.getSize vaddr maxPage).toNat) := by
  refine ⟨⟨fun zero inside => ?_, fun outside => dif_neg outside⟩,
    fun inside => inside.getSize_isGreatest noWrap⟩
  obtain ⟨same, -, counts, -, -⟩ := getSize_counts inside noWrap
  have pageDef : elf.pageOf vaddr = (vaddr - elf.base).toNat / 4096 := rfl
  rw [zero, pageSize] at counts
  simp only [BitVec.ofNat_eq_ofNat, BitVec.toNat_ofNat] at counts
  omega

/-- Two pages of code with a page of data behind them: an address on the first
page can be read with the rest of the code, and not with the data. -/
theorem getSize_spec_codeAndData :
    let elf := ofBytes (List.replicate 0x3000 0x90) 2 (by decide +kernel)
    ((elf.getSize 0x400ffe 2 = 0 ↔ ¬ elf.Contains 0x400ffe) ∧
      (elf.Contains 0x400ffe ->
        IsGreatest {count | elf.Readable 0x400ffe 2 count}
          (elf.getSize 0x400ffe 2).toNat)) ∧
      elf.flagsAt 1 = elf.flagsAt 0 ∧ elf.flagsAt 2 ≠ elf.flagsAt 0 ∧
      elf.getSize 0x400ffe 2 = 0x1002 :=
  ⟨getSize_spec (ofBytes (List.replicate 0x3000 0x90) 2 (by decide +kernel))
      0x400ffe 2 (by decide +kernel),
    by decide +kernel, by decide +kernel, by decide +kernel⟩

end Elf
end Oxtra
