import Oxtra.Fadec

/-!
# The guest image

An image is a page-aligned range of guest addresses with protection flags for
each of its pages.  It never contains the null address, and it ends below the
top of the address space.
-/

namespace Oxtra

/-- Protection flags of a page. -/
def pageExecute : BitVec 8 := 0x01

@[inherit_doc pageExecute] def pageRead : BitVec 8 := 0x02

@[inherit_doc pageExecute] def pageWrite : BitVec 8 := 0x04

@[inherit_doc pageExecute] def pageMapped : BitVec 8 := 0x08

def pageShift : Nat := 12

def pageSize : Nat := 0x1000

/-- A loaded image. -/
structure Elf where
  /-- `_image.get_base()` -/
  base : BitVec 64
  /-- `_image.get_size()` -/
  size : BitVec 64
  pageFlags : Vector (BitVec 8) (size.toNat / pageSize)
  /-- The bytes of the image. -/
  byte : BitVec 64 -> BitVec 8
  base_aligned : base.toNat % pageSize = 0
  size_aligned : size.toNat % pageSize = 0
  base_pos : 0 < base.toNat
  end_lt : base.toNat + size.toNat < 2 ^ 64

namespace Elf

/-- The address lies in the image. -/
def Contains (elf : Elf) (address : BitVec 64) : Prop :=
  address - elf.base < elf.size

instance (elf : Elf) (address : BitVec 64) :
    Decidable (elf.Contains address) :=
  inferInstanceAs (Decidable (address - elf.base < elf.size))

/-- Number of pages of the image. -/
def pageCount (elf : Elf) : Nat := elf.size.toNat / pageSize

/-- Containment without wrap-around. -/
theorem contains_iff (elf : Elf) (address : BitVec 64) :
    elf.Contains address ↔
      elf.base.toNat ≤ address.toNat ∧
        address.toNat < elf.base.toNat + elf.size.toNat := by
  have endLt := elf.end_lt
  have addressLt := address.isLt
  simp only [Contains, BitVec.lt_def, BitVec.toNat_sub]
  omega

/-- Offset of an address of the image from its base. -/
theorem Contains.toNat_sub
    {elf : Elf}
    {address : BitVec 64}
    (inside : elf.Contains address) :
    (address - elf.base).toNat = address.toNat - elf.base.toNat := by
  obtain ⟨low, _⟩ := (elf.contains_iff address).mp inside
  have addressLt := address.isLt
  rw [BitVec.toNat_sub]
  omega

/-- The null address is outside of every image. -/
theorem not_contains_zero (elf : Elf) : ¬elf.Contains 0 := by
  rw [contains_iff]
  have basePos := elf.base_pos
  simp only [BitVec.ofNat_eq_ofNat, BitVec.toNat_ofNat]
  omega

/-- The page of an address of the image, counted from the base. -/
def pageOf (elf : Elf) (address : BitVec 64) : Nat :=
  (address - elf.base).toNat / pageSize

theorem Contains.pageOf_lt
    {elf : Elf}
    {address : BitVec 64}
    (inside : elf.Contains address) :
    elf.pageOf address < elf.pageCount := by
  have below : (address - elf.base).toNat < elf.size.toNat := inside
  have aligned := elf.size_aligned
  simp only [pageOf, pageCount, pageSize] at *
  omega

/-- `get_page_flags` -/
def getPageFlags (elf : Elf) (vaddr : BitVec 64) : BitVec 8 :=
  if inside : elf.Contains vaddr then
    elf.pageFlags.get ⟨elf.pageOf vaddr, Contains.pageOf_lt inside⟩
  else
    0

/-- The loop of `get_size` over the pages from `page` to the last page. -/
def addPageSizes
    (elf : Elf)
    (flags : BitVec 8) : Nat -> Nat -> BitVec 64 -> BitVec 64
  | 0, _, size => size
  | pages + 1, page, size =>
      if inside : page < elf.pageCount then
        if flags != elf.pageFlags.get ⟨page, inside⟩ then
          size
        else
          addPageSizes elf flags pages (page + 1) (size + 0x1000)
      else
        size

/-- The page-index of the last page to check, clipped to the image. -/
def clipPage (elf : Elf) (page : BitVec 64) : BitVec 64 :=
  if page > elf.size >>> 12 then elf.size >>> 12 else page

theorem clipPage_toNat_le (elf : Elf) (page : BitVec 64) :
    (elf.clipPage page).toNat ≤ elf.pageCount := by
  have countEq : (elf.size >>> 12).toNat = elf.pageCount := by
    rw [BitVec.toNat_ushiftRight, Nat.shiftRight_eq_div_pow]
    rfl
  unfold clipPage
  split
  · exact countEq.le
  · rename_i inner
    have inner := BitVec.not_lt.mp inner
    rwa [BitVec.le_def, countEq] at inner

/-- `get_size` -/
def getSize (elf : Elf) (vaddr : BitVec 64) (maxPage : BitVec 64) :
    BitVec 64 :=
  if inside : elf.Contains vaddr then
    let flags := elf.pageFlags.get ⟨elf.pageOf vaddr, Contains.pageOf_lt inside⟩
    let offset := vaddr - elf.base
    let size := 0x1000 - (offset &&& 0xfff)
    let page := (offset >>> 12) + 1
    let lastPage := elf.clipPage (maxPage + page)
    elf.addPageSizes flags (lastPage.toNat - page.toNat) page.toNat size
  else
    0

/-- The bytes that the decoder may look at for an instruction at `vaddr`:
it is given one page more than the page of the address, and reads at most
fifteen bytes of what it is given. -/
def codeBytes (elf : Elf) (vaddr : BitVec 64) : List (BitVec 8) :=
  (List.range (min Fadec.maxInstructionSize (elf.getSize vaddr 1).toNat)).map
    fun index => elf.byte (vaddr + BitVec.ofNat 64 index)

@[simp] theorem length_codeBytes (elf : Elf) (vaddr : BitVec 64) :
    (elf.codeBytes vaddr).length =
      min Fadec.maxInstructionSize (elf.getSize vaddr 1).toNat := by
  simp [codeBytes]

/-- No more bytes are added than the remaining pages have. -/
theorem addPageSizes_toNat_le
    (elf : Elf)
    (flags : BitVec 8)
    (pages page : Nat)
    (size : BitVec 64)
    (atMost : page + pages ≤ elf.pageCount)
    (fits : size.toNat + pages * pageSize < 2 ^ 64) :
    (elf.addPageSizes flags pages page size).toNat ≤
      size.toNat + pages * pageSize := by
  induction pages generalizing page size with
  | zero => simp [addPageSizes]
  | succ pages inductionHypothesis =>
      have grown : (size + 0x1000).toNat = size.toNat + pageSize := by
        rw [BitVec.toNat_add]
        simp only [pageSize] at *
        simp only [BitVec.ofNat_eq_ofNat, BitVec.toNat_ofNat]
        omega
      simp only [addPageSizes]
      split
      · split
        · omega
        · have rest := inductionHypothesis (page + 1) (size + 0x1000)
            (by omega) (by rw [grown]; simp only [pageSize] at *; omega)
          rw [grown] at rest
          simp only [pageSize] at *
          omega
      · omega

/-- The bytes handed to the decoder all belong to the image. -/
theorem getSize_le
    (elf : Elf)
    {vaddr : BitVec 64}
    (inside : elf.Contains vaddr) :
    vaddr.toNat + (elf.getSize vaddr 1).toNat ≤
      elf.base.toNat + elf.size.toNat := by
  have offsetEq := inside.toNat_sub
  obtain ⟨low, high⟩ := (elf.contains_iff vaddr).mp inside
  have endLt := elf.end_lt
  have sizeAligned := elf.size_aligned
  rw [pageSize] at sizeAligned
  rw [getSize, dif_pos inside]
  set offset := vaddr - elf.base with offsetDef
  have pageEq : ((offset >>> 12) + 1).toNat = offset.toNat / 4096 + 1 := by
    rw [BitVec.toNat_add, BitVec.toNat_ushiftRight, Nat.shiftRight_eq_div_pow]
    simp only [BitVec.ofNat_eq_ofNat, BitVec.toNat_ofNat]
    omega
  have firstSize :
      (0x1000 - (offset &&& 0xfff)).toNat = 4096 - offset.toNat % 4096 := by
    have masked : (offset &&& 0xfff).toNat = offset.toNat % 4096 := by
      rw [BitVec.toNat_and]
      exact Nat.and_two_pow_sub_one_eq_mod offset.toNat 12
    rw [BitVec.toNat_sub, masked]
    simp only [BitVec.ofNat_eq_ofNat, BitVec.toNat_ofNat]
    omega
  have lastPageLe := elf.clipPage_toNat_le ((1 : BitVec 64) + ((offset >>> 12) + 1))
  have bound := elf.addPageSizes_toNat_le
    (elf.pageFlags.get ⟨elf.pageOf vaddr, Contains.pageOf_lt inside⟩)
    ((elf.clipPage ((1 : BitVec 64) + ((offset >>> 12) + 1))).toNat -
      ((offset >>> 12) + 1).toNat)
    ((offset >>> 12) + 1).toNat (0x1000 - (offset &&& 0xfff))
    (by rw [pageEq]; rw [pageCount, pageSize] at *; omega)
    (by rw [pageEq, firstSize]; rw [pageCount, pageSize] at *; omega)
  rw [firstSize, pageEq] at bound
  rw [pageCount] at lastPageLe
  simp only [pageEq, pageSize] at *
  omega

/-- The dummy image made from a stream of bytes, at the default base address;
its first `execPages` pages are executable and the others writable. -/
def ofBytes
    (bytes : List (BitVec 8))
    (execPages : Nat)
    (fits : bytes.length < 2 ^ 32) : Elf where
  base := 0x00400000
  size := BitVec.ofNat 64 ((bytes.length + 0xfff) / pageSize * pageSize)
  pageFlags := Vector.ofFn fun page =>
    (if page.val < execPages then pageExecute else pageWrite) |||
      pageMapped ||| pageRead
  byte address := bytes.getD (address - 0x00400000).toNat 0
  base_aligned := by decide
  size_aligned := by
    simp only [BitVec.toNat_ofNat, pageSize]
    omega
  base_pos := by decide
  end_lt := by
    simp only [BitVec.toNat_ofNat, pageSize, BitVec.ofNat_eq_ofNat]
    omega

/-- An image of executable pages at the default base address, by the contents
of its pages. -/
def ofPages
    (pages : Nat)
    (byte : BitVec 64 -> BitVec 8)
    (fits : pages < 2 ^ 20) : Elf where
  base := 0x00400000
  size := BitVec.ofNat 64 (pages * pageSize)
  pageFlags := Vector.replicate _ (pageExecute ||| pageMapped ||| pageRead)
  byte := byte
  base_aligned := by decide
  size_aligned := by
    simp only [BitVec.toNat_ofNat, pageSize]
    omega
  base_pos := by decide
  end_lt := by
    simp only [BitVec.toNat_ofNat, pageSize, BitVec.ofNat_eq_ofNat]
    omega

end Elf
end Oxtra
