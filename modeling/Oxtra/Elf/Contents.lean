import Oxtra.Elf.Layers
import Mathlib.Tactic.Abel

/-!
# What the program headers describe

A loaded file should be the image that its program headers describe.  Copies
of whole pages bring bytes of the file to places that the headers describe
otherwise, and the section `.bss` is cleared and its pages are made writable
whatever the headers say.  These are the only ways in which an image differs
from the description.
-/

namespace Oxtra

open Overlay

/-- The page, by its number, has an address of the range, or the address that
an empty range has in its middle. -/
def MarksPage (address size : BitVec 64) (page : Nat) : Prop :=
  address.toNat / pageSize ≤ page ∧
    page * pageSize < address.toNat + size.toNat

namespace ProgramHeader

/-- The page, by its number, has a byte of the segment. -/
def Touches (header : ProgramHeader) (page : Nat) : Prop :=
  0 < header.memsz.toNat ∧ MarksPage header.vaddr header.memsz page

/-- The address of a byte of the segment. -/
def target (header : ProgramHeader) (index : Nat) : BitVec 64 :=
  header.vaddr + BitVec.ofNat 64 index

/-- The byte that the header describes. -/
def describedByte
    (header : ProgramHeader)
    (file : ElfFile)
    (index : Nat) : BitVec 8 :=
  if index < header.filesz.toNat then
    file.byte (header.offset + BitVec.ofNat 64 index)
  else
    0

/-- The index is one of a byte that the header describes. -/
def Describes (header : ProgramHeader) (index : Nat) : Prop :=
  index < header.filesz.toNat ∨ index < header.memsz.toNat

end ProgramHeader

namespace ElfFile

/-- The page has bytes of one segment only, the one at `index`. -/
structure Alone
    (file : ElfFile)
    (index : Nat)
    (header : ProgramHeader)
    (page : Nat) : Prop where
  isAt : file.loadHeaders[index]? = some header
  touches : header.Touches page
  others :
    ∀ other otherHeader, file.loadHeaders[other]? = some otherHeader →
      other ≠ index → ¬otherHeader.Touches page

/-- The image is the one that the program headers describe. -/
structure Built (file : ElfFile) (elf : Elf) : Prop where
  aligned : elf.base.toNat % pageSize = 0 ∧ elf.size.toNat % pageSize = 0
  covered :
    ∀ header ∈ file.loadHeaders, 0 < header.memsz.toNat →
      elf.base.toNat ≤ header.vaddr.toNat ∧
        header.vaddr.toNat + header.memsz.toNat ≤
          elf.base.toNat + elf.size.toNat
  contents :
    ∀ header ∈ file.loadHeaders, ∀ index, index < header.filesz.toNat →
      header.offset.toNat + index < file.size.toNat ∧
        elf.byte (header.target index) =
          file.byte (header.offset + BitVec.ofNat 64 index)
  zeros :
    ∀ header ∈ file.loadHeaders, ∀ index, header.filesz.toNat ≤ index →
      index < header.memsz.toNat → elf.byte (header.target index) = 0
  flags :
    ∀ index header page, file.Alone index header page →
      elf.getPageFlags (BitVec.ofNat 64 (page * pageSize)) = header.pageFlags

/-- The address is cleared with the section `.bss`. -/
def Cleared (file : ElfFile) (target : BitVec 64) : Prop :=
  ∃ bss ∈ file.bssSection, target - bss.addr < bss.size

/-- The flags of the page are set with the section `.bss`. -/
def ClearedPage (file : ElfFile) (page : Nat) : Prop :=
  ∃ bss ∈ file.bssSection, MarksPage bss.addr bss.size page

/-- Nothing that the loader does beyond the description disturbs it. -/
structure Undisturbed (file : ElfFile) : Prop where
  /-- No segment wraps around. -/
  noWrap :
    ∀ header ∈ file.loadHeaders, 0 < header.memsz.toNat →
      header.vaddr.toNat + header.memsz.toNat < 2 ^ 64
  /-- The file has the bytes of the segments. -/
  inFile :
    ∀ header ∈ file.loadHeaders, 0 < header.filesz.toNat →
      header.offset.toNat + header.filesz.toNat ≤ file.size.toNat
  /-- Where the last copy to an address is the one of another segment, or
  copies beyond the bytes of the file, it copies the described byte. -/
  rounding :
    ∀ index header, file.loadHeaders[index]? = some header →
      ∀ offset, header.Describes offset →
        ¬file.Cleared (header.target offset) →
        ∀ other otherHeader byte,
          LastWith
            (fun item => (file.copyLayer item (header.target offset)).isSome)
            file.loadHeaders other otherHeader →
          other ≠ index ∨ header.filesz.toNat ≤ offset →
          file.copyLayer otherHeader (header.target offset) = some byte →
          byte = header.describedByte file offset
  /-- The section `.bss` only has bytes that are described as zero. -/
  cleared :
    ∀ header ∈ file.loadHeaders, ∀ offset, header.Describes offset →
      file.Cleared (header.target offset) →
      header.describedByte file offset = 0
  /-- The pages of the section `.bss` are described as readable and
  writable. -/
  clearedFlags :
    ∀ index header page, file.Alone index header page →
      file.ClearedPage page →
      header.pageFlags = pageMapped ||| pageRead ||| pageWrite
  /-- An empty segment in the middle of a page has the flags of the page. -/
  emptyFlags :
    ∀ index header page, file.Alone index header page →
      ¬file.ClearedPage page →
      ∀ other otherHeader,
        LastWith (fun item => MarksPage item.vaddr item.memsz page)
          file.loadHeaders other otherHeader →
        otherHeader.memsz.toNat = 0 →
        otherHeader.pageFlags = header.pageFlags

variable {file : ElfFile}

/-! ## Bytes -/

theorem layeredBytes_of_cleared
    {target : BitVec 64}
    (cleared : file.Cleared target) :
    file.layeredBytes target = 0 := by
  obtain ⟨bss, found, inside⟩ := cleared
  rw [Option.mem_def] at found
  rw [layeredBytes, found, Option.toList_some, overlay_cons, overlay_nil,
    paint, clearLayer, if_pos inside]
  rfl

theorem layeredBytes_of_not_cleared
    {target : BitVec 64}
    (notCleared : ¬file.Cleared target) :
    file.layeredBytes target =
      overlay file.copyLayer file.loadHeaders (fun _ => 0) target := by
  apply overlay_of_forall_not
  intro bss member
  have outside : ¬target - bss.addr < bss.size := fun inside =>
    notCleared ⟨bss, Option.mem_toList.mp member, inside⟩
  rw [clearLayer, if_neg outside]

theorem layeredBytes_of_last
    {target : BitVec 64}
    {index : Nat}
    {header : ProgramHeader}
    {byte : BitVec 8}
    (notCleared : ¬file.Cleared target)
    (last :
      LastWith (fun item => (file.copyLayer item target).isSome)
        file.loadHeaders index header)
    (copied : file.copyLayer header target = some byte) :
    file.layeredBytes target = byte := by
  rw [layeredBytes_of_not_cleared notCleared]
  exact overlay_of_last last copied

theorem layeredBytes_of_not_copied
    {target : BitVec 64}
    (notCleared : ¬file.Cleared target)
    (notCopied :
      ∀ header ∈ file.loadHeaders,
        ¬(file.copyLayer header target).isSome) :
    file.layeredBytes target = 0 := by
  rw [layeredBytes_of_not_cleared notCleared]
  exact overlay_of_forall_not fun header member => by
    simpa using notCopied header member

theorem copySrc_toNat
    (header : ProgramHeader)
    (small : header.offset.toNat ≤ file.size.toNat) :
    (header.copySrc file).toNat =
      file.buffer.toNat + header.offset.toNat -
        header.vaddr.toNat % pageSize := by
  have bufferGe := file.buffer_ge
  have endLt := file.end_lt
  rw [ProgramHeader.copySrc, resolveOffset, BitVec.toNat_sub,
    BitVec.toNat_add, toNat_and_pageMask]
  rw [pageSize]
  omega

/-- The size is rounded up to whole pages. -/
theorem le_roundedSize
    (header : ProgramHeader)
    (small : header.filesz.toNat < 2 ^ 63) :
    header.filesz.toNat + header.vaddr.toNat % pageSize ≤
        header.roundedSize.toNat ∧
      header.roundedSize.toNat <
        header.filesz.toNat + header.vaddr.toNat % pageSize + pageSize := by
  have offsetEq := toNat_and_pageMask header.vaddr
  have total :
      (header.filesz + (header.vaddr &&& 0xfff)).toNat =
        header.filesz.toNat + header.vaddr.toNat % pageSize := by
    rw [BitVec.toNat_add, offsetEq, pageSize]
    omega
  have remainder :=
    toNat_and_pageMask (header.filesz + (header.vaddr &&& 0xfff))
  simp only [ProgramHeader.roundedSize]
  split
  · rename_i partialPage
    have grown :
        (header.filesz + (header.vaddr &&& 0xfff) + 0x1000).toNat =
          header.filesz.toNat + header.vaddr.toNat % pageSize + pageSize := by
      rw [BitVec.toNat_add, total, pageSize]
      have literal : (0x1000 : BitVec 64).toNat = 0x1000 := rfl
      rw [literal]
      omega
    have positive :
        (header.filesz + (header.vaddr &&& 0xfff)).toNat % pageSize ≠ 0 := by
      intro zero
      rw [zero] at remainder
      exact partialPage (BitVec.eq_of_toNat_eq remainder)
    rw [xor_and_self_mask, toNat_sub_pageMask, grown]
    rw [total] at positive
    rw [pageSize] at *
    omega
  · rename_i wholePages
    have zero :
        (header.filesz + (header.vaddr &&& 0xfff)).toNat % pageSize = 0 := by
      rw [← remainder, not_not.mp wholePages]
      rfl
    rw [xor_and_self_mask, toNat_sub_pageMask, total]
    rw [total] at zero
    rw [pageSize] at *
    omega

/-- The copy of a segment has the bytes of the segment. -/
theorem le_copySize
    (header : ProgramHeader)
    (inFile :
      header.offset.toNat + header.filesz.toNat ≤ file.size.toNat) :
    header.filesz.toNat + header.vaddr.toNat % pageSize ≤
      (header.copySize file).toNat := by
  have bufferGe := file.buffer_ge
  have endLt := file.end_lt
  have start : header.offset.toNat ≤ file.size.toNat := by omega
  have source := copySrc_toNat header start
  obtain ⟨low, high⟩ := le_roundedSize header (by omega)
  rw [ProgramHeader.copySize]
  split
  · rw [BitVec.toNat_sub, BitVec.toNat_add, source]
    rw [pageSize] at *
    omega
  · exact low

theorem copyLayer_own
    (header : ProgramHeader)
    (inFile :
      header.offset.toNat + header.filesz.toNat ≤ file.size.toNat)
    {index : Nat}
    (inside : index < header.filesz.toNat) :
    file.copyLayer header (header.target index) =
      some (file.byte (header.offset + BitVec.ofNat 64 index)) := by
  have endLt := file.end_lt
  have size := le_copySize header inFile
  have distance : header.target index - header.copyDest =
      (header.vaddr &&& 0xfff) + BitVec.ofNat 64 index := by
    simp only [ProgramHeader.target, ProgramHeader.copyDest]
    abel
  have distanceNat :
      ((header.vaddr &&& 0xfff) + BitVec.ofNat 64 index).toNat =
        header.vaddr.toNat % pageSize + index := by
    rw [BitVec.toNat_add, toNat_and_pageMask, BitVec.toNat_ofNat, pageSize]
    omega
  have source :
      header.copySrc file +
          ((header.vaddr &&& 0xfff) + BitVec.ofNat 64 index) =
        file.resolveOffset (header.offset + BitVec.ofNat 64 index) := by
    simp only [ProgramHeader.copySrc, resolveOffset]
    abel
  rw [copyLayer, distance, if_pos]
  · rw [source]
    rfl
  · rw [BitVec.lt_def, distanceNat]
    omega

/-! ## Pages -/

theorem foldl_lowest_le
    (headers : List ProgramHeader)
    (lowest : BitVec 64) :
    let result := headers.foldl (fun base header =>
      if header.vaddr < base then header.vaddr else base) lowest
    result ≤ lowest ∧ ∀ header ∈ headers, result ≤ header.vaddr := by
  induction headers generalizing lowest with
  | nil => exact ⟨BitVec.le_refl _, by simp⟩
  | cons first headers inductionHypothesis =>
      simp only [List.foldl_cons]
      obtain ⟨below, all⟩ := inductionHypothesis
        (if first.vaddr < lowest then first.vaddr else lowest)
      have stepBelow :
          (if first.vaddr < lowest then first.vaddr else lowest) ≤ lowest ∧
            (if first.vaddr < lowest then first.vaddr else lowest) ≤
              first.vaddr := by
        simp only [BitVec.le_def, BitVec.lt_def]
        split <;> omega
      simp only [BitVec.le_def] at *
      refine ⟨below.trans stepBelow.1, List.forall_mem_cons.mpr
        ⟨below.trans stepBelow.2, all⟩⟩

theorem lowestAddress_le_fold (file : ElfFile) :
    file.lowestAddress ≤
      file.loadHeaders.foldl (fun base header =>
        if header.vaddr < base then header.vaddr else base) 0xffffffff := by
  simp only [lowestAddress]
  split
  · simp only [BitVec.le_def, BitVec.lt_def]
    split <;> omega
  · exact BitVec.le_refl _

theorem baseAddress_le_of_lowest
    {address : BitVec 64}
    (low : file.lowestAddress ≤ address) :
    file.baseAddress.toNat ≤ address.toNat := by
  rw [toNat_baseAddress]
  exact (Nat.div_mul_le_self _ _).trans low

/-- No segment is below the image. -/
theorem baseAddress_le
    {header : ProgramHeader}
    (member : header ∈ file.loadHeaders) :
    file.baseAddress.toNat ≤ header.vaddr.toNat := by
  have fold := foldl_lowest_le file.loadHeaders 0xffffffff
  exact baseAddress_le_of_lowest
    (BitVec.le_trans file.lowestAddress_le_fold (fold.2 header member))

/-- The section is not below the image. -/
theorem baseAddress_le_bss
    {bss : SectionHeader}
    (found : bss ∈ file.bssSection) :
    file.baseAddress.toNat ≤ bss.addr.toNat := by
  apply baseAddress_le_of_lowest
  rw [Option.mem_def] at found
  simp only [lowestAddress, found, BitVec.le_def, BitVec.lt_def]
  split <;> omega

theorem ushiftRight_pageShift_toNat (address : BitVec 64) :
    (address >>> 12).toNat = address.toNat / pageSize := by
  rw [BitVec.toNat_ushiftRight, Nat.shiftRight_eq_div_pow]
  rfl

/-- The pages of a range of addresses above the base. -/
theorem inPages_iff
    {address size : BitVec 64}
    (low : file.baseAddress.toNat ≤ address.toNat)
    (noWrap : address.toNat + size.toNat < 2 ^ 64)
    (page : Nat) :
    file.InPages address size page ↔
      MarksPage address size
        (file.baseAddress.toNat / pageSize + page) := by
  have aligned := file.baseAddress_aligned
  have start : file.pageStart address =
      (address.toNat - file.baseAddress.toNat) / pageSize := by
    rw [pageStart, ushiftRight_pageShift_toNat, BitVec.toNat_sub, pageSize]
    omega
  have last : (address + size - file.baseAddress).toNat =
      address.toNat + size.toNat - file.baseAddress.toNat := by
    rw [BitVec.toNat_sub, BitVec.toNat_add]
    omega
  have stop : file.pageEnd address size =
      (address.toNat + size.toNat - file.baseAddress.toNat) / pageSize +
        if 0 < (address.toNat + size.toNat - file.baseAddress.toNat) %
          pageSize then 1 else 0 := by
    simp only [pageEnd, ushiftRight_pageShift_toNat, last, BitVec.lt_def,
      toNat_and_pageMask, gt_iff_lt]
    rfl
  rw [InPages, MarksPage, start, stop]
  rw [pageSize] at *
  split <;> omega

/-- The pages of a segment of a loaded image. -/
theorem Loaded.marksPage_iff
    {elf : Elf}
    (loaded : file.Loaded elf)
    (noWrap :
      ∀ header ∈ file.loadHeaders, 0 < header.memsz.toNat →
        header.vaddr.toNat + header.memsz.toNat < 2 ^ 64)
    {header : ProgramHeader}
    (member : header ∈ file.loadHeaders)
    (page : Nat) :
    file.InPages header.vaddr header.memsz page ↔
      MarksPage header.vaddr header.memsz
        (elf.base.toNat / pageSize + page) := by
  rw [loaded.base]
  have vaddrLt := header.vaddr.isLt
  refine inPages_iff (baseAddress_le member) ?_ page
  rcases Nat.eq_zero_or_pos header.memsz.toNat with empty | positive
  · omega
  · exact noWrap header member positive

namespace Loaded

variable {elf : Elf} (loaded : file.Loaded elf)
include loaded

/-- The image covers the segments that do not wrap around. -/
theorem covered
    (noWrap :
      ∀ header ∈ file.loadHeaders, 0 < header.memsz.toNat →
        header.vaddr.toNat + header.memsz.toNat < 2 ^ 64)
    {header : ProgramHeader}
    (member : header ∈ file.loadHeaders)
    (positive : 0 < header.memsz.toNat) :
    elf.base.toNat ≤ header.vaddr.toNat ∧
      header.vaddr.toNat + header.memsz.toNat ≤
        elf.base.toNat + elf.size.toNat := by
  have low : elf.base.toNat ≤ header.vaddr.toNat := by
    rw [loaded.base]
    exact baseAddress_le member
  have baseAligned := elf.base_aligned
  -- the last page of the segment is one of the table
  have marks := (loaded.marksPage_iff noWrap member
    ((header.vaddr.toNat + header.memsz.toNat - 1) / pageSize -
      elf.base.toNat / pageSize)).mpr (by
    rw [MarksPage, pageSize] at *
    omega)
  have inTable := loaded.pages header member _ marks
  rw [pageCount, ← loaded.size] at inTable
  rw [pageSize] at *
  exact ⟨low, by omega⟩

theorem getPageFlags_eq
    {page : Nat}
    (low : elf.base.toNat ≤ page * pageSize)
    (high : page * pageSize < elf.base.toNat + elf.size.toNat) :
    elf.getPageFlags (BitVec.ofNat 64 (page * pageSize)) =
      file.layeredFlags (page - elf.base.toNat / pageSize) := by
  have endLt := elf.end_lt
  have baseAligned := elf.base_aligned
  have addressEq :
      (BitVec.ofNat 64 (page * pageSize)).toNat = page * pageSize := by
    rw [BitVec.toNat_ofNat]
    exact Nat.mod_eq_of_lt (by omega)
  have inside : elf.Contains (BitVec.ofNat 64 (page * pageSize)) := by
    rw [elf.contains_iff, addressEq]
    exact ⟨low, high⟩
  have pageEq : elf.pageOf (BitVec.ofNat 64 (page * pageSize)) =
      page - elf.base.toNat / pageSize := by
    rw [Elf.pageOf, inside.toNat_sub, addressEq]
    rw [pageSize] at *
    omega
  rw [Elf.getPageFlags, dif_pos inside, loaded.flags, pageEq]

/-- The pages of the section in the image. -/
theorem clearedPage_iff (page : Nat) :
    file.ClearedPage (elf.base.toNat / pageSize + page) ↔
      ∃ bss ∈ file.bssSection, file.InPages bss.addr bss.size page := by
  have endLt := elf.end_lt
  refine exists_congr fun bss => and_congr_right fun found => ?_
  rw [loaded.base]
  have bounded := loaded.bss bss found
  have addrLt := bss.addr.isLt
  rw [← loaded.base, ← loaded.size] at bounded
  refine (inPages_iff (baseAddress_le_bss found) ?_ page).symm
  rcases bounded with empty | bounded
  · have zero : bss.size.toNat = 0 := by rw [empty]; rfl
    omega
  · omega

theorem layeredFlags_of_cleared
    {page : Nat}
    (cleared : file.ClearedPage (elf.base.toNat / pageSize + page)) :
    file.layeredFlags page = pageMapped ||| pageRead ||| pageWrite := by
  obtain ⟨bss, found, inPages⟩ := (loaded.clearedPage_iff page).mp cleared
  rw [Option.mem_def] at found
  rw [layeredFlags, found, Option.toList_some, overlay_cons, overlay_nil,
    paint, clearFlagLayer, if_pos inPages]
  rfl

theorem layeredFlags_of_last
    (noWrap :
      ∀ header ∈ file.loadHeaders, 0 < header.memsz.toNat →
        header.vaddr.toNat + header.memsz.toNat < 2 ^ 64)
    {page index : Nat}
    {header : ProgramHeader}
    (notCleared : ¬file.ClearedPage (elf.base.toNat / pageSize + page))
    (last :
      LastWith
        (fun item =>
          MarksPage item.vaddr item.memsz (elf.base.toNat / pageSize + page))
        file.loadHeaders index header) :
    file.layeredFlags page = header.pageFlags := by
  have noClear :
      file.layeredFlags page =
        overlay file.flagLayer file.loadHeaders (fun _ => 0) page := by
    apply overlay_of_forall_not
    intro bss member
    have outside : ¬file.InPages bss.addr bss.size page := fun inPages =>
      notCleared ((loaded.clearedPage_iff page).mpr
        ⟨bss, Option.mem_toList.mp member, inPages⟩)
    rw [clearFlagLayer, if_neg outside]
  have inPages : file.InPages header.vaddr header.memsz page :=
    (loaded.marksPage_iff noWrap last.mem page).mpr last.holds
  rw [noClear]
  refine overlay_of_last (last.congr fun item member => ?_)
    (by rw [flagLayer, if_pos inPages])
  rw [← loaded.marksPage_iff noWrap member page, flagLayer]
  split <;> simp_all

/-- An undisturbed image has the described bytes. -/
theorem byte_eq
    (undisturbed : file.Undisturbed)
    {index : Nat}
    {header : ProgramHeader}
    (isAt : file.loadHeaders[index]? = some header)
    {offset : Nat}
    (describes : header.Describes offset) :
    elf.byte (header.target offset) = header.describedByte file offset := by
  have member := List.mem_of_getElem? isAt
  have own (inside : offset < header.filesz.toNat) :
      file.copyLayer header (header.target offset) =
        some (header.describedByte file offset) := by
    rw [copyLayer_own header
      (undisturbed.inFile header member (by omega)) inside,
      ProgramHeader.describedByte, if_pos inside]
  rw [loaded.bytes]
  by_cases cleared : file.Cleared (header.target offset)
  · rw [layeredBytes_of_cleared cleared,
      undisturbed.cleared header member offset describes cleared]
  rcases LastWith.exists_or_forall_not
      (fun item => (file.copyLayer item (header.target offset)).isSome = true)
      file.loadHeaders with ⟨other, otherHeader, last⟩ | notCopied
  · obtain ⟨byte, copied⟩ := Option.isSome_iff_exists.mp last.holds
    rw [layeredBytes_of_last cleared last copied]
    by_cases same : other = index ∧ offset < header.filesz.toNat
    · obtain ⟨rfl, inside⟩ := same
      rw [Option.some_inj.mp (last.isAt.symm.trans isAt), own inside] at copied
      exact (Option.some_inj.mp copied).symm
    · exact undisturbed.rounding index header isAt offset describes cleared
        other otherHeader byte last (by omega) copied
  · rw [layeredBytes_of_not_copied cleared notCopied,
      ProgramHeader.describedByte, if_neg]
    intro inside
    exact notCopied header member (by rw [own inside]; rfl)

/-- The flags of a page with bytes of one segment. -/
theorem flags_eq
    (undisturbed : file.Undisturbed)
    {index : Nat}
    {header : ProgramHeader}
    {page : Nat}
    (alone : file.Alone index header (elf.base.toNat / pageSize + page)) :
    file.layeredFlags page = header.pageFlags := by
  by_cases cleared :
      file.ClearedPage (elf.base.toNat / pageSize + page)
  · rw [loaded.layeredFlags_of_cleared cleared,
      undisturbed.clearedFlags index header _ alone cleared]
  rcases LastWith.exists_or_forall_not
      (fun item : ProgramHeader =>
        MarksPage item.vaddr item.memsz (elf.base.toNat / pageSize + page))
      file.loadHeaders with ⟨other, otherHeader, last⟩ | notMarked
  · rw [loaded.layeredFlags_of_last undisturbed.noWrap cleared last]
    rcases Nat.eq_zero_or_pos otherHeader.memsz.toNat with empty | positive
    · exact undisturbed.emptyFlags index header _ alone cleared other
        otherHeader last empty
    · by_cases same : other = index
      · subst same
        rw [Option.some_inj.mp (last.isAt.symm.trans alone.isAt)]
      · exact absurd ⟨positive, last.holds⟩
          (alone.others other otherHeader last.isAt same)
  · exact absurd alone.touches.2
      (notMarked header (List.mem_of_getElem? alone.isAt))

/-- A page with bytes of a segment is a page of the image. -/
theorem page_inside
    (covered :
      ∀ header ∈ file.loadHeaders, 0 < header.memsz.toNat →
        elf.base.toNat ≤ header.vaddr.toNat ∧
          header.vaddr.toNat + header.memsz.toNat ≤
            elf.base.toNat + elf.size.toNat)
    {index : Nat}
    {header : ProgramHeader}
    {page : Nat}
    (alone : file.Alone index header page) :
    elf.getPageFlags (BitVec.ofNat 64 (page * pageSize)) =
        file.layeredFlags (page - elf.base.toNat / pageSize) ∧
      elf.base.toNat / pageSize + (page - elf.base.toNat / pageSize) =
        page := by
  obtain ⟨low, high⟩ := covered header (List.mem_of_getElem? alone.isAt)
    alone.touches.1
  obtain ⟨_, first, last⟩ := alone.touches
  have baseAligned := elf.base_aligned
  have above : elf.base.toNat ≤ page * pageSize := by
    rw [pageSize] at *
    omega
  refine ⟨loaded.getPageFlags_eq above (by omega), ?_⟩
  rw [pageSize] at *
  omega

theorem built_of_undisturbed (undisturbed : file.Undisturbed) :
    file.Built elf where
  aligned := ⟨elf.base_aligned, elf.size_aligned⟩
  covered _ member positive :=
    loaded.covered undisturbed.noWrap member positive
  contents header member offset inside := by
    obtain ⟨index, isAt⟩ := List.getElem?_of_mem member
    have whole := undisturbed.inFile header member (by omega)
    refine ⟨by omega, ?_⟩
    rw [loaded.byte_eq undisturbed isAt (Or.inl inside),
      ProgramHeader.describedByte, if_pos inside]
  zeros header member offset beyond inside := by
    obtain ⟨index, isAt⟩ := List.getElem?_of_mem member
    rw [loaded.byte_eq undisturbed isAt (Or.inr inside),
      ProgramHeader.describedByte, if_neg (by omega)]
  flags index header page alone := by
    obtain ⟨flagsEq, pageEq⟩ := loaded.page_inside
      (fun _ member positive =>
        loaded.covered undisturbed.noWrap member positive) alone
    rw [← pageEq] at alone
    rw [flagsEq, loaded.flags_eq undisturbed alone]

/-- The bytes of an image that is built as described. -/
theorem describedByte_eq
    (built : file.Built elf)
    {header : ProgramHeader}
    (member : header ∈ file.loadHeaders)
    {offset : Nat}
    (describes : header.Describes offset) :
    file.layeredBytes (header.target offset) =
      header.describedByte file offset := by
  rw [← loaded.bytes, ProgramHeader.describedByte]
  split
  · rename_i inside
    exact (built.contents header member offset inside).2
  · rename_i beyond
    exact built.zeros header member offset (by omega)
      (describes.resolve_left beyond)

theorem undisturbed_of_built (built : file.Built elf) :
    file.Undisturbed := by
  have endLt := elf.end_lt
  have noWrap :
      ∀ header ∈ file.loadHeaders, 0 < header.memsz.toNat →
        header.vaddr.toNat + header.memsz.toNat < 2 ^ 64 := by
    intro header member positive
    have covered := built.covered header member positive
    omega
  refine
    { noWrap := noWrap
      inFile := fun header member positive => ?_
      rounding := fun index header isAt offset describes notCleared other
          otherHeader byte last _ copied => ?_
      cleared := fun header member offset describes cleared => ?_
      clearedFlags := fun index header page alone cleared => ?_
      emptyFlags := fun index header page alone notCleared other otherHeader
          last _ => ?_ }
  · have lastByte := (built.contents header member
      (header.filesz.toNat - 1) (by omega)).1
    omega
  · rw [← loaded.describedByte_eq built (List.mem_of_getElem? isAt) describes,
      layeredBytes_of_last notCleared last copied]
  · rw [← loaded.describedByte_eq built member describes,
      layeredBytes_of_cleared cleared]
  · obtain ⟨flagsEq, pageEq⟩ := loaded.page_inside built.covered alone
    rw [← built.flags index header page alone, flagsEq]
    exact loaded.layeredFlags_of_cleared (by rwa [pageEq])
  · obtain ⟨flagsEq, pageEq⟩ := loaded.page_inside built.covered alone
    rw [← built.flags index header page alone, flagsEq]
    exact (loaded.layeredFlags_of_last noWrap (by rwa [pageEq])
      (by rwa [pageEq])).symm

end Loaded

/-- A file that is accepted is loaded as its program headers describe exactly
when nothing that is done beyond the description disturbs it. -/
theorem load_built_iff
    (file : ElfFile)
    (mmap : Mmap)
    {elf : Elf}
    (accepted : file.load mmap = .ok elf) :
    file.Built elf ↔ file.Undisturbed :=
  have loaded := load_loaded accepted
  ⟨loaded.undisturbed_of_built, loaded.built_of_undisturbed⟩

/-- A file with one segment of 120 bytes in a page of memory.  The bytes after
the segment are an empty section header and one more byte. -/
def tailFile : ElfFile where
  memory address := BitVec.ofNat 8 (
    [0x7f, 0x45, 0x4c, 0x46, 2, 1, 1, 0, 0, 0, 0, 0, 0, 0, 0, 0,
      2, 0, 62, 0, 1, 0, 0, 0, 0x78, 0, 0x40, 0, 0, 0, 0, 0,
      64, 0, 0, 0, 0, 0, 0, 0, 120, 0, 0, 0, 0, 0, 0, 0,
      0, 0, 0, 0, 64, 0, 56, 0, 1, 0, 64, 0, 1, 0, 0, 0,
      1, 0, 0, 0, 7, 0, 0, 0, 0, 0, 0, 0, 0, 0, 0, 0,
      0, 0, 0x40, 0, 0, 0, 0, 0, 0, 0, 0x40, 0, 0, 0, 0, 0,
      120, 0, 0, 0, 0, 0, 0, 0, 0, 0x10, 0, 0, 0, 0, 0, 0,
      0, 0x10, 0, 0, 0, 0, 0, 0].getD (address - 0x10000).toNat
    (if address = 0x100b8 then 0xcc else 0))
  buffer := 0x10000
  size := 185
  size_ge := by decide
  buffer_ge := by decide
  end_lt := by decide

/-- Ranges of the lower half of the address space are free. -/
def freeMmap : Mmap where
  map address size :=
    if 0 < address.toNat ∧ 0 < size.toNat ∧
        address.toNat + size.toNat < 2 ^ 63 then
      address
    else
      BitVec.allOnes 64
  granted address size aligned requested := by
    split at requested
    · omega
    · rw [← requested] at aligned
      exact absurd aligned (by decide)

theorem load_built_iff_tailFile :
    ∃ elf, tailFile.load freeMmap = .ok elf ∧
      (tailFile.Built elf ↔ tailFile.Undisturbed) := by
  have accepted : (match tailFile.load freeMmap with
      | .ok _ => true | .error _ => false) = true := by
    decide +kernel
  split at accepted
  · rename_i elf loaded
    exact ⟨elf, loaded, load_built_iff tailFile freeMmap loaded⟩
  · exact absurd accepted (by simp)

/-- The segments have no byte in common. -/
def Disjoint (file : ElfFile) : Prop :=
  file.loadHeaders.Pairwise fun first second =>
    first.vaddr.toNat + first.memsz.toNat ≤ second.vaddr.toNat ∨
      second.vaddr.toNat + second.memsz.toNat ≤ first.vaddr.toNat

/-- The byte after the segment is in the image. -/
theorem tail_not_zero :
    ¬∀ (file : ElfFile) (mmap : Mmap) (elf : Elf), file.Disjoint →
      file.load mmap = .ok elf → file.Built elf := by
  intro always
  have loaded : (match tailFile.load freeMmap with
      | .ok elf => elf.byte 0x4000b8 == 0xcc
      | .error _ => false) = true := by
    decide +kernel
  have headers : tailFile.loadHeaders = [⟨1, 7, 0, 0x400000, 120, 0x1000⟩] := by
    decide +kernel
  split at loaded
  · rename_i elf accepted
    have built := always tailFile freeMmap elf
      (by rw [Disjoint, headers]; exact List.pairwise_singleton _ _) accepted
    have zero := built.zeros ⟨1, 7, 0, 0x400000, 120, 0x1000⟩
      (by rw [headers]; exact List.mem_singleton_self _) 184
      (by decide) (by decide)
    have target :
        ProgramHeader.target ⟨1, 7, 0, 0x400000, 120, 0x1000⟩ 184 =
          0x4000b8 := by
      decide
    rw [target] at zero
    rw [zero] at loaded
    exact absurd loaded (by decide)
  · exact absurd loaded (by simp)

end ElfFile
end Oxtra
