import Oxtra.Elf.File
import Oxtra.Utils
import Oxtra.Library.Overlay

/-!
# Loading an executable file

The image spans from the lowest segment to the highest end.  Each loadable
segment sets the flags of its pages and is copied, with its address rounded
down and its size rounded up to whole pages, but not beyond the end of the
file.  A section named `.bss` is cleared at last.
-/

namespace Oxtra

open Overlay

/-- `mmap` of a range at a requested address.  The address it returns is the
requested one only when the range lies in the address space and is neither
empty nor at the null address. -/
structure Mmap where
  map : BitVec 64 -> BitVec 64 -> BitVec 64
  granted :
    ∀ address size, address.toNat % pageSize = 0 →
      map address size = address →
      0 < address.toNat ∧ 0 < size.toNat ∧
        address.toNat + size.toNat < 2 ^ 64

/-- An image while the segments are written to it. -/
structure PartialImage (pages : Nat) where
  pageFlags : Vector (BitVec 8) pages
  byte : BitVec 64 -> BitVec 8

namespace ProgramHeader

/-- The flags of the pages of a segment. -/
def pageFlags (header : ProgramHeader) : BitVec 8 :=
  pageMapped |||
    (if header.flags &&& 1 ≠ 0 then pageExecute else 0) |||
    (if header.flags &&& 2 ≠ 0 then pageWrite else 0) |||
    (if header.flags &&& 4 ≠ 0 then pageRead else 0)

/-- `copy_src` -/
def copySrc (header : ProgramHeader) (file : ElfFile) : BitVec 64 :=
  file.resolveOffset header.offset - (header.vaddr &&& 0xfff)

/-- `copy_dest` -/
def copyDest (header : ProgramHeader) : BitVec 64 :=
  header.vaddr - (header.vaddr &&& 0xfff)

/-- `copy_size`, in whole pages. -/
def roundedSize (header : ProgramHeader) : BitVec 64 :=
  let size := header.filesz + (header.vaddr &&& 0xfff)
  let size := if size &&& 0xfff ≠ 0 then size + 0x1000 else size
  size ^^^ (size &&& 0xfff)

/-- `copy_size`, up to the end of the file. -/
def copySize (header : ProgramHeader) (file : ElfFile) : BitVec 64 :=
  if header.copySrc file + header.roundedSize > file.buffer + file.size then
    file.buffer + file.size - header.copySrc file
  else
    header.roundedSize

end ProgramHeader

namespace ElfFile

variable (file : ElfFile)

/-- The lowest address of the segments, below the initial value of the
search. -/
def lowestAddress : BitVec 64 :=
  let lowest := file.loadHeaders.foldl (fun base header =>
    if header.vaddr < base then header.vaddr else base) 0xffffffff
  match file.bssSection with
  | some bss => if bss.addr < lowest then bss.addr else lowest
  | none => lowest

/-- The highest end of the segments. -/
def highestEnd : BitVec 64 :=
  let highest := file.loadHeaders.foldl (fun size header =>
    if header.vaddr + header.memsz > size then
      header.vaddr + header.memsz
    else
      size) 0
  match file.bssSection with
  | some bss =>
      if bss.addr + bss.size > highest then bss.addr + bss.size else highest
  | none => highest

/-- `base_address` -/
def baseAddress : BitVec 64 :=
  file.lowestAddress ^^^ (file.lowestAddress &&& 0xfff)

/-- `image_size` -/
def imageSize : BitVec 64 :=
  Utils.pageAlign file.highestEnd - file.baseAddress

/-- Number of pages of the image. -/
def pageCount : Nat := file.imageSize.toNat / pageSize

/-- The first page of a range of addresses, counted from the base. -/
def pageStart (address : BitVec 64) : Nat :=
  ((address - file.baseAddress) >>> 12).toNat

/-- The page after the last one of a range of addresses. -/
def pageEnd (address size : BitVec 64) : Nat :=
  let last := address + size - file.baseAddress
  (last >>> 12).toNat + if last &&& 0xfff > 0 then 1 else 0

/-- Set the flags of `count` pages from `page` on. -/
def setPageFlags {pages : Nat} (flags : BitVec 8) :
    Nat -> Nat -> Vector (BitVec 8) pages ->
      Except LoadFault (Vector (BitVec 8) pages)
  | 0, _, table => .ok table
  | count + 1, page, table =>
      if inside : page < pages then
        setPageFlags flags count (page + 1) (table.set page flags)
      else
        .error .outOfBounds

/-- Set the flags of the pages of a range of addresses. -/
def markPages
    (image : PartialImage file.pageCount)
    (address size : BitVec 64)
    (flags : BitVec 8) : Except LoadFault (PartialImage file.pageCount) := do
  let start := file.pageStart address
  let table ← setPageFlags flags (file.pageEnd address size - start) start
    image.pageFlags
  return { image with pageFlags := table }

/-- Write to a range of addresses of the image. -/
def writeBytes
    (image : PartialImage file.pageCount)
    (address size : BitVec 64)
    (value : BitVec 64 -> BitVec 8) : Except LoadFault (PartialImage file.pageCount) :=
  if size = 0 ∨
      file.baseAddress ≤ address ∧
        address.toNat + size.toNat ≤
          file.baseAddress.toNat + file.imageSize.toNat then
    .ok { image with
      byte := paint
        (fun target =>
          if target - address < size then some (value (target - address))
          else none)
        image.byte }
  else
    .error .outOfBounds

/-- Set up the pages of a segment and copy it. -/
def loadSegment
    (image : PartialImage file.pageCount)
    (header : ProgramHeader) : Except LoadFault (PartialImage file.pageCount) := do
  let image ← file.markPages image header.vaddr header.memsz header.pageFlags
  file.writeBytes image header.copyDest (header.copySize file) fun index =>
    file.memory (header.copySrc file + index)

/-- Load the segments in the order of the table. -/
def loadSegments (image : PartialImage file.pageCount) :
    List ProgramHeader -> Except LoadFault (PartialImage file.pageCount)
  | [] => .ok image
  | header :: headers => do
      let image ← file.loadSegment image header
      loadSegments image headers

/-- Clear the section and set up its pages. -/
def clearBss
    (image : PartialImage file.pageCount)
    (bss : SectionHeader) : Except LoadFault (PartialImage file.pageCount) := do
  let image ← file.writeBytes image bss.addr bss.size fun _ => 0
  file.markPages image bss.addr bss.size
    (pageMapped ||| pageRead ||| pageWrite)

/-- The segments and the section. -/
def fillImage : Except LoadFault (PartialImage file.pageCount) := do
  let image ← file.loadSegments
    { pageFlags := Vector.replicate _ 0, byte := fun _ => 0 }
    file.loadHeaders
  match file.bssSection with
  | some bss => file.clearBss image bss
  | none => .ok image

/-! ## The image -/

theorem toNat_and_pageMask (address : BitVec 64) :
    (address &&& 0xfff).toNat = address.toNat % pageSize := by
  rw [BitVec.toNat_and]
  exact Nat.and_two_pow_sub_one_eq_mod address.toNat 12

theorem xor_and_self_mask (address mask : BitVec 64) :
    address ^^^ (address &&& mask) = address - (address &&& mask) := by
  have split : (address &&& ~~~mask) + (address &&& mask) = address := by
    rw [BitVec.add_eq_or_of_and_eq_zero]
    · ext index inside
      simp only [BitVec.getElem_or, BitVec.getElem_and, BitVec.getElem_not]
      cases address[index] <;> cases mask[index] <;> rfl
    · ext index inside
      simp only [BitVec.getElem_and, BitVec.getElem_not, BitVec.getElem_zero]
      cases address[index] <;> cases mask[index] <;> rfl
  have cleared : address ^^^ (address &&& mask) = address &&& ~~~mask := by
    ext index inside
    simp only [BitVec.getElem_xor, BitVec.getElem_and, BitVec.getElem_not]
    cases address[index] <;> cases mask[index] <;> rfl
  rw [cleared]
  exact BitVec.eq_sub_iff_add_eq.mpr split

/-- Rounding an address down to its page. -/
theorem toNat_sub_pageMask (address : BitVec 64) :
    (address - (address &&& 0xfff)).toNat =
      address.toNat / pageSize * pageSize := by
  have addressLt := address.isLt
  rw [BitVec.toNat_sub, toNat_and_pageMask, pageSize]
  omega

theorem toNat_baseAddress :
    file.baseAddress.toNat =
      file.lowestAddress.toNat / pageSize * pageSize := by
  rw [baseAddress, xor_and_self_mask, toNat_sub_pageMask]

theorem baseAddress_aligned : file.baseAddress.toNat % pageSize = 0 := by
  rw [toNat_baseAddress]
  exact Nat.mul_mod_left _ _

theorem imageSize_aligned : file.imageSize.toNat % pageSize = 0 := by
  have base := file.baseAddress_aligned
  have ends := Utils.pageAlign_aligned file.highestEnd
  have endsLt := (Utils.pageAlign file.highestEnd).isLt
  rw [imageSize, BitVec.toNat_sub]
  rw [pageSize] at *
  omega

/-- `unpack_file` -/
def unpackFile (mmap : Mmap) : Except LoadFault Elf :=
  if file.programHeaders.any fun header => header.type == 3 then
    .error (.thrown (.describe .notStatic "contains interpreter"))
  else if mapped :
      mmap.map file.baseAddress file.imageSize = file.baseAddress then
    match file.fillImage with
    | .error fault => .error fault
    | .ok image =>
        .ok
          { base := file.baseAddress
            size := file.imageSize
            pageFlags := image.pageFlags
            byte := image.byte
            base_aligned := file.baseAddress_aligned
            size_aligned := file.imageSize_aligned
            base_pos := (mmap.granted _ _ file.baseAddress_aligned mapped).1
            end_lt := (mmap.granted _ _ file.baseAddress_aligned mapped).2.2 }
  else
    .error (.thrown (.ofError .baseAddressTaken))

/-- Load an executable file. -/
def load (mmap : Mmap) : Except LoadFault Elf := do
  file.validateElf
  file.unpackFile mmap

end ElfFile
end Oxtra
