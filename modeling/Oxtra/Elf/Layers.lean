import Oxtra.Elf.Unpack

/-!
# The loaded image as an overlay

Each segment is a layer of bytes and a layer of page flags, and the section
`.bss` is one more of each.  A loaded image is what these layers leave, and
each layer of page flags ends inside of the image.
-/

namespace Oxtra

open Overlay

/-- The flags of a page, or no flags beyond the last page. -/
def PartialImage.flagAt {pages : Nat} (image : PartialImage pages) :
    Nat -> BitVec 8 :=
  fun page => image.pageFlags[page]?.getD 0

theorem PartialImage.get_pageFlags
    {pages : Nat}
    (image : PartialImage pages)
    {page : Nat}
    (inside : page < pages) :
    image.pageFlags.get ⟨page, inside⟩ = image.flagAt page := by
  rw [flagAt, Vector.getElem?_eq_getElem inside]
  rfl

namespace ElfFile

variable {file : ElfFile}

/-- The pages of a range of addresses, counted from the base. -/
def InPages (file : ElfFile) (address size : BitVec 64) (page : Nat) : Prop :=
  file.pageStart address ≤ page ∧ page < file.pageEnd address size

instance (address size : BitVec 64) (page : Nat) :
    Decidable (file.InPages address size page) :=
  inferInstanceAs (Decidable (_ ∧ _))

/-- The bytes that the copy of a segment writes. -/
def copyLayer
    (file : ElfFile)
    (header : ProgramHeader)
    (target : BitVec 64) : Option (BitVec 8) :=
  if target - header.copyDest < header.copySize file then
    some (file.memory
      (header.copySrc file + (target - header.copyDest)))
  else
    none

/-- The flags that a segment sets. -/
def flagLayer
    (file : ElfFile)
    (header : ProgramHeader)
    (page : Nat) : Option (BitVec 8) :=
  if file.InPages header.vaddr header.memsz page then
    some header.pageFlags
  else
    none

/-- The bytes that clearing a section writes. -/
def clearLayer
    (bss : SectionHeader)
    (target : BitVec 64) : Option (BitVec 8) :=
  if target - bss.addr < bss.size then some 0 else none

/-- The flags that a cleared section sets. -/
def clearFlagLayer
    (file : ElfFile)
    (bss : SectionHeader)
    (page : Nat) : Option (BitVec 8) :=
  if file.InPages bss.addr bss.size page then
    some (pageMapped ||| pageRead ||| pageWrite)
  else
    none

/-- The range of pages ends inside of the image. -/
def PagesInside (file : ElfFile) (address size : BitVec 64) : Prop :=
  ∀ page, file.InPages address size page → page < file.pageCount

/-! ## One segment -/

/-- A sequence of two computations succeeds where both do. -/
theorem exists_of_bind_eq_ok
    {Error First Second : Type}
    {first : Except Error First}
    {second : First -> Except Error Second}
    {result : Second}
    (done : first >>= second = .ok result) :
    ∃ value, first = .ok value ∧ second value = .ok result := by
  cases first with
  | error fault => exact absurd done (by simp [bind, Except.bind])
  | ok value => exact ⟨value, rfl, done⟩

theorem setPageFlags_spec
    {pages : Nat}
    {flags : BitVec 8}
    {count page : Nat}
    {table table' : Vector (BitVec 8) pages}
    (done : setPageFlags flags count page table = .ok table') :
    (∀ index, page ≤ index → index < page + count → index < pages) ∧
      ∀ index, table'[index]?.getD 0 =
        if page ≤ index ∧ index < page + count then flags
        else table[index]?.getD 0 := by
  induction count generalizing page table with
  | zero =>
      simp only [setPageFlags, Except.ok.injEq] at done
      subst done
      refine ⟨fun index _ _ => by omega, fun index => ?_⟩
      rw [if_neg (by omega)]
  | succ count inductionHypothesis =>
      simp only [setPageFlags] at done
      split at done
      · rename_i inside
        obtain ⟨bounded, entries⟩ := inductionHypothesis done
        refine ⟨fun index low high => ?_, fun index => ?_⟩
        · rcases Nat.eq_or_lt_of_le low with rfl | low
          · exact inside
          · exact bounded index low (by omega)
        · rw [entries index]
          rcases Nat.lt_trichotomy index page with low | rfl | high
          · rw [if_neg (by omega), if_neg (by omega),
              Vector.getElem?_set_ne inside (by omega)]
          · rw [if_neg (by omega), if_pos (by omega),
              Vector.getElem?_set_self inside]
            rfl
          · rw [Vector.getElem?_set_ne inside (by omega)]
            by_cases last : index < page + 1 + count
            · rw [if_pos (by omega), if_pos (by omega)]
            · rw [if_neg (by omega), if_neg (by omega)]
      · exact absurd done (by simp)

theorem markPages_spec
    {image image' : PartialImage file.pageCount}
    {address size : BitVec 64}
    {flags : BitVec 8}
    (done : file.markPages image address size flags = .ok image') :
    file.PagesInside address size ∧ image'.byte = image.byte ∧
      image'.flagAt = paint
        (fun page =>
          if file.InPages address size page then some flags else none)
        image.flagAt := by
  obtain ⟨table, written, done⟩ := exists_of_bind_eq_ok done
  simp only [pure, Except.pure, Except.ok.injEq] at done
  subst done
  obtain ⟨bounded, entries⟩ := setPageFlags_spec written
  refine ⟨fun page inPages => ?_, rfl, ?_⟩
  · obtain ⟨low, high⟩ := inPages
    exact bounded page low (by omega)
  · funext page
    simp only [PartialImage.flagAt, paint, entries page]
    by_cases inPages : file.InPages address size page
    · have bounds := inPages
      simp only [InPages] at bounds
      rw [if_pos inPages, if_pos (by omega)]
      rfl
    · have bounds := inPages
      simp only [InPages] at bounds
      rw [if_neg inPages, if_neg (by omega)]
      rfl

theorem writeBytes_spec
    {image image' : PartialImage file.pageCount}
    {address size : BitVec 64}
    {value : BitVec 64 -> BitVec 8}
    (done : file.writeBytes image address size value = .ok image') :
    (size = 0 ∨
      file.baseAddress ≤ address ∧
        address.toNat + size.toNat ≤
          file.baseAddress.toNat + file.imageSize.toNat) ∧
      image'.flagAt = image.flagAt ∧
      image'.byte = paint
        (fun target =>
          if target - address < size then some (value (target - address))
          else none)
        image.byte := by
  unfold writeBytes at done
  split at done
  · rename_i inside
    simp only [Except.ok.injEq] at done
    subst done
    exact ⟨inside, rfl, rfl⟩
  · exact absurd done (by simp)

theorem loadSegment_spec
    {image image' : PartialImage file.pageCount}
    {header : ProgramHeader}
    (done : file.loadSegment image header = .ok image') :
    file.PagesInside header.vaddr header.memsz ∧
      image'.byte = paint (file.copyLayer header) image.byte ∧
      image'.flagAt = paint (file.flagLayer header) image.flagAt := by
  obtain ⟨middle, marked, written⟩ := exists_of_bind_eq_ok done
  obtain ⟨inside, sameBytes, flags⟩ := markPages_spec marked
  obtain ⟨_, sameFlags, bytes⟩ := writeBytes_spec written
  refine ⟨inside, ?_, ?_⟩
  · rw [bytes, sameBytes]
    rfl
  · rw [sameFlags, flags]
    rfl

/-- The segments are painted one after another. -/
theorem loadSegments_spec
    {headers : List ProgramHeader}
    {image image' : PartialImage file.pageCount}
    (done : file.loadSegments image headers = .ok image') :
    (∀ header ∈ headers, file.PagesInside header.vaddr header.memsz) ∧
      image'.byte = overlay file.copyLayer headers image.byte ∧
      image'.flagAt = overlay file.flagLayer headers image.flagAt := by
  induction headers generalizing image with
  | nil =>
      simp only [loadSegments, Except.ok.injEq] at done
      subst done
      exact ⟨by simp, rfl, rfl⟩
  | cons header headers inductionHypothesis =>
      obtain ⟨middle, loaded, rest⟩ := exists_of_bind_eq_ok done
      obtain ⟨inside, bytes, flags⟩ := loadSegment_spec loaded
      obtain ⟨insideRest, bytesRest, flagsRest⟩ := inductionHypothesis rest
      refine ⟨List.forall_mem_cons.mpr ⟨inside, insideRest⟩, ?_, ?_⟩
      · rw [bytesRest, bytes, overlay_cons]
      · rw [flagsRest, flags, overlay_cons]

theorem clearBss_spec
    {image image' : PartialImage file.pageCount}
    {bss : SectionHeader}
    (done : file.clearBss image bss = .ok image') :
    (bss.size = 0 ∨
      bss.addr.toNat + bss.size.toNat ≤
        file.baseAddress.toNat + file.imageSize.toNat) ∧
      image'.byte = paint (clearLayer bss) image.byte ∧
      image'.flagAt = paint (file.clearFlagLayer bss) image.flagAt := by
  obtain ⟨middle, cleared, marked⟩ := exists_of_bind_eq_ok done
  obtain ⟨inside, sameFlags, bytes⟩ := writeBytes_spec cleared
  obtain ⟨_, sameBytes, flags⟩ := markPages_spec marked
  refine ⟨inside.imp id And.right, ?_, ?_⟩
  · rw [sameBytes, bytes]
    rfl
  · rw [flags, sameFlags]
    rfl

/-! ## The whole image -/

/-- The bytes of the image. -/
def layeredBytes (file : ElfFile) : BitVec 64 -> BitVec 8 :=
  overlay clearLayer file.bssSection.toList
    (overlay file.copyLayer file.loadHeaders fun _ => 0)

/-- The flags of the pages of the image. -/
def layeredFlags (file : ElfFile) : Nat -> BitVec 8 :=
  overlay file.clearFlagLayer file.bssSection.toList
    (overlay file.flagLayer file.loadHeaders fun _ => 0)

theorem fillImage_spec
    {image : PartialImage file.pageCount}
    (done : file.fillImage = .ok image) :
    (∀ header ∈ file.loadHeaders,
        file.PagesInside header.vaddr header.memsz) ∧
      (∀ bss ∈ file.bssSection, bss.size = 0 ∨
        bss.addr.toNat + bss.size.toNat ≤
          file.baseAddress.toNat + file.imageSize.toNat) ∧
      image.byte = file.layeredBytes ∧ image.flagAt = file.layeredFlags := by
  obtain ⟨segments, loaded, done⟩ := exists_of_bind_eq_ok done
  obtain ⟨inside, bytes, flags⟩ := loadSegments_spec loaded
  have emptyFlags :
      PartialImage.flagAt
        { pageFlags := Vector.replicate file.pageCount 0,
          byte := fun _ => 0 } = fun _ => 0 := by
    funext page
    simp only [PartialImage.flagAt, Vector.getElem?_replicate]
    split <;> rfl
  rw [emptyFlags] at flags
  cases found : file.bssSection with
  | none =>
      rw [found] at done
      simp only [Except.ok.injEq] at done
      subst done
      refine ⟨inside, by simp, ?_, ?_⟩
      · rw [bytes, layeredBytes, found, Option.toList_none, overlay_nil]
      · rw [flags, layeredFlags, found, Option.toList_none, overlay_nil]
  | some bss =>
      rw [found] at done
      obtain ⟨bssInside, cleared, clearedFlags⟩ := clearBss_spec done
      refine ⟨inside, by simpa using bssInside, ?_, ?_⟩
      · rw [cleared, bytes, layeredBytes, found, Option.toList_some,
          overlay_cons, overlay_nil]
      · rw [clearedFlags, flags, layeredFlags, found, Option.toList_some,
          overlay_cons, overlay_nil]

/-- What is known of a loaded image. -/
structure Loaded (file : ElfFile) (elf : Elf) : Prop where
  base : elf.base = file.baseAddress
  size : elf.size = file.imageSize
  bytes : elf.byte = file.layeredBytes
  flags :
    ∀ page (inside : page < elf.pageCount),
      elf.pageFlags.get ⟨page, inside⟩ = file.layeredFlags page
  pages :
    ∀ header ∈ file.loadHeaders, file.PagesInside header.vaddr header.memsz
  bss :
    ∀ bss ∈ file.bssSection, bss.size = 0 ∨
      bss.addr.toNat + bss.size.toNat ≤
        file.baseAddress.toNat + file.imageSize.toNat

theorem unpackFile_loaded
    {mmap : Mmap}
    {elf : Elf}
    (accepted : file.unpackFile mmap = .ok elf) :
    file.Loaded elf := by
  unfold unpackFile at accepted
  split at accepted
  · exact absurd accepted (by simp)
  split at accepted
  · split at accepted
    · exact absurd accepted (by simp)
    · rename_i image filled
      simp only [Except.ok.injEq] at accepted
      subst accepted
      obtain ⟨pages, bss, bytes, flags⟩ := fillImage_spec filled
      refine ⟨rfl, rfl, bytes, fun page inside => ?_, pages, bss⟩
      rw [← flags]
      exact image.get_pageFlags inside
  · exact absurd accepted (by simp)

theorem load_loaded
    {mmap : Mmap}
    {elf : Elf}
    (accepted : file.load mmap = .ok elf) :
    file.Loaded elf := by
  obtain ⟨_, _, unpacked⟩ := exists_of_bind_eq_ok accepted
  exact unpackFile_loaded unpacked

end ElfFile
end Oxtra
