import Oxtra.Elf

/-!
# Executable files

An executable file is read into a buffer of the loader's memory and inspected
there.  Offsets of the file are not checked against its size: a header that
points out of the file is read from whatever the memory holds.
-/

namespace Oxtra

/-- Kinds of loader errors. -/
inductive ElfError
  | undefined
  | fileFailed
  | notElfFile
  | formatIssue
  | unsupportedBinary
  | unsupportedType
  | notStatic
  | baseAddressTaken
  deriving DecidableEq, Repr

/-- `error_string` -/
def ElfError.errorString : ElfError -> String
  | .fileFailed => "[file_failed] failed to open or read the file"
  | .notElfFile => "[not_elf_file] the file is not an elf-file"
  | .unsupportedBinary =>
      "[unsupported_binary] the file does not conform to the " ++
        "binary-standards of this program"
  | .unsupportedType =>
      "[unsupported_type] the file does not seem to be an executable"
  | .notStatic => "[not_static] the file has not been linked statically"
  | .formatIssue =>
      "[format_issue] this program can not handle this elf-format"
  | .baseAddressTaken =>
      "[base_address_taken] the requested static address of the elf-file " ++
        "could not be allocated"
  | .undefined => "[undefined] undefined"

/-- `ElfException` -/
structure ElfException where
  err : ElfError
  info : String
  deriving DecidableEq, Repr

namespace ElfException

/-- The exception of an error. -/
def ofError (err : ElfError) : ElfException := ⟨err, err.errorString⟩

/-- The exception of an error, with a description. -/
def describe (err : ElfError) (info : String) : ElfException :=
  ⟨err, err.errorString ++ " (desc: " ++ info ++ ")"⟩

end ElfException

/-- What ends the loading of a file early. -/
inductive LoadFault
  | thrown (exception : ElfException)
  /-- A write outside of the image or of the table of page flags. -/
  | outOfBounds
  deriving DecidableEq, Repr

/-- The file as `read_file` leaves it: the memory of the loader, and the
buffer in it.  User memory is the lower half of the address space without its
first page, and the file is not smaller than its header. -/
structure ElfFile where
  memory : BitVec 64 -> BitVec 8
  buffer : BitVec 64
  size : BitVec 64
  size_ge : 64 ≤ size.toNat
  buffer_ge : 0x1000 ≤ buffer.toNat
  end_lt : buffer.toNat + size.toNat < 2 ^ 63

namespace ElfFile

/-- `resolve_offset` -/
def resolveOffset (file : ElfFile) (offset : BitVec 64) : BitVec 64 :=
  file.buffer + offset

/-- A byte of the file. -/
def byte (file : ElfFile) (offset : BitVec 64) : BitVec 8 :=
  file.memory (file.resolveOffset offset)

/-- The number of `bytes` bytes at an address, lowest byte first. -/
def little (file : ElfFile) (address : BitVec 64) : Nat -> Nat
  | 0 => 0
  | bytes + 1 =>
      (file.memory address).toNat + 256 * file.little (address + 1) bytes

/-- A number of the file format. -/
def half (file : ElfFile) (address : BitVec 64) : BitVec 16 :=
  BitVec.ofNat 16 (file.little address 2)

@[inherit_doc half]
def word (file : ElfFile) (address : BitVec 64) : BitVec 32 :=
  BitVec.ofNat 32 (file.little address 4)

@[inherit_doc half]
def xword (file : ElfFile) (address : BitVec 64) : BitVec 64 :=
  BitVec.ofNat 64 (file.little address 8)

end ElfFile

/-! ## Headers -/

/-- `Elf64_Ehdr` -/
structure FileHeader where
  ident : List (BitVec 8)
  type : BitVec 16
  machine : BitVec 16
  version : BitVec 32
  entry : BitVec 64
  phoff : BitVec 64
  shoff : BitVec 64
  ehsize : BitVec 16
  phentsize : BitVec 16
  phnum : BitVec 16
  shnum : BitVec 16
  shstrndx : BitVec 16

/-- `Elf64_Phdr` -/
structure ProgramHeader where
  type : BitVec 32
  flags : BitVec 32
  offset : BitVec 64
  vaddr : BitVec 64
  filesz : BitVec 64
  memsz : BitVec 64
  deriving DecidableEq

/-- `Elf64_Shdr` -/
structure SectionHeader where
  name : BitVec 32
  addr : BitVec 64
  offset : BitVec 64
  size : BitVec 64
  link : BitVec 32
  info : BitVec 32
  deriving DecidableEq

namespace ElfFile

/-- The header at the start of the file. -/
def fileHeader (file : ElfFile) : FileHeader :=
  let ehdr := file.resolveOffset 0
  { ident := (List.range 16).map fun index =>
      file.memory (ehdr + BitVec.ofNat 64 index)
    type := file.half (ehdr + 16)
    machine := file.half (ehdr + 18)
    version := file.word (ehdr + 20)
    entry := file.xword (ehdr + 24)
    phoff := file.xword (ehdr + 32)
    shoff := file.xword (ehdr + 40)
    ehsize := file.half (ehdr + 52)
    phentsize := file.half (ehdr + 54)
    phnum := file.half (ehdr + 56)
    shnum := file.half (ehdr + 60)
    shstrndx := file.half (ehdr + 62) }

/-- `phdr[index]` -/
def programHeader (file : ElfFile) (index : Nat) : ProgramHeader :=
  let phdr := file.resolveOffset file.fileHeader.phoff +
    BitVec.ofNat 64 (56 * index)
  { type := file.word phdr
    flags := file.word (phdr + 4)
    offset := file.xword (phdr + 8)
    vaddr := file.xword (phdr + 16)
    filesz := file.xword (phdr + 32)
    memsz := file.xword (phdr + 40) }

/-- `shdr[index]` -/
def sectionHeader (file : ElfFile) (index : Nat) : SectionHeader :=
  let shdr := file.resolveOffset file.fileHeader.shoff +
    BitVec.ofNat 64 (64 * index)
  { name := file.word shdr
    addr := file.xword (shdr + 16)
    offset := file.xword (shdr + 24)
    size := file.xword (shdr + 32)
    link := file.word (shdr + 40)
    info := file.word (shdr + 44) }

/-- `validate_elf` -/
def validateElf (file : ElfFile) : Except LoadFault Unit := do
  let ehdr := file.fileHeader
  let fail (err : ElfError) (info : String) : Except LoadFault Unit :=
    throw (.thrown (.describe err info))
  if ehdr.ident.take 4 ≠ [0x7f, 0x45, 0x4c, 0x46] then
    fail .notElfFile "invalid signature"
  if ehdr.ident[4]? ≠ some 2 then
    fail .unsupportedBinary "not 64-bit"
  if ehdr.ident[5]? ≠ some 1 then
    fail .unsupportedBinary "not little endian"
  if ehdr.ident[6]? ≠ some 1 then
    fail .formatIssue "invalid version"
  if ehdr.ident[7]? ≠ some 3 ∧ ehdr.ident[7]? ≠ some 0 then
    fail .formatIssue "invalid os-abi"
  if ehdr.ident[8]? ≠ some 0 then
    fail .formatIssue "invalid abi-version"
  if ehdr.type ≠ 2 then
    fail .unsupportedType "not static executable"
  if ehdr.machine ≠ 62 then
    fail .unsupportedBinary "invalid machine"
  if ehdr.version ≠ 1 then
    fail .formatIssue "invalid version"
  if ehdr.entry = 0 then
    fail .unsupportedBinary "no entry-point"
  if ehdr.phoff = 0 ∨ ehdr.phnum = 0 ∨ ehdr.phentsize ≠ 56 then
    fail .formatIssue "program-header issue"
  if ehdr.ehsize ≠ 64 then
    fail .formatIssue "exe-header unusable size"

/-! ## Tables of headers -/

/-- The values that are taken from the first section header where they do not
fit the file header. -/
def extended (file : ElfFile) : Bool :=
  file.fileHeader.phnum == 0xffff || file.fileHeader.shnum == 0 ||
    file.fileHeader.shstrndx == 0xffff

/-- Number of program headers. -/
def programHeaderCount (file : ElfFile) : Nat :=
  if file.extended && file.fileHeader.phnum == 0xffff then
    (file.sectionHeader 0).info.toNat
  else
    file.fileHeader.phnum.toNat

/-- Number of section headers. -/
def sectionHeaderCount (file : ElfFile) : Nat :=
  if file.extended && file.fileHeader.shnum == 0 then
    (file.sectionHeader 0).size.toNat
  else
    file.fileHeader.shnum.toNat

/-- Index of the section with the names of the sections. -/
def nameSectionIndex (file : ElfFile) : Nat :=
  if file.extended && file.fileHeader.shstrndx == 0xffff then
    (file.sectionHeader 0).link.toNat
  else
    file.fileHeader.shstrndx.toNat

/-- The section is named `.bss`.  The sum of the offset of the name and the
length is a 32-bit number. -/
def isBss (file : ElfFile) (header : SectionHeader) : Bool :=
  let names := file.sectionHeader file.nameSectionIndex
  let name := file.resolveOffset names.offset + header.name.setWidth 64
  !((header.name + 5).setWidth 64 > names.size) &&
    (List.range 5).map (fun index =>
      file.memory (name + BitVec.ofNat 64 index)) ==
        [0x2e, 0x62, 0x73, 0x73, 0x00]

/-- The first section header from `index` on that is named `.bss`. -/
def findBss (file : ElfFile) : Nat -> Nat -> Option SectionHeader
  | 0, _ => none
  | count + 1, index =>
      if file.isBss (file.sectionHeader index) then
        some (file.sectionHeader index)
      else
        file.findBss count (index + 1)

/-- `bss_section` -/
def bssSection (file : ElfFile) : Option SectionHeader :=
  file.findBss file.sectionHeaderCount 0

/-- The table of program headers. -/
def programHeaders (file : ElfFile) : List ProgramHeader :=
  (List.range file.programHeaderCount).map file.programHeader

/-- `PT_LOAD` -/
def loadHeaders (file : ElfFile) : List ProgramHeader :=
  file.programHeaders.filter fun header => header.type == 1

end ElfFile
end Oxtra
