import Oxtra.Fadec
import Oxtra.JumpTable

/-!
# Helper functions of the translation

Pieces of code that the translation of many instructions is made of.  A
function that chooses the register for its result returns the code together
with this register.
-/

namespace Oxtra
namespace Helper

open RiscV
open Encoding

/-! ## Guest registers -/

def registerMapping : Vector Register 16 :=
  #v[.a7, .a6, .a2, .s2, .sp, .s0, .a1, .a0, .a4, .a5, .a3, .s3, .s4, .s5, .s6,
    .s7]

/-- The register that an x86 register is mapped to. -/
def mapReg (reg : Fadec.Register) : Register :=
  registerMapping[reg]

/-- The register that holds a high byte. -/
def mapRegHigh (reg : Fadec.Register) : Register := mapReg (reg - 4)

/-- The register that an operand of some register type is mapped to. -/
def mapRegType (reg : Fadec.Register) (type : Fadec.RegisterType) : Register :=
  match type with
  | .gph => mapRegHigh reg
  | .gpl => mapReg reg

def rax : Register := mapReg 0
def rcx : Register := mapReg 1
def rdx : Register := mapReg 2
def rsp : Register := mapReg 4
def rbp : Register := mapReg 5
def rsi : Register := mapReg 6
def rdi : Register := mapReg 7

/-! ## Parts of registers -/

/-- Parts of a register: the number of its low bytes, or zero for the high
byte. -/
inductive RegisterAccess where
  | qword
  | dword
  | word
  | lbyte
  | hbyte
  deriving DecidableEq, Repr

namespace RegisterAccess

/-- The access to the low bytes of an operand of this size. -/
def ofSize : Fadec.OperandSize -> RegisterAccess
  | .qword => qword
  | .dword => dword
  | .word => word
  | .byte => lbyte

/-- The access to a register of some type. -/
def ofType (size : Fadec.OperandSize) : Fadec.RegisterType -> RegisterAccess
  | .gph => hbyte
  | .gpl => ofSize size

end RegisterAccess

/-- `move_to_register` -/
def moveToRegister
    (dest src : Register)
    (access : RegisterAccess)
    (temp : Register)
    (cleared : Bool) : List Inst :=
  match access with
  | .qword => if src ≠ dest then [mv dest src] else []
  | .dword => [slli dest src 32, srli dest dest 32]
  | .word =>
      if cleared then
        [srli dest dest 16, slli dest dest 16, Encoding.or dest dest src]
      else
        [Encoding.xor temp src dest, slli temp temp 48, srli temp temp 48,
          Encoding.xor dest temp dest]
  | .lbyte =>
      if cleared then
        [andi dest dest (-0x100), Encoding.or dest dest src]
      else
        [andi dest dest (-0x100), andi temp src 0xff,
          Encoding.or dest dest temp]
  | .hbyte =>
      [srli temp dest 8, Encoding.xor temp temp src, slli temp temp 56,
        srli temp temp 48, Encoding.xor dest temp dest]

/-- The shifts that move a part of a register to the top and back down. -/
def RegisterAccess.shifts : RegisterAccess -> BitVec 8 × BitVec 8
  | .hbyte => (48, 56)
  | .lbyte => (56, 56)
  | .word => (48, 48)
  | .dword => (32, 32)
  | .qword => (0, 0)

/-- `load_from_register` -/
def loadFromRegister
    (src : Register)
    (access : RegisterAccess)
    (temp : Register)
    (modifiable fullLoad signExtend : Bool) : List Inst × Register :=
  if fullLoad then
    if access ≠ .qword then
      let (left, right) := access.shifts
      ([slli temp src left,
        (if signExtend then srai else srli) temp temp right], temp)
    else if modifiable then
      ([mv temp src], temp)
    else
      ([], src)
  else if access = .hbyte then
    ([srli temp src 8], temp)
  else if modifiable then
    ([mv temp src], temp)
  else
    ([], src)

/-- `sign_extend_register` for the registers that have this number of
bytes. -/
def signExtendRegister
    (dest src : Register)
    (size : Fadec.OperandSize) : List Inst :=
  match size with
  | .dword => [addw dest src .zero]
  | .qword => []
  | .word => [slli dest src 48, srai dest dest 48]
  | .byte => [slli dest src 56, srai dest dest 56]

/-! ## Immediates -/

/-- A part of an immediate, with the shift in front of it. -/
structure Package where
  bits : BitVec 32
  shift : BitVec 8 := 0
  deriving DecidableEq, Repr

/-- How far `load_immediate` is: the packages it has made, the last one first,
and the number of bits that are left, which is `current_bit + 1`. -/
structure Packages where
  packages : List Package := []
  luiUsed : Bool := false
  left : Nat := 64
  deriving DecidableEq, Repr

/-- Number of bits below a position, in a row, that have some value. -/
def equalRun (imm : BitVec 64) (value : Bool) : Nat -> Nat
  | 0 => 0
  | position + 1 =>
      if imm.getLsbD position = value then
        equalRun imm value position + 1
      else
        0

/-- The size of the next package, the number of equal digits in front of it,
and the number of bits that are left behind it. -/
structure Digits where
  digits : Nat
  equalDigits : Nat
  left : Nat
  deriving DecidableEq, Repr

/-- The digits of the next package, of `digits` bits from the last of the
equal digits on. -/
def nextDigits (isFirst : Bool) (digits equalDigits : Nat) : Digits :=
  if digits < 12 then
    if digits + equalDigits > 12 then
      ⟨12, digits + equalDigits - 12, 0⟩
    else
      ⟨digits + equalDigits, 0, 0⟩
  else if digits > 12 then
    if digits ≥ 32 ∧ isFirst then
      ⟨20, equalDigits, digits - 20⟩
    else if digits + equalDigits ≥ 32 ∧ isFirst then
      if digits + equalDigits > 32 then
        ⟨20, digits + equalDigits - 32, 12⟩
      else
        ⟨digits + equalDigits - 12, 0, 12⟩
    else
      ⟨12, equalDigits, digits - 12⟩
  else
    ⟨12, equalDigits, 0⟩

/-- The previous package is inverted for a package that inverts it again. -/
def invertParent : List Package -> List Package
  | [] => []
  | package :: rest => { package with bits := ~~~package.bits } :: rest

/-- One round of the encoding loop. -/
def nextPackage (imm : BitVec 64) (state : Packages) : Packages :=
  let isFirst := state.packages.isEmpty
  let upperValue := imm.getLsbD (state.left - 1)
  let run := equalRun imm upperValue state.left
  let run :=
    if state.packages.length = 1 ∧ state.luiUsed ∧ run ≤ 12 then 1 else run
  let next := nextDigits isFirst (state.left - run + 1) (run - 1)
  let mask := BitVec.allOnes 64 >>> (64 - next.digits)
  let bits := (imm >>> next.left &&& mask).setWidth 32
  let luiUsed := state.luiUsed || (isFirst && next.digits = 20)
  let parents :=
    if upperValue ∧ next.digits = 12 then
      invertParent state.packages
    else
      state.packages
  let shift :=
    if luiUsed ∧ state.packages.length = 1 then
      next.digits + next.equalDigits - 12
    else
      next.digits + next.equalDigits
  { packages := ⟨bits, BitVec.ofNat 8 shift⟩ :: parents
    luiUsed := luiUsed
    left := next.left }

/-- The rounds of the encoding loop until no bits are left.  The number
bounds the rounds. -/
def makePackages (imm : BitVec 64) : Nat -> Packages -> Packages
  | 0, state => state
  | rounds + 1, state =>
      let next := nextPackage imm state
      if next.left = 0 then next else makePackages imm rounds next

/-- The instructions for the first package. -/
def loadFirst (dest : Register) (luiUsed : Bool) (package : Package) :
    List Inst :=
  if luiUsed then
    [lui dest package.bits]
  else
    [xori dest .zero (package.bits.setWidth 16)]

/-- The instructions for a further package. -/
def loadFurther (dest : Register) (package : Package) : List Inst :=
  (if package.shift > 0 then [slli dest dest package.shift] else []) ++
    if package.bits > 0 then
      [xori dest dest (package.bits.setWidth 16)]
    else
      []

/-- The instructions for packages, the last one first. -/
def loadPackages (dest : Register) (luiUsed : Bool) :
    List Package -> List Inst
  | [] => []
  | [package] => loadFirst dest luiUsed package
  | package :: parents =>
      loadPackages dest luiUsed parents ++ loadFurther dest package

/-- `load_immediate` -/
def loadImmediate (imm : BitVec 64) (dest : Register) : List Inst :=
  let state := makePackages imm 64 {}
  loadPackages dest state.luiUsed state.packages

/-- `load_address` -/
def loadAddress (ptr : BitVec 64) (dest : Register) : List Inst :=
  let package0 := (ptr &&& 0xff).setWidth 16
  let package1 := ((ptr &&& 0xfff00) >>> 8).setWidth 16
  let package2 := ((ptr &&& 0xfff00000) >>> 20).setWidth 16
  let package3 := ((ptr &&& 0xfff00000000) >>> 32).setWidth 16
  let package4 := ((ptr &&& 0xfffff00000000000) >>> 44).setWidth 32
  -- A negative package is made up for by the next one.
  let package2 := if package1 ≥ 0x800 then package2 + 1 else package2
  let package3 := if package2 ≥ 0x800 then package3 + 1 else package3
  let package4 := if package3 ≥ 0x800 then package4 + 1 else package4
  [lui dest package4,
    addi dest dest package3, slli dest dest 12,
    addi dest dest package2, slli dest dest 12,
    addi dest dest package1, slli dest dest 8,
    addi dest dest package0]

/-! ## Ends of blocks -/

/-- `append_eob` for the address of the next block. -/
def appendEob (ptr : BitVec 64) : List Inst :=
  loadAddress ptr addressDestination ++
    JumpTable.jumpTableEntry .rerouteStatic

/-- `append_eob` for a register that contains the address of the next
block. -/
def appendEobRegister (reg : Register) : List Inst :=
  (if reg ≠ addressDestination then [mv addressDestination reg] else []) ++
    JumpTable.jumpTableEntry .rerouteDynamic

end Helper
end Oxtra
