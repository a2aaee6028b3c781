import Mathlib.Data.BitVec

/-!
# The lazily evaluated flags and sets of them

A set of flags is a bit mask: `uint8_t` where an instruction stores it and
`size_t` where the translator computes with it.
-/

namespace Oxtra

/-- The x86 flags whose evaluation is delayed. -/
inductive Flag where
  | carry
  | zero
  | sign
  | overflow
  | parity
  deriving DecidableEq, Repr

namespace Flag

/-- Position of the flag in a mask. -/
def bit : Flag -> Nat
  | carry => 0
  | zero => 1
  | sign => 2
  | overflow => 3
  | parity => 4

theorem bit_lt (flag : Flag) : flag.bit < 8 := by
  cases flag <;> decide

theorem bit_injective : Function.Injective bit := by
  intro first second same
  cases first <;> cases second <;> first | rfl | exact absurd same (by decide)

/-- Two flags are distinguished by their positions. -/
@[simp] theorem bit_inj {first second : Flag} :
    first.bit = second.bit ↔ first = second :=
  bit_injective.eq_iff

/-- Every flag, in the order of the mask bits. -/
def list : List Flag := [carry, zero, sign, overflow, parity]

@[simp] theorem mem_list (flag : Flag) : flag ∈ list := by
  cases flag <;> decide

end Flag

/-- A flag belongs to a mask when its bit is set. -/
instance {width : Nat} : Membership Flag (BitVec width) where
  mem set flag := set.getLsbD flag.bit = true

instance {width : Nat} (flag : Flag) (set : BitVec width) :
    Decidable (flag ∈ set) :=
  inferInstanceAs (Decidable (set.getLsbD flag.bit = true))

namespace Flags

/-- Masks of the named flags. -/
def none : BitVec 8 := 0x00

@[inherit_doc none] def carry : BitVec 8 := 0x01

@[inherit_doc none] def zero : BitVec 8 := 0x02

@[inherit_doc none] def sign : BitVec 8 := 0x04

@[inherit_doc none] def overflow : BitVec 8 := 0x08

@[inherit_doc none] def parity : BitVec 8 := 0x10

@[inherit_doc none] def all : BitVec 8 :=
  carry ||| zero ||| sign ||| overflow ||| parity

theorem mem_def {width : Nat} {flag : Flag} {set : BitVec width} :
    flag ∈ set ↔ set.getLsbD flag.bit = true :=
  Iff.rfl

@[simp] theorem mem_zero {width : Nat} {flag : Flag} :
    flag ∉ (0 : BitVec width) := by
  simp [mem_def]

@[simp] theorem mem_or {width : Nat} {flag : Flag}
    {first second : BitVec width} :
    flag ∈ first ||| second ↔ flag ∈ first ∨ flag ∈ second := by
  simp [mem_def]

@[simp] theorem mem_and {width : Nat} {flag : Flag}
    {first second : BitVec width} :
    flag ∈ first &&& second ↔ flag ∈ first ∧ flag ∈ second := by
  simp [mem_def]

@[simp] theorem mem_xor {width : Nat} {flag : Flag}
    {first second : BitVec width} :
    flag ∈ first ^^^ second ↔ ¬(flag ∈ first ↔ flag ∈ second) := by
  simp only [mem_def, BitVec.getLsbD_xor]
  cases first.getLsbD flag.bit <;> cases second.getLsbD flag.bit <;> decide

@[simp] theorem mem_not {flag : Flag} {set : BitVec 64} :
    flag ∈ ~~~set ↔ flag ∉ set := by
  have bound := flag.bit_lt
  have inside : flag.bit < 64 := by omega
  simp [mem_def, inside]

/-- Widening a mask to `size_t` keeps its flags. -/
@[simp] theorem mem_setWidth_size {flag : Flag} {set : BitVec 8} :
    flag ∈ set.setWidth 64 ↔ flag ∈ set := by
  have bound := flag.bit_lt
  have inside : flag.bit < 64 := by omega
  simp [mem_def, inside]

/-- Truncating a mask to `uint8_t` keeps its flags. -/
@[simp] theorem mem_setWidth_byte {flag : Flag} {set : BitVec 64} :
    flag ∈ set.setWidth 8 ↔ flag ∈ set := by
  simp [mem_def, flag.bit_lt]

@[simp] theorem mem_all {flag : Flag} : flag ∈ all := by
  cases flag <;> decide

@[simp] theorem not_mem_none {flag : Flag} : flag ∉ none := by
  cases flag <;> decide

end Flags
end Oxtra
