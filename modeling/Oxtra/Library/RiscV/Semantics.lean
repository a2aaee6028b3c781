import Oxtra.Library.RiscV.Instruction

/-!
# What instructions do

Registers hold 64-bit words and the memory holds bytes.  `Inst.apply` is the
effect of the instructions that neither branch nor trap; branches and jumps
belong to the code they are part of.
-/

namespace Oxtra
namespace RiscV

abbrev Word := BitVec 64

abbrev Memory := Word -> BitVec 8

/-! ## Memory -/

namespace Memory

/-- The little-endian number of some bytes. -/
def loadNat (mem : Memory) (address : Word) : Nat -> Nat
  | 0 => 0
  | bytes + 1 =>
      (mem address).toNat + 256 * loadNat mem (address + 1) bytes

/-- The unsigned word loaded from some bytes. -/
def load (mem : Memory) (address : Word) (bytes : Nat) : Word :=
  BitVec.ofNat 64 (loadNat mem address bytes)

/-- The memory after the low bytes of a word are stored. -/
def store (mem : Memory) (address : Word) (bytes : Nat) (value : Word) :
    Memory :=
  fun pointer =>
    let index := (pointer - address).toNat
    if index < bytes then
      (value >>> (8 * index)).setWidth 8
    else
      mem pointer

theorem loadNat_lt (mem : Memory) (address : Word) (bytes : Nat) :
    loadNat mem address bytes < 256 ^ bytes := by
  induction bytes generalizing address with
  | zero => simp [loadNat]
  | succ bytes inductionHypothesis =>
      have byteLt := (mem address).isLt
      have restLt := inductionHypothesis (address + 1)
      rw [loadNat, Nat.pow_succ]
      omega

/-- The low bytes of a longer number. -/
theorem loadNat_mod
    (mem : Memory)
    (address : Word)
    {short long : Nat}
    (le : short ≤ long) :
    loadNat mem address long % 256 ^ short = loadNat mem address short := by
  induction short generalizing address long with
  | zero => simp [loadNat, Nat.mod_one]
  | succ short inductionHypothesis =>
      obtain ⟨long, rfl⟩ : ∃ rest, long = rest + 1 := ⟨long - 1, by omega⟩
      have rest := inductionHypothesis (address + 1) (by omega : short ≤ long)
      have byteLt : (mem address).toNat < 256 := (mem address).isLt
      rw [loadNat, loadNat, ← rest, Nat.pow_succ, Nat.mul_comm (256 ^ short),
        Nat.mod_mul, Nat.add_mul_mod_self_left, Nat.mod_eq_of_lt byteLt,
        Nat.add_mul_div_left _ _ (by decide), Nat.div_eq_of_lt byteLt,
        Nat.zero_add]

theorem load_toNat
    (mem : Memory)
    (address : Word)
    {bytes : Nat}
    (le : bytes ≤ 8) :
    (load mem address bytes).toNat = loadNat mem address bytes := by
  have bound := loadNat_lt mem address bytes
  have fits : 256 ^ bytes ≤ 256 ^ 8 := Nat.pow_le_pow_right (by decide) le
  rw [load, BitVec.toNat_ofNat, Nat.mod_eq_of_lt]
  omega

/-- A short load has the low bytes of the double word at the same address. -/
theorem load_toNat_eq_mod
    (mem : Memory)
    (address : Word)
    {bytes : Nat}
    (le : bytes ≤ 8) :
    (load mem address bytes).toNat =
      (load mem address 8).toNat % 256 ^ bytes := by
  rw [load_toNat mem address le, load_toNat mem address le_rfl,
    loadNat_mod mem address le]

/-- Loads look at the bytes they are about only. -/
theorem loadNat_congr
    {first second : Memory}
    {address : Word}
    {bytes : Nat}
    (same : ∀ index < bytes,
      first (address + BitVec.ofNat 64 index) =
        second (address + BitVec.ofNat 64 index)) :
    loadNat first address bytes = loadNat second address bytes := by
  induction bytes generalizing address with
  | zero => rfl
  | succ bytes inductionHypothesis =>
      have here := same 0 (by omega)
      simp only [BitVec.add_zero] at here
      rw [loadNat, loadNat, here, inductionHypothesis]
      intro index inside
      have there := same (index + 1) (by omega)
      have shifted : address + BitVec.ofNat 64 (index + 1) =
          address + 1 + BitVec.ofNat 64 index := by
        rw [BitVec.add_assoc, Nat.add_comm, BitVec.ofNat_add]
        rfl
      rwa [shifted] at there

theorem load_congr
    {first second : Memory}
    {address : Word}
    {bytes : Nat}
    (same : ∀ index < bytes,
      first (address + BitVec.ofNat 64 index) =
        second (address + BitVec.ofNat 64 index)) :
    load first address bytes = load second address bytes := by
  rw [load, load, loadNat_congr same]

/-- Every byte of a load counts. -/
theorem loadNat_eq_iff
    {first second : Memory}
    {address : Word}
    {bytes : Nat} :
    loadNat first address bytes = loadNat second address bytes ↔
      ∀ index < bytes,
        first (address + BitVec.ofNat 64 index) =
          second (address + BitVec.ofNat 64 index) := by
  refine ⟨fun same => ?_, loadNat_congr⟩
  induction bytes generalizing address with
  | zero => simp
  | succ bytes inductionHypothesis =>
      have firstLt : (first address).toNat < 256 := (first address).isLt
      have secondLt : (second address).toNat < 256 := (second address).isLt
      rw [loadNat, loadNat] at same
      have here : first address = second address :=
        BitVec.eq_of_toNat_eq (by omega)
      have rest := @inductionHypothesis (address + 1) (by omega)
      intro index inside
      cases index with
      | zero => simpa using here
      | succ index =>
          have shifted : address + BitVec.ofNat 64 (index + 1) =
              address + 1 + BitVec.ofNat 64 index := by
            rw [BitVec.add_assoc, Nat.add_comm, BitVec.ofNat_add]
            rfl
          rw [shifted]
          exact rest index (by omega)

theorem load_eq_iff
    {first second : Memory}
    {address : Word}
    {bytes : Nat}
    (short : bytes ≤ 8) :
    load first address bytes = load second address bytes ↔
      ∀ index < bytes,
        first (address + BitVec.ofNat 64 index) =
          second (address + BitVec.ofNat 64 index) := by
  rw [← loadNat_eq_iff, ← load_toNat _ _ short, ← load_toNat _ _ short,
    BitVec.toNat_inj]

/-- Memories are the same if all words of a size are, from some address on. -/
theorem eq_of_load
    {first second : Memory}
    (address : Word)
    {bytes : Nat}
    (positive : 0 < bytes)
    (short : bytes ≤ 8)
    (same : ∀ index, index * bytes < 2 ^ 64 ->
      load first (address + BitVec.ofNat 64 (index * bytes)) bytes =
        load second (address + BitVec.ofNat 64 (index * bytes)) bytes) :
    first = second := by
  funext pointer
  let offset := (pointer - address).toNat
  have split : offset / bytes * bytes + offset % bytes = offset :=
    Nat.div_add_mod' offset bytes
  have bound : offset < 2 ^ 64 := (pointer - address).isLt
  have place : address + BitVec.ofNat 64 (offset / bytes * bytes) +
      BitVec.ofNat 64 (offset % bytes) = pointer := by
    rw [BitVec.add_assoc, ← BitVec.ofNat_add, split, BitVec.ofNat_toNat,
      BitVec.setWidth_eq, BitVec.add_comm, BitVec.sub_add_cancel]
  have byte := (load_eq_iff short).mp (same (offset / bytes) (by omega))
    (offset % bytes) (Nat.mod_lt offset positive)
  rwa [place] at byte

theorem loadNat_zero (address : Word) (bytes : Nat) :
    loadNat (fun _ => 0) address bytes = 0 := by
  induction bytes generalizing address with
  | zero => rfl
  | succ bytes inductionHypothesis =>
      rw [loadNat, inductionHypothesis]
      rfl

/-- A load of zeros. -/
theorem load_zero (address : Word) (bytes : Nat) :
    load (fun _ => 0) address bytes = 0 := by
  rw [load, loadNat_zero]
  rfl

/-! ### Loads after stores -/

/-- A store changes the bytes it is about only. -/
theorem store_of_outside
    (mem : Memory)
    (value : Word)
    {address pointer : Word}
    {bytes : Nat}
    (outside : bytes ≤ (pointer - address).toNat) :
    mem.store address bytes value pointer = mem pointer :=
  if_neg (Nat.not_lt.mpr outside)

theorem store_of_inside
    (mem : Memory)
    (value : Word)
    {address : Word}
    {bytes index : Nat}
    (inside : index < bytes)
    (bound : bytes ≤ 2 ^ 64) :
    mem.store address bytes value (address + BitVec.ofNat 64 index) =
      (value >>> (8 * index)).setWidth 8 := by
  have offset : (address + BitVec.ofNat 64 index - address).toNat = index := by
    rw [BitVec.add_comm, BitVec.add_sub_cancel, BitVec.toNat_ofNat,
      Nat.mod_eq_of_lt (by omega)]
  rw [store]
  simp only [offset, if_pos inside]

/-- The bytes of a stored word from some byte on. -/
theorem loadNat_store
    (mem : Memory)
    (address value : Word)
    {bytes : Nat}
    (bound : bytes ≤ 2 ^ 64)
    {start count : Nat}
    (inside : start + count ≤ bytes) :
    loadNat (mem.store address bytes value)
        (address + BitVec.ofNat 64 start) count =
      value.toNat / 256 ^ start % 256 ^ count := by
  induction count generalizing start with
  | zero => simp [loadNat, Nat.mod_one]
  | succ count inductionHypothesis =>
      have next : address + BitVec.ofNat 64 start + 1 =
          address + BitVec.ofNat 64 (start + 1) := by
        rw [BitVec.add_assoc, BitVec.ofNat_add]
        rfl
      have power : 2 ^ (8 * start) = 256 ^ start := by
        rw [Nat.pow_mul]
      rw [loadNat, next, inductionHypothesis (by omega),
        store_of_inside mem value (by omega) bound, BitVec.toNat_setWidth,
        BitVec.toNat_ushiftRight, Nat.shiftRight_eq_div_pow, power,
        Nat.pow_succ 256 start, ← Nat.div_div_eq_div_mul,
        Nat.pow_succ 256 count, Nat.mul_comm (256 ^ count), Nat.mod_mul]

theorem load_store_self
    (mem : Memory)
    (address value : Word)
    {bytes : Nat}
    (bound : bytes ≤ 8) :
    ((mem.store address bytes value).load address bytes).toNat =
      value.toNat % 256 ^ bytes := by
  have stored := @loadNat_store mem address value bytes (by omega) 0 bytes
    (by omega)
  rw [load_toNat _ _ bound]
  simpa using stored

/-- The low bytes of a word are stored. -/
theorem store_congr
    (mem : Memory)
    (address : Word)
    {bytes : Nat}
    {value other : Word}
    (same : value.setWidth (8 * bytes) = other.setWidth (8 * bytes)) :
    mem.store address bytes value = mem.store address bytes other := by
  funext pointer
  simp only [store]
  split
  · rename_i inside
    apply BitVec.eq_of_getLsbD_eq
    intro bit below
    have within : 8 * (pointer - address).toNat + bit < 8 * bytes := by omega
    have low := congrArg
      (fun stored => stored.getLsbD (8 * (pointer - address).toNat + bit)) same
    simp only [BitVec.getLsbD_setWidth, within, decide_true, Bool.true_and]
      at low
    simp only [BitVec.getLsbD_setWidth, BitVec.getLsbD_ushiftRight, low]
  · rfl

/-- A double word that was stored. -/
@[simp] theorem load_store_double (mem : Memory) (address value : Word) :
    (mem.store address 8 value).load address 8 = value := by
  apply BitVec.eq_of_toNat_eq
  rw [load_store_self _ _ _ (by decide)]
  exact Nat.mod_eq_of_lt value.isLt

/-- A load behind a store, or in front of it. -/
theorem load_store_of_apart
    (mem : Memory)
    (value : Word)
    {address pointer : Word}
    {stored loaded : Nat}
    (behind : stored ≤ (pointer - address).toNat)
    (inFront : (pointer - address).toNat + loaded ≤ 2 ^ 64) :
    (mem.store address stored value).load pointer loaded =
      mem.load pointer loaded := by
  apply load_congr
  intro index inside
  apply store_of_outside
  have offset : pointer + BitVec.ofNat 64 index - address =
      pointer - address + BitVec.ofNat 64 index := by
    rw [BitVec.sub_eq_add_neg, BitVec.sub_eq_add_neg, BitVec.add_assoc,
      BitVec.add_assoc, BitVec.add_comm (BitVec.ofNat 64 index)]
  rw [offset, BitVec.toNat_add, BitVec.toNat_ofNat]
  omega

end Memory

/-! ## State -/

/-- Registers and memory.  The contents of `regs` at the register `zero` mean
nothing: the register reads as zero. -/
structure State where
  regs : Register -> Word
  mem : Memory

namespace State

/-- The value of a register. -/
def get (state : State) (register : Register) : Word :=
  if register = .zero then 0 else state.regs register

/-- The state with a new value of a register. -/
def set (state : State) (register : Register) (value : Word) : State :=
  { state with
    regs := fun other => if other = register then value else state.regs other }

/-- The state after a store. -/
def store (state : State) (address : Word) (bytes : Nat) (value : Word) :
    State :=
  { state with mem := state.mem.store address bytes value }

@[simp] theorem get_zero (state : State) : state.get .zero = 0 := rfl

@[simp] theorem set_mem (state : State) (register : Register) (value : Word) :
    (state.set register value).mem = state.mem := rfl

@[simp] theorem store_mem
    (state : State)
    (address : Word)
    (bytes : Nat)
    (value : Word) :
    (state.store address bytes value).mem =
      state.mem.store address bytes value := rfl

@[simp] theorem store_get
    (state : State)
    (address : Word)
    (bytes : Nat)
    (value : Word)
    (register : Register) :
    (state.store address bytes value).get register = state.get register := rfl

theorem set_get
    (state : State)
    (written : Register)
    (value : Word)
    (register : Register) :
    (state.set written value).get register =
      if register = .zero then 0
      else if register = written then value
      else state.get register := by
  unfold get set
  split <;> rfl

@[simp] theorem set_get_self
    (state : State)
    (value : Word)
    {register : Register}
    (nonzero : register ≠ .zero) :
    (state.set register value).get register = value := by
  simp [set_get, nonzero]

@[simp] theorem set_get_of_ne
    (state : State)
    (value : Word)
    {written register : Register}
    (different : register ≠ written) :
    (state.set written value).get register = state.get register := by
  unfold get set
  simp [different]

/-- A new value of a register keeps what two states agree on. -/
theorem set_get_congr
    {first second : State}
    {register : Register}
    (same : first.get register = second.get register)
    (written : Register)
    (value : Word) :
    (first.set written value).get register =
      (second.set written value).get register := by
  rw [set_get, set_get, same]

@[simp] theorem set_set
    (state : State)
    (register : Register)
    (first second : Word) :
    (state.set register first).set register second =
      state.set register second := by
  unfold set
  congr 1
  funext other
  by_cases written : other = register
  · rw [if_pos written, if_pos written]
  · rw [if_neg written, if_neg written]
    exact if_neg written

@[simp] theorem set_zero_get
    (state : State)
    (value : Word)
    (register : Register) :
    (state.set .zero value).get register = state.get register := by
  by_cases zero : register = .zero
  · rw [zero, get_zero, get_zero]
  · exact set_get_of_ne state value zero

end State

/-! ## Operations -/

/-- One for true and zero for false. -/
def bit (condition : Bool) : Word := if condition then 1 else 0

/-- A result of an operation on low words. -/
def sext (value : BitVec 32) : Word := value.signExtend 64

/-- Amount of a shift by a register. -/
def shiftAmount (value : Word) : Nat := value.toNat % 64

def Op.eval : Op -> Word -> Word -> Word
  | add, a, b => a + b
  | sub, a, b => a - b
  | sll, a, b => a <<< shiftAmount b
  | slt, a, b => bit (a.slt b)
  | sltu, a, b => bit (a.ult b)
  | xor, a, b => a ^^^ b
  | srl, a, b => a >>> shiftAmount b
  | sra, a, b => a.sshiftRight (shiftAmount b)
  | or, a, b => a ||| b
  | and, a, b => a &&& b
  | mul, a, b => a * b
  | mulh, a, b =>
      (a.signExtend 128 * b.signExtend 128).extractLsb' 64 64
  | mulhsu, a, b =>
      (a.signExtend 128 * b.setWidth 128).extractLsb' 64 64
  | mulhu, a, b =>
      (a.setWidth 128 * b.setWidth 128).extractLsb' 64 64
  | div, a, b => if b = 0 then -1 else a.sdiv b
  | divu, a, b => if b = 0 then -1 else a / b
  | rem, a, b => if b = 0 then a else a.srem b
  | remu, a, b => if b = 0 then a else a % b

def OpW.eval : OpW -> Word -> Word -> Word
  | addw, a, b => sext (a.setWidth 32 + b.setWidth 32)
  | subw, a, b => sext (a.setWidth 32 - b.setWidth 32)
  | sllw, a, b => sext (a.setWidth 32 <<< (b.toNat % 32))
  | srlw, a, b => sext (a.setWidth 32 >>> (b.toNat % 32))
  | sraw, a, b => sext ((a.setWidth 32).sshiftRight (b.toNat % 32))

def OpImm.eval : OpImm -> Word -> Word -> Word
  | addi, a, b => a + b
  | slti, a, b => bit (a.slt b)
  | sltiu, a, b => bit (a.ult b)
  | xori, a, b => a ^^^ b
  | ori, a, b => a ||| b
  | andi, a, b => a &&& b

def Shift.eval {width : Nat} : Shift -> BitVec width -> Nat -> BitVec width
  | slli, a, amount => a <<< amount
  | srli, a, amount => a >>> amount
  | srai, a, amount => a.sshiftRight amount

/-- The word that a load puts into its register. -/
def Load.eval (op : Load) (mem : Memory) (address : Word) : Word :=
  let value := mem.load address op.width.bytes
  match op with
  | lb => (value.setWidth 8).signExtend 64
  | lh => (value.setWidth 16).signExtend 64
  | lw => (value.setWidth 32).signExtend 64
  | ld | lbu | lhu | lwu => value

def Branch.eval : Branch -> Word -> Word -> Bool
  | beq, a, b => a == b
  | bne, a, b => a != b
  | blt, a, b => a.slt b
  | bge, a, b => !a.slt b
  | bltu, a, b => a.ult b
  | bgeu, a, b => !a.ult b

/-- Address of a load or a store. -/
def effectiveAddress (state : State) (base : Register) (imm : BitVec 12) :
    Word :=
  state.get base + imm.signExtend 64

namespace Inst

/-- The instruction only computes, loads or stores. -/
def isStraight : Inst -> Bool
  | jal .. | jalr .. | branch .. | ecall => false
  | _ => true

/-- The effect of an instruction at an address, if it only computes, loads or
stores. -/
def apply (pc : Word) (state : State) : Inst -> State
  | lui rd imm => state.set rd ((imm ++ 0#12).signExtend 64)
  | auipc rd imm => state.set rd (pc + (imm ++ 0#12).signExtend 64)
  | load kind rd rs1 imm =>
      state.set rd (kind.eval state.mem (effectiveAddress state rs1 imm))
  | store kind rs1 rs2 imm =>
      state.store (effectiveAddress state rs1 imm) kind.width.bytes
        (state.get rs2)
  | opImm kind rd rs1 imm =>
      state.set rd (kind.eval (state.get rs1) (imm.signExtend 64))
  | shift kind rd rs1 shamt =>
      state.set rd (kind.eval (state.get rs1) shamt.toNat)
  | op kind rd rs1 rs2 =>
      state.set rd (kind.eval (state.get rs1) (state.get rs2))
  | opW kind rd rs1 rs2 =>
      state.set rd (kind.eval (state.get rs1) (state.get rs2))
  | shiftW kind rd rs1 shamt =>
      state.set rd (sext (kind.eval ((state.get rs1).setWidth 32) shamt.toNat))
  | jal .. | jalr .. | branch .. | ecall => state

/-- The registers whose contents an instruction depends on. -/
def sources : Inst -> List Register
  | lui .. | auipc .. | jal .. | ecall => []
  | jalr _ rs1 _ | load _ _ rs1 _ | opImm _ _ rs1 _ | shift _ _ rs1 _
  | shiftW _ _ rs1 _ => [rs1]
  | branch _ rs1 rs2 _ | store _ rs1 rs2 _ | op _ _ rs1 rs2
  | opW _ _ rs1 rs2 => [rs1, rs2]

/-- The register that an instruction writes. -/
def target : Inst -> Option Register
  | lui rd _ | auipc rd _ | jal rd _ | jalr rd _ _ | load _ rd _ _
  | opImm _ rd _ _ | shift _ rd _ _ | op _ rd _ _ | opW _ rd _ _
  | shiftW _ rd _ _ => some rd
  | branch .. | store .. | ecall => none

end Inst

/-- The state after some instructions that only compute, load or store. -/
def applyAll (pc : Word) (state : State) : List Inst -> State
  | [] => state
  | inst :: rest => applyAll (pc + 4) (inst.apply pc state) rest

@[simp] theorem applyAll_nil (pc : Word) (state : State) :
    applyAll pc state [] = state := rfl

@[simp] theorem applyAll_cons
    (pc : Word)
    (state : State)
    (inst : Inst)
    (rest : List Inst) :
    applyAll pc state (inst :: rest) =
      applyAll (pc + 4) (inst.apply pc state) rest := rfl

theorem applyAll_append
    (pc : Word)
    (state : State)
    (first second : List Inst) :
    applyAll pc state (first ++ second) =
      applyAll (pc + BitVec.ofNat 64 (4 * first.length))
        (applyAll pc state first) second := by
  induction first generalizing pc state with
  | nil => simp
  | cons inst rest inductionHypothesis =>
      rw [List.cons_append, applyAll_cons, inductionHypothesis, applyAll_cons,
        List.length_cons, Nat.mul_succ, Nat.add_comm, BitVec.ofNat_add,
        ← BitVec.add_assoc]
      rfl

theorem Inst.apply_get_of_not_target
    (pc : Word)
    (state : State)
    {inst : Inst}
    {register : Register}
    (kept : inst.target ≠ some register) :
    (inst.apply pc state).get register = state.get register := by
  cases inst <;> simp only [apply]
  case store => rfl
  all_goals
    apply State.set_get_of_ne
    rintro rfl
    exact kept rfl

theorem Inst.apply_mem_of_target
    (pc : Word)
    (state : State)
    {inst : Inst}
    (computes : inst.target.isSome = true) :
    (inst.apply pc state).mem = state.mem := by
  cases inst <;> first | rfl | cases computes

theorem applyAll_get_of_not_target
    (pc : Word)
    (state : State)
    {code : List Inst}
    {register : Register}
    (kept : ∀ inst ∈ code, inst.target ≠ some register) :
    (applyAll pc state code).get register = state.get register := by
  induction code generalizing pc state with
  | nil => rfl
  | cons inst rest inductionHypothesis =>
      rw [applyAll_cons, inductionHypothesis _ _ fun inst member =>
          kept inst (List.mem_cons_of_mem _ member),
        Inst.apply_get_of_not_target pc state (kept inst (by simp))]

theorem applyAll_mem_of_target
    (pc : Word)
    (state : State)
    {code : List Inst}
    (computes : ∀ inst ∈ code, inst.target.isSome = true) :
    (applyAll pc state code).mem = state.mem := by
  induction code generalizing pc state with
  | nil => rfl
  | cons inst rest inductionHypothesis =>
      rw [applyAll_cons, inductionHypothesis _ _ fun inst member =>
          computes inst (List.mem_cons_of_mem _ member),
        Inst.apply_mem_of_target pc state (computes inst (by simp))]

end RiscV
end Oxtra
