import Oxtra.Elf
import Oxtra.Utils

/-!
# The stack of a new guest

`init_guest_context` puts the arguments of the guest, and the environment and
the auxiliary vector of the host, on the stack that it maps for the guest.
-/

namespace Oxtra
namespace Dispatcher

open Utils

/-! ## The vectors of the host -/

/-- An entry of the auxiliary vector. -/
structure AuxiliaryEntry where
  type : BitVec 64
  value : BitVec 64
  deriving DecidableEq, Repr

def atNull : BitVec 64 := 0
def atPhdr : BitVec 64 := 3
def atEntry : BitVec 64 := 9

def AuxiliaryEntry.words (entry : AuxiliaryEntry) : List (BitVec 64) :=
  [entry.type, entry.value]

/-- Pointers to the strings that the guest gets, and the auxiliary vector
without the entry at its end.  All of them are in the memory of the host. -/
structure HostVectors where
  guestPath : BitVec 64
  guestArguments : List (BitVec 64)
  environment : List (BitVec 64)
  auxiliary : List AuxiliaryEntry
  /-- The value of the `AT_NULL` entry. -/
  lastValue : BitVec 64
  environment_ne : ∀ pointer ∈ environment, pointer ≠ 0
  auxiliary_ne : ∀ entry ∈ auxiliary, entry.type ≠ atNull
  in_memory : 8 * guestArguments.length + 8 * (environment.length + 1) +
    16 * (auxiliary.length + 1) ≤ 2 ^ 63

/-- The words behind `_envp`. -/
def HostVectors.words (host : HostVectors) : List (BitVec 64) :=
  host.environment ++ 0 ::
    (host.auxiliary.flatMap AuxiliaryEntry.words ++ [atNull, host.lastValue])

/-- The loop that counts the environment pointers with the null pointer. -/
def countEnvironment : List (BitVec 64) -> Nat
  | [] => 0
  | pointer :: rest => if pointer ≠ 0 then countEnvironment rest + 1 else 1

/-- The loop that counts the entries of the auxiliary vector with the last
one. -/
def countAuxiliary : List (BitVec 64) -> Nat
  | type :: _ :: rest => if type ≠ atNull then countAuxiliary rest + 1 else 1
  | _ => 0

theorem countEnvironment_append
    {pointers : List (BitVec 64)}
    (nonzero : ∀ pointer ∈ pointers, pointer ≠ 0)
    (rest : List (BitVec 64)) :
    countEnvironment (pointers ++ 0 :: rest) = pointers.length + 1 := by
  induction pointers with
  | nil => rfl
  | cons pointer pointers inductionHypothesis =>
      rw [List.cons_append, countEnvironment,
        if_pos (nonzero pointer List.mem_cons_self),
        inductionHypothesis fun other member =>
          nonzero other (List.mem_cons_of_mem _ member)]
      rfl

theorem countAuxiliary_append
    {entries : List AuxiliaryEntry}
    (nonzero : ∀ entry ∈ entries, entry.type ≠ atNull)
    (last : BitVec 64) :
    countAuxiliary (entries.flatMap AuxiliaryEntry.words ++ [atNull, last]) =
      entries.length + 1 := by
  induction entries with
  | nil => rfl
  | cons entry entries inductionHypothesis =>
      simp only [List.flatMap_cons, AuxiliaryEntry.words, List.cons_append,
        List.nil_append, countAuxiliary]
      rw [if_pos (nonzero entry List.mem_cons_self),
        inductionHypothesis fun other member =>
          nonzero other (List.mem_cons_of_mem _ member)]
      rfl

/-! ## `init_guest_context` -/

/-- `env_count`, which includes the null pointer. -/
def envCount (host : HostVectors) : Nat := countEnvironment host.words

/-- The words behind `auxvs`. -/
def auxvs (host : HostVectors) : List (BitVec 64) :=
  host.words.drop (envCount host)

/-- `auxv_count`, which includes the null entry. -/
def auxvCount (host : HostVectors) : Nat := countAuxiliary (auxvs host)

/-- `auxv_size`: the last entry is 8 bytes. -/
def auxvSize (host : HostVectors) : BitVec 64 :=
  BitVec.ofNat 64 (auxvCount host) * 16 - 8

/-- `min_stack_size` -/
def minStackSize (host : HostVectors) : BitVec 64 :=
  pageAlign (auxvSize host + BitVec.ofNat 64 (envCount host) * 8 +
    (8 + BitVec.ofNat 64 host.guestArguments.length * 8) + 8)

/-- The loop over the auxiliary vector of the guest, which replaces the values
that are different for the guest. -/
def replaceAuxiliary (phdr entryPoint : BitVec 64) :
    List (BitVec 64) -> List (BitVec 64)
  | type :: value :: rest =>
      if type = atNull then
        type :: value :: rest
      else
        type ::
          (if type = atPhdr then phdr
            else if type = atEntry then entryPoint
            else value) ::
          replaceAuxiliary phdr entryPoint rest
  | rest => rest

/-- The memory of the stack, the stack pointer and the words behind it. -/
structure GuestStack where
  stackMemory : BitVec 64
  stackSize : BitVec 64
  rsp : BitVec 64
  words : List (BitVec 64)

/-- The part of `init_guest_context` that is about the stack, for the memory
that `mmap` returned. -/
def initGuestContext
    (argsStackSize stackMemory phdr entryPoint : BitVec 64)
    (host : HostVectors) : GuestStack :=
  let stackSize := pageAlign argsStackSize
  { stackMemory := stackMemory
    stackSize := stackSize
    rsp := stackMemory + stackSize - minStackSize host
    words :=
      BitVec.ofNat 64 (host.guestArguments.length + 1) :: host.guestPath ::
        (host.guestArguments ++ 0 ::
          (host.words.take (envCount host) ++
            replaceAuxiliary phdr entryPoint
              ((auxvs host).take ((auxvSize host).toNat / 8)))) }

/-! ## The stack that the guest should get -/

namespace GuestStack

/-- Where a word is written to. -/
def address (stack : GuestStack) (index : Nat) : BitVec 64 :=
  stack.rsp + BitVec.ofNat 64 (8 * index)

/-- An entry of the auxiliary vector as the guest sees it. -/
def forGuest (phdr entryPoint : BitVec 64) (entry : AuxiliaryEntry) :
    AuxiliaryEntry :=
  if entry.type = atPhdr then { entry with value := phdr }
  else if entry.type = atEntry then { entry with value := entryPoint }
  else entry

/-- The stack of a new process.  Every word is within the memory of the
stack. -/
structure Prescribed
    (stack : GuestStack)
    (phdr entryPoint : BitVec 64)
    (host : HostVectors) : Prop where
  inside : ∀ index < stack.words.length,
    stack.rsp.toNat ≤ (stack.address index).toNat ∧
      (stack.address index).toNat + 8 ≤
        stack.stackMemory.toNat + stack.stackSize.toNat
  layout : stack.words =
    [BitVec.ofNat 64 (host.guestArguments.length + 1)] ++
      (host.guestPath :: host.guestArguments ++ [0]) ++
      (host.environment ++ [0]) ++
      ((host.auxiliary.map (forGuest phdr entryPoint)).flatMap
        AuxiliaryEntry.words ++ [atNull])
  aligned : stack.rsp.toNat % 16 = 0

end GuestStack

/-- The bytes that are reserved, before they are rounded up. -/
def reservedBytes (host : HostVectors) : Nat :=
  8 * (2 * host.auxiliary.length + 1) + 8 * (host.environment.length + 1) +
    8 * (host.guestArguments.length + 2)

section Counts

variable (host : HostVectors)

theorem envCount_eq : envCount host = host.environment.length + 1 :=
  countEnvironment_append host.environment_ne _

theorem auxvs_eq :
    auxvs host =
      host.auxiliary.flatMap AuxiliaryEntry.words ++
        [atNull, host.lastValue] := by
  rw [auxvs, envCount_eq, HostVectors.words, List.append_cons,
    List.drop_left' (by simp)]

theorem auxvCount_eq : auxvCount host = host.auxiliary.length + 1 := by
  rw [auxvCount, auxvs_eq, countAuxiliary_append host.auxiliary_ne]

theorem auxvSize_toNat :
    (auxvSize host).toNat = 8 * (2 * host.auxiliary.length + 1) := by
  have inMemory := host.in_memory
  rw [auxvSize, auxvCount_eq]
  simp only [BitVec.toNat_sub, BitVec.toNat_mul, BitVec.toNat_ofNat,
    BitVec.ofNat_eq_ofNat]
  omega

theorem minStackSize_toNat :
    (minStackSize host).toNat =
      (reservedBytes host + 0xfff) / 4096 % 2 ^ 20 * 4096 := by
  have inMemory := host.in_memory
  have auxBytes := auxvSize_toNat host
  have sum : (auxvSize host + BitVec.ofNat 64 (envCount host) * 8 +
      (8 + BitVec.ofNat 64 host.guestArguments.length * 8) + 8).toNat =
        reservedBytes host := by
    simp only [envCount_eq, reservedBytes, BitVec.toNat_add, auxBytes,
      BitVec.toNat_mul, BitVec.toNat_ofNat, BitVec.ofNat_eq_ofNat]
    omega
  have small : reservedBytes host + 0xfff < 2 ^ 64 := by
    rw [reservedBytes]
    omega
  rw [minStackSize, pageAlign_toNat, sum, Nat.mod_eq_of_lt small]

end Counts

/-! ## The words on the stack -/

theorem length_flatMap_words (entries : List AuxiliaryEntry) :
    (entries.flatMap AuxiliaryEntry.words).length = 2 * entries.length := by
  induction entries with
  | nil => rfl
  | cons entry entries inductionHypothesis =>
      rw [List.flatMap_cons, List.length_append, inductionHypothesis,
        List.length_cons]
      simp only [AuxiliaryEntry.words, List.length_cons, List.length_nil]
      omega

theorem replaceAuxiliary_append
    (phdr entryPoint : BitVec 64)
    {entries : List AuxiliaryEntry}
    (nonzero : ∀ entry ∈ entries, entry.type ≠ atNull) :
    replaceAuxiliary phdr entryPoint
        (entries.flatMap AuxiliaryEntry.words ++ [atNull]) =
      (entries.map (GuestStack.forGuest phdr entryPoint)).flatMap
        AuxiliaryEntry.words ++ [atNull] := by
  induction entries with
  | nil => rfl
  | cons entry entries inductionHypothesis =>
      have words : (GuestStack.forGuest phdr entryPoint entry).words =
          [entry.type, if entry.type = atPhdr then phdr
            else if entry.type = atEntry then entryPoint
            else entry.value] := by
        unfold GuestStack.forGuest
        split
        · rfl
        · split <;> rfl
      simp only [List.flatMap_cons, List.map_cons, words, List.append_assoc]
      simp only [AuxiliaryEntry.words, List.cons_append, List.nil_append,
        replaceAuxiliary]
      rw [if_neg (nonzero entry List.mem_cons_self)]
      have rest := inductionHypothesis fun other member =>
        nonzero other (List.mem_cons_of_mem _ member)
      rw [rest]

section Stack

variable (argsStackSize stackMemory phdr entryPoint : BitVec 64)
variable (host : HostVectors)

/-- The words are laid out as they should be. -/
theorem initGuestContext_words :
    (initGuestContext argsStackSize stackMemory phdr entryPoint host).words =
      [BitVec.ofNat 64 (host.guestArguments.length + 1)] ++
        (host.guestPath :: host.guestArguments ++ [0]) ++
        (host.environment ++ [0]) ++
        ((host.auxiliary.map (GuestStack.forGuest phdr entryPoint)).flatMap
          AuxiliaryEntry.words ++ [atNull]) := by
  have pointers : host.words.take (envCount host) = host.environment ++ [0] := by
    rw [envCount_eq, HostVectors.words, List.append_cons,
      List.take_left' (by simp)]
  have entries : (auxvs host).take ((auxvSize host).toNat / 8) =
      host.auxiliary.flatMap AuxiliaryEntry.words ++ [atNull] := by
    rw [auxvSize_toNat, Nat.mul_div_cancel_left _ (by decide), auxvs_eq,
      List.append_cons, List.take_left' (by
        rw [List.length_append, length_flatMap_words]
        rfl)]
  rw [← replaceAuxiliary_append phdr entryPoint host.auxiliary_ne]
  simp only [initGuestContext, pointers, entries, List.append_assoc,
    List.cons_append, List.nil_append]

/-- There is one word more than bytes are reserved for. -/
theorem initGuestContext_length :
    8 * (initGuestContext argsStackSize stackMemory phdr entryPoint
      host).words.length = reservedBytes host + 8 := by
  rw [initGuestContext_words, reservedBytes]
  simp only [List.length_append, length_flatMap_words, List.length_map,
    List.length_cons, List.length_nil]
  omega

/-- The stack of a guest is the one of a new process if and only if the bytes
that are reserved are rounded up to more. -/
theorem initGuestContext_prescribed_iff
    (memoryAligned : stackMemory.toNat % pageSize = 0)
    (memoryEnds : stackMemory.toNat + (pageAlign argsStackSize).toNat < 2 ^ 64)
    (enough : minStackSize host ≤ pageAlign argsStackSize) :
    (initGuestContext argsStackSize stackMemory phdr entryPoint
        host).Prescribed phdr entryPoint host ↔
      reservedBytes host % pageSize ≠ 0 ∧ reservedBytes host ≤ 0xfffff000 := by
  let stack := initGuestContext argsStackSize stackMemory phdr entryPoint host
  let size := (pageAlign argsStackSize).toNat
  have minimum := minStackSize_toNat host
  have sizeAligned := pageAlign_aligned argsStackSize
  have enoughNat : (minStackSize host).toNat ≤ size := enough
  have rsp : stack.rsp.toNat =
      stackMemory.toNat + size - (minStackSize host).toNat := by
    have sum : (stackMemory + pageAlign argsStackSize).toNat =
        stackMemory.toNat + size := by
      rw [BitVec.toNat_add]
      exact Nat.mod_eq_of_lt memoryEnds
    change (stackMemory + pageAlign argsStackSize - minStackSize host).toNat = _
    rw [BitVec.toNat_sub_of_le, sum]
    rw [BitVec.le_def, sum]
    omega
  have length : 8 * stack.words.length = reservedBytes host + 8 :=
    initGuestContext_length ..
  have multiple : reservedBytes host % 8 = 0 := by
    rw [reservedBytes]
    omega
  have address : ∀ index, (stack.address index).toNat =
      (stack.rsp.toNat + 8 * index) % 2 ^ 64 := by
    intro index
    rw [GuestStack.address, BitVec.toNat_add, BitVec.toNat_ofNat]
    omega
  simp only [pageSize] at *
  constructor
  · intro prescribed
    by_contra short
    -- The first word behind the reserved bytes is behind the stack.
    have outside := (prescribed.inside ((minStackSize host).toNat / 8) (by
      change _ < stack.words.length
      omega)).2
    change (stack.address _).toNat + 8 ≤ stackMemory.toNat + size at outside
    rw [address, rsp] at outside
    omega
  · rintro ⟨partialPage, small⟩
    refine ⟨?_, initGuestContext_words .., ?_⟩
    · intro index inside
      change index < stack.words.length at inside
      change stack.rsp.toNat ≤ (stack.address index).toNat ∧
        (stack.address index).toNat + 8 ≤ stackMemory.toNat + size
      rw [address, rsp]
      omega
    · change stack.rsp.toNat % 16 = 0
      rw [rsp]
      omega

end Stack

/-- A host without arguments and with a number of environment pointers. -/
def hostWithPointers (count : Nat) (few : count ≤ 1000) : HostVectors where
  guestPath := 1
  guestArguments := []
  environment := List.replicate count 1
  auxiliary := []
  lastValue := 0
  environment_ne := by
    intro pointer member
    rw [List.eq_of_mem_replicate member]
    decide
  auxiliary_ne := by simp
  in_memory := by
    simp only [List.length_replicate, List.length_nil]
    omega

theorem initGuestContext_prescribed_iff_few :
    (initGuestContext 0x200000 0x10000 0 0
        (hostWithPointers 2 (by decide))).Prescribed 0 0
          (hostWithPointers 2 (by decide)) ↔
      reservedBytes (hostWithPointers 2 (by decide)) % pageSize ≠ 0 ∧
        reservedBytes (hostWithPointers 2 (by decide)) ≤ 0xfffff000 :=
  initGuestContext_prescribed_iff 0x200000 0x10000 0 0
    (hostWithPointers 2 (by decide)) (by decide) (by decide +kernel)
    (by decide +kernel)

/-- The reserved bytes are a page, and one word is behind it. -/
theorem initGuestContext_overruns :
    let host := hostWithPointers 508 (by decide)
    minStackSize host ≤ pageAlign 0x200000 ∧
      ¬ (initGuestContext 0x200000 0x10000 0 0 host).Prescribed 0 0 host := by
  intro host
  refine ⟨by decide +kernel, fun prescribed => ?_⟩
  have outside := (prescribed.inside 512 (by decide +kernel)).2
  exact absurd outside (by decide +kernel)

end Dispatcher
end Oxtra
