import Oxtra.Dispatcher.Transparency

/-!
# Caching in the call table

A return that finds its entry of the call table without a code address goes
through `reroute_return`, which is to leave the code address in the entry.
-/

namespace Oxtra
namespace CallTable

open RiscV
open Dispatcher
open Helper

/-- A return in front of `reroute_return`: the entry at an offset of the call
table has a guest address and no code address.  The buffer is sound, and a
translation of the address leaves the call table, with this entry, at `moved`. -/
structure Situation
    (runtime : Runtime)
    (kept translated : Word → Prop)
    (code : Word → Word)
    (state : State)
    (offset address moved : Word) : Prop where
  follows : runtime.Follows kept translated
  keepsContext : ∀ pointer,
    Within (state.get contextAddress) ExecutionContext.size pointer →
      kept pointer
  translatesContext : ∀ pointer,
    KeptContext (state.get contextAddress) pointer → translated pointer
  keepsEntry : ∀ pointer, Within (state.get .t1) 8 pointer → kept pointer
  table : state.get callTableAddress =
    guestCallTable (state.get contextAddress) state.mem
  entry : state.get .t1 = state.get callTableAddress + offset
  guest : state.mem.load (state.get .t1) 8 = address
  uncached : state.mem.load (state.get .t1 + 8) 8 = 0
  tlb : state.mem.load (tlbEntry state address) 8 = address →
    state.mem.load (tlbEntry state address + 8) 8 = code address
  codeNonzero : code address ≠ 0
  codeEven : (code address).toNat % 2 = 0
  translate : ∀ {called returned}, Saved state called →
    called.get .a1 = address →
      guestCallTable (state.get contextAddress) called.mem =
          state.get callTableAddress →
        (∀ pointer, kept pointer →
          ¬ Within (state.get contextAddress) contextSize pointer →
            called.mem pointer = state.mem pointer) →
          runtime.translate called = some returned →
            returned.get .a0 = code address ∧
              guestCallTable (state.get contextAddress) returned.mem = moved ∧
                returned.mem.load (moved + offset + 8) 8 = 0
  aligned : (state.get callTableAddress).toNat % 16 = 0 ∧
    moved.toNat % 16 = 0 ∧ offset.toNat % 16 = 0
  tlbContext : Apart (tlbEntry state address) 16 (state.get contextAddress)
    ExecutionContext.size
  entryContext : Apart (state.get .t1) 16 (state.get contextAddress)
    ExecutionContext.size
  entryTlb : Apart (state.get .t1) 16 (tlbEntry state address) 16
  movedContext : Apart (moved + offset) 16 (state.get contextAddress)
    ExecutionContext.size
  movedTlb : Apart (moved + offset) 16 (tlbEntry state address) 16

/-- Control goes to the code of the address, the current call table has the
code address in the entry, and no other memory has changed apart from the
context, the entry of the buffer and what the functions change. -/
structure Cached
    (kept translated : Word → Prop)
    (code : Word → Word)
    (state : State)
    (offset address : Word)
    (result : Rerouted) : Prop where
  target : result.target = code address
  cached : result.state.mem.load
    (guestCallTable (state.get contextAddress) result.state.mem + offset + 8)
      8 = code address
  frame : ∀ pointer, kept pointer → translated pointer →
    ¬ Within (state.get contextAddress) contextSize pointer →
      ¬ Within (tlbEntry state address) 16 pointer →
        ¬ Within (guestCallTable (state.get contextAddress) result.state.mem +
            offset + 8) 8 pointer →
          result.state.mem pointer = state.mem pointer

section

variable
  {runtime : Runtime}
  {kept translated : Word → Prop}
  {code : Word → Word}
  {state : State}
  {offset address moved : Word}
  {result : Rerouted}

theorem Situation.target
    (situation : Situation runtime kept translated code state offset address
      moved)
    {same : Word → Prop}
    (resumed : Resumed state same result)
    (riscv : result.riscv = code address) :
    result.target = code address := by
  rw [resumed.target, riscv, clear_lowest_bit situation.codeEven]

/-- Without a call of the translation the entry stays as it is. -/
theorem Situation.hit_not_cached
    (situation : Situation runtime kept translated code state offset address
      moved)
    (hit : Hit state result) :
    ¬ Cached kept translated code state offset address result := by
  intro cached
  have field : guestCallTable (state.get contextAddress) result.state.mem =
      state.get callTableAddress :=
    hit.field.trans situation.table.symm
  have entry := cached.cached
  rw [field, ← situation.entry] at entry
  have same : result.state.mem.load (state.get .t1 + 8) 8 =
      state.mem.load (state.get .t1 + 8) 8 := by
    apply load_of_same (by decide)
    intro pointer inside
    apply hit.resumed.bytes
    intro overlap
    exact situation.entryContext pointer (within_high inside)
      (Nat.lt_trans overlap (by decide))
  rw [same, situation.uncached] at entry
  exact situation.codeNonzero entry.symm

/-- Code addresses of different entries do not overlap. -/
theorem code_apart
    {first second pointer : Word}
    (firstAligned : first.toNat % 16 = 0)
    (secondAligned : second.toNat % 16 = 0)
    (different : first ≠ second)
    (inside : Within (first + 8) 8 pointer) :
    ¬ Within (second + 8) 8 pointer := by
  have distinct : first.toNat ≠ second.toNat :=
    fun equal => different (BitVec.eq_of_toNat_eq equal)
  have firstLt := first.isLt
  have secondLt := second.isLt
  have pointerLt := pointer.isLt
  have eight : (8 : Word).toNat = 8 := rfl
  simp only [Within, BitVec.toNat_sub, BitVec.toNat_add, eight] at inside ⊢
  omega

/-- A store to the entry does not reach the entry of a call table that is
somewhere else. -/
theorem Situation.load_moved
    (situation : Situation runtime kept translated code state offset address
      moved)
    (different : moved ≠ state.get callTableAddress)
    (mem : Memory)
    (value : Word) :
    (mem.store (state.get .t1 + 8) 8 value).load (moved + offset + 8) 8 =
      mem.load (moved + offset + 8) 8 := by
  have sumAligned : ∀ base : Word, base.toNat % 16 = 0 →
      (base + offset).toNat % 16 = 0 := by
    intro base aligned
    have offsetAligned := situation.aligned.2.2
    rw [BitVec.toNat_add]
    omega
  have elsewhere : moved + offset ≠ state.get .t1 := by
    rw [situation.entry]
    exact fun equal => different ((BitVec.add_left_inj offset).mp equal)
  have callAligned : (state.get .t1).toNat % 16 = 0 := by
    rw [situation.entry]
    exact sumAligned _ situation.aligned.1
  apply load_of_same (by decide)
  intro pointer inside
  exact store_of_not_within _ _ (code_apart
    (sumAligned _ situation.aligned.2.1) callAligned elsewhere inside)

/-- The memory after a translation. -/
theorem Situation.miss_memory
    (situation : Situation runtime kept translated code state offset address
      moved)
    {called returned : State}
    {carried : Prop}
    (isAddress : result.address = address)
    (isCarried : carried)
    (miss : Miss runtime kept translated carried state called returned
      (cacheEntry returned) result)
    (s2 : returned.get .s2 = state.get .t1) :
    result.riscv = code address ∧
      guestCallTable (state.get contextAddress) result.state.mem = moved ∧
      result.state.mem.load (moved + offset + 8) 8 =
        (returned.mem.store (state.get .t1 + 8) 8 (code address)).load
          (moved + offset + 8) 8 ∧
      returned.mem.load (moved + offset + 8) 8 = 0 := by
  have argument := miss.missed.argument isCarried
  rw [isAddress] at argument
  have field := miss.missed.table fun pointer inside =>
    situation.keepsContext pointer (slot_context inside)
  obtain ⟨riscv, table, zero⟩ := situation.translate miss.missed.saved argument
    field miss.missed.bytes miss.missed.translate
  have entry : result.entry = tlbEntry state address := by
    rw [miss.resumed.entry, isAddress]
  have written : (cacheEntry returned).mem =
      returned.mem.store (state.get .t1 + 8) 8 (code address) := by
    rw [cacheEntry_spec, State.set_mem, State.store_mem, s2, riscv]
  have outside : ∀ pointer, ¬ Within (tlbEntry state address) 16 pointer →
      result.state.mem pointer =
        returned.mem.store (state.get .t1 + 8) 8 (code address) pointer := by
    intro pointer notEntry
    rw [← entry] at notEntry
    rw [miss.memory, updateEntry_outside notEntry, written]
  refine ⟨by rw [miss.missed.riscv, riscv], ?_, ?_, zero⟩
  · rw [← table]
    apply load_of_same (by decide)
    intro pointer inside
    have context : Within (state.get contextAddress) ExecutionContext.size
        pointer := slot_context inside
    rw [outside pointer fun overlap =>
        situation.tlbContext pointer overlap context]
    apply store_of_not_within
    intro overlap
    exact situation.entryContext pointer (within_high overlap) context
  · apply load_of_same (by decide)
    intro pointer inside
    apply outside
    exact situation.movedTlb pointer (within_high inside)

/-- `reroute_return` leaves the code address in the entry exactly when the
address is not in the buffer and the translation does not move the call
table. -/
theorem rerouteReturn_caches_iff
    (situation : Situation runtime kept translated code state offset address
      moved)
    (ran : rerouteReturn runtime state = some result) :
    Cached kept translated code state offset address result ↔
      state.mem.load (tlbEntry state address) 8 ≠ address ∧
        moved = state.get callTableAddress := by
  have placed : Placed kept translated state
      (state.mem.load (state.get .t1) 8) := by
    rw [situation.guest]
    exact ⟨situation.tlbContext,
      fun pointer inside => situation.keepsContext pointer inside.1,
      situation.translatesContext⟩
  obtain ⟨isAddress, hit | ⟨called, returned, miss, s2⟩⟩ :=
    rerouteReturn_spec situation.entryContext situation.follows.reroutes
      situation.follows.translate placed ran
  · rw [situation.guest] at isAddress
    have key := hit.found.key
    rw [hit.resumed.entry, isAddress] at key
    exact ⟨fun cached => absurd cached (situation.hit_not_cached hit),
      fun missed => absurd key missed.1⟩
  · rw [situation.guest] at isAddress
    obtain ⟨riscv, table, entry, zero⟩ := situation.miss_memory isAddress
      situation.keepsEntry miss s2
    have missed := miss.missed.key
    rw [miss.resumed.entry, isAddress] at missed
    constructor
    · intro cached
      refine ⟨missed, ?_⟩
      by_contra different
      have value := cached.cached
      rw [table, entry] at value
      rw [situation.load_moved different _ _, zero] at value
      exact situation.codeNonzero value.symm
    · rintro ⟨-, rfl⟩
      refine ⟨situation.target miss.resumed riscv, ?_, ?_⟩
      · rw [table, entry, ← situation.entry, Memory.load_store_double]
      · intro pointer isKept isTranslated notContext notTlb notCode
        rw [table, ← situation.entry] at notCode
        apply miss.resumed.bytes
        rw [miss.resumed.entry, isAddress]
        refine ⟨⟨isKept, isTranslated, notContext, notTlb⟩, ?_⟩
        rw [cacheEntry_spec, State.set_mem, State.store_mem, s2]
        exact store_of_not_within _ _ notCode

end

/-! ## A return whose address is in the buffer -/

/-- A translation that does not change the call table. -/
def steady : Runtime where
  reroutes := some
  translate state := some (state.set .a0 0x5000)
  updateBasicBlock := some
  returnAddress := 0
  format := 0

/-- A return to 0x40 with the second entry of the call table. -/
def returning (buffered : Bool) : State where
  regs
    | .t1 => 0x30010
    | .s8 => 0x30000
    | .s9 => 0x20000
    | .s11 => 0x10000
    | _ => 0
  mem :=
    let table : Memory := Memory.store (fun _ => 0) 0x100B8 8 0x30000
    let entry := table.store 0x30010 8 0x40
    if buffered then updateEntry entry 0x20040 0x40 0x5000 else entry

theorem steady_follows :
    steady.Follows (fun _ => True) (fun _ => True) := by
  have follows : Follows (fun _ => True) some := by
    constructor
    · rintro state after ⟨⟩ register _
      rfl
    · rintro state after ⟨⟩ pointer _
      rfl
  refine ⟨follows, ⟨?_, ?_⟩, follows⟩
  · rintro state after ⟨⟩ register member
    apply State.set_get_of_ne
    rintro rfl
    exact absurd member (by decide)
  · rintro state after ⟨⟩ pointer _
    rfl

theorem returning_uncached :
    ∀ buffered, (returning buffered).mem.load 0x30018 8 = 0 := by
  decide +kernel

theorem situation_returning (buffered : Bool) :
    Situation steady (fun _ => True) (fun _ => True) (fun _ => 0x5000)
      (returning buffered) 0x10 0x40 0x30000 where
  follows := steady_follows
  keepsContext _ _ := trivial
  translatesContext _ _ := trivial
  keepsEntry _ _ := trivial
  table := by revert buffered; decide +kernel
  entry := by revert buffered; decide +kernel
  guest := by revert buffered; decide +kernel
  uncached := by revert buffered; decide +kernel
  tlb := by revert buffered; decide +kernel
  codeNonzero := by decide
  codeEven := by decide
  translate := by
    rintro called returned - - field bytes ⟨⟩
    refine ⟨rfl, field, ?_⟩
    rw [← returning_uncached buffered]
    apply load_of_same (by decide)
    intro pointer inside
    apply bytes pointer trivial
    have apart : Apart 0x30018 8 0x10000 contextSize :=
      apart_of_sub (by decide) (by decide)
    exact apart pointer inside
  aligned := by revert buffered; decide +kernel
  tlbContext := apart_of_sub (by revert buffered; decide +kernel)
    (by revert buffered; decide +kernel)
  entryContext := apart_of_sub (by revert buffered; decide +kernel)
    (by revert buffered; decide +kernel)
  entryTlb := apart_of_sub (by revert buffered; decide +kernel)
    (by revert buffered; decide +kernel)
  movedContext := apart_of_sub (by revert buffered; decide +kernel)
    (by revert buffered; decide +kernel)
  movedTlb := apart_of_sub (by revert buffered; decide +kernel)
    (by revert buffered; decide +kernel)

/-- The address is in the buffer, and the entry stays without the code
address. -/
theorem rerouteReturn_not_caches :
    ¬ ∀ runtime kept translated code state offset address moved result,
      Situation runtime kept translated code state offset address moved →
        rerouteReturn runtime state = some result →
          Cached kept translated code state offset address result := by
  intro allCached
  have cached := allCached _ _ _ _ _ _ _ _ _ (situation_returning true) rfl
  have entry := cached.cached
  revert entry
  decide +kernel

theorem rerouteReturn_caches_returning :
    ∃ result, rerouteReturn steady (returning false) = some result ∧
      Cached (fun _ => True) (fun _ => True) (fun _ => 0x5000)
        (returning false) 0x10 0x40 result :=
  ⟨_, rfl, (rerouteReturn_caches_iff (situation_returning false) rfl).mpr
    (by decide +kernel)⟩

end CallTable
end Oxtra
