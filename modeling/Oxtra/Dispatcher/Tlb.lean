import Oxtra.Dispatcher.Transparency
import Oxtra.Library.DirectMapped

/-!
# The translation lookaside buffer

The buffer is a direct-mapped cache of the translation: its slots are the
offsets that the addresses are hashed to.
-/

namespace Oxtra
namespace Tlb

open RiscV
open Dispatcher

/-! ## Entries -/

/-- Number of bytes of the buffer. -/
def size : Nat := 0x800

/-- Offsets of entries. -/
abbrev Slot :=
  { offset : Word // offset.toNat % 16 = 0 ∧ offset.toNat + 16 ≤ size }

/-- The slot of an address. -/
def slotOf (address : Word) : Slot := ⟨Dispatcher.hash address, hash_toNat address⟩

/-- The entries of the buffer at an address. -/
def entries (tlb : Word) (mem : Memory) :
    DirectMapped.Cache Slot Word Word :=
  fun slot => (mem.load (slot.val + tlb) 8, mem.load (slot.val + tlb + 8) 8)

theorem slot_within
    {tlb pointer : Word}
    (slot : Slot)
    (inside : Within (slot.val + tlb) 16 pointer) :
    Within tlb size pointer := by
  obtain ⟨offset, aligned, bound⟩ := slot
  have tlbLt := tlb.isLt
  have offsetLt := offset.isLt
  have pointerLt := pointer.isLt
  simp only [size] at bound
  simp only [Within, size, BitVec.toNat_sub, BitVec.toNat_add] at inside ⊢
  omega

theorem slots_apart
    {tlb pointer : Word}
    {first second : Slot}
    (different : first ≠ second)
    (inside : Within (first.val + tlb) 16 pointer) :
    ¬ Within (second.val + tlb) 16 pointer := by
  obtain ⟨offset, aligned, bound⟩ := first
  obtain ⟨other, otherAligned, otherBound⟩ := second
  have distinct : offset.toNat ≠ other.toNat := by
    intro equal
    exact different (Subtype.ext (BitVec.eq_of_toNat_eq equal))
  have tlbLt := tlb.isLt
  have pointerLt := pointer.isLt
  simp only [size] at bound otherBound
  simp only [Within, BitVec.toNat_sub, BitVec.toNat_add] at inside ⊢
  omega

/-- Entries are the same when their bytes are. -/
theorem entries_eq
    {tlb : Word}
    {first second : Memory}
    {slot : Slot}
    (same : ∀ pointer, Within (slot.val + tlb) 16 pointer →
      first pointer = second pointer) :
    entries tlb first slot = entries tlb second slot := by
  have low : first.load (slot.val + tlb) 8 = second.load (slot.val + tlb) 8 := by
    apply load_of_same (by decide)
    intro pointer inside
    exact same pointer (within_low inside)
  have high : first.load (slot.val + tlb + 8) 8 =
      second.load (slot.val + tlb + 8) 8 := by
    apply load_of_same (by decide)
    intro pointer inside
    exact same pointer (within_high inside)
  rw [entries, entries, low, high]

/-- A write of an entry is an insertion into the cache. -/
theorem entries_insert
    {tlb address riscv : Word}
    {before after : Memory}
    (outside : ∀ pointer, Within tlb size pointer →
      ¬ Within ((slotOf address).val + tlb) 16 pointer →
        after pointer = before pointer)
    (key : after.load ((slotOf address).val + tlb) 8 = address)
    (value : after.load ((slotOf address).val + tlb + 8) 8 = riscv) :
    entries tlb after =
      DirectMapped.insert slotOf (entries tlb before) address riscv := by
  funext slot
  rw [DirectMapped.insert]
  by_cases same : slot = slotOf address
  · rw [same, Function.update_self, entries]
    exact Prod.ext key value
  · rw [Function.update_of_ne same]
    apply entries_eq
    intro pointer inside
    exact outside pointer (slot_within slot inside) (slots_apart same inside)

/-- The entries of a freshly mapped buffer. -/
def blank : DirectMapped.Cache Slot Word Word := fun _ => (0, 0)

theorem entries_zero
    {tlb : Word}
    {mem : Memory}
    (zeros : ∀ pointer, Within tlb size pointer → mem pointer = 0)
    (slot : Slot) :
    entries tlb mem slot = blank slot := by
  have zero : entries tlb mem slot = entries tlb (fun _ => 0) slot := by
    apply entries_eq
    intro pointer inside
    exact zeros pointer (slot_within slot inside)
  rw [zero, entries, Memory.load_zero, Memory.load_zero, blank]

/-! ## One rerouting -/

/-- The buffer is a page of its own, which no function writes to. -/
structure Mapped
    (runtime : Runtime)
    (kept translated : Word → Prop)
    (context tlb : Word) : Prop where
  follows : runtime.Follows kept translated
  keepsContext : ∀ pointer, KeptContext context pointer →
    kept pointer ∧ translated pointer
  keepsTlb : ∀ pointer, Within tlb size pointer →
    kept pointer ∧ translated pointer
  apart : Apart tlb size context ExecutionContext.size
  aligned : tlb.toNat % 0x1000 = 0

/-- An entry of the call table is outside of the context and of the buffer, and
the logger does not write to it. -/
structure CallEntry
    (kept : Word → Prop)
    (context tlb entry : Word) : Prop where
  context : Apart entry 16 context ExecutionContext.size
  tlb : Apart entry 16 tlb size
  kept : ∀ pointer, Within entry 8 pointer → kept pointer

/-- A translation from here on leaves the entry of the call table in its
place. -/
def Unmoved (runtime : Runtime) (state : State) : Prop :=
  ∀ called returned, Saved state called →
    runtime.translate called = some returned →
      ∀ pointer, Within (state.get .t1) 8 pointer →
        returned.mem pointer = called.mem pointer

/-- The translation was called for an address and returned a code address. -/
def Translates (runtime : Runtime) (address riscv : Word) : Prop :=
  ∃ called returned, runtime.translate called = some returned ∧
    called.get .a1 = address ∧ returned.get .a0 = riscv

section

variable
  {runtime : Runtime}
  {kept translated : Word → Prop}
  {context tlb : Word}
  {state : State}
  {result : Rerouted}

theorem Mapped.placed
    (mapped : Mapped runtime kept translated context tlb)
    (s9 : state.get .s9 = tlb)
    (s11 : state.get .s11 = context)
    (address : Word) :
    Placed kept translated state address := by
  subst s9 s11
  refine ⟨?_, ?_, ?_⟩
  · intro pointer inside
    exact mapped.apart pointer (slot_within (slotOf address) inside)
  · exact fun pointer inside => (mapped.keepsContext pointer inside).1
  · exact fun pointer inside => (mapped.keepsContext pointer inside).2

/-- What is in the buffer is not in the context. -/
theorem Mapped.outside
    (mapped : Mapped runtime kept translated context tlb)
    {pointer : Word}
    (inside : Within tlb size pointer) :
    ¬ Within context contextSize pointer := fun overlap =>
  mapped.apart pointer inside (Nat.lt_trans overlap (by decide))

/-- What a rerouting does to the buffer. -/
structure Looked
    (runtime : Runtime)
    (tlb : Word)
    (state : State)
    (result : Rerouted) : Prop where
  entry : result.entry = (slotOf result.address).val + tlb
  outcome :
    (result.hit = true ∧
      entries tlb state.mem (slotOf result.address) =
        (result.address, result.riscv) ∧
      entries tlb result.state.mem = entries tlb state.mem) ∨
    (result.hit = false ∧ Translates runtime result.address result.riscv ∧
      entries tlb result.state.mem =
        DirectMapped.insert slotOf (entries tlb state.mem) result.address
          result.riscv)

theorem looked_of_found
    (found : Found state result)
    (entry : result.entry = (slotOf result.address).val + tlb)
    (same : ∀ pointer, Within tlb size pointer →
      result.state.mem pointer = state.mem pointer) :
    Looked runtime tlb state result := by
  refine ⟨entry, .inl ⟨found.hit, ?_, ?_⟩⟩
  · rw [entries, ← entry, found.key, found.riscv]
  · funext slot
    apply entries_eq
    intro pointer inside
    exact same pointer (slot_within slot inside)

theorem looked_of_missed
    {carried : Prop}
    {called returned : State}
    (missed : Missed runtime kept carried state called returned result)
    (isCarried : carried)
    (entry : result.entry = (slotOf result.address).val + tlb)
    (same : ∀ pointer, Within tlb size pointer →
      ¬ Within result.entry 16 pointer →
        result.state.mem pointer = state.mem pointer)
    (key : result.state.mem.load result.entry 8 = result.address)
    (value : result.state.mem.load (result.entry + 8) 8 = result.riscv) :
    Looked runtime tlb state result := by
  refine ⟨entry, .inr ⟨missed.hit, ?_, ?_⟩⟩
  · exact ⟨called, returned, missed.translate, missed.argument isCarried,
      missed.riscv.symm⟩
  · rw [entry] at same key value
    exact entries_insert same key value

/-- The guest address is read again behind the translation. -/
theorem reload_callEntry
    {called returned : State}
    {entry : Word}
    (s2 : returned.get .s2 = entry)
    (same : ∀ pointer, Within entry 8 pointer →
      returned.mem pointer = called.mem pointer) :
    (cacheEntry returned).get .s2 = called.mem.load entry 8 := by
  have eight : (8 : Word).toNat = 8 := rfl
  have entryLt := entry.isLt
  rw [cacheEntry_spec, State.set_get_self _ _ (by decide), s2,
    Memory.load_store_of_apart, load_of_same (by decide) same]
  all_goals
    simp only [BitVec.toNat_sub, BitVec.toNat_add, eight]
    omega

theorem looked
    {kind : Kind}
    (mapped : Mapped runtime kept translated context tlb)
    (s9 : state.get .s9 = tlb)
    (s11 : state.get .s11 = context)
    (callEntry : kind = .return →
      CallEntry kept context tlb (state.get .t1))
    (unmoved : kind = .return → Unmoved runtime state)
    (ran : kind.routine runtime state = some result) :
    result.address = kind.address state ∧ Looked runtime tlb state result ∧
      result.state.get .s9 = tlb ∧ result.state.get .s11 = context := by
  have placed := mapped.placed s9 s11 (kind.address state)
  subst s9 s11
  have spared : ∀ entry pointer, Within (state.get .s9) size pointer →
      ¬ Within entry 16 pointer →
        Spared kept translated state entry pointer := by
    intro entry pointer inside notEntry
    obtain ⟨isKept, isTranslated⟩ := mapped.keepsTlb pointer inside
    exact ⟨isKept, isTranslated, mapped.outside inside, notEntry⟩
  cases kind with
  | static =>
      obtain ⟨address, resumed, -, outcome⟩ :=
        rerouteStatic_spec mapped.follows placed ran
      refine ⟨address, ?_, resumed.registers (.s9, 0xC0) (by decide) (by decide),
        resumed.registers (.s11, 0xD0) (by decide) (by decide)⟩
      rcases outcome with ⟨found, same⟩ | ⟨called, returned, missed, memory⟩
      · apply looked_of_found found resumed.entry
        intro pointer inside
        exact same pointer (mapped.keepsTlb pointer inside).1
          (mapped.outside inside)
      · have entryKept : ∀ pointer, Within result.entry 16 pointer →
            kept pointer := by
          intro pointer inside
          rw [resumed.entry] at inside
          exact (mapped.keepsTlb pointer
            (slot_within (slotOf result.address) inside)).1
        refine looked_of_missed missed trivial resumed.entry
          (fun pointer inside outside =>
            resumed.bytes pointer (spared _ pointer inside outside)) ?_ ?_
        · rw [load_of_same (by decide) fun pointer inside => memory pointer
            (entryKept pointer (within_low inside)), updateEntry_key]
        · rw [load_of_same (by decide) fun pointer inside => memory pointer
            (entryKept pointer (within_high inside)),
            updateEntry_riscv]
  | dynamic =>
      obtain ⟨address, hit | ⟨called, returned, miss, s2⟩⟩ :=
        rerouteDynamic_spec mapped.follows placed ran
      · refine ⟨address, looked_of_found hit.found hit.resumed.entry
            fun pointer inside =>
              hit.resumed.bytes pointer (mapped.outside inside),
          hit.resumed.registers (.s9, 0xC0) (by decide) (by decide),
          hit.resumed.registers (.s11, 0xD0) (by decide) (by decide)⟩
      · have memory := miss.memory
        rw [s2] at memory
        refine ⟨address, looked_of_missed miss.missed trivial
            miss.resumed.entry (fun pointer inside outside =>
              miss.resumed.bytes pointer
                ⟨spared _ pointer inside outside, rfl⟩)
            (by rw [memory, updateEntry_key])
            (by rw [memory, updateEntry_riscv]),
          miss.resumed.registers (.s9, 0xC0) (by decide) (by decide),
          miss.resumed.registers (.s11, 0xD0) (by decide) (by decide)⟩
  | «return» =>
      have entry := callEntry rfl
      obtain ⟨address, hit | ⟨called, returned, miss, s2⟩⟩ :=
        rerouteReturn_spec entry.context mapped.follows.reroutes
          mapped.follows.translate placed ran
      · refine ⟨address, looked_of_found hit.found hit.resumed.entry
            fun pointer inside =>
              hit.resumed.bytes pointer (mapped.outside inside),
          hit.resumed.registers (.s9, 0xC0) (by decide) (by decide),
          hit.resumed.registers (.s11, 0xD0) (by decide) (by decide)⟩
      · have key : (cacheEntry returned).get .s2 = result.address := by
          rw [reload_callEntry s2 (unmoved rfl called returned
            miss.missed.saved miss.missed.translate), address]
          apply load_of_same (by decide)
          intro pointer inside
          apply miss.missed.bytes pointer (entry.kept pointer inside)
          intro overlap
          exact entry.context pointer (within_low inside)
            (Nat.lt_trans overlap (by decide))
        have memory := miss.memory
        rw [key] at memory
        have same : ∀ pointer, Within (state.get .s9) size pointer →
            (cacheEntry returned).mem pointer = returned.mem pointer := by
          intro pointer inside
          rw [cacheEntry_spec, State.set_mem, State.store_mem, s2]
          apply store_of_not_within
          intro overlap
          exact entry.tlb pointer (within_high overlap) inside
        refine ⟨address, looked_of_missed miss.missed entry.kept
            miss.resumed.entry (fun pointer inside outside =>
              miss.resumed.bytes pointer
                ⟨spared _ pointer inside outside, same pointer inside⟩)
            (by rw [memory, updateEntry_key])
            (by rw [memory, updateEntry_riscv]),
          miss.resumed.registers (.s9, 0xC0) (by decide) (by decide),
          miss.resumed.registers (.s11, 0xD0) (by decide) (by decide)⟩

end

/-! ## Runs -/

/-- The translations of some reroutings. -/
def translations (events : List Rerouted) : List (Word × Word) :=
  (events.filter fun result => !result.hit).map fun result =>
    (result.address, result.riscv)

/-- Reroutings that follow on each other, if they are allowed after what
happened before.  In between, other code runs that keeps the buffer. -/
inductive Run
    (runtime : Runtime)
    (kept : Word → Prop)
    (context tlb : Word)
    (allowed : List Rerouted → Kind → State → Prop)
    (first : State) : List Rerouted → State → Prop where
  | start : Run runtime kept context tlb allowed first [] first
  | reroute {events : List Rerouted} {state : State} {result : Rerouted}
      (kind : Kind) :
      Run runtime kept context tlb allowed first events state →
        (kind = .return → CallEntry kept context tlb (state.get .t1)) →
          allowed events kind state →
            kind.routine runtime state = some result →
              Run runtime kept context tlb allowed first (events ++ [result])
                result.state
  | other {events : List Rerouted} {state after : State} :
      Run runtime kept context tlb allowed first events state →
        after.get .s9 = state.get .s9 →
          after.get .s11 = state.get .s11 →
            (∀ pointer, Within tlb size pointer →
              after.mem pointer = state.mem pointer) →
              Run runtime kept context tlb allowed first events after

/-- The address zero is looked for only when its slot has been filled, and a
translation does not move the call table that a return is in. -/
def Distinguished
    (runtime : Runtime)
    (events : List Rerouted)
    (kind : Kind)
    (state : State) : Prop :=
  (kind.address state = 0 →
    DirectMapped.Filled slotOf (translations events) (slotOf 0)) ∧
      (kind = .return → Unmoved runtime state)

/-- A rerouting after others: its entry is a whole entry of the buffer, and an
address that is found was translated before, to the code address that the entry
holds. -/
structure Sound
    (runtime : Runtime)
    (tlb : Word)
    (before : List Rerouted)
    (result : Rerouted) : Prop where
  inside : tlb.toNat ≤ result.entry.toNat ∧
    result.entry.toNat + 16 ≤ tlb.toNat + size
  aligned : result.entry.toNat % 16 = 0
  found : result.hit = true →
    (result.address, result.riscv) ∈ translations before ∧
      Translates runtime result.address result.riscv

/-- What holds between reroutings. -/
structure Invariant
    (runtime : Runtime)
    (context tlb : Word)
    (events : List Rerouted)
    (state : State) : Prop where
  s9 : state.get .s9 = tlb
  s11 : state.get .s11 = context
  holds : DirectMapped.Holds slotOf blank (translations events)
    (entries tlb state.mem)
  translates : ∀ entry ∈ translations events,
    Translates runtime entry.1 entry.2

theorem translations_append (events : List Rerouted) (result : Rerouted) :
    translations (events ++ [result]) =
      if result.hit then translations events
      else translations events ++ [(result.address, result.riscv)] := by
  rw [translations, List.filter_append, List.map_append]
  cases hit : result.hit with
  | true => simp [translations, hit]
  | false => simp [translations, hit]

section

variable
  {runtime : Runtime}
  {kept translated : Word → Prop}
  {context tlb : Word}
  {events : List Rerouted}
  {state : State}
  {result : Rerouted}

theorem Looked.place
    (isLooked : Looked runtime tlb state result)
    (aligned : tlb.toNat % 0x1000 = 0) :
    (tlb.toNat ≤ result.entry.toNat ∧
      result.entry.toNat + 16 ≤ tlb.toNat + size) ∧
        result.entry.toNat % 16 = 0 := by
  obtain ⟨offsetAligned, bound⟩ := (slotOf result.address).property
  have tlbLt := tlb.isLt
  have entry : result.entry.toNat =
      (slotOf result.address).val.toNat + tlb.toNat := by
    rw [isLooked.entry, BitVec.toNat_add]
    simp only [size] at bound
    omega
  omega

/-- One rerouting keeps the invariant and is sound. -/
theorem Invariant.reroute
    {kind : Kind}
    (invariant : Invariant runtime context tlb events state)
    (mapped : Mapped runtime kept translated context tlb)
    (callEntry : kind = .return →
      CallEntry kept context tlb (state.get .t1))
    (distinguished : Distinguished runtime events kind state)
    (ran : kind.routine runtime state = some result) :
    Invariant runtime context tlb (events ++ [result]) result.state ∧
      Sound runtime tlb events result := by
  obtain ⟨address, isLooked, s9, s11⟩ := looked mapped invariant.s9
    invariant.s11 callEntry distinguished.2 ran
  obtain ⟨inside, aligned⟩ := isLooked.place mapped.aligned
  rcases isLooked.outcome with ⟨hit, found, same⟩ | ⟨miss, call, inserted⟩
  · have kept : translations (events ++ [result]) = translations events := by
      rw [translations_append, if_pos hit]
    have key : (entries tlb state.mem (slotOf result.address)).1 =
        result.address := by
      rw [found]
    have filled : (blank (slotOf result.address)).1 = result.address →
        DirectMapped.Filled slotOf (translations events)
          (slotOf result.address) := by
      intro zero
      have isZero : result.address = 0 := zero.symm
      rw [isZero]
      exact distinguished.1 (address.symm.trans isZero)
    have member := invariant.holds.lookup key filled
    rw [found] at member
    refine ⟨⟨s9, s11, ?_, ?_⟩, inside, aligned, fun _ => ⟨member, ?_⟩⟩
    · rw [kept, same]
      exact invariant.holds
    · rw [kept]
      exact invariant.translates
    · exact invariant.translates _ member
  · have added : translations (events ++ [result]) =
        translations events ++ [(result.address, result.riscv)] := by
      rw [translations_append, if_neg (by rw [miss]; decide)]
    refine ⟨⟨s9, s11, ?_, ?_⟩, inside, aligned, fun hit => ?_⟩
    · rw [added, inserted]
      exact invariant.holds.insert _ _
    · rw [added]
      intro entry member
      rcases List.mem_append.mp member with before | last
      · exact invariant.translates entry before
      · rw [List.mem_singleton.mp last]
        exact call
    · rw [miss] at hit
      cases hit

theorem Run.invariant
    {first : State}
    (mapped : Mapped runtime kept translated context tlb)
    (s9 : first.get .s9 = tlb)
    (s11 : first.get .s11 = context)
    (zeros : ∀ pointer, Within tlb size pointer → first.mem pointer = 0)
    (run : Run runtime kept context tlb (Distinguished runtime) first events
      state) :
    Invariant runtime context tlb events state ∧
      ∀ before result after, events = before ++ result :: after →
        Sound runtime tlb before result := by
  induction run with
  | start =>
      refine ⟨⟨s9, s11, ?_, ?_⟩, ?_⟩
      · have fresh : entries tlb first.mem = blank :=
          funext (entries_zero zeros)
        rw [fresh]
        exact DirectMapped.Holds.start _
      · rintro entry ⟨⟩
      · rintro before result after equal
        cases before <;> cases equal
  | reroute kind _ callEntry distinguished ran inductionHypothesis =>
      obtain ⟨invariant, sound⟩ := inductionHypothesis
      obtain ⟨next, last⟩ :=
        invariant.reroute mapped callEntry distinguished ran
      refine ⟨next, ?_⟩
      intro before result after equal
      rcases List.eq_nil_or_concat after with rfl | ⟨rest, final, rfl⟩
      · obtain ⟨rfl, same⟩ := List.append_inj' equal rfl
        cases same
        exact last
      · rw [List.concat_eq_append, ← List.cons_append,
          ← List.append_assoc] at equal
        exact sound before result rest (List.append_inj' equal rfl).1
  | other _ sameTlb sameContext same inductionHypothesis =>
      obtain ⟨invariant, sound⟩ := inductionHypothesis
      refine ⟨⟨sameTlb.trans invariant.s9, sameContext.trans invariant.s11, ?_,
        invariant.translates⟩, sound⟩
      have unchanged : ∀ memory other : Memory,
          (∀ pointer, Within tlb size pointer → memory pointer = other pointer) →
            entries tlb memory = entries tlb other := by
        intro memory other agree
        funext slot
        apply entries_eq
        intro pointer inside
        exact agree pointer (slot_within slot inside)
      rw [unchanged _ _ same]
      exact invariant.holds

/-- From a buffer of zeros on, every address that is found was translated
before, in a run that looks for the address zero only when its slot has been
filled, and whose translations do not move the call table under a return. -/
theorem run_sound
    {first : State}
    (mapped : Mapped runtime kept translated context tlb)
    (s9 : first.get .s9 = tlb)
    (s11 : first.get .s11 = context)
    (zeros : ∀ pointer, Within tlb size pointer → first.mem pointer = 0)
    (run : Run runtime kept context tlb (Distinguished runtime) first events
      state) :
    ∀ before result after, events = before ++ result :: after →
      Sound runtime tlb before result :=
  (run.invariant mapped s9 s11 zeros).2

end

/-- The bytes that functions which do nothing keep. -/
def KeptIdle (pointer : Word) : Prop :=
  KeptContext 0x10000 pointer ∨ Within 0x20000 size pointer

theorem mapped_idle : Mapped idle KeptIdle KeptIdle 0x10000 0x20000 where
  follows := idle_follows KeptIdle
  keepsContext := fun _ inside => ⟨.inl inside, .inl inside⟩
  keepsTlb := fun _ inside => ⟨.inr inside, .inr inside⟩
  apart := apart_of_sub (by decide) (by decide)
  aligned := by decide

/-- The address zero is found in a buffer of zeros. -/
theorem run_unsound :
    ¬ ∀ runtime kept translated context tlb first events state,
      Mapped runtime kept translated context tlb →
        State.get first .s9 = tlb →
          State.get first .s11 = context →
            (∀ pointer, Within tlb size pointer → first.mem pointer = 0) →
              Run runtime kept context tlb (fun _ _ _ => True) first events
                  state →
                ∀ before result after, events = before ++ result :: after →
                  Sound runtime tlb before result := by
  intro allSound
  have run := (@Run.start idle KeptIdle 0x10000 0x20000 (fun _ _ _ => True)
    (waiting 0 0)).reroute .dynamic (by simp) trivial rfl
  have sound := allSound _ _ _ _ _ _ _ _ mapped_idle rfl rfl (fun _ _ => rfl) run
    [] _ [] rfl
  obtain ⟨member, -⟩ := sound.found (by decide +kernel)
  cases member

/-- A guest that goes to the same address twice. -/
theorem run_sound_twice :
    ∃ first second, second.hit = true ∧ Sound idle 0x20000 [first] second := by
  have allowed : ∀ events state, State.get state .t3 = 0x40 →
      Distinguished idle events .dynamic state := by
    intro events state t3
    refine ⟨fun zero => ?_, by simp⟩
    rw [Kind.address, t3] at zero
    exact absurd zero (by decide)
  have once := (@Run.start idle KeptIdle 0x10000 0x20000 (Distinguished idle)
    (waiting 0x40 0)).reroute .dynamic (by simp) (allowed _ _ rfl) rfl
  have again := once.other
    (State.set_get_of_ne _ 0x40 (by decide : Register.s9 ≠ .t3))
    (State.set_get_of_ne _ _ (by decide)) (fun _ _ => rfl)
  have twice := again.reroute .dynamic (by simp)
    (allowed _ _ (State.set_get_self _ _ (by decide))) rfl
  refine ⟨_, _, ?_, run_sound mapped_idle rfl rfl (fun _ _ => rfl) twice
    [_] _ [] rfl⟩
  decide +kernel

end Tlb
end Oxtra
