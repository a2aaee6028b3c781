import Oxtra.Debugger.Translation

/-!
# Sessions of the debugger

A session takes the commands of the menu that change the break-points, the
blocks that are translated while the program runs, and the stops.  It shows the
break-points of the user as long as no translation merges the last of them with
the temporary entry, and none of them lies in two instructions.
-/

namespace Oxtra
namespace Debugger

open PartialStep

/-! ## The debugger -/

/-- The blocks, the entries of the break-points, whether the last of them is
temporary, and whether the menu takes commands. -/
structure DebuggerState where
  table : BlockTable := {}
  breakPoints : List BreakPoint := []
  tempBreak : Bool := false
  inMenu : Bool := false

/-- A command that changes the break-points or leaves the menu, a call while the
program runs, or a stop. -/
inductive SessionEvent where
  | breakpoint (address : Nat)
  | remove (index : Nat)
  | run (address : Nat)
  | resume
  | endBlock (block : Block) (data : Nat)
  | resolveBlock (address : Nat)
  | stop

namespace DebuggerState

/-- The command `break`, which has a limit of break-points. -/
def breakpoint (debugger : DebuggerState) (address : Nat) : DebuggerState :=
  if debugger.breakPoints.length = 255 then
    debugger
  else
    { debugger with
      breakPoints := (insertBreakPoint debugger.table.blocks
        debugger.breakPoints address true).1 }

/-- The command `remove` -/
def remove (debugger : DebuggerState) (index : Nat) : DebuggerState :=
  if index ≥ debugger.breakPoints.length then
    debugger
  else
    { debugger with breakPoints := debugger.breakPoints.eraseIdx index }

/-- The command `run` with an address, which leaves the menu. -/
def run (debugger : DebuggerState) (address : Nat) : DebuggerState :=
  { debugger with
    breakPoints := (insertBreakPoint debugger.table.blocks
      debugger.breakPoints address false).1
    tempBreak := true
    inMenu := false }

/-- `end_block`, with `update_break_points` at its end. -/
def endBlock
    (debugger : DebuggerState)
    (block : Block)
    (data : Nat) : DebuggerState :=
  { debugger with
    table := debugger.table.endBlock block data
    breakPoints := updateBreakPoints block debugger.breakPoints }

/-- `entry`: the last entry is dropped if the flag is set. -/
def stop (debugger : DebuggerState) : DebuggerState :=
  if debugger.tempBreak then
    { debugger with
      breakPoints := debugger.breakPoints.dropLast
      tempBreak := false
      inMenu := true }
  else
    { debugger with inMenu := true }

/-- The menu takes commands between a stop and the command that leaves it, and
the program runs otherwise. -/
def step (debugger : DebuggerState) : SessionEvent -> Option DebuggerState
  | .breakpoint address =>
      if debugger.inMenu then some (debugger.breakpoint address) else none
  | .remove index =>
      if debugger.inMenu then some (debugger.remove index) else none
  | .run address =>
      if debugger.inMenu then some (debugger.run address) else none
  | .resume =>
      if debugger.inMenu then some { debugger with inMenu := false } else none
  | .endBlock block data =>
      if debugger.inMenu then none else some (debugger.endBlock block data)
  | .resolveBlock address =>
      if debugger.inMenu then
        none
      else
        (debugger.table.resolveBlock address).map fun resolved =>
          { debugger with table := resolved.1 }
  | .stop => if debugger.inMenu then none else some debugger.stop

end DebuggerState

/-! ## The break-points of the user -/

/-- The debugger, and the addresses that the user has set and not removed. -/
structure Session where
  debugger : DebuggerState := {}
  addresses : Set Nat := ∅

namespace Session

/-- The addresses behind an event.  An entry that is removed takes all
break-points of its instruction with it. -/
def addressesAfter (session : Session) : SessionEvent -> Set Nat
  | .breakpoint address =>
      if session.debugger.breakPoints.length = 255 then
        session.addresses
      else
        insert address session.addresses
  | .remove index =>
      match session.debugger.breakPoints[index]? with
      | some entry =>
          {address | address ∈ session.addresses ∧
            ¬ StartOf session.debugger.table.blocks address entry.x86}
      | none => session.addresses
  | _ => session.addresses

def step (session : Session) (event : SessionEvent) : Option Session :=
  (session.debugger.step event).map fun debugger =>
    { debugger, addresses := session.addressesAfter event }

end Session

/-- Behind a stop the table has the break-points of the user, each at the start
of its instruction and in ascending order, with the host addresses, and no
temporary entry. -/
def ShowsAt (_ : Session) (event : SessionEvent) (after : Session) : Prop :=
  match event with
  | .stop =>
      after.debugger.tempBreak = false ∧
        (after.debugger.breakPoints.Pairwise fun first second =>
          first.x86 < second.x86) ∧
        (∀ start, (∃ entry ∈ after.debugger.breakPoints, entry.x86 = start) ↔
          ∃ address ∈ after.addresses,
            StartOf after.debugger.table.blocks address start) ∧
        ∀ entry ∈ after.debugger.breakPoints,
          BreaksAt after.debugger.table.blocks entry
  | _ => True

/-- A break-point is set where the instruction is unambiguous.  A translation
leaves that so for the break-points of the user, and does not merge the last of
them with the temporary entry. -/
def KeepsApartAt (before : Session) (event : SessionEvent) (_ : Session) :
    Prop :=
  match event with
  | .breakpoint address =>
      before.debugger.breakPoints.length ≠ 255 ->
        Unambiguous before.debugger.table.blocks address
  | .endBlock block _ =>
      (∀ address ∈ before.addresses,
        Unambiguous (block :: before.debugger.table.blocks) address) ∧
        (before.debugger.tempBreak = true ->
          ∀ last ∈ before.debugger.breakPoints.dropLast.getLast?,
            ∀ temp ∈ before.debugger.breakPoints.getLast?,
              ¬ Merges block last temp)
  | _ => True

/-! ## The invariant -/

/-- The entries of the user, and a temporary one behind them if the flag is
set.  It is not set in the menu. -/
structure Session.Holds (session : Session) : Prop where
  consistent : session.debugger.table.Consistent
  sorted : session.debugger.table.Sorted
  unambiguous : ∀ address ∈ session.addresses,
    Unambiguous session.debugger.table.blocks address
  inMenu : session.debugger.inMenu = true -> session.debugger.tempBreak = false
  shows : ∃ user temp,
    session.debugger.breakPoints = user ++ Option.toList temp ∧
      temp.isSome = session.debugger.tempBreak ∧
      Shows session.debugger.table.blocks user session.addresses

namespace Session

theorem holds_start : Session.Holds {} where
  consistent := Or.inl ⟨rfl, rfl⟩
  sorted := List.Pairwise.nil
  unambiguous := fun _ member => absurd member (Set.notMem_empty _)
  inMenu := fun _ => rfl
  shows := ⟨[], none, rfl, rfl, KeyTable.nil, fun _ member => by cases member⟩

section Steps

variable {session : Session}

/-- In the menu all entries are of the user. -/
theorem Holds.shows_inMenu
    (holds : session.Holds)
    (inMenu : session.debugger.inMenu = true) :
    Shows session.debugger.table.blocks session.debugger.breakPoints
      session.addresses := by
  obtain ⟨user, temp, entries, flag, shows⟩ := holds.shows
  rw [holds.inMenu inMenu, Option.isSome_eq_false_iff,
    Option.isNone_iff_eq_none] at flag
  subst flag
  rwa [entries, Option.toList_none, List.append_nil]

theorem Holds.breakpoint
    (holds : session.Holds)
    (inMenu : session.debugger.inMenu = true)
    {address : Nat}
    (unambiguous : session.debugger.breakPoints.length ≠ 255 ->
      Unambiguous session.debugger.table.blocks address) :
    Session.Holds ⟨session.debugger.breakpoint address,
      session.addressesAfter (.breakpoint address)⟩ := by
  have notTemp := holds.inMenu inMenu
  have shows := holds.shows_inMenu inMenu
  by_cases limit : session.debugger.breakPoints.length = 255
  · rwa [DebuggerState.breakpoint, if_pos limit, addressesAfter, if_pos limit]
  · rw [DebuggerState.breakpoint, if_neg limit, addressesAfter, if_neg limit]
    have all := Set.forall_mem_insert.2
      ⟨unambiguous limit, holds.unambiguous⟩
    exact {
      consistent := holds.consistent
      sorted := holds.sorted
      unambiguous := all
      inMenu := fun _ => notTemp
      shows := ⟨_, none, (List.append_nil _).symm, notTemp.symm,
        insertBreakPoint_shows holds.sorted (snapping_startOf all) shows⟩ }

theorem Holds.remove
    (holds : session.Holds)
    (inMenu : session.debugger.inMenu = true)
    (index : Nat) :
    Session.Holds ⟨session.debugger.remove index,
      session.addressesAfter (.remove index)⟩ := by
  have notTemp := holds.inMenu inMenu
  have shows := holds.shows_inMenu inMenu
  by_cases outside : index ≥ session.debugger.breakPoints.length
  · have missing : session.debugger.breakPoints[index]? = none :=
      List.getElem?_eq_none outside
    simp only [DebuggerState.remove, if_pos outside, addressesAfter, missing]
    exact holds
  · have found : session.debugger.breakPoints[index]? =
        some session.debugger.breakPoints[index] :=
      List.getElem?_eq_getElem (Nat.lt_of_not_le outside)
    simp only [DebuggerState.remove, if_neg outside, addressesAfter, found]
    have foundKey : (session.debugger.breakPoints.map BreakPoint.x86)[index]? =
        some session.debugger.breakPoints[index].x86 := by
      rw [List.getElem?_map, found, Option.map_some]
    have keyTable := shows.keyTable.eraseIdx (snapping_startOf holds.unambiguous)
      foundKey
    exact {
      consistent := holds.consistent
      sorted := holds.sorted
      unambiguous := fun address member => holds.unambiguous address member.1
      inMenu := fun _ => notTemp
      shows := ⟨_, none, (List.append_nil _).symm, notTemp.symm,
        by rwa [List.eraseIdx_map] at keyTable,
        fun entry member =>
          shows.breaks entry (List.mem_of_mem_eraseIdx member)⟩ }

theorem Holds.run
    (holds : session.Holds)
    (inMenu : session.debugger.inMenu = true)
    (address : Nat) :
    Session.Holds ⟨session.debugger.run address, session.addresses⟩ where
  consistent := holds.consistent
  sorted := holds.sorted
  unambiguous := holds.unambiguous
  inMenu := fun inMenu => by cases inMenu
  shows := ⟨_, some _, rfl, rfl, holds.shows_inMenu inMenu⟩

theorem Holds.endBlock
    (holds : session.Holds)
    (outside : session.debugger.inMenu = false)
    {block : Block}
    (data : Nat)
    (unambiguous : ∀ address ∈ session.addresses,
      Unambiguous (block :: session.debugger.table.blocks) address)
    (apart : session.debugger.tempBreak = true ->
      ∀ last ∈ session.debugger.breakPoints.dropLast.getLast?,
        ∀ temp ∈ session.debugger.breakPoints.getLast?,
          ¬ Merges block last temp) :
    Session.Holds ⟨session.debugger.endBlock block data,
      session.addresses⟩ := by
  obtain ⟨user, temp, entries, flag, shows⟩ := holds.shows
  have perm := (session.debugger.table.endBlock_perm block data).symm
  have tempApart : TempApart block user temp := by
    cases temp with
    | none => exact fun _ _ _ none => by cases none
    | some temp =>
        refine tempApart_of_not_merges fun last isLast => ?_
        rw [entries] at apart
        exact apart flag.symm last (by simpa using isLast) temp (by simp)
  obtain ⟨updated, runs, showsAfter⟩ := updateBreakPoints_shows
    (snapping_startOf holds.unambiguous) (snapping_startOf unambiguous) shows
    tempApart
  exact {
    consistent := BlockTable.endBlock_consistent block data holds.consistent
    sorted := BlockTable.endBlock_sorted block data holds.sorted
    unambiguous := by
      intro address member
      have here := unambiguous address member
      rwa [Unambiguous, startOf_perm perm] at here
    inMenu := fun inMenu =>
      absurd (outside.symm.trans inMenu) Bool.false_ne_true
    shows := by
      refine ⟨updated, temp.map (updateEntry block), ?_, ?_,
        showsAfter.perm perm⟩
      · rw [← runs, ← entries]
        rfl
      · rwa [Option.isSome_map] }

/-- A stop drops the temporary entry. -/
theorem Holds.stop (holds : session.Holds) :
    Session.Holds ⟨session.debugger.stop, session.addresses⟩ ∧
      session.debugger.stop.inMenu = true := by
  obtain ⟨user, temp, entries, flag, shows⟩ := holds.shows
  unfold DebuggerState.stop
  split
  · rename_i isTemp
    rw [isTemp, Option.isSome_iff_exists] at flag
    obtain ⟨entry, rfl⟩ := flag
    have kept : session.debugger.breakPoints.dropLast = user := by
      rw [entries, Option.toList_some, List.dropLast_concat]
    exact ⟨{
      consistent := holds.consistent
      sorted := holds.sorted
      unambiguous := holds.unambiguous
      inMenu := fun _ => rfl
      shows := ⟨user, none, by rw [kept]; simp, rfl, shows⟩ }, rfl⟩
  · rename_i notTemp
    rw [Bool.not_eq_true] at notTemp
    exact ⟨{
      consistent := holds.consistent
      sorted := holds.sorted
      unambiguous := holds.unambiguous
      inMenu := fun _ => notTemp
      shows := ⟨user, temp, entries, flag, shows⟩ }, rfl⟩

/-- Every step that keeps the break-points apart keeps the invariant. -/
theorem Holds.step
    {event : SessionEvent}
    {next : Session}
    (holds : session.Holds)
    (steps : session.step event = some next)
    (apart : KeepsApartAt session event next) :
    next.Holds ∧ ShowsAt session event next := by
  rw [Session.step, Option.map_eq_some_iff] at steps
  obtain ⟨debugger, steps, rfl⟩ := steps
  cases event with
  | breakpoint address =>
      obtain ⟨inMenu, ⟨⟩⟩ := Option.ite_none_right_eq_some.1 steps
      exact ⟨holds.breakpoint inMenu apart, trivial⟩
  | remove index =>
      obtain ⟨inMenu, ⟨⟩⟩ := Option.ite_none_right_eq_some.1 steps
      exact ⟨holds.remove inMenu index, trivial⟩
  | run address =>
      obtain ⟨inMenu, ⟨⟩⟩ := Option.ite_none_right_eq_some.1 steps
      exact ⟨holds.run inMenu address, trivial⟩
  | resume =>
      obtain ⟨inMenu, ⟨⟩⟩ := Option.ite_none_right_eq_some.1 steps
      refine ⟨?_, trivial⟩
      exact {
        consistent := holds.consistent
        sorted := holds.sorted
        unambiguous := holds.unambiguous
        inMenu := fun inMenu => by cases inMenu
        shows := holds.shows }
  | endBlock block data =>
      obtain ⟨outside, ⟨⟩⟩ := Option.ite_none_left_eq_some.1 steps
      rw [Bool.not_eq_true] at outside
      exact ⟨holds.endBlock outside data apart.1 apart.2, trivial⟩
  | resolveBlock address =>
      obtain ⟨outside, steps⟩ := Option.ite_none_left_eq_some.1 steps
      obtain ⟨resolved, resolves, rfl⟩ := Option.map_eq_some_iff.1 steps
      obtain ⟨other, otherResolves, consistent, blocks, -⟩ :=
        BlockTable.resolveBlock_spec holds.consistent address
      obtain rfl := Option.some.inj (resolves.symm.trans otherResolves)
      refine ⟨?_, trivial⟩
      exact {
        consistent := consistent
        sorted := by
          rw [BlockTable.Sorted, blocks]
          exact holds.sorted
        unambiguous := by
          rw [blocks]
          exact holds.unambiguous
        inMenu := holds.inMenu
        shows := by
          rw [blocks]
          exact holds.shows }
  | stop =>
      obtain ⟨outside, ⟨⟩⟩ := Option.ite_none_left_eq_some.1 steps
      obtain ⟨after, inMenu⟩ := holds.stop
      have shows := after.shows_inMenu inMenu
      exact ⟨after, after.inMenu inMenu, shows.ascending, fun start =>
        List.mem_map.symm.trans (shows.keyTable.mem_iff start), shows.breaks⟩

end Steps

end Session

/-! ## Runs -/

/-- In every run that keeps the break-points of the user apart, every stop shows
exactly them. -/
theorem session_shows
    (events : List SessionEvent)
    (apart : EveryStep Session.step KeepsApartAt {} events) :
    EveryStep Session.step ShowsAt {} events :=
  EveryStep.of_invariant (fun _ _ _ holds steps apart => holds.step steps apart)
    Session.holds_start apart

/-- A break-point is translated while the program runs to another address. -/
theorem session_shows_translated :
    EveryStep Session.step ShowsAt {}
      [.endBlock (sampleBlock 0x10 0x1000) 0, .stop, .breakpoint 0x30,
        .run 0x40, .endBlock (sampleBlock 0x30 0x2000) 0, .stop] := by
  refine session_shows _ ?_
  refine ⟨_, rfl, ⟨fun _ member => absurd member (Set.notMem_empty _),
    fun flag => by cases flag⟩, _, rfl, trivial, _, rfl,
    fun _ => unambiguous_of_apart (by decide), _, rfl, trivial, _, rfl,
    ⟨?_, ?_⟩, _, rfl, trivial, trivial⟩
  · rintro address (rfl | none)
    · exact unambiguous_of_apart (by decide)
    · exact absurd none (Set.notMem_empty _)
  · intro _ last isLast temp isTemp
    rw [merges_iff]
    obtain rfl := Option.some.inj isLast
    obtain rfl := Option.some.inj isTemp
    decide

/-- The program runs to a break-point that is not translated.  Its entry is
removed for the temporary one, which the stop drops. -/
theorem session_loses_breakPoint :
    ∃ final,
      run Session.step {}
          [.endBlock (sampleBlock 0x10 0x1000) 0, .stop, .breakpoint 0x30,
            .run 0x30, .endBlock (sampleBlock 0x30 0x2000) 0, .stop] =
          some final ∧
        0x30 ∈ final.addresses ∧
        final.debugger.breakPoints = [] ∧
        ¬ EveryStep Session.step ShowsAt {}
          [.endBlock (sampleBlock 0x10 0x1000) 0, .stop, .breakpoint 0x30,
            .run 0x30, .endBlock (sampleBlock 0x30 0x2000) 0, .stop] := by
  refine ⟨_, rfl, Or.inl rfl, rfl, ?_⟩
  rintro ⟨_, ⟨⟩, -, _, ⟨⟩, -, _, ⟨⟩, -, _, ⟨⟩, -, _, ⟨⟩, -, _, ⟨⟩, shows, -⟩
  obtain ⟨-, -, mem, -⟩ := shows
  obtain ⟨start, isStart⟩ := exists_startOf _ 0x30
  obtain ⟨entry, member, -⟩ := (mem start).2 ⟨0x30, Or.inl rfl, isStart⟩
  cases member

/-- A block of one instruction of eight bytes. -/
def wideBlock (x86Start riscvStart : Nat) : Block where
  x86Start := x86Start
  riscvStart := riscvStart
  offsets := [{ x86 := 8, riscv := 8 }]
  nonempty := List.cons_ne_nil _ _

/-- Where a break-point lies in two instructions, the order is lost. -/
example :
    (run Session.step {}
      [.endBlock (wideBlock 0x12 0x1000) 0, .stop, .breakpoint 0x14, .resume,
        .endBlock (wideBlock 0x10 0x2000) 0, .stop, .breakpoint 0x15, .resume,
        .stop]).map (fun session => session.debugger.breakPoints) =
      some [⟨0x12, 0x1004⟩, ⟨0x10, 0x2004⟩] := rfl

end Debugger
end Oxtra
