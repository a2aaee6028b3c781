import Mathlib.Data.List.Basic
import Mathlib.Data.List.Pairwise
import Mathlib.Data.Set.Insert
import Mathlib.Order.Basic

/-!
# Snapping

Points are moved to keys that are not behind them, and all points from a key to
a point with this key may have it too.  Where each point has one key, points
keep their order.  A table of the keys of some points that is ascending has
each key once.
-/

namespace Oxtra

variable {Point : Type*} [LinearOrder Point]

/-- Some points have one key each.  It is not behind the point, and the points
between have it too. -/
structure Snapping
    (snaps : Point -> Point -> Prop)
    (points : Set Point) : Prop where
  le : ∀ {point key}, snaps point key -> key ≤ point
  constant : ∀ {point other key}, snaps other key -> key ≤ point ->
    point ≤ other -> snaps point key
  unique : ∀ {point key other}, point ∈ points -> snaps point key ->
    snaps point other -> key = other

namespace Snapping

variable {snaps : Point -> Point -> Prop} {points : Set Point}

theorem monotone
    (snapping : Snapping snaps points)
    {first second firstKey secondKey : Point}
    (memFirst : first ∈ points)
    (before : first ≤ second)
    (firstSnaps : snaps first firstKey)
    (secondSnaps : snaps second secondKey) :
    firstKey ≤ secondKey := by
  rcases le_total secondKey first with inside | outside
  · have both := snapping.constant secondSnaps inside before
    exact (snapping.unique memFirst firstSnaps both).le
  · exact (snapping.le firstSnaps).trans outside

theorem lt_of_key_lt
    (snapping : Snapping snaps points)
    {first second firstKey secondKey : Point}
    (memSecond : second ∈ points)
    (firstSnaps : snaps first firstKey)
    (secondSnaps : snaps second secondKey)
    (before : firstKey < secondKey) :
    first < second := by
  by_contra behind
  have above := snapping.monotone memSecond (le_of_not_gt behind) secondSnaps
    firstSnaps
  exact absurd before above.not_gt

/-- The key of a point before another point is not behind the other's key. -/
theorem key_le
    (snapping : Snapping snaps points)
    {first second firstKey secondKey : Point}
    (memFirst : first ∈ points)
    (memSecond : second ∈ points)
    (firstSnaps : snaps first firstKey)
    (secondSnaps : snaps second secondKey)
    (before : firstKey < second) :
    firstKey ≤ secondKey := by
  rcases le_total first second with inOrder | swapped
  · exact snapping.monotone memFirst inOrder firstSnaps secondSnaps
  · have both := snapping.constant firstSnaps before.le swapped
    exact (snapping.unique memSecond both secondSnaps).le

end Snapping

/-! ## Tables -/

/-- A table has the keys of some points, in ascending order. -/
structure KeyTable
    (snaps : Point -> Point -> Prop)
    (table : List Point)
    (points : Set Point) : Prop where
  ascending : table.Pairwise (· < ·)
  mem_iff : ∀ key, key ∈ table ↔ ∃ point ∈ points, snaps point key

namespace KeyTable

variable {snaps : Point -> Point -> Prop}
variable {table kept moved : List Point} {points : Set Point}
variable {point key : Point}

theorem nil : KeyTable snaps [] ∅ where
  ascending := List.Pairwise.nil
  mem_iff := by simp

theorem nodup (keyTable : KeyTable snaps table points) : table.Nodup :=
  keyTable.ascending.imp fun less => less.ne

/-- A point whose key is there already. -/
theorem insert_of_mem
    (keyTable : KeyTable snaps table points)
    (snapping : Snapping snaps (insert point points))
    (isKey : snaps point key)
    (there : key ∈ table) :
    KeyTable snaps table (insert point points) where
  ascending := keyTable.ascending
  mem_iff other := by
    rw [keyTable.mem_iff, Set.exists_mem_insert]
    constructor
    · exact Or.inr
    · rintro (isOther | found)
      · rw [← snapping.unique (Set.mem_insert _ _) isKey isOther]
        exact (keyTable.mem_iff key).1 there
      · exact found

/-- A point whose key is put between those before the point and the others. -/
theorem insert_between
    (keyTable : KeyTable snaps (kept ++ moved) points)
    (snapping : Snapping snaps (insert point points))
    (isKey : snaps point key)
    (below : ∀ other ∈ kept, other < key)
    (above : ∀ other ∈ moved, key < other) :
    KeyTable snaps (kept ++ key :: moved) (insert point points) where
  ascending := by
    obtain ⟨keptAscending, movedAscending, between⟩ :=
      List.pairwise_append.1 keyTable.ascending
    refine List.pairwise_append.2
      ⟨keptAscending, List.pairwise_cons.2 ⟨above, movedAscending⟩, ?_⟩
    intro first member second memberSecond
    obtain rfl | inside := List.mem_cons.1 memberSecond
    · exact below first member
    · exact between first member second inside
  mem_iff other := by
    have own : snaps point other ↔ other = key :=
      ⟨fun isOther => snapping.unique (Set.mem_insert _ _) isOther isKey,
        fun same => same ▸ isKey⟩
    rw [Set.exists_mem_insert, ← keyTable.mem_iff, own]
    simp only [List.mem_append, List.mem_cons]
    exact or_left_comm

/-- A point whose key is put between those before the point and the others,
where no neighbour has it. -/
theorem insert_of_neighbours
    (keyTable : KeyTable snaps (kept ++ moved) points)
    (snapping : Snapping snaps (insert point points))
    (isKey : snaps point key)
    (before : ∀ other ∈ kept, other < point)
    (behind : ∀ other ∈ moved, point ≤ other)
    (notLast : ∀ other ∈ kept.getLast?, other ≠ key)
    (notFirst : ∀ other ∈ moved.head?, other ≠ key) :
    KeyTable snaps (kept ++ key :: moved) (insert point points) := by
  obtain ⟨keptAscending, movedAscending, -⟩ :=
    List.pairwise_append.1 keyTable.ascending
  refine keyTable.insert_between snapping isKey ?_ ?_
  · intro other member
    obtain rfl | ⟨front, last, rfl⟩ := kept.eq_nil_or_concat'
    · cases member
    obtain ⟨lastPoint, inside, isLast⟩ := (keyTable.mem_iff last).1 (by simp)
    have reached : last < key :=
      lt_of_le_of_ne (snapping.key_le (Set.mem_insert_of_mem _ inside)
        (Set.mem_insert _ _) isLast isKey (before last (by simp)))
        (notLast last (by simp))
    obtain inFront | same := List.mem_append.1 member
    · have less := (List.pairwise_append.1 keptAscending).2.2 other inFront
        last List.mem_cons_self
      exact less.trans reached
    · rwa [List.mem_singleton.1 same]
  · intro other member
    cases moved with
    | nil => cases member
    | cons first rest =>
        have reached : key < first :=
          lt_of_le_of_ne ((snapping.le isKey).trans
            (behind first List.mem_cons_self)) (notFirst first rfl).symm
        obtain rfl | inside := List.mem_cons.1 member
        · exact reached
        · exact reached.trans ((List.pairwise_cons.1 movedAscending).1 _ inside)

/-- Without a key, and the points that have it. -/
theorem eraseIdx
    (keyTable : KeyTable snaps table points)
    (snapping : Snapping snaps points)
    {index : Nat}
    (found : table[index]? = some key) :
    KeyTable snaps (table.eraseIdx index)
      {point | point ∈ points ∧ ¬ snaps point key} where
  ascending := keyTable.ascending.sublist (List.eraseIdx_sublist table index)
  mem_iff other := by
    have inside := (List.getElem?_eq_some_iff.1 found).1
    rw [List.mem_eraseIdx_iff_getElem?]
    constructor
    · rintro ⟨position, different, there⟩
      obtain ⟨point, member, isOther⟩ :=
        (keyTable.mem_iff other).1 (List.mem_of_getElem? there)
      refine ⟨point, ⟨member, fun isKey => ?_⟩, isOther⟩
      rw [snapping.unique member isOther isKey] at there
      exact different ((List.getElem?_inj inside keyTable.nodup).1
        (found.trans there.symm)).symm
    · rintro ⟨point, ⟨member, notKey⟩, isOther⟩
      obtain ⟨position, there⟩ := List.mem_iff_getElem?.1
        ((keyTable.mem_iff other).2 ⟨point, member, isOther⟩)
      refine ⟨position, ?_, there⟩
      rintro rfl
      rw [found] at there
      obtain rfl := Option.some.inj there
      exact notKey isOther

end KeyTable
end Oxtra
