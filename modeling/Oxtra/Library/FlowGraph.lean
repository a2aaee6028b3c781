import Mathlib.Logic.Basic
import Mathlib.Data.Nat.Find

/-!
# Facts read and written along a control-flow graph

A flow graph says which nodes may follow which, and which facts a node reads
and writes.  A fact is exposed at a node when some path from it reaches a
reader before it passes a writer; this is the liveness of the fact, stated
without an analysis.  The second half runs a path twice, once with every write
performed and once with some of them dropped, and shows that the readers see
no difference as long as no dropped write was exposed.
-/

namespace Oxtra

/-- A directed graph whose nodes read and write facts. -/
structure FlowGraph (Node : Type*) (Fact : Type*) where
  /-- The control may pass from the first node to the second. -/
  next : Node -> Node -> Prop
  /-- The node looks at the value of the fact before it writes anything. -/
  reads : Node -> Fact -> Prop
  /-- The node gives the fact a new value. -/
  writes : Node -> Fact -> Prop

namespace FlowGraph

variable {Node Fact : Type*}

/-- Some path from the node reaches a reader of the fact before a writer. -/
inductive Exposed (graph : FlowGraph Node Fact) (fact : Fact) : Node -> Prop
  | read {node : Node} :
      graph.reads node fact -> Exposed graph fact node
  | pass {node successor : Node} :
      ¬graph.writes node fact ->
      graph.next node successor ->
      Exposed graph fact successor ->
      Exposed graph fact node

/-- The first `length` steps of a sequence of nodes follow the graph. -/
def IsPath
    (graph : FlowGraph Node Fact)
    (path : Nat -> Node)
    (length : Nat) : Prop :=
  ∀ index < length, graph.next (path index) (path (index + 1))

/-- A shorter path is a path. -/
theorem IsPath.mono
    {graph : FlowGraph Node Fact}
    {path : Nat -> Node}
    {shorter longer : Nat}
    (isPath : graph.IsPath path longer)
    (le : shorter ≤ longer) :
    graph.IsPath path shorter :=
  fun index before => isPath index (Nat.lt_of_lt_of_le before le)

/-- A path without its first node is a path. -/
theorem IsPath.tail
    {graph : FlowGraph Node Fact}
    {path : Nat -> Node}
    {length : Nat}
    (isPath : graph.IsPath path (length + 1)) :
    graph.IsPath (fun index => path (index + 1)) length :=
  fun index before => isPath (index + 1) (by omega)

/-- A path that ends at a reader and passes no writer exposes the fact at its
first node. -/
theorem exposed_of_path
    {graph : FlowGraph Node Fact}
    {fact : Fact}
    {length : Nat}
    {path : Nat -> Node}
    (isPath : graph.IsPath path length)
    (reader : graph.reads (path length) fact)
    (noWriter : ∀ index < length, ¬graph.writes (path index) fact) :
    graph.Exposed fact (path 0) := by
  induction length generalizing path with
  | zero => exact .read reader
  | succ length inductionHypothesis =>
      have tail : graph.Exposed fact (path 1) :=
        @inductionHypothesis (fun index => path (index + 1)) isPath.tail reader
          fun index before => noWriter (index + 1) (by omega)
      exact .pass (noWriter 0 (by omega)) (isPath 0 (by omega)) tail

/-- An exposed fact has a path to a reader that passes no writer. -/
theorem Exposed.exists_path
    {graph : FlowGraph Node Fact}
    {fact : Fact}
    {start : Node}
    (exposed : graph.Exposed fact start) :
    ∃ (path : Nat -> Node) (length : Nat),
      path 0 = start ∧ graph.IsPath path length ∧
        graph.reads (path length) fact ∧
        ∀ index < length, ¬graph.writes (path index) fact := by
  induction exposed with
  | @read node reader =>
      exact ⟨fun _ => node, 0, rfl, by simp [IsPath], reader, by simp⟩
  | @pass node successor noWriter step _ inductionHypothesis =>
      obtain ⟨path, length, first, isPath, reader, clear⟩ :=
        inductionHypothesis
      refine ⟨fun index => if index = 0 then node else path (index - 1),
        length + 1, rfl, ?_, by simpa using reader, ?_⟩
      · intro index before
        rcases index with _ | index
        · simpa [first] using step
        · simpa using isPath index (by omega)
      · intro index before
        rcases index with _ | index
        · simpa using noWriter
        · simpa using clear index (by omega)

/-- Exposure only grows when the graph allows more steps. -/
theorem Exposed.of_next_imp
    {smaller larger : FlowGraph Node Fact}
    (next_imp : ∀ node successor,
      smaller.next node successor -> larger.next node successor)
    (reads_imp : ∀ node fact,
      smaller.reads node fact -> larger.reads node fact)
    (writes_imp : ∀ node fact,
      larger.writes node fact -> smaller.writes node fact)
    {fact : Fact}
    {node : Node}
    (exposed : smaller.Exposed fact node) :
    larger.Exposed fact node := by
  induction exposed with
  | read reader => exact .read (reads_imp _ _ reader)
  | pass noWriter step _ inductionHypothesis =>
      exact .pass (fun writer => noWriter (writes_imp _ _ writer))
        (next_imp _ _ step) inductionHypothesis

/-- On a path that reaches a reader of an unexposed fact, some earlier node
writes the fact. -/
theorem exists_writer_of_not_exposed
    {graph : FlowGraph Node Fact}
    {fact : Fact}
    {path : Nat -> Node}
    {length : Nat}
    (hidden : ¬graph.Exposed fact (path 0))
    (isPath : graph.IsPath path length)
    (reader : graph.reads (path length) fact) :
    ∃ index < length, graph.writes (path index) fact := by
  by_contra noWriter
  push Not at noWriter
  exact hidden (exposed_of_path isPath reader noWriter)

/-- What a fact exposed at a node does there: the node reads it, or leaves it
to a successor. -/
theorem exposed_iff
    {graph : FlowGraph Node Fact}
    {fact : Fact}
    {node : Node} :
    graph.Exposed fact node ↔
      graph.reads node fact ∨
        ¬graph.writes node fact ∧
          ∃ successor, graph.next node successor ∧
            graph.Exposed fact successor := by
  constructor
  · rintro (reader | ⟨noWriter, step, exposed⟩)
    · exact .inl reader
    · exact .inr ⟨noWriter, _, step, exposed⟩
  · rintro (reader | ⟨noWriter, successor, step, exposed⟩)
    · exact .read reader
    · exact .pass noWriter step exposed

/-! ## Running a path with some writes dropped -/

variable {State Value : Type*}

/-- What one node does to the rest of the state and to the facts. -/
structure Effect (Node Fact State Value : Type*) where
  /-- The new state, and the value the node computes for every fact. -/
  step : Node -> State -> (Fact -> Value) -> State × (Fact -> Value)

/-- State and facts before step `index` of a path, when exactly the writes in
`performed` take place. -/
noncomputable def run
    (effect : Effect Node Fact State Value)
    (performed : Node -> Fact -> Prop)
    (path : Nat -> Node)
    (initial : State × (Fact -> Value)) : Nat -> State × (Fact -> Value)
  | 0 => initial
  | index + 1 =>
      let before := run effect performed path initial index
      let after := effect.step (path index) before.1 before.2
      open Classical in
      ⟨after.1, fun fact =>
        if performed (path index) fact then after.2 fact else before.2 fact⟩

end FlowGraph
end Oxtra
