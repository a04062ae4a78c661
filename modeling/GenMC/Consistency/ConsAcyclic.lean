import GenMC.Execution.SequentialConsistency
import GenMC.Library.EdgeClosure
import GenMC.Library.GraphSearch
import GenMC.Verification.Revisits

/-!
# The consistency check for sequential consistency

A graph is consistent when program order, reads-from, coherence, from-read, thread creation, joins
and linearization edges have no cycle together.  The checker looks for a cycle by a depth-first
search, either from one label, after this label has been added or changed, or from all labels in
the order in which they were added.  It does not follow the relations themselves, but a part of
them that has the same paths: the next label of the thread, the next write in coherence, and the
first write after the one that is read.

* `ConsEdge` collects the edges that the search follows.
* `isConsistent_eq_some_true_iff`: the search from a label finds the cycles that can be reached from
  it, and nothing else.
* `isConsistentGraph_eq_some_true_iff`: the search from all labels decides whether there is a cycle.

The source counts the nodes that are entered, but does not use the count: the condition that it is
part of is always true.
-/

set_option autoImplicit false

namespace GenMC

open Relation

namespace ExecutionGraph

variable {g : ExecutionGraph}

/-! ## Successors -/

/-- The begin of a created thread. -/
def tcSucc (g : ExecutionGraph) (lab : EventLabel) : Option Event :=
  if lab.kind = .ThreadCreate then (g.getFirstThreadLabel lab.childId).map (·.pos) else none

/-- The join that waits for the end of a thread. -/
def tjSucc (lab : EventLabel) : Option Event :=
  if lab.kind = .ThreadFinish then lab.parentJoin else none

/-- The begins of methods that are linearized after the end of one. -/
def linSuccsOf (lab : EventLabel) : List Event :=
  if lab.kind = .MethodEnd then lab.linSuccs else []

/-- The ends of methods that are linearized before the begin of one. -/
def linPredsOf (lab : EventLabel) : List Event :=
  if lab.kind = .MethodBegin then lab.linPreds else []

/-- The reads that read from a write. -/
def rfSuccs (lab : EventLabel) : List Event := if lab.isWrite then lab.readers else []

/-- The next write in coherence. -/
def coImmSucc (g : ExecutionGraph) (lab : EventLabel) : Option Event := (g.coSuccs lab).head?

/-- The first write in coherence after the one that is read. -/
def frImmSucc (g : ExecutionGraph) (lab : EventLabel) : Option Event := (g.frSuccs lab).head?

end ExecutionGraph

open ExecutionGraph

namespace SCChecker

variable {g : ExecutionGraph} {a b e : Event} {lab : EventLabel}

/-! ## The check -/

/-- What `visitConsAcyclic1_0` goes over at a label, in its order. -/
def consSuccs (g : ExecutionGraph) (e : Event) : List (Option Event) :=
  match g.getEventLabel e with
  | none => []
  | some lab => ((tcSucc g lab).toList ++ (tjSucc lab).toList ++ linSuccsOf lab ++ rfSuccs lab ++
      (coImmSucc g lab).toList ++ (frImmSucc g lab).toList ++
      ((g.poImmSucc lab).map (·.pos)).toList).map some

/-- The fuel of a search: the number of labels. -/
def searchFuel (g : ExecutionGraph) : ℕ := g.insertionOrder.length

/-- A search from one label.  The statuses are kept in a vector, under the stamps of the labels. -/
def visitConsAcyclic1 (g : ExecutionGraph) (e : Event) : Option Bool :=
  GraphSearch.searchFrom g.stampAt (consSuccs g) true (searchFuel g) [e]

/-- A search from all labels. -/
def visitConsAcyclic1Full (g : ExecutionGraph) : Option Bool :=
  GraphSearch.searchFrom g.stampAt (consSuccs g) true (searchFuel g) g.insertionOrder

/-- The check for one label. -/
def isConsistent (g : ExecutionGraph) (e : Event) : Option Bool := visitConsAcyclic1 g e

/-- The check for a whole graph. -/
def isConsistentGraph (g : ExecutionGraph) : Option Bool := visitConsAcyclic1Full g

/-! ## The edges of the search -/

/-- The edges that the search follows. -/
inductive ConsEdge (g : ExecutionGraph) : Event → Event → Prop
  | tc {a b : Event} {lab : EventLabel} (h : g.getEventLabel a = some lab)
      (hb : tcSucc g lab = some b) : ConsEdge g a b
  | tj {a b : Event} {lab : EventLabel} (h : g.getEventLabel a = some lab)
      (hb : tjSucc lab = some b) : ConsEdge g a b
  | lin {a b : Event} {lab : EventLabel} (h : g.getEventLabel a = some lab)
      (hb : b ∈ linSuccsOf lab) : ConsEdge g a b
  | rf {a b : Event} {lab : EventLabel} (h : g.getEventLabel a = some lab)
      (hb : b ∈ rfSuccs lab) : ConsEdge g a b
  | co {a b : Event} {lab : EventLabel} (h : g.getEventLabel a = some lab)
      (hb : coImmSucc g lab = some b) : ConsEdge g a b
  | fr {a b : Event} {lab : EventLabel} (h : g.getEventLabel a = some lab)
      (hb : frImmSucc g lab = some b) : ConsEdge g a b
  | po {a b : Event} {lab bLab : EventLabel} (h : g.getEventLabel a = some lab)
      (hb : g.poImmSucc lab = some bLab) (hpos : bLab.pos = b) : ConsEdge g a b

theorem edge_iff_consEdge : GraphSearch.Edge (consSuccs g) a b ↔ ConsEdge g a b := by
  rw [GraphSearch.Edge, consSuccs]
  cases hlab : g.getEventLabel a with
  | none =>
    refine iff_of_false List.not_mem_nil fun h => ?_
    cases h <;> simp_all
  | some lab =>
    simp only [List.mem_map, List.mem_append, Option.mem_toList, Option.some.injEq, exists_eq_right,
      Option.map_eq_some_iff]
    refine ⟨?_, fun h => ?_⟩
    · rintro ((((((h | h) | h) | h) | h) | h) | ⟨bLab, h, hpos⟩)
      · exact .tc hlab h
      · exact .tj hlab h
      · exact .lin hlab h
      · exact .rf hlab h
      · exact .co hlab h
      · exact .fr hlab h
      · exact .po hlab h hpos
    · cases h <;> simp_all

theorem edge_eq_consEdge : GraphSearch.Edge (consSuccs g) = ConsEdge g := by
  funext a b
  exact propext edge_iff_consEdge

theorem wrong_iff : GraphSearch.Wrong (consSuccs g) true e ↔ TransGen (ConsEdge g) e e := by
  rw [GraphSearch.Wrong, edge_eq_consEdge]
  refine ⟨?_, fun h => .inr ⟨rfl, h⟩⟩
  rintro (h | ⟨-, h⟩)
  · rw [consSuccs] at h
    split at h
    · exact absurd h List.not_mem_nil
    · simp at h
  · exact h

/-! ## The search is exact -/

/-- What the search relies on: labels have different stamps, and what they point to is in the
graph. -/
structure Searchable (g : ExecutionGraph) : Prop where
  slots : g.Slots
  init : ∃ lab, g.getEventLabel Event.getInit = some lab ∧ lab.kind = .Init
  order : g.insertionOrder.Nodup
  inserted : ∀ e, e ∈ g.insertionOrder ↔ (g.getEventLabel e).isSome
  stamps : ∀ e e', (g.getEventLabel e).isSome → (g.getEventLabel e').isSome →
    g.stampAt e = g.stampAt e' → e = e'
  readers : ∀ w wLab r, g.getEventLabel w = some wLab → wLab.isWrite = true → r ∈ wLab.readers →
    ∃ rLab, g.getEventLabel r = some rLab ∧ rLab.isRead = true ∧ rLab.rf = some w
  co : ∀ a, ∀ w ∈ g.co a, ∃ wLab, g.getEventLabel w = some wLab ∧ wLab.isWrite = true ∧
    wLab.addr = a
  parentJoin : ∀ e eLab j, g.getEventLabel e = some eLab → tjSucc eLab = some j →
    (g.getEventLabel j).isSome
  linSuccs : ∀ e eLab b, g.getEventLabel e = some eLab → b ∈ linSuccsOf eLab →
    (g.getEventLabel b).isSome

/-- The edges lead to labels of the graph. -/
theorem ConsEdge.isSome (hx : Searchable g) (h : ConsEdge g a b) :
    (g.getEventLabel b).isSome := by
  have hsome : ∀ {e : Event} {lab : EventLabel}, g.getEventLabel e = some lab →
      (g.getEventLabel e).isSome := fun h => by rw [h]; rfl
  cases h with
  | tc h hb =>
    rw [tcSucc] at hb
    split_ifs at hb
    obtain ⟨bLab, hbLab, rfl⟩ := Option.map_eq_some_iff.1 hb
    have hbLab' := (Option.filter_eq_some_iff.1 hbLab).1
    rw [hx.slots _ _ hbLab']
    exact hsome hbLab'
  | tj h hb => exact hx.parentJoin _ _ _ h hb
  | lin h hb => exact hx.linSuccs _ _ _ h hb
  | rf h hb =>
    rw [rfSuccs] at hb
    split_ifs at hb with hw
    · obtain ⟨rLab, hr, -⟩ := hx.readers _ _ _ h hw hb
      exact hsome hr
    · exact absurd hb List.not_mem_nil
  | co h hb =>
    obtain ⟨wLab, hw, -⟩ := hx.co _ _ (mem_co_of_mem_coSuccs (List.mem_of_head? hb))
    exact hsome hw
  | fr h hb =>
    obtain ⟨wLab, hw, -⟩ := hx.co _ _ (mem_co_of_mem_frSuccs (List.mem_of_head? hb))
    exact hsome hw
  | po h hb hpos =>
    rw [poImmSucc] at hb
    rw [← hpos, hx.slots _ _ hb]
    exact hsome hb

section Exact

variable (hx : Searchable g)
include hx

theorem mem_insertionOrder_of_consEdge (x : Event) (_ : x ∈ g.insertionOrder) (y : Event)
    (h : GraphSearch.Edge (consSuccs g) x y) : y ∈ g.insertionOrder :=
  (hx.inserted y).2 (ConsEdge.isSome hx (edge_iff_consEdge.1 h))

theorem stampAt_injective (x : Event) (hxm : x ∈ g.insertionOrder) (y : Event)
    (hy : y ∈ g.insertionOrder) (h : g.stampAt x = g.stampAt y) : x = y :=
  hx.stamps x y ((hx.inserted x).1 hxm) ((hx.inserted y).1 hy) h

/-- **The search from a label** finds the cycles that can be reached from it. -/
theorem isConsistent_eq_some_true_iff (he : (g.getEventLabel e).isSome) :
    isConsistent g e = some true ↔
      ∀ x, ReflTransGen (ConsEdge g) e x → ¬ TransGen (ConsEdge g) x x := by
  have hroots : ∀ a ∈ [e], a ∈ g.insertionOrder := by
    intro a ha
    rw [List.mem_singleton.1 ha]
    exact (hx.inserted e).2 he
  have hfuel : g.insertionOrder.length ≤ searchFuel g := le_rfl
  rw [isConsistent, visitConsAcyclic1, GraphSearch.searchFrom_eq_some_true_iff
    (mem_insertionOrder_of_consEdge hx) (stampAt_injective hx) hroots hfuel]
  simp only [List.mem_singleton, forall_eq, edge_eq_consEdge, wrong_iff]

/-- **The search from all labels** decides whether there is a cycle. -/
theorem isConsistentGraph_eq_some_true_iff :
    isConsistentGraph g = some true ↔ Acyclic (ConsEdge g) := by
  have hfuel : g.insertionOrder.length ≤ searchFuel g := le_rfl
  rw [isConsistentGraph, visitConsAcyclic1Full, GraphSearch.searchFrom_eq_some_true_iff
    (mem_insertionOrder_of_consEdge hx) (stampAt_injective hx) (fun _ h => h) hfuel]
  simp only [edge_eq_consEdge, wrong_iff]
  refine ⟨fun h x hcycle => ?_, fun h a _ x _ => h x⟩
  -- a label on a cycle is a label of the graph
  obtain ⟨y, -, hyx⟩ := TransGen.tail'_iff.1 hcycle
  exact h x ((hx.inserted x).2 (ConsEdge.isSome hx hyx)) x .refl hcycle

end Exact

end SCChecker
end GenMC
