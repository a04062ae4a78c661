import GenMC.Execution.LabelRemoval
import GenMC.Relinche.Construction
import GenMC.Relinche.LinearizabilityChecker

/-!
# Trying a hint

`checkHint` adds the edges of a hint to an execution graph, from the ends of methods to begins of
others, asks whether the graph is still consistent, and removes them again if it is not.  An edge is
kept with both of its labels.  When an edge is added, it is asserted that it is not there yet.

* `addEdges_graph`, `asserted_addEdges_iff`: edges are added to both sides, and **the assertions
  hold exactly if no edge comes twice**.
* `checkHint_graph`: **if the graph is not consistent, it is afterwards what it was before**.  Edges
  are removed by label, so that it does not matter how often one was added.
* `combineHints_asserted_iff`: combined hints come without an edge twice if and only if hints of
  different records have no edge in common (`HintsApart`).
* `queueThreads_asserts`: it happens that they have.
* `checkGraphHints_eq`: the loop over all hints looks at each of them by itself.
-/

set_option autoImplicit false

namespace GenMC

/-- An edge from the end of a method to the begin of another one. -/
abbrev LinEdge := Event × Event

namespace ExecutionGraph

/-! ## The code -/

/-- `lin_succs`. -/
def linSuccs (g : ExecutionGraph) (endLab : Event) : List Event :=
  ((g.getEventLabel endLab).map (·.linSuccs)).getD []

/-- `lin_preds`. -/
def linPreds (g : ExecutionGraph) (begLab : Event) : List Event :=
  ((g.getEventLabel begLab).map (·.linPreds)).getD []

/-- A graph, and whether all assertions on the way to it held. -/
structure Asserted where
  graph : ExecutionGraph
  asserted : Bool

/-- `addPredNoCascade`. -/
def addPredNoCascade (begLab predLab : Event) (s : Asserted) : Asserted where
  graph := s.graph.modify begLab fun lab => { lab with linPreds := lab.linPreds ++ [predLab] }
  asserted := s.asserted && !(s.graph.linPreds begLab).contains predLab

/-- `addSucc`. -/
def addSucc (endLab succLab : Event) (s : Asserted) : Asserted :=
  addPredNoCascade succLab endLab
    { graph := s.graph.modify endLab fun lab => { lab with linSuccs := lab.linSuccs ++ [succLab] }
      asserted := s.asserted && !(s.graph.linSuccs endLab).contains succLab }

/-- `removePredNoCascade`. -/
def removePredNoCascade (begLab : Event) (cond : Event → Bool) (g : ExecutionGraph) :
    ExecutionGraph :=
  g.modify begLab fun lab => { lab with linPreds := lab.linPreds.filter fun p => !cond p }

/-- `removeSucc`.  What is removed is removed from the predecessors of the successors as well. -/
def removeSucc (endLab : Event) (cond : Event → Bool) (g : ExecutionGraph) : ExecutionGraph :=
  (((g.linSuccs endLab).filter cond).foldl
    (fun g begLab => g.removePredNoCascade begLab fun p => p = endLab) g).modify endLab
      fun lab => { lab with linSuccs := lab.linSuccs.filter fun p => !cond p }

end ExecutionGraph

/-- The edges between labels that stand for the edges of a hint. -/
def GraphObservation.extEdges (obs : GraphObservation) (hint : Hint) : List LinEdge :=
  hint.edges.map fun edge => ((obs.getCall edge.first).endLab, (obs.getCall edge.second).beginLab)

/-- What an error says about an extension: its edges, and the threads they are between. -/
structure LinearizabilityExtensionError where
  extensionEdges : List LinEdge
  kcEdges : List ((ℤ × ℤ) × (ℤ × ℤ))
deriving DecidableEq, Repr

namespace LinearizabilityExtensionError

/-- The order of pairs of events. -/
def edgeLe (a b : LinEdge) : Bool :=
  [a.1.thread, a.1.index, a.2.thread, a.2.index] ≤ [b.1.thread, b.1.index, b.2.thread, b.2.index]

/-- The order of pairs of threads. -/
def kcLe (a b : (ℤ × ℤ) × (ℤ × ℤ)) : Bool :=
  [a.1.1, a.1.2, a.2.1, a.2.2] ≤ [b.1.1, b.1.2, b.2.1, b.2.2]

/-- The constructor. -/
def construct (extensionEdges : List LinEdge) (kcEdges : List ((ℤ × ℤ) × (ℤ × ℤ))) :
    LinearizabilityExtensionError where
  extensionEdges := extensionEdges.mergeSort edgeLe
  kcEdges := kcEdges.mergeSort kcLe

end LinearizabilityExtensionError

/-- What a hint leads to: an error or nothing, and the graph. -/
structure HintCheck extends ExecutionGraph.Asserted where
  status : Option LinearizabilityExtensionError

section Check

variable (isCoherentRelinche isConsistent : ExecutionGraph → Bool)

/-- `checkHint`. -/
def checkHint (graph : ExecutionGraph) (obs : GraphObservation) (hint : Hint) : HintCheck :=
  let edges := obs.extEdges hint
  let s := edges.foldl (fun s edge => ExecutionGraph.addSucc edge.1 edge.2 s) ⟨graph, true⟩
  if isCoherentRelinche s.graph && isConsistent s.graph then
    let kcEdges := hint.edges.map fun edge =>
      ((obs.getCall edge.first).thdKC, (obs.getCall edge.second).thdKC)
    { s with status := some (.construct edges kcEdges) }
  else
    { graph := edges.foldl (fun g edge => g.removeSucc edge.1 fun _ => true) s.graph
      asserted := s.asserted
      status := none }

/-- The second phase of `refinesSpec`, on a graph: the error, the number of hints that were tried,
and the graph at the end. -/
def checkGraphHints (obs : GraphObservation) :
    List Hint → ExecutionGraph → Option LinearizabilityExtensionError × ℕ × ExecutionGraph
  | [], graph => (none, 0, graph)
  | hint :: hints, graph =>
    let r := checkHint isCoherentRelinche isConsistent graph obs hint
    if r.status.isSome then (r.status, 1, r.graph)
    else
      let (status, hintsChecked, graph) := checkGraphHints obs hints r.graph
      (status, hintsChecked + 1, graph)

end Check

/-! ## Adding edges -/

namespace LinEdge

/-- Where the edges from a label go. -/
def succs (edges : List LinEdge) (e : Event) : List Event := (edges.filter (·.1 = e)).map Prod.snd

/-- Where the edges to a label come from. -/
def preds (edges : List LinEdge) (e : Event) : List Event := (edges.filter (·.2 = e)).map Prod.fst

variable {edges edges' : List LinEdge} {a b e : Event}

theorem mem_succs : b ∈ succs edges a ↔ (a, b) ∈ edges := by
  simp [succs]

theorem mem_preds : a ∈ preds edges b ↔ (a, b) ∈ edges := by
  simp [preds]

@[simp] theorem succs_nil (e : Event) : succs [] e = [] := rfl

@[simp] theorem preds_nil (e : Event) : preds [] e = [] := rfl

@[simp] theorem succs_append (edges edges' : List LinEdge) (e : Event) :
    succs (edges ++ edges') e = succs edges e ++ succs edges' e := by
  rw [succs, List.filter_append, List.map_append, succs, succs]

@[simp] theorem preds_append (edges edges' : List LinEdge) (e : Event) :
    preds (edges ++ edges') e = preds edges e ++ preds edges' e := by
  rw [preds, List.filter_append, List.map_append, preds, preds]

theorem succs_singleton (a b e : Event) : succs [(a, b)] e = if e = a then [b] else [] := by
  by_cases h : e = a
  · simp [succs, h]
  · simp [succs, h, Ne.symm h]

theorem preds_singleton (a b e : Event) : preds [(a, b)] e = if e = b then [a] else [] := by
  by_cases h : e = b
  · simp [preds, h]
  · simp [preds, h, Ne.symm h]

theorem succs_filter_ne (edges : List LinEdge) (a e : Event) :
    succs (edges.filter (·.1 ≠ a)) e = if e = a then [] else succs edges e := by
  rw [succs, List.filter_filter]
  split
  · rename_i h
    subst h
    simp
  · rename_i h
    rw [succs]
    congr 1
    refine List.filter_congr fun p _ => ?_
    by_cases hp : p.1 = e <;> simp [hp, h]

theorem preds_filter_ne (edges : List LinEdge) (a e : Event) :
    preds (edges.filter (·.1 ≠ a)) e = (preds edges e).filter (· ≠ a) := by
  rw [preds, preds, List.filter_map, List.filter_filter, List.filter_filter]
  congr 1
  exact List.filter_congr fun p _ => Bool.and_comm _ _

theorem filter_preds_of_notMem (h : e ∉ succs edges a) :
    (preds edges e).filter (· ≠ a) = preds edges e := by
  refine List.filter_eq_self.2 fun x hx => decide_eq_true ?_
  rintro rfl
  exact h (mem_succs.2 (mem_preds.1 hx))

end LinEdge

/-- A label with some more edges. -/
def EventLabel.withEdges (edges : List LinEdge) (lab : EventLabel) : EventLabel :=
  { lab with
    linPreds := lab.linPreds ++ LinEdge.preds edges lab.pos
    linSuccs := lab.linSuccs ++ LinEdge.succs edges lab.pos }

namespace ExecutionGraph

variable {g : ExecutionGraph} {edges : List LinEdge}

/-- No label has a linearization edge. -/
def NoLinEdges (g : ExecutionGraph) : Prop :=
  ∀ lab ∈ g.labels, lab.linPreds = [] ∧ lab.linSuccs = []

instance : Decidable g.NoLinEdges :=
  inferInstanceAs (Decidable (∀ lab ∈ g.labels, lab.linPreds = [] ∧ lab.linSuccs = []))

theorem mapLabels_congr {f f' : EventLabel → EventLabel} (h : ∀ lab ∈ g.labels, f lab = f' lab) :
    g.mapLabels f = g.mapLabels f' := by
  have hevents : g.events.map (·.map f) = g.events.map (·.map f') :=
    List.map_congr_left fun thread hthread => List.map_congr_left fun lab hlab =>
      h lab (List.mem_flatten.2 ⟨thread, hthread, hlab⟩)
  rw [mapLabels, mapLabels, hevents]

theorem mapLabels_withEdges_nil : g.mapLabels (EventLabel.withEdges []) = g :=
  mapLabels_of_eq fun lab => by simp [EventLabel.withEdges]

theorem mapLabels_withEdges_append (edges edges' : List LinEdge) :
    (g.mapLabels (EventLabel.withEdges edges)).mapLabels (EventLabel.withEdges edges') =
      g.mapLabels (EventLabel.withEdges (edges ++ edges')) := by
  rw [mapLabels_mapLabels]
  refine mapLabels_congr fun lab _ => ?_
  simp [EventLabel.withEdges]

theorem addSucc_graph (endLab succLab : Event) (s : Asserted) :
    (addSucc endLab succLab s).graph =
      s.graph.mapLabels (EventLabel.withEdges [(endLab, succLab)]) := by
  rw [addSucc, addPredNoCascade]
  simp only [modify]
  rw [mapLabels_mapLabels]
  refine mapLabels_congr fun lab _ => ?_
  rw [Function.comp_apply, EventLabel.withEdges, LinEdge.succs_singleton, LinEdge.preds_singleton]
  obtain rfl | hend := eq_or_ne endLab lab.pos
  · obtain rfl | hsucc := eq_or_ne succLab lab.pos
    · simp
    · simp [hsucc.symm]
  · obtain rfl | hsucc := eq_or_ne succLab lab.pos
    · simp [hend.symm]
    · simp [hend.symm, hsucc.symm]

/-- **Edges are added on both sides.** -/
theorem addEdges_graph (edges : List LinEdge) (s : Asserted) :
    (edges.foldl (fun s edge => addSucc edge.1 edge.2 s) s).graph =
      s.graph.mapLabels (EventLabel.withEdges edges) := by
  induction edges generalizing s with
  | nil => exact mapLabels_withEdges_nil.symm
  | cons edge edges ih =>
    rw [List.foldl_cons, ih, addSucc_graph, mapLabels_withEdges_append]
    rfl

theorem getEventLabel_pos_of_mem (hslots : g.Slots) (hnone : g.NoLinEdges) {e : Event}
    {lab : EventLabel} (h : g.getEventLabel e = some lab) :
    lab.pos = e ∧ lab.linPreds = [] ∧ lab.linSuccs = [] :=
  ⟨hslots e lab h, hnone lab (mem_labels.2 ⟨e, h⟩)⟩

/-- In a graph without linearization edges, the edges that were added are all there are. -/
theorem linSuccs_withEdges (hslots : g.Slots) (hnone : g.NoLinEdges) {e : Event}
    (he : (g.getEventLabel e).isSome) :
    (g.mapLabels (EventLabel.withEdges edges)).linSuccs e = LinEdge.succs edges e := by
  obtain ⟨lab, hlab⟩ := Option.isSome_iff_exists.1 he
  obtain ⟨hpos, -, hsuccs⟩ := getEventLabel_pos_of_mem hslots hnone hlab
  rw [linSuccs, getEventLabel_mapLabels, hlab]
  simp [EventLabel.withEdges, hpos, hsuccs]

theorem linPreds_withEdges (hslots : g.Slots) (hnone : g.NoLinEdges) {e : Event}
    (he : (g.getEventLabel e).isSome) :
    (g.mapLabels (EventLabel.withEdges edges)).linPreds e = LinEdge.preds edges e := by
  obtain ⟨lab, hlab⟩ := Option.isSome_iff_exists.1 he
  obtain ⟨hpos, hpreds, -⟩ := getEventLabel_pos_of_mem hslots hnone hlab
  rw [linPreds, getEventLabel_mapLabels, hlab]
  simp [EventLabel.withEdges, hpos, hpreds]

theorem linPreds_modify (x e : Event) {f : EventLabel → EventLabel}
    (hf : ∀ lab, (f lab).linPreds = lab.linPreds) : (g.modify x f).linPreds e = g.linPreds e := by
  rw [linPreds, linPreds, getEventLabel_modify]
  cases g.getEventLabel e with
  | none => rfl
  | some lab =>
    simp only [Option.map_some, Option.getD_some]
    split
    · exact hf lab
    · rfl

/-- The assertions for an edge hold if the edge is not there yet. -/
theorem asserted_addSucc_iff (hslots : g.Slots) (hnone : g.NoLinEdges) {edge : LinEdge}
    {s : Asserted} (hs : s.graph = g.mapLabels (EventLabel.withEdges edges))
    (hend : (g.getEventLabel edge.1).isSome) (hbeg : (g.getEventLabel edge.2).isSome) :
    (addSucc edge.1 edge.2 s).asserted = true ↔ s.asserted = true ∧ edge ∉ edges := by
  have hsuccs : edge.2 ∈ s.graph.linSuccs edge.1 ↔ edge ∈ edges := by
    rw [hs, linSuccs_withEdges hslots hnone hend, LinEdge.mem_succs]
  have hpreds : edge.1 ∈ (s.graph.modify edge.1 fun lab =>
      { lab with linSuccs := lab.linSuccs ++ [edge.2] }).linPreds edge.2 ↔ edge ∈ edges := by
    rw [linPreds_modify, hs, linPreds_withEdges hslots hnone hbeg, LinEdge.mem_preds]
    exact fun _ => rfl
  simp only [addSucc, addPredNoCascade, Bool.and_eq_true, Bool.not_eq_true', List.contains_eq_mem,
    decide_eq_false_iff_not, hsuccs, hpreds, and_assoc, and_self]

/-- **The assertions hold exactly if no edge comes twice.** -/
theorem asserted_addEdges_iff (hslots : g.Slots) (hnone : g.NoLinEdges)
    (hlabels : ∀ edge ∈ edges, (g.getEventLabel edge.1).isSome ∧ (g.getEventLabel edge.2).isSome) :
    (edges.foldl (fun s edge => addSucc edge.1 edge.2 s) ⟨g, true⟩).asserted = true ↔
      edges.Nodup := by
  induction edges using List.reverseRecOn with
  | nil => exact iff_of_true rfl List.nodup_nil
  | append_singleton edges edge ih =>
    rw [List.forall_mem_append] at hlabels
    obtain ⟨hend, hbeg⟩ := hlabels.2 edge (List.mem_singleton_self edge)
    rw [List.foldl_append, List.foldl_cons, List.foldl_nil,
      asserted_addSucc_iff hslots hnone (addEdges_graph edges ⟨g, true⟩) hend hbeg,
      ih hlabels.1, ← List.concat_eq_append, List.nodup_concat, and_comm]

/-! ## Removing edges -/

theorem foldl_removePredNoCascade (endLab : Event) (begLabs : List Event) (g : ExecutionGraph) :
    begLabs.foldl (fun g begLab => g.removePredNoCascade begLab fun p => p = endLab) g =
      g.mapLabels fun lab => if lab.pos ∈ begLabs then
        { lab with linPreds := lab.linPreds.filter fun p => p ≠ endLab } else lab := by
  induction begLabs generalizing g with
  | nil => exact (mapLabels_of_eq fun lab => if_neg List.not_mem_nil).symm
  | cons begLab begLabs ih =>
    rw [List.foldl_cons, ih, removePredNoCascade, modify, mapLabels_mapLabels]
    refine mapLabels_congr fun lab _ => ?_
    obtain rfl | hne := eq_or_ne begLab lab.pos
    · by_cases hmem : lab.pos ∈ begLabs <;> simp [hmem]
    · simp [hne.symm]

/-- Removing what comes after a label removes its edges. -/
theorem removeSucc_withEdges (hslots : g.Slots) (hnone : g.NoLinEdges) {endLab : Event}
    (hend : (g.getEventLabel endLab).isSome) :
    (g.mapLabels (EventLabel.withEdges edges)).removeSucc endLab (fun _ => true) =
      g.mapLabels (EventLabel.withEdges (edges.filter (·.1 ≠ endLab))) := by
  rw [removeSucc, List.filter_true, linSuccs_withEdges hslots hnone hend,
    foldl_removePredNoCascade, modify, mapLabels_mapLabels, mapLabels_mapLabels]
  refine mapLabels_congr fun lab hlab => ?_
  obtain ⟨hpreds, hsuccs⟩ := hnone lab hlab
  -- a label that `endLab` has no edge to has nothing to lose
  have hfilter : (if lab.pos ∈ LinEdge.succs edges endLab then
      (LinEdge.preds edges lab.pos).filter (· ≠ endLab) else LinEdge.preds edges lab.pos) =
        (LinEdge.preds edges lab.pos).filter (· ≠ endLab) := by
    split
    · rfl
    · rename_i h
      exact (LinEdge.filter_preds_of_notMem h).symm
  simp only [Function.comp_apply, EventLabel.withEdges, LinEdge.succs_filter_ne,
    LinEdge.preds_filter_ne, hpreds, hsuccs, List.nil_append]
  rw [← hfilter]
  by_cases hmem : lab.pos ∈ LinEdge.succs edges endLab
  · obtain rfl | hne := eq_or_ne endLab lab.pos
    · simp [hmem]
    · simp [hmem, hne.symm]
  · obtain rfl | hne := eq_or_ne endLab lab.pos
    · simp [hmem]
    · simp [hmem, hne.symm]

/-- **Removing the edges of all sources** leaves no edge. -/
theorem foldl_removeSucc (hslots : g.Slots) (hnone : g.NoLinEdges) {removed : List LinEdge}
    (hlabels : ∀ edge ∈ removed, (g.getEventLabel edge.1).isSome)
    (hall : ∀ edge ∈ edges, edge ∈ removed) :
    removed.foldl (fun g edge => g.removeSucc edge.1 fun _ => true)
      (g.mapLabels (EventLabel.withEdges edges)) = g := by
  induction removed generalizing edges with
  | nil =>
    rw [List.eq_nil_iff_forall_not_mem.2 fun edge hedge => List.not_mem_nil (hall edge hedge)]
    exact mapLabels_withEdges_nil
  | cons edge removed ih =>
    obtain ⟨hend, hlabels⟩ := List.forall_mem_cons.1 hlabels
    rw [List.foldl_cons, removeSucc_withEdges hslots hnone hend]
    refine ih hlabels fun edge' hedge' => ?_
    obtain ⟨hmem, hne⟩ := List.mem_filter.1 hedge'
    refine (List.mem_cons.1 (hall edge' hmem)).resolve_left ?_
    rintro rfl
    simp at hne

end ExecutionGraph

/-! ## Trying one hint -/

section Try

open ExecutionGraph

variable {g : ExecutionGraph} {obs : GraphObservation}
  {isCoherentRelinche isConsistent : ExecutionGraph → Bool}

/-- The labels of the calls are in the graph.  So is the initializer, which stands for the labels of
ids that are out of range. -/
def GraphObservation.Labelled (obs : GraphObservation) (g : ExecutionGraph) : Prop :=
  ∀ id, (g.getEventLabel (obs.getCall id).beginLab).isSome ∧
    (g.getEventLabel (obs.getCall id).endLab).isSome

theorem GraphObservation.Labelled.extEdges (h : obs.Labelled g) {hint : Hint} :
    ∀ edge ∈ obs.extEdges hint,
      (g.getEventLabel edge.1).isSome ∧ (g.getEventLabel edge.2).isSome := by
  intro edge hedge
  obtain ⟨p, -, rfl⟩ := List.mem_map.1 hedge
  exact ⟨(h p.first).2, (h p.second).1⟩

/-- The graph with the edges of a hint. -/
def ExecutionGraph.withHint (g : ExecutionGraph) (obs : GraphObservation) (hint : Hint) :
    ExecutionGraph :=
  g.mapLabels (EventLabel.withEdges (obs.extEdges hint))

/-- Whether a hint is accepted. -/
def accepts (isCoherentRelinche isConsistent : ExecutionGraph → Bool) (g : ExecutionGraph)
    (obs : GraphObservation) (hint : Hint) : Bool :=
  isCoherentRelinche (g.withHint obs hint) && isConsistent (g.withHint obs hint)

theorem checkHint_asserted_iff (hslots : g.Slots) (hnone : g.NoLinEdges) (hobs : obs.Labelled g)
    (hint : Hint) :
    (checkHint isCoherentRelinche isConsistent g obs hint).asserted = true ↔
      (obs.extEdges hint).Nodup := by
  rw [← asserted_addEdges_iff hslots hnone hobs.extEdges, checkHint]
  simp only
  split <;> rfl

theorem checkHint_status_isSome (hint : Hint) :
    (checkHint isCoherentRelinche isConsistent g obs hint).status.isSome =
      accepts isCoherentRelinche isConsistent g obs hint := by
  rw [checkHint, accepts, withHint, ← addEdges_graph _ ⟨g, true⟩]
  simp only
  split
  · rename_i h
    rw [h]
    rfl
  · rename_i h
    rw [Bool.eq_false_iff.2 h]
    rfl

/-- **A hint that is not accepted leaves no trace.** -/
theorem checkHint_graph (hslots : g.Slots) (hnone : g.NoLinEdges) (hobs : obs.Labelled g)
    {hint : Hint} (h : (checkHint isCoherentRelinche isConsistent g obs hint).status = none) :
    (checkHint isCoherentRelinche isConsistent g obs hint).graph = g := by
  rw [checkHint] at h ⊢
  simp only at h ⊢
  split at h
  · cases h
  · rename_i hc
    rw [if_neg hc]
    simp only
    rw [addEdges_graph]
    exact foldl_removeSucc hslots hnone (fun edge hedge => (hobs.extEdges edge hedge).1)
      fun _ hedge => hedge

/-- **The loop over all hints looks at each of them by itself**, and changes nothing if it finds
nothing. -/
theorem checkGraphHints_eq (hslots : g.Slots) (hnone : g.NoLinEdges) (hobs : obs.Labelled g)
    (hints : List Hint) :
    let r := checkGraphHints isCoherentRelinche isConsistent obs hints g
    let r' := checkHints (accepts isCoherentRelinche isConsistent g obs) hints
    r.1.isSome = r'.1.isSome ∧ r.2.1 = r'.2 ∧ (r.1 = none → r.2.2 = g) := by
  induction hints with
  | nil => exact ⟨rfl, rfl, fun _ => rfl⟩
  | cons hint hints ih =>
    simp only [checkGraphHints, checkHints]
    rw [checkHint_status_isSome]
    split
    · rename_i haccepts
      have hsome := (checkHint_status_isSome hint).trans haccepts
      exact ⟨hsome, rfl, fun h => absurd h (Option.isSome_iff_ne_none.1 hsome)⟩
    · rename_i hrejects
      rw [← checkHint_status_isSome, Option.not_isSome_iff_eq_none] at hrejects
      rw [checkHint_graph hslots hnone hobs hrejects]
      exact ⟨ih.1, congrArg (· + 1) ih.2.1, ih.2.2⟩

/-! ## Combinations of hints -/

/-- The hints of a record that are combined with others. -/
def Observation.combinedHints (obs : Observation) (kv : Observation × Record) : List Hint :=
  kv.2.hints.filter obs.isNotSymmetricHint

/-- Hints of different records have no edge between labels in common, and no hint has one twice. -/
structure HintsApart (spec : Specification) (obs : GraphObservation) : Prop where
  nodup : ∀ kv ∈ spec.refinedObservations obs.toObservation,
    ∀ hint ∈ obs.toObservation.combinedHints kv, (obs.extEdges hint).Nodup
  disjoint : (spec.refinedObservations obs.toObservation).Pairwise fun kv kv' =>
    ∀ hint ∈ obs.toObservation.combinedHints kv, ∀ hint' ∈ obs.toObservation.combinedHints kv',
      List.Disjoint (obs.extEdges hint) (obs.extEdges hint')

/-- A record without hints, so that there are no combinations. -/
def NothingToCombine (spec : Specification) (obs : Observation) : Prop :=
  ∃ kv ∈ spec.refinedObservations obs, obs.combinedHints kv = []

theorem exists_forall₂_mem {hs : List (List Hint)} (hne : [] ∉ hs) :
    ∃ picks, List.Forall₂ (· ∈ ·) picks hs := by
  induction hs with
  | nil => exact ⟨[], .nil⟩
  | cons hints hs ih =>
    rw [List.mem_cons, not_or] at hne
    obtain ⟨picks, hpicks⟩ := ih hne.2
    obtain ⟨hint, hints, rfl⟩ := List.exists_cons_of_ne_nil (Ne.symm hne.1)
    exact ⟨hint :: picks, .cons List.mem_cons_self hpicks⟩

/-- A hint can be in a combination with each of the hints of another record. -/
theorem exists_forall₂_mem_mem {hs : List (List Hint)} (hne : [] ∉ hs) {hints : List Hint}
    (hmem : hints ∈ hs) {hint : Hint} (hhint : hint ∈ hints) :
    ∃ picks, List.Forall₂ (· ∈ ·) picks hs ∧ hint ∈ picks := by
  induction hs with
  | nil => exact absurd hmem List.not_mem_nil
  | cons hints' hs ih =>
    rw [List.mem_cons, not_or] at hne
    rcases List.mem_cons.1 hmem with rfl | hmem
    · obtain ⟨picks, hpicks⟩ := exists_forall₂_mem hne.2
      exact ⟨hint :: picks, .cons hhint hpicks, List.mem_cons_self⟩
    · obtain ⟨picks, hpicks, hin⟩ := ih hne.2 hmem
      obtain ⟨hint', hints', rfl⟩ := List.exists_cons_of_ne_nil (Ne.symm hne.1)
      exact ⟨hint' :: picks, .cons List.mem_cons_self hpicks, List.mem_cons_of_mem _ hin⟩

/-- What holds of every pair in every combination. -/
theorem forall_picks_pairwise_iff {hs : List (List Hint)} (hne : [] ∉ hs) {R : Hint → Hint → Prop} :
    (∀ picks, List.Forall₂ (· ∈ ·) picks hs → picks.Pairwise R) ↔
      hs.Pairwise fun hints hints' => ∀ hint ∈ hints, ∀ hint' ∈ hints', R hint hint' := by
  induction hs with
  | nil =>
    refine iff_of_true (fun picks hpicks => ?_) .nil
    rw [List.forall₂_nil_right_iff.1 hpicks]
    exact .nil
  | cons hints hs ih =>
    rw [List.mem_cons, not_or] at hne
    rw [List.pairwise_cons, ← ih hne.2]
    refine ⟨?_, ?_⟩
    · refine fun h => ⟨fun hints' hmem hint hhint hint' hhint' => ?_, fun picks hpicks => ?_⟩
      · obtain ⟨picks, hpicks, hin⟩ := exists_forall₂_mem_mem hne.2 hmem hhint'
        exact (List.pairwise_cons.1 (h _ (.cons hhint hpicks))).1 hint' hin
      · obtain ⟨hint, hints, rfl⟩ := List.exists_cons_of_ne_nil (Ne.symm hne.1)
        exact (List.pairwise_cons.1 (h _ (.cons List.mem_cons_self hpicks))).2
    · rintro ⟨hfirst, hrest⟩ picks hpicks
      rw [List.forall₂_cons_right_iff] at hpicks
      obtain ⟨hint, picks, hhint, hpicks, rfl⟩ := hpicks
      refine List.pairwise_cons.2 ⟨fun hint' hmem => ?_, hrest picks hpicks⟩
      obtain ⟨hints', hmem', hin⟩ := exists_mem_of_forall₂ hpicks.flip hmem
      exact hfirst hints' hmem' hint hhint hint' hin

theorem extEdges_flatten {obs : GraphObservation} {hint : Hint} {picks : List Hint}
    (h : hint.edges = (picks.map Hint.edges).flatten) :
    obs.extEdges hint = (picks.map obs.extEdges).flatten := by
  rw [GraphObservation.extEdges, h, List.map_flatten, List.map_map]
  rfl

theorem forall_crossProduct_nodup_iff {hs : List (List Hint)} :
    (∀ hint ∈ crossProduct hs, (obs.extEdges hint).Nodup) ↔
      ∀ picks, List.Forall₂ (· ∈ ·) picks hs → (picks.map obs.extEdges).flatten.Nodup := by
  refine ⟨fun h picks hpicks => ?_, fun h hint hmem => ?_⟩
  · have heq : obs.extEdges ⟨(picks.map Hint.edges).flatten⟩ = (picks.map obs.extEdges).flatten :=
      extEdges_flatten rfl
    exact heq ▸ h _ (mem_crossProduct_iff.2 ⟨picks, hpicks, rfl⟩)
  · obtain ⟨picks, hpicks, heq⟩ := mem_crossProduct_iff.1 hmem
    rw [extEdges_flatten heq]
    exact h picks hpicks

/-- **No combination has an edge twice**, if and only if hints are apart. -/
theorem forall_combineHints_nodup_iff (spec : Specification) (obs : GraphObservation) :
    (∀ hint ∈ combineHints spec obs.toObservation, (obs.extEdges hint).Nodup) ↔
      NothingToCombine spec obs.toObservation ∨ HintsApart spec obs := by
  rw [combineHints]
  set hs := (spec.refinedObservations obs.toObservation).map obs.toObservation.combinedHints
    with hhs
  have hnothing : NothingToCombine spec obs.toObservation ↔ [] ∈ hs := by
    rw [hhs, List.mem_map]
    rfl
  refine forall_crossProduct_nodup_iff.trans ?_
  by_cases hne : [] ∈ hs
  · refine iff_of_true (fun picks h => ?_) (.inl (hnothing.2 hne))
    obtain ⟨hint, -, hmem⟩ := exists_mem_of_forall₂ h hne
    exact absurd hmem List.not_mem_nil
  · rw [or_iff_right fun h => hne (hnothing.1 h)]
    have hdisjoint := forall_picks_pairwise_iff hne
      (R := fun hint hint' => List.Disjoint (obs.extEdges hint) (obs.extEdges hint'))
    rw [hhs, List.pairwise_map] at hdisjoint
    refine ⟨?_, ?_⟩
    · refine fun h => ⟨fun kv hkv hint hhint => ?_, hdisjoint.1 fun picks hp => ?_⟩
      · obtain ⟨picks, hp, hin⟩ := exists_forall₂_mem_mem hne (List.mem_map_of_mem hkv) hhint
        exact (List.nodup_flatten.1 (h picks hp)).1 _ (List.mem_map_of_mem hin)
      · exact List.pairwise_map.1 (List.nodup_flatten.1 (h picks hp)).2
    · rintro ⟨hnodup, hapart⟩ picks hp
      refine List.nodup_flatten.2 ⟨fun edges hedges => ?_, List.pairwise_map.2
        (hdisjoint.2 hapart picks hp)⟩
      obtain ⟨hint, hmem, rfl⟩ := List.mem_map.1 hedges
      obtain ⟨hints, hhints, hin⟩ := exists_mem_of_forall₂ hp.flip hmem
      obtain ⟨kv, hkv, rfl⟩ := List.mem_map.1 hhints
      exact hnodup kv hkv hint hin

end Try

/-! ## Observations of a graph -/

section Labels

open Observation

variable {g : ExecutionGraph}

/-- Both labels of a call are in the graph. -/
def LabelsIn (g : ExecutionGraph) (op : GraphCall) : Prop :=
  (g.getEventLabel op.beginLab).isSome ∧ (g.getEventLabel op.endLab).isSome

/-- The labels that were met are in the graph. -/
structure Observation.PopulateState.LabelsIn (g : ExecutionGraph) (s : PopulateState) : Prop where
  ops : ∀ op ∈ s.ops, GenMC.LabelsIn g op
  openBegin : ∀ lab ∈ s.openBegin, (g.getEventLabel lab.pos).isSome

theorem ops_openBegin_outside {s s' : PopulateState} {lab : EventLabel}
    (h : s.outside lab = some s') : s'.ops = s.ops ∧ s'.openBegin = s.openBegin := by
  rw [PopulateState.outside] at h
  split at h
  · simp only [Option.bind_eq_bind, Option.bind_eq_some_iff, Option.map_eq_some_iff] at h
    obtain ⟨s₁, ⟨rf, -, rfl⟩, heq⟩ := h
    cases heq
    exact ⟨rfl, rfl⟩
  · split at h
    · cases h
      exact ⟨rfl, rfl⟩
    · cases h
      exact ⟨rfl, rfl⟩

theorem ops_countThread {tid : ℕ} {name : String} {s s' : PopulateState}
    (h : s.countThread tid name = some s') : s'.ops = s.ops := by
  rw [PopulateState.countThread] at h
  split at h
  · obtain ⟨last, -, rfl⟩ := Option.map_eq_some_iff.1 h
    split <;> rfl
  · cases h
    rfl

theorem labelsIn_populateLabel {tid : ℕ} {s s' : PopulateState} {lab : EventLabel}
    (hs : PopulateState.LabelsIn g s) (hlab : (g.getEventLabel lab.pos).isSome)
    (h : populateLabel tid s lab = some s') : PopulateState.LabelsIn g s' := by
  rw [populateLabel] at h
  split at h
  · split at h
    · cases h
    · cases h
      refine ⟨hs.ops, fun lab' hlab' => ?_⟩
      cases hlab'
      exact hlab
  · split at h
    · obtain ⟨beginLab, hbegin, hclose⟩ := Option.bind_eq_some_iff.1 h
      obtain ⟨s₁, hcount, rfl⟩ := Option.map_eq_some_iff.1 hclose
      refine ⟨fun op hop => ?_, fun lab' hlab' => absurd hlab' (Option.not_mem_none _)⟩
      simp only [ops_countThread hcount, List.mem_append, List.mem_singleton] at hop
      rcases hop with hop | rfl
      · exact hs.ops op hop
      · exact ⟨hs.openBegin beginLab hbegin, hlab⟩
    · split at h
      · cases h
        exact hs
      · obtain ⟨hops, hopen⟩ := ops_openBegin_outside h
        exact ⟨hops ▸ hs.ops, hopen ▸ hs.openBegin⟩

theorem foldlM_preserves {α β : Type*} {f : β → α → Option β} {P : β → Prop} {l : List α}
    (hf : ∀ x ∈ l, ∀ b b', P b → f b x = some b' → P b') {b b' : β} (hb : P b)
    (h : l.foldlM f b = some b') : P b' := by
  induction l generalizing b with
  | nil =>
    cases h
    exact hb
  | cons x l ih =>
    rw [List.foldlM_cons, Option.bind_eq_bind, Option.bind_eq_some_iff] at h
    obtain ⟨b₁, hb₁, h⟩ := h
    exact ih (fun y hy => hf y (List.mem_cons_of_mem _ hy)) (hf x List.mem_cons_self b b₁ hb hb₁) h

theorem labelsIn_populateThread (hslots : g.Slots) {tid : ℕ} {s s' : PopulateState}
    (hs : ∀ op ∈ s.ops, LabelsIn g op) (h : populateThread g s tid = some s') :
    ∀ op ∈ s'.ops, LabelsIn g op := by
  rw [populateThread, Option.bind_eq_bind, Option.bind_eq_some_iff] at h
  obtain ⟨s₁, hs₁, h⟩ := h
  split at h
  · cases h
  · cases h
    have hstart : PopulateState.LabelsIn g { s with openBegin := none } :=
      ⟨hs, fun lab hlab => absurd hlab (Option.not_mem_none _)⟩
    refine (foldlM_preserves (P := PopulateState.LabelsIn g) (fun lab hlab b b' hb hb' =>
      labelsIn_populateLabel hb ?_ hb') hstart hs₁).ops
    have hmem : lab ∈ g.labels := by
      rw [List.getD_eq_getElem?_getD] at hlab
      cases hthread : g.events[tid]? with
      | none => simp [hthread] at hlab
      | some thread =>
        rw [hthread] at hlab
        exact List.mem_flatten.2 ⟨thread, List.mem_of_getElem? hthread, hlab⟩
    rw [hslots.getEventLabel_pos hmem]
    rfl

/-- A call that is out of range has the initializer for its labels. -/
theorem labelsIn_getD (hinit : (g.getEventLabel Event.getInit).isSome) {ops : List GraphCall}
    (hops : ∀ op ∈ ops, LabelsIn g op) (id : ℕ) : LabelsIn g (ops.getD id default) := by
  rw [List.getD_eq_getElem?_getD]
  cases hop : ops[id]? with
  | none => exact ⟨hinit, hinit⟩
  | some op => exact hops op (List.mem_of_getElem? hop)

/-- **What is observed of a graph is in the graph.** -/
theorem labelled_of_construct {hbView : EventLabel → View} {obs : GraphObservation}
    (hslots : g.Slots) (hinit : (g.getEventLabel Event.getInit).isSome)
    (h : construct g hbView = some obs) : obs.Labelled g := by
  rw [construct, Option.bind_eq_bind, Option.bind_eq_some_iff] at h
  obtain ⟨⟨ops, rfs⟩, hpopulate, h⟩ := h
  rw [populateOpsRf, Option.bind_eq_bind, Option.bind_eq_some_iff] at hpopulate
  obtain ⟨s, hs, heq⟩ := hpopulate
  cases heq
  have hops : ∀ op ∈ s.ops, LabelsIn g op :=
    foldlM_preserves (P := fun s : PopulateState => ∀ op ∈ s.ops, LabelsIn g op)
      (fun tid _ b b' hb hb' => labelsIn_populateThread hslots hb hb')
      (fun op hop => absurd hop List.not_mem_nil) hs
  have herase : ∀ op ∈ eraseTotallyOrdered g hbView s.ops, LabelsIn g op := by
    obtain ⟨erased, heq, -⟩ := exists_erased g hbView s.ops
    intro op hop
    refine hops op ?_
    rw [heq]
    exact List.mem_append_right _ hop
  have hnormalize : ∀ op ∈ normalizeCalls (eraseTotallyOrdered g hbView s.ops),
      LabelsIn g op := by
    intro op hop
    obtain ⟨p, -, rfl⟩ := List.mem_map.1 hop
    exact labelsIn_getD hinit herase p.2
  cases h
  intro id
  simp only [GraphObservation.getCall]
  split
  · exact labelsIn_getD hinit hnormalize id
  · exact labelsIn_getD hinit herase id

/-- **Combined hints can be tried and taken back**, without adding an edge twice, if and only if
hints of different records are apart. -/
theorem combineHints_asserted_iff {hbView : EventLabel → View} {obs : GraphObservation}
    (hslots : g.Slots) (hinit : (g.getEventLabel Event.getInit).isSome) (hnone : g.NoLinEdges)
    (hobs : construct g hbView = some obs) (spec : Specification)
    (isCoherentRelinche isConsistent : ExecutionGraph → Bool) :
    (∀ hint ∈ combineHints spec obs.toObservation,
      let r := checkHint isCoherentRelinche isConsistent g obs hint
      r.asserted = true ∧ (r.status = none → r.graph = g)) ↔
    NothingToCombine spec obs.toObservation ∨ HintsApart spec obs := by
  have hlabels := labelled_of_construct hslots hinit hobs
  rw [← forall_combineHints_nodup_iff]
  refine forall_congr' fun hint => forall_congr' fun _ => ?_
  simp only
  rw [checkHint_asserted_iff hslots hnone hlabels]
  exact and_iff_left fun h => checkHint_graph hslots hnone hlabels h

/-- Three threads that call `enq(1)`, `deq()` and `enq(2)`.  The second call returns 1. -/
def queueThreads : ExecutionGraph :=
  let thread (t : ℕ) (name : String) (argument result : ℤ) : List EventLabel := [
    { kind := if t = 0 then .Init else .ThreadStart, pos := ⟨t, 0⟩ },
    { kind := .MethodBegin, pos := ⟨t, 1⟩, name := name, argument := argument },
    { kind := .MethodEnd, pos := ⟨t, 2⟩, name := name, result := result },
    { kind := .ThreadFinish, pos := ⟨t, 3⟩ }]
  { ExecutionGraph.blank with
    events := [thread 0 "enq" 1 0, thread 1 "deq" 0 1, thread 2 "enq" 2 0] }

/-- What is after `deq()` has seen `enq(1)`. -/
def dequeueView (lab : EventLabel) : View :=
  ⟨fun t => if t = lab.pos.thread then lab.pos.index
    else if lab.pos.thread = 1 ∧ 3 ≤ lab.pos.index ∧ t = 0 then 2 else 0⟩

def enqOne : GraphCall := ⟨⟨⟨"enq", 1, 0⟩, (0, 0)⟩, ⟨0, 1⟩, ⟨0, 2⟩⟩
def deqOne : GraphCall := ⟨⟨⟨"deq", 0, 1⟩, (1, 1)⟩, ⟨1, 1⟩, ⟨1, 2⟩⟩
def enqTwo : GraphCall := ⟨⟨⟨"enq", 2, 0⟩, (2, 1)⟩, ⟨2, 1⟩, ⟨2, 2⟩⟩

/-- The observation of `queueThreads`. -/
def queueCalls : GraphObservation where
  calls := [deqOne, enqOne, enqTwo]
  hb := ⟨[⟨1, 0⟩]⟩

theorem normalizeCalls_queue : normalizeCalls [enqOne, deqOne, enqTwo] = queueCalls.calls := by
  have hswap : (Normalization.swapValues ([enqOne, deqOne, enqTwo].map (·.toMethodCall))).zipIdx =
      [(enqOne.toMethodCall, 0), (deqOne.toMethodCall, 1), (enqTwo.toMethodCall, 2)] := by
    decide
  have henq : enqOne.toCall ≤ enqTwo.toCall := by decide
  have hdeq : ¬ enqOne.toCall ≤ deqOne.toCall := by decide
  rw [normalizeCalls, Normalization.followed, hswap]
  simp [List.mergeSort, List.MergeSort.Internal.splitInTwo, List.merge, henq, hdeq]
  rfl

theorem construct_queueThreads : construct queueThreads dequeueView = some queueCalls := by
  have hpopulate : populateOpsRf queueThreads = some ([enqOne, deqOne, enqTwo], ⟨[]⟩) := by
    decide
  have herase : eraseTotallyOrdered queueThreads dequeueView [enqOne, deqOne, enqTwo] =
      [enqOne, deqOne, enqTwo] := by decide
  have hhb : collectHb queueThreads dequeueView queueCalls.calls = queueCalls.hb := by decide
  rw [construct, hpopulate]
  simp only [Option.bind_eq_bind, Option.bind_some]
  rw [herase, List.isEmpty_nil, if_pos rfl, normalizeCalls_queue, hhb]
  rfl

/-- The calls were seen with and without happens-before from `enq(1)` to `deq()`, and always with
`enq(1)` before the others. -/
def queueRecords : Specification where
  data := [({ queueCalls.toObservation with hb := ⟨[]⟩ },
      { lins := ⟨[⟨[1, 0, 2]⟩, ⟨[1, 2, 0]⟩]⟩ }),
    (queueCalls.toObservation, { lins := ⟨[⟨[1, 0, 2]⟩, ⟨[1, 2, 0]⟩]⟩ })]
  maxExtSize := 1

theorem queueRecords_withoutHints : queueRecords.WithoutHints :=
  ⟨by decide, by decide, by decide, by decide, by decide⟩

/-- What is before and after what, if `enq(2)` is before `enq(1)`. -/
theorem hbExt_enqTwo {obs : Observation} (hhb : ∀ p ∈ obs.hb, p = ⟨1, 0⟩) {x y : ℕ}
    (h : HbExt obs {(⟨2, 1⟩ : CallEdge)} x y) :
    (∃ id, x = 2 * id ∧ y = 2 * id + 1) ∨ (x = 2 ∧ y = 1) ∨ (x = 5 ∧ y = 2) := by
  cases h with
  | @call id _ => exact .inl ⟨id, rfl, rfl⟩
  | @hb p hp =>
    rw [hhb p hp]
    exact .inr (.inl ⟨rfl, rfl⟩)
  | @ext p hp =>
    rw [Set.mem_singleton_iff.1 hp]
    exact .inr (.inr ⟨rfl, rfl⟩)

/-- From `enq(2)` before `enq(1)` no other edge follows. -/
theorem eq_of_implied_enqTwo {obs : Observation} (hhb : ∀ p ∈ obs.hb, p = ⟨1, 0⟩) {a b : ℕ}
    (h : Relation.TransGen (HbExt obs {(⟨2, 1⟩ : CallEdge)}) (toEndExtEvent a)
      (toBeginExtEvent b)) : a = 2 ∧ b = 1 := by
  obtain ⟨y, hfirst, hrest⟩ := Relation.TransGen.head'_iff.1 h
  rw [toEndExtEvent, toBeginExtEvent] at hfirst
  have hy : a = 2 ∧ y = 2 := by
    rcases hbExt_enqTwo hhb hfirst with ⟨id, h1, -⟩ | ⟨h1, -⟩ | ⟨h1, h2⟩
    · omega
    · omega
    · exact ⟨by omega, h2⟩
  obtain ⟨rfl, rfl⟩ := hy
  have hend : toBeginExtEvent b = 1 ∨ toBeginExtEvent b = 2 ∨ toBeginExtEvent b = 3 := by
    generalize toBeginExtEvent b = z at hrest
    induction hrest with
    | refl => exact .inr (.inl rfl)
    | tail _ hstep ih =>
      rcases hbExt_enqTwo hhb hstep with ⟨id, h1, h2⟩ | ⟨h1, h2⟩ | ⟨h1, h2⟩ <;> omega
  rw [toBeginExtEvent] at hend
  exact ⟨rfl, by omega⟩

theorem acyclic_enqTwo {obs : Observation} (hhb : ∀ p ∈ obs.hb, p = ⟨1, 0⟩) :
    Acyclic (HbExt obs {(⟨2, 1⟩ : CallEdge)}) := by
  -- the begin of `enq(1)` and both sides of `deq()` come late
  let rank (x : ℕ) : ℕ := if x = 2 then x + 4 else if x = 1 ∨ x = 3 then x + 10 else x
  have hstep : ∀ x y, HbExt obs {(⟨2, 1⟩ : CallEdge)} x y → rank x < rank y := by
    intro x y hxy
    simp only [rank]
    rcases hbExt_enqTwo hhb hxy with ⟨id, rfl, rfl⟩ | ⟨rfl, rfl⟩ | ⟨rfl, rfl⟩
    · split_ifs <;> omega
    · decide
    · decide
  intro x hx
  have hlt : Relation.TransGen (· < ·) (rank x) (rank x) :=
    Relation.TransGen.lift rank hstep x x hx
  rw [Relation.transGen_eq_self] at hlt
  exact lt_irrefl _ hlt

/-- The hints of both records have the edge from `enq(2)` to `enq(1)`. -/
theorem enqTwo_hint_mem {obs : Observation} {hints : List Hint} (hops : obs.getNumOps = 3)
    (hhb : ∀ p ∈ obs.hb, p = ⟨1, 0⟩)
    (h : HintsFor obs [⟨[1, 0, 2]⟩, ⟨[1, 2, 0]⟩] 1 hints) : ⟨[⟨2, 1⟩]⟩ ∈ hints := by
  have hset : ((({⟨2, 1⟩} : Finset CallEdge) : Set CallEdge)) = {⟨2, 1⟩} :=
    Finset.coe_singleton _
  obtain ⟨hint, hmem, himplied⟩ := h.complete {⟨2, 1⟩}
    (by
      intro p hp
      rw [hset, Set.mem_singleton_iff] at hp
      rw [hp, hops]
      decide)
    (by rw [Finset.card_singleton])
    (by rw [hset]; exact acyclic_enqTwo hhb)
    (by
      rw [hset]
      intro lin hlin
      refine ⟨⟨2, 1⟩, Set.mem_singleton _, ?_⟩
      rcases List.mem_cons.1 hlin with rfl | hlin
      · decide
      · rw [List.mem_singleton.1 hlin]
        decide)
  rw [hset] at himplied
  obtain ⟨p, hp, -⟩ := h.contradicts hint hmem _ List.mem_cons_self
  have hone : hint.edges = [p] := by
    have hin : p ∈ hint.edges := hp
    have hlen : hint.edges.length = 1 :=
      le_antisymm (h.size hint hmem) (List.length_pos_of_mem hin)
    obtain ⟨q, hq⟩ := List.length_eq_one_iff.1 hlen
    rw [hq] at hin
    rw [hq, List.mem_singleton.1 hin]
  obtain ⟨hfirst, hsecond⟩ := eq_of_implied_enqTwo hhb (himplied p hp)
  have hp' : p = ⟨2, 1⟩ := Pair.ext hfirst hsecond
  have heq : hint = ⟨[⟨2, 1⟩]⟩ := congrArg Hint.mk (hp' ▸ hone)
  exact heq ▸ hmem

/-- **The specification leads to an edge that is added twice.** -/
theorem queueThreads_asserts :
    queueThreads.NoLinEdges ∧ construct queueThreads dequeueView = some queueCalls ∧
      ∃ spec, queueRecords.calculateHints = some spec ∧
        ∃ hint ∈ combineHints spec queueCalls.toObservation,
          ∀ isCoherentRelinche isConsistent,
            (checkHint isCoherentRelinche isConsistent queueThreads queueCalls hint).asserted =
              false := by
  have hcalc := Specification.calculateHints_data queueRecords_withoutHints.nodup
  refine ⟨by decide, construct_queueThreads, _, hcalc, ⟨[⟨2, 1⟩, ⟨2, 1⟩]⟩, ?_, ?_⟩
  · refine mem_crossProduct_iff.2 ⟨[⟨[⟨2, 1⟩]⟩, ⟨[⟨2, 1⟩]⟩], ?_, rfl⟩
    have hrefined : queueRecords.data.filter
        ((fun kv => kv.1.isRefinedBy queueCalls.toObservation) ∘
          Specification.withHints queueRecords.maxExtSize) = queueRecords.data :=
      List.filter_eq_self.2 (by decide)
    have hhint : ∀ kv ∈ queueRecords.data,
        (⟨[⟨2, 1⟩]⟩ : Hint) ∈ (Specification.withHints queueRecords.maxExtSize kv).2.hints := by
      intro kv hkv
      have hlins : kv.1.getNumOps = 3 ∧ (∀ p ∈ kv.1.hb.vset, p = ⟨1, 0⟩) ∧
          kv.2.lins.vset = [⟨[1, 0, 2]⟩, ⟨[1, 2, 0]⟩] := by
        revert kv
        decide
      have hfor := queueRecords_withoutHints.hintsFor hcalc (List.mem_map_of_mem hkv)
      refine enqTwo_hint_mem hlins.1 hlins.2.1 ?_
      rw [← hlins.2.2]
      exact hfor
    rw [Specification.refinedObservations, List.filter_map, hrefined, List.map_map,
      List.forall₂_map_right_iff]
    have hin : ∀ kv ∈ queueRecords.data, (⟨[⟨2, 1⟩]⟩ : Hint) ∈
        (Specification.withHints queueRecords.maxExtSize kv).2.hints.filter
          queueCalls.toObservation.isNotSymmetricHint :=
      fun kv hkv => List.mem_filter.2 ⟨hhint kv hkv, by decide⟩
    exact .cons (hin _ List.mem_cons_self)
      (.cons (hin _ (List.mem_cons_of_mem _ List.mem_cons_self)) .nil)
  · intro isCoherentRelinche isConsistent
    rw [checkHint]
    simp only
    split <;> decide

/-- The records have hints that put `enq(2)` before `enq(1)` in one and before `deq()` in the
other. -/
def apartRecords : Specification where
  data := [({ queueCalls.toObservation with hb := ⟨[]⟩ }, { hints := [⟨[⟨2, 1⟩]⟩] }),
    (queueCalls.toObservation, { hints := [⟨[⟨2, 0⟩]⟩] })]
  maxExtSize := 1

/-- The combined hint has both edges. -/
theorem apartRecords_asserted :
    construct queueThreads dequeueView = some queueCalls ∧
      ⟨[⟨2, 1⟩, ⟨2, 0⟩]⟩ ∈ combineHints apartRecords queueCalls.toObservation ∧
      ∀ hint ∈ combineHints apartRecords queueCalls.toObservation,
        let r := checkHint (fun _ => true) (fun _ => false) queueThreads queueCalls hint
        r.asserted = true ∧ (r.status = none → r.graph = queueThreads) := by
  have hdata : apartRecords.refinedObservations queueCalls.toObservation = apartRecords.data :=
    List.filter_eq_self.2 (by decide)
  refine ⟨construct_queueThreads, ?_, (combineHints_asserted_iff (by decide) (by decide)
    (by decide) construct_queueThreads apartRecords (fun _ => true) (fun _ => false)).2
      (.inr ⟨?_, ?_⟩)⟩
  · rw [combineHints, hdata]
    exact mem_crossProduct_iff.2 ⟨[⟨[⟨2, 1⟩]⟩, ⟨[⟨2, 0⟩]⟩],
      .cons (by decide) (.cons (by decide) .nil), rfl⟩
  · rw [hdata]
    decide
  · rw [hdata]
    refine List.pairwise_pair.2 fun hint hfirst hint' hsecond => ?_
    have hone : ∀ hint ∈ queueCalls.toObservation.combinedHints (apartRecords.data[0]),
        hint = ⟨[⟨2, 1⟩]⟩ := by decide
    have htwo : ∀ hint ∈ queueCalls.toObservation.combinedHints (apartRecords.data[1]),
        hint = ⟨[⟨2, 0⟩]⟩ := by decide
    rw [hone hint hfirst, htwo hint' hsecond]
    have hapart : ∀ e ∈ queueCalls.extEdges ⟨[⟨2, 1⟩]⟩, e ∉ queueCalls.extEdges ⟨[⟨2, 0⟩]⟩ := by
      decide
    exact fun e he he' => hapart e he he'

end Labels

end GenMC
