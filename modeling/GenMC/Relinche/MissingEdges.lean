import GenMC.ADT.VSetOperations
import GenMC.Library.MinimalElements
import GenMC.Relinche.CheckHint
import GenMC.Relinche.SymmetricClosure

/-!
# The synchronization that an observation misses

If no record of a specification refines an observation, the checker reports what is missing: for
each record with the same calls and values, the edges of its happens-before that the observation
does not have, from the begin of one call to the end of another.  Only the smallest of these sets
are reported.  The records come in the order in which the hash multimap has them.

* `refinementMissingEdges_minimal`: **the report has the minimal sets of missing edges, each once
  and in order**.
* `wellFormed_of_construct`: what is built of a graph tells its calls apart by their labels, so that
  different sets are reported as different sets.
* `hbInRange_add`, `hbInRange_merge`, `hbInRange_addHints`, `hbInRange_addWithReduction`: the
  records of a specification have happens-before between their own calls.
-/

set_option autoImplicit false

namespace GenMC

open MinimalElements

/-- Events are ordered by thread and index. -/
instance Event.instLinearOrder : LinearOrder Event :=
  LinearOrder.lift' (fun e : Event => toLex (e.thread, e.index)) fun _ _ h =>
    Event.ext_iff'.2 (Prod.mk.inj (toLex.injective h))

/-- An edge between labels. -/
abbrev Edge := Pair Event Event

/-! ## The code -/

section Includes
variable {α : Type*} [LinearOrder α]

/-- `std::includes`: whether the first of two sorted vectors has everything that the second has. -/
def includes : List α → List α → Bool
  | _, [] => true
  | [], _ :: _ => false
  | a :: as, b :: bs =>
    if b < a then false else if a < b then includes as (b :: bs) else includes as bs

end Includes

/-- The edges that another observation does not have. -/
def Observation.calculateHbDiff (obs other : Observation) : VSet CallEdge := obs.hb.diff other.hb

namespace GraphObservation

/-- From the begin of a call to the end of another one. -/
def edgeAt (obs : GraphObservation) (e : CallEdge) : Edge :=
  ⟨(obs.getCall e.first).beginLab, (obs.getCall e.second).endLab⟩

/-- What an observation misses of a record. -/
def missedEdges (obs : GraphObservation) (specObs : Observation) : List Edge :=
  ((specObs.calculateHbDiff obs.toObservation).vset.map obs.edgeAt).mergeSort (· ≤ ·)

end GraphObservation

namespace Specification

/-- The entries that are equal to an observation.  `equal_range` has them in some order. -/
def equalRange (spec : Specification) (obs : Observation) : List (Observation × Record) :=
  spec.data.filter fun e => e.1.eq obs

/-- The body of the loop. -/
def addMissedEdges (res : List (List Edge)) (missedEdges : List Edge) : List (List Edge) :=
  if res.any (fun es => includes missedEdges es) then res
  else res.filter (fun es => !includes es missedEdges) ++ [missedEdges]

/-- `refinementMissingEdges`, for the entries of the multimap that are equal to the observation. -/
def refinementMissingEdges (range : List (Observation × Record)) (obs : GraphObservation) :
    List (List Edge) :=
  (range.foldl (fun res e => addMissedEdges res (obs.missedEdges e.1)) []).mergeSort (· ≤ ·)

end Specification

/-! ## Sorted vectors -/

theorem includes_iff {α : Type*} [LinearOrder α] {as bs : List α} (ha : as.Pairwise (· < ·))
    (hb : bs.Pairwise (· < ·)) : includes as bs = true ↔ bs ⊆ as := by
  induction as, bs using includes.induct with
  | case1 as => simp [includes]
  | case2 b bs => simp [includes]
  | case3 a as b bs hlt =>
    obtain ⟨ha1, -⟩ := List.pairwise_cons.1 ha
    rw [includes, if_pos hlt]
    refine ⟨fun h => absurd h Bool.false_ne_true, fun h => ?_⟩
    rcases List.mem_cons.1 (h List.mem_cons_self) with rfl | hmem
    · exact absurd hlt (lt_irrefl _)
    · exact absurd (ha1 b hmem) (lt_asymm hlt)
  | case4 a as b bs hlt hab ih =>
    obtain ⟨-, ha2⟩ := List.pairwise_cons.1 ha
    obtain ⟨hb1, -⟩ := List.pairwise_cons.1 hb
    rw [includes, if_neg hlt, if_pos hab, ih ha2 hb]
    refine ⟨fun h => List.subset_cons_of_subset a h, fun h x hx => ?_⟩
    rcases List.mem_cons.1 (h hx) with rfl | hmem
    · -- everything in the second vector is above `a`
      rcases List.mem_cons.1 hx with rfl | hx
      · exact absurd hab (lt_irrefl _)
      · exact absurd (hb1 x hx) (lt_asymm hab)
    · exact hmem
  | case5 a as b bs hlt hab ih =>
    obtain rfl := le_antisymm (not_lt.1 hlt) (not_lt.1 hab)
    obtain ⟨-, ha2⟩ := List.pairwise_cons.1 ha
    obtain ⟨hb1, hb2⟩ := List.pairwise_cons.1 hb
    rw [includes, if_neg hlt, if_neg hab, ih ha2 hb2]
    refine ⟨fun h => List.cons_subset_cons a h, fun h x hx => ?_⟩
    rcases List.mem_cons.1 (h (List.mem_cons_of_mem a hx)) with rfl | hmem
    · exact absurd (hb1 x hx) (lt_irrefl _)
    · exact hmem

/-! ## Happens-before between calls -/

namespace Observation

/-- Happens-before is between calls of the observation. -/
def HbInRange (obs : Observation) : Prop :=
  ∀ e ∈ obs.hb, e.first < obs.getNumOps ∧ e.second < obs.getNumOps

theorem getNumOps_of_eq {obs other : Observation} (h : obs.eq other = true) :
    obs.getNumOps = other.getNumOps := by
  have hlen := congrArg List.length (eq_iff.1 h).1
  rwa [List.length_map, List.length_map] at hlen

end Observation

namespace GraphObservation

/-- Happens-before is a set, and different calls have different labels. -/
structure WellFormed (obs : GraphObservation) : Prop where
  hbSorted : obs.hb.Sorted
  begins : (obs.calls.map (·.beginLab)).Nodup
  ends : (obs.calls.map (·.endLab)).Nodup

variable {obs : GraphObservation}

/-- The edges between calls of an observation. -/
def InRange (obs : GraphObservation) (d : Finset CallEdge) : Prop :=
  ∀ e ∈ d, e.first < obs.calls.length ∧ e.second < obs.calls.length

theorem getCall_inj {γ : Type*} {f : GraphCall → γ} (h : (obs.calls.map f).Nodup) {i j : ℕ}
    (hi : i < obs.calls.length) (hj : j < obs.calls.length)
    (heq : f (obs.getCall i) = f (obs.getCall j)) : i = j := by
  rw [getCall, getCall, List.getD_eq_getElem _ _ hi, List.getD_eq_getElem _ _ hj] at heq
  rw [← List.length_map f] at hi hj
  refine h.getElem_inj_iff.1 (show (obs.calls.map f)[i] = (obs.calls.map f)[j] from ?_)
  rw [List.getElem_map, List.getElem_map, heq]

/-- Edges between calls are told apart by their labels. -/
theorem WellFormed.edgeAt_inj (h : obs.WellFormed) {e e' : CallEdge}
    (he : e.first < obs.calls.length ∧ e.second < obs.calls.length)
    (he' : e'.first < obs.calls.length ∧ e'.second < obs.calls.length)
    (heq : obs.edgeAt e = obs.edgeAt e') : e = e' :=
  Pair.ext (getCall_inj h.begins he.1 he'.1 (congrArg Pair.first heq))
    (getCall_inj h.ends he.2 he'.2 (congrArg Pair.second heq))

/-- A set of edges between calls, as a sorted vector of edges between labels. -/
def edges (obs : GraphObservation) (d : Finset CallEdge) : List Edge := (d.image obs.edgeAt).sort

theorem pairwise_edges (obs : GraphObservation) (d : Finset CallEdge) :
    (obs.edges d).Pairwise (· < ·) := (Finset.sortedLT_sort _).pairwise

theorem mem_edges {d : Finset CallEdge} {x : Edge} :
    x ∈ obs.edges d ↔ ∃ e ∈ d, obs.edgeAt e = x := by
  rw [edges, Finset.mem_sort, Finset.mem_image]

theorem WellFormed.edges_subset_iff (h : obs.WellFormed) {d d' : Finset CallEdge}
    (hd : obs.InRange d) (hd' : obs.InRange d') : obs.edges d ⊆ obs.edges d' ↔ d ⊆ d' := by
  refine ⟨fun hsub e he => ?_, fun hsub x hx => ?_⟩
  · obtain ⟨e', he', heq⟩ := mem_edges.1 (hsub (mem_edges.2 ⟨e, he, rfl⟩))
    rwa [← h.edgeAt_inj (hd' e' he') (hd e he) heq]
  · obtain ⟨e, he, rfl⟩ := mem_edges.1 hx
    exact mem_edges.2 ⟨e, hsub he, rfl⟩

/-- `std::includes` compares the sets. -/
theorem WellFormed.includes_edges (h : obs.WellFormed) {d d' : Finset CallEdge}
    (hd : obs.InRange d) (hd' : obs.InRange d') :
    includes (obs.edges d') (obs.edges d) = decide (d ⊆ d') := by
  rw [Bool.eq_iff_iff, includes_iff (obs.pairwise_edges d') (obs.pairwise_edges d),
    h.edges_subset_iff hd hd', decide_eq_true_iff]

theorem WellFormed.edges_inj (h : obs.WellFormed) {d d' : Finset CallEdge} (hd : obs.InRange d)
    (hd' : obs.InRange d') (heq : obs.edges d = obs.edges d') : d = d' :=
  Finset.Subset.antisymm ((h.edges_subset_iff hd hd').1 (heq ▸ List.Subset.refl _))
    ((h.edges_subset_iff hd' hd).1 (heq ▸ List.Subset.refl _))

/-- What is missed of a record, as a set. -/
def hbDiff (obs : GraphObservation) (specObs : Observation) : Finset CallEdge :=
  specObs.hb.elems \ obs.hb.elems

theorem inRange_hbDiff {specObs : Observation} (heq : specObs.eq obs.toObservation = true)
    (hspec : specObs.HbInRange) : obs.InRange (obs.hbDiff specObs) := by
  intro e he
  have hnum : specObs.getNumOps = obs.calls.length :=
    (Observation.getNumOps_of_eq heq).trans (List.length_map _)
  rw [← hnum]
  exact hspec e (VSet.mem_elems.1 (Finset.mem_sdiff.1 he).1)

/-- The vector that is computed has the set. -/
theorem WellFormed.missedEdges_eq (h : obs.WellFormed) {specObs : Observation}
    (hrange : obs.InRange (obs.hbDiff specObs)) :
    obs.missedEdges specObs = obs.edges (obs.hbDiff specObs) := by
  obtain ⟨hsorted, hmem⟩ := VSet.Sorted.diff_spec (s := obs.hb) h.hbSorted specObs.hb
  have hdiff : ∀ e, e ∈ (specObs.hb.diff obs.hb).vset ↔ e ∈ obs.hbDiff specObs := by
    intro e
    rw [hbDiff, Finset.mem_sdiff, VSet.mem_elems, VSet.mem_elems]
    exact hmem e
  have hnodup : (obs.missedEdges specObs).Nodup := by
    rw [missedEdges, List.nodup_mergeSort]
    refine List.Nodup.map_on (fun e he e' he' heq => ?_) hsorted.nodup
    exact h.edgeAt_inj (hrange e ((hdiff e).1 he)) (hrange e' ((hdiff e').1 he')) heq
  have hle : (obs.missedEdges specObs).Pairwise (· ≤ ·) := List.pairwise_mergeSort' _ _
  have hlt : (obs.missedEdges specObs).Pairwise (· < ·) :=
    (hle.and hnodup).imp fun hab => lt_of_le_of_ne hab.1 hab.2
  have hedges : VSet.Sorted ⟨obs.edges (obs.hbDiff specObs)⟩ :=
    obs.pairwise_edges (obs.hbDiff specObs)
  have hsame : (⟨obs.missedEdges specObs⟩ : VSet Edge) = ⟨obs.edges (obs.hbDiff specObs)⟩ := by
    refine VSet.Sorted.ext hlt hedges fun x => ?_
    rw [VSet.mem_def, VSet.mem_def, mem_edges, missedEdges, List.mem_mergeSort, List.mem_map]
    exact exists_congr fun e => and_congr_left fun _ => hdiff e
  exact congrArg VSet.vset hsame

end GraphObservation

/-! ## The report -/

namespace Specification

open GraphObservation

section Report

variable {spec : Specification} {obs : GraphObservation} {range : List (Observation × Record)}

/-- Happens-before is between calls, for all records. -/
def HbInRange (spec : Specification) : Prop := ∀ e ∈ spec.data, e.1.HbInRange

/-- What an observation misses of the records with the same outcome. -/
def hbDifferences (spec : Specification) (obs : GraphObservation) : Set (Finset CallEdge) :=
  {d | ∃ e ∈ spec.data, e.1.eq obs.toObservation = true ∧ obs.hbDiff e.1 = d}

theorem inRange_of_mem (hspec : spec.HbInRange) {d : Finset CallEdge}
    (hd : d ∈ hbDifferences spec obs) : obs.InRange d := by
  obtain ⟨e, he, heq, rfl⟩ := hd
  exact inRange_hbDiff heq (hspec e he)

theorem mem_hbDifferences (hrange : range.Perm (spec.equalRange obs.toObservation))
    {d : Finset CallEdge} :
    d ∈ range.map (fun e => obs.hbDiff e.1) ↔ d ∈ hbDifferences spec obs := by
  rw [(hrange.map _).mem_iff, List.mem_map]
  refine ⟨?_, ?_⟩
  · rintro ⟨e, he, rfl⟩
    obtain ⟨he, heq⟩ := List.mem_filter.1 he
    exact ⟨e, he, heq, rfl⟩
  · rintro ⟨e, he, heq, rfl⟩
    exact ⟨e, List.mem_filter.2 ⟨he, heq⟩, rfl⟩

/-- The loop keeps minimal sets. -/
theorem refinementMissingEdges_eq (hobs : obs.WellFormed) (hspec : spec.HbInRange)
    (hrange : range.Perm (spec.equalRange obs.toObservation)) :
    refinementMissingEdges range obs =
      ((minimals (fun d d' => decide (d ⊆ d')) (range.map fun e => obs.hbDiff e.1)).map
        obs.edges).mergeSort (· ≤ ·) := by
  have hin : ∀ d ∈ range.map (fun e => obs.hbDiff e.1), obs.InRange d := fun d hd =>
    inRange_of_mem hspec ((mem_hbDifferences hrange).1 hd)
  have hmap : range.map (fun e => obs.missedEdges e.1) =
      (range.map fun e => obs.hbDiff e.1).map obs.edges := by
    rw [List.map_map]
    exact List.map_congr_left fun e he =>
      hobs.missedEdges_eq (hin _ (List.mem_map_of_mem he))
  have hkept : minimals (fun es es' => includes es' es) (range.map fun e => obs.missedEdges e.1) =
      (minimals (fun d d' => decide (d ⊆ d')) (range.map fun e => obs.hbDiff e.1)).map
        obs.edges := by
    rw [hmap]
    exact minimals_map fun d hd d' hd' => hobs.includes_edges (hin d hd) (hin d' hd')
  rw [← hkept, refinementMissingEdges, minimals, List.foldl_map]
  rfl

/-- **The report** has the minimal sets of missing edges, each once and in order. -/
theorem refinementMissingEdges_minimal (hobs : obs.WellFormed) (hspec : spec.HbInRange)
    (hrange : range.Perm (spec.equalRange obs.toObservation)) :
    (refinementMissingEdges range obs).Pairwise (· < ·) ∧
      (∀ es, es ∈ refinementMissingEdges range obs ↔
        ∃ d, Minimal (· ∈ hbDifferences spec obs) d ∧ obs.edges d = es) ∧
      Set.InjOn obs.edges (hbDifferences spec obs) := by
  have hinj : Set.InjOn obs.edges (hbDifferences spec obs) := fun d hd d' hd' heq =>
    hobs.edges_inj (inRange_of_mem hspec hd) (inRange_of_mem hspec hd') heq
  have hkept : Kept (range.map fun e => obs.hbDiff e.1)
      (minimals (fun d d' : Finset CallEdge => decide (d ⊆ d'))
        (range.map fun e => obs.hbDiff e.1)) :=
    kept_minimals (fun d d' => decide_eq_true_iff) _
  have hmin : ∀ d, d ∈ minimals (fun d d' : Finset CallEdge => decide (d ⊆ d'))
      (range.map fun e => obs.hbDiff e.1) ↔ Minimal (· ∈ hbDifferences spec obs) d := by
    intro d
    simp only [hkept.mem_iff, mem_hbDifferences hrange]
  rw [refinementMissingEdges_eq hobs hspec hrange]
  refine ⟨?_, fun es => ?_, hinj⟩
  · have hnodup := hkept.nodup.map_on fun d hd d' hd' =>
      hinj ((hmin d).1 hd).prop ((hmin d').1 hd').prop
    refine ((List.pairwise_mergeSort' _ _).and (List.nodup_mergeSort.2 hnodup)).imp fun h => ?_
    exact lt_of_le_of_ne h.1 h.2
  · rw [List.mem_mergeSort, List.mem_map]
    simp only [hmin]

/-- Three calls in different threads. -/
def unorderedCalls : GraphObservation where
  calls := (List.range 3).map fun t : ℕ =>
    { name := "enq", argVal := t, retVal := 0, beginLab := ⟨t, 1⟩, endLab := ⟨t, 2⟩ }

/-- Three ways to order them; the second one orders more than the first. -/
def orderedRecords : Specification where
  data := [[⟨0, 1⟩], [⟨0, 1⟩, ⟨1, 2⟩], [⟨2, 0⟩]].map fun hb =>
    ({ unorderedCalls.toObservation with hb := ⟨hb⟩ }, {})

theorem refinementMissingEdges_orderedRecords :
    (refinementMissingEdges orderedRecords.data.reverse unorderedCalls).Pairwise (· < ·) ∧
      (∀ es, es ∈ refinementMissingEdges orderedRecords.data.reverse unorderedCalls ↔
        ∃ d, Minimal (· ∈ hbDifferences orderedRecords unorderedCalls) d ∧
          unorderedCalls.edges d = es) ∧
      Set.InjOn unorderedCalls.edges (hbDifferences orderedRecords unorderedCalls) := by
  have hobs : unorderedCalls.WellFormed :=
    ⟨List.Pairwise.nil, by decide, by decide⟩
  have hspec : orderedRecords.HbInRange := by
    have hall : ∀ e ∈ orderedRecords.data, ∀ p ∈ e.1.hb.vset,
        p.first < 3 ∧ p.second < 3 := by decide
    intro e he p hp
    obtain ⟨hb, -, rfl⟩ := List.mem_map.1 he
    exact hall _ he p hp
  exact refinementMissingEdges_minimal hobs hspec ((List.reverse_perm _).trans (.refl _))

end Report

/-! ## Records -/

section Records

variable {spec other : Specification} {obs : Observation}

theorem fst_of_mem_updateSync {f : Record → Record} {data : List (Observation × Record)}
    {e : Observation × Record} (he : e ∈ updateSync f obs data) :
    e.1 = obs ∨ ∃ e' ∈ data, e'.1 = e.1 := by
  induction data with
  | nil =>
    obtain rfl := List.mem_singleton.1 he
    exact .inl rfl
  | cons e' data ih =>
    rw [updateSync] at he
    split at he
    · rcases List.mem_cons.1 he with rfl | he
      · exact .inr ⟨e', List.mem_cons_self, rfl⟩
      · exact .inr ⟨e, List.mem_cons_of_mem e' he, rfl⟩
    · rcases List.mem_cons.1 he with rfl | he
      · exact .inr ⟨_, List.mem_cons_self, rfl⟩
      · obtain hobs | ⟨e'', he'', heq⟩ := ih he
        · exact .inl hobs
        · exact .inr ⟨e'', List.mem_cons_of_mem e' he'', heq⟩

theorem hbInRange_updateSync {data : List (Observation × Record)}
    (hdata : ∀ e ∈ data, e.1.HbInRange) (f : Record → Record) (hobs : obs.HbInRange) :
    ∀ e ∈ updateSync f obs data, e.1.HbInRange := by
  intro e he
  rcases fst_of_mem_updateSync he with heq | ⟨e', he', heq⟩
  · rwa [heq]
  · exact heq ▸ hdata e' he'

theorem hbInRange_empty : HbInRange {} := fun _ he => absurd he List.not_mem_nil

theorem hbInRange_add (h : spec.HbInRange) (hobs : obs.HbInRange) (lin : Linearization) :
    (spec.add obs lin).HbInRange := hbInRange_updateSync h _ hobs

theorem hbInRange_addHints (h : spec.HbInRange) (hobs : obs.HbInRange) (hints : List Hint) :
    (spec.addHints obs hints).HbInRange := hbInRange_updateSync h _ hobs

theorem hbInRange_merge (h : spec.HbInRange) (h' : other.HbInRange) :
    (spec.merge other).HbInRange :=
  List.foldlRecOn (motive := fun data : List (Observation × Record) => ∀ e ∈ data, e.1.HbInRange)
    other.data _ h fun _ hdata e he => hbInRange_updateSync hdata _ (h' e he)

theorem hbInRange_permuteHb {orders : Orders} (ho : IsOrders obs orders) (h : obs.HbInRange) :
    (permuteHb (generatePermutation obs.ids orders.1 orders.2) obs).HbInRange := by
  have hlen := length_generatePermutation ho
  have hlt : ∀ i < obs.getNumOps,
      (generatePermutation obs.ids orders.1 orders.2).getD i 0 < obs.getNumOps := by
    intro i hi
    rw [List.getD_eq_getElem _ _ (hlen ▸ hi)]
    exact generatePermutation_lt ho _ (List.getElem_mem _)
  intro e he
  obtain ⟨e', he', rfl⟩ := List.mem_map.1 (List.mem_mergeSort.1 he)
  exact ⟨hlt _ (h e' he').1, hlt _ (h e' he').2⟩

/-- With symmetry reduction, happens-before is checked. -/
theorem hbInRange_addWithReduction (h : spec.HbInRange) (obs : Observation) (orderedIds : List ℕ) :
    ∃ rounds, ∀ fuel, rounds ≤ fuel → ∀ spec',
      addWithReduction fuel spec obs orderedIds = some (some spec') → spec'.HbInRange := by
  obtain ⟨visited, -, hvisited, hrun⟩ := addWithReduction_visits spec obs orderedIds
  refine ⟨visited.length, fun fuel hfuel spec' heq => ?_⟩
  rw [hrun fuel hfuel] at heq
  split at heq
  · rename_i hchecked
    cases heq
    refine List.foldlRecOn (motive := HbInRange) visited _ h fun _ hspec orders ho => ?_
    exact hbInRange_add hspec (hbInRange_permuteHb ((hvisited orders).1 ho) hchecked.2.2) _
  · cases heq

end Records

end Specification

/-! ## Labels -/

section Labels

open Observation

variable {g : ExecutionGraph}

/-- The labels of the calls, and then the one of the open call, were met in this order. -/
structure Observation.PopulateState.Met (met : List Event) (s : PopulateState) : Prop where
  begins : (s.ops.map (·.beginLab) ++ s.openBegin.toList.map (·.pos)).Sublist met
  ends : (s.ops.map (·.endLab)).Sublist met

theorem met_populateLabel {tid : ℕ} {met : List Event} {s s' : PopulateState} {lab : EventLabel}
    (hs : PopulateState.Met met s) (h : populateLabel tid s lab = some s') :
    PopulateState.Met (met ++ [lab.pos]) s' := by
  have hsame : PopulateState.Met (met ++ [lab.pos]) s :=
    ⟨hs.begins.trans (List.sublist_append_left _ _), hs.ends.trans (List.sublist_append_left _ _)⟩
  rw [populateLabel] at h
  split at h
  · split at h
    · cases h
    · rename_i hopen
      cases h
      have hbegins := hs.begins
      rw [Option.not_isSome_iff_eq_none.1 hopen, Option.toList_none, List.map_nil,
        List.append_nil] at hbegins
      exact ⟨hbegins.append (.refl _), hsame.ends⟩
  · split at h
    · obtain ⟨beginLab, hopen, hclose⟩ := Option.bind_eq_some_iff.1 h
      obtain ⟨s₁, hcount, rfl⟩ := Option.map_eq_some_iff.1 hclose
      have hbegins := hsame.begins
      rw [hopen, ← ops_countThread hcount] at hbegins
      have hends := hs.ends.append (List.Sublist.refl [lab.pos])
      rw [← ops_countThread hcount] at hends
      exact ⟨by simpa using hbegins, by simpa using hends⟩
    · split at h
      · cases h
        exact hsame
      · obtain ⟨hops, hopen⟩ := ops_openBegin_outside h
        exact ⟨hops ▸ hopen ▸ hsame.begins, hops ▸ hsame.ends⟩

theorem met_foldlM {tid : ℕ} {labs : List EventLabel} {met : List Event} {s s' : PopulateState}
    (hs : PopulateState.Met met s) (h : labs.foldlM (populateLabel tid) s = some s') :
    PopulateState.Met (met ++ labs.map (·.pos)) s' := by
  induction labs generalizing met s with
  | nil =>
    cases h
    rwa [List.map_nil, List.append_nil]
  | cons lab labs ih =>
    rw [List.foldlM_cons, Option.bind_eq_bind, Option.bind_eq_some_iff] at h
    obtain ⟨s₁, hs₁, h⟩ := h
    have hrest := ih (met_populateLabel hs hs₁) h
    rwa [List.append_assoc] at hrest

/-- The positions of the labels of a thread. -/
def threadPositions (g : ExecutionGraph) (tid : ℕ) : List Event :=
  (g.events.getD tid []).map (·.pos)

theorem met_populateThread {tid : ℕ} {met : List Event} {s s' : PopulateState}
    (hs : PopulateState.Met met s) (h : populateThread g s tid = some s') :
    PopulateState.Met (met ++ threadPositions g tid) s' := by
  rw [populateThread, Option.bind_eq_bind, Option.bind_eq_some_iff] at h
  obtain ⟨s₁, hs₁, h⟩ := h
  split at h
  · cases h
  · cases h
    have hstart : PopulateState.Met met { s with openBegin := none } := by
      refine ⟨?_, hs.ends⟩
      rw [Option.toList_none, List.map_nil, List.append_nil]
      exact (List.sublist_append_left _ _).trans hs.begins
    exact met_foldlM hstart hs₁

theorem met_foldlM_threads {tids : List ℕ} {met : List Event} {s s' : PopulateState}
    (hs : PopulateState.Met met s) (h : tids.foldlM (populateThread g) s = some s') :
    PopulateState.Met (met ++ tids.flatMap (threadPositions g)) s' := by
  induction tids generalizing met s with
  | nil =>
    cases h
    rwa [List.flatMap_nil, List.append_nil]
  | cons tid tids ih =>
    rw [List.foldlM_cons, Option.bind_eq_bind, Option.bind_eq_some_iff] at h
    obtain ⟨s₁, hs₁, h⟩ := h
    have hrest := ih (met_populateThread hs hs₁) h
    rwa [List.append_assoc, ← List.flatMap_cons] at hrest

theorem mem_threadPositions (hslots : g.Slots) {tid : ℕ} {e : Event}
    (he : e ∈ threadPositions g tid) : e.thread = tid := by
  obtain ⟨lab, hlab, rfl⟩ := List.mem_map.1 he
  obtain ⟨i, hi⟩ := List.mem_iff_getElem?.1 hlab
  rw [hslots ⟨tid, i⟩ lab hi]

theorem nodup_threadPositions (hslots : g.Slots) (tid : ℕ) : (threadPositions g tid).Nodup := by
  have heq : threadPositions g tid =
      (List.range (g.events.getD tid []).length).map fun i => ⟨tid, i⟩ := by
    refine List.ext_getElem (by simp [threadPositions]) fun i hi hi' => ?_
    rw [List.getElem_map, List.getElem_range]
    simp only [threadPositions, List.getElem_map]
    exact hslots ⟨tid, i⟩ _ (List.getElem?_eq_getElem _)
  rw [heq]
  exact List.nodup_range.map fun i j hij => (Event.mk.inj hij).2

theorem nodup_positions (hslots : g.Slots) (n : ℕ) :
    ((List.range n).flatMap (threadPositions g)).Nodup := by
  refine List.nodup_flatMap.2 ⟨fun tid _ => nodup_threadPositions hslots tid, ?_⟩
  refine List.nodup_range.imp fun hne => ?_
  intro e he he'
  exact hne ((mem_threadPositions hslots he).symm.trans (mem_threadPositions hslots he'))

theorem map_normalizeCalls_perm {γ : Type*} {f : GraphCall → γ}
    (hf : ∀ (op : GraphCall) (call : MethodCall), f { op with toMethodCall := call } = f op)
    (ops : List GraphCall) : ((normalizeCalls ops).map f).Perm (ops.map f) := by
  have hlen : (Normalization.swapValues (ops.map (·.toMethodCall))).length = ops.length := by
    rw [Normalization.swapValues, Normalization.length_opsBefore, List.length_map]
  have hsnd := (Normalization.map_snd_followed (ops.map (·.toMethodCall))).map
    fun i => f (ops.getD i default)
  have hrange : (List.range ops.length).map (fun i => f (ops.getD i default)) = ops.map f := by
    refine List.ext_getElem (by simp) fun i hi hi' => ?_
    rw [List.getElem_map, List.getElem_map, List.getElem_range, List.getD_eq_getElem]
  rw [hlen, hrange, List.map_map] at hsnd
  rw [normalizeCalls, List.map_map]
  refine (List.Perm.of_eq (List.map_congr_left fun p _ => ?_)).trans hsnd
  exact hf _ p.1

theorem sorted_collectHb (g : ExecutionGraph) (hbView : EventLabel → View) (ops : List GraphCall) :
    (collectHb g hbView ops).Sorted := by
  refine List.foldlRecOn (motive := VSet.Sorted) _ _ VSet.sorted_empty fun _ hs i _ => ?_
  refine List.foldlRecOn (motive := VSet.Sorted) _ _ hs fun _ hs j _ => ?_
  split
  · exact hs.insert _
  · exact hs

/-- **What is built of a graph** is well formed. -/
theorem wellFormed_of_construct {hbView : EventLabel → View} {obs : GraphObservation}
    (hslots : g.Slots) (h : construct g hbView = some obs) :
    obs.WellFormed ∧ obs.toObservation.HbInRange := by
  have hin : obs.toObservation.HbInRange := by
    intro e he
    have hlen : obs.toObservation.getNumOps = obs.calls.length := List.length_map _
    rw [hlen]
    obtain ⟨hi, hj, -⟩ := construct_hb_lt h e he
    exact ⟨hi, hj⟩
  refine ⟨?_, hin⟩
  rw [construct, Option.bind_eq_bind, Option.bind_eq_some_iff] at h
  obtain ⟨⟨ops, rfs⟩, hpopulate, h⟩ := h
  rw [populateOpsRf, Option.bind_eq_bind, Option.bind_eq_some_iff] at hpopulate
  obtain ⟨s, hs, heq⟩ := hpopulate
  cases heq
  have hstart : PopulateState.Met [] {} := ⟨List.Sublist.refl _, List.Sublist.refl _⟩
  have hmet := met_foldlM_threads hstart hs
  have hpositions := nodup_positions hslots g.getNumThreads
  have hbegins : (s.ops.map (·.beginLab)).Nodup :=
    ((List.sublist_append_left _ _).trans hmet.begins).nodup hpositions
  have hends : (s.ops.map (·.endLab)).Nodup := hmet.ends.nodup hpositions
  obtain ⟨erased, herased, -⟩ := exists_erased g hbView s.ops
  have hsub : (eraseTotallyOrdered g hbView s.ops).Sublist s.ops := by
    conv_rhs => rw [herased]
    exact List.sublist_append_right _ _
  have hbegins' := hbegins.sublist (hsub.map (·.beginLab))
  have hends' := hends.sublist (hsub.map (·.endLab))
  cases h
  refine ⟨sorted_collectHb _ _ _, ?_, ?_⟩
  · dsimp only
    split
    · exact (map_normalizeCalls_perm (fun _ _ => rfl) _).nodup_iff.2 hbegins'
    · exact hbegins'
  · dsimp only
    split
    · exact (map_normalizeCalls_perm (fun _ _ => rfl) _).nodup_iff.2 hends'
    · exact hends'

end Labels

end GenMC
