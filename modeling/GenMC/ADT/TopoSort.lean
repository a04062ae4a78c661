import GenMC.ADT.AdjList
import GenMC.ADT.Matrix2D
import GenMC.Library.Enumeration
import GenMC.Library.LinearExtension

/-!
# All topological sortings

Matrices and adjacency lists call a predicate on all topological sortings of a graph, or on all
combinations of sortings of several graphs, until it is satisfied.  The sortings of one graph are
found by backtracking: `allTopoSortUtil` tries every node whose in-degree is zero, takes the edges
of the node off the in-degrees of its successors meanwhile, and puts them back afterwards.  The
predicate that a combination passes to the sortings of one graph goes over the sortings of the next
one, and shares with it the partial combination and a flag that ends the search.

* `allTopoSortUtil_restores` holds of every graph and every state: what does not succeed leaves no
  trace in the in-degrees and in the sorting.
* `outcome_allTopoSortUtil`: as long as in-degrees count the edges from nodes that are not visited,
  the nodes that are tried are those that are ready, and the calls of the predicate are those that
  a search of `LinearExtension.completions` makes.
* `combineAllTopoSort_enumerates` is what follows for combinations.
-/

set_option autoImplicit false

namespace GenMC

open Enumeration LinearExtension ListOrder

/-- What the search of the sortings of a graph passes on: the sorting so far, in-degrees, whether
the predicate has been satisfied, and what the predicate itself changes. -/
structure TopoState (α σ : Type*) where
  current : List α
  inDegree : ℕ → ℤ
  found : Bool
  user : σ

namespace TopoSort

variable {α σ : Type*}

/-! ## Sortings of one graph -/

/-- Adds a number to the in-degree of each node of a list. -/
def addDegree (c : ℤ) (js : List ℕ) (inDegree : ℕ → ℤ) : ℕ → ℤ :=
  js.foldl (fun d j => Function.update d j (d j + c)) inDegree

/-- Schedules a node. -/
def schedule (elems : List α) (succ : ℕ → List ℕ) (i : ℕ) (s : TopoState α σ) : TopoState α σ :=
  { s with
    inDegree := addDegree (-1) (succ i) s.inDegree
    current := s.current ++ elems[i]?.toList }

/-- Takes the last node back. -/
def unschedule (succ : ℕ → List ℕ) (i : ℕ) (s : TopoState α σ) : TopoState α σ :=
  { s with
    current := s.current.dropLast
    inDegree := addDegree 1 (succ i) s.inDegree }

/-- Goes over the nodes.  Also returns whether a node has been scheduled. -/
def scheduleLoop (elems : List α) (succ : ℕ → List ℕ)
    (call : (ℕ → Bool) → TopoState α σ → TopoState α σ) (visited : ℕ → Bool) :
    List ℕ → TopoState α σ → Bool → TopoState α σ × Bool
  | [], s, scheduled => (s, scheduled)
  | i :: is, s, scheduled =>
    if s.inDegree i = 0 ∧ visited i = false then
      let s' := call (Function.update visited i true) (schedule elems succ i s)
      -- the search ends here
      if s'.found then (s', true)
      else scheduleLoop elems succ call visited is (unschedule succ i s') true
    else scheduleLoop elems succ call visited is s scheduled

/-- `allTopoSortUtil`, for a graph given by its elements and the successors of their indices.  The
fuel bounds the length of the sorting. -/
def allTopoSortUtil (elems : List α) (succ : ℕ → List ℕ) (prop : List α → σ → Bool × σ) :
    ℕ → (ℕ → Bool) → TopoState α σ → TopoState α σ
  | 0, _, s => s
  | fuel + 1, visited, s =>
    if s.found then s
    else
      let r := scheduleLoop elems succ (allTopoSortUtil elems succ prop fuel) visited
        (List.range elems.length) s false
      if r.2 then r.1
      else { r.1 with found := (prop r.1.current r.1.user).1,
                      user := (prop r.1.current r.1.user).2 }

/-- Calls the predicate on the sortings, until it is satisfied. -/
def allTopoSort (elems : List α) (succ : ℕ → List ℕ) (inDegree : ℕ → ℤ)
    (prop : List α → σ → Bool × σ) (x : σ) : Bool × σ :=
  let s := allTopoSortUtil elems succ prop (elems.length + 1) (fun _ => false)
    { current := [], inDegree := inDegree, found := false, user := x }
  (s.found, s.user)

/-- An order of the elements in which each one comes after its predecessors. -/
structure IsSorting (elems : List α) (succ : ℕ → List ℕ) (t : List α) : Prop where
  nodup : t.Nodup
  mem_iff : ∀ a, a ∈ t ↔ a ∈ elems
  before : ∀ i j a b, elems[i]? = some a → elems[j]? = some b → j ∈ succ i → Before t a b

/-! ## Nothing remains of what does not succeed -/

variable {elems : List α} {succ : ℕ → List ℕ} {prop : List α → σ → Bool × σ} {visited : ℕ → Bool}
  {fuel : ℕ}

theorem addDegree_apply (c : ℤ) (js : List ℕ) (d : ℕ → ℤ) (j : ℕ) :
    addDegree c js d j = d j + c * js.count j := by
  rw [addDegree]
  induction js generalizing d with
  | nil => simp
  | cons k js ih =>
    rw [List.foldl_cons, ih]
    by_cases hj : j = k
    · subst hj
      simp
      ring
    · simp [hj, Ne.symm hj]

theorem addDegree_addDegree (js : List ℕ) (d : ℕ → ℤ) :
    addDegree 1 js (addDegree (-1) js d) = d := by
  funext j
  rw [addDegree_apply, addDegree_apply]
  ring

/-- The sorting and the in-degrees are as they were. -/
def Restored (s s' : TopoState α σ) : Prop := s'.current = s.current ∧ s'.inDegree = s.inDegree

theorem Restored.unschedule {s s' : TopoState α σ} {i : ℕ} (hi : i < elems.length)
    (h : Restored (schedule elems succ i s) s') : Restored s (unschedule succ i s') := by
  obtain ⟨h1, h2⟩ := h
  refine ⟨?_, ?_⟩
  · show s'.current.dropLast = s.current
    rw [h1, schedule, List.getElem?_eq_getElem hi, Option.toList_some, List.dropLast_concat]
  · show addDegree 1 (succ i) s'.inDegree = s.inDegree
    rw [h2, schedule, addDegree_addDegree]

/-- If no node is scheduled, nothing happens. -/
theorem scheduleLoop_of_not_scheduled {call : (ℕ → Bool) → TopoState α σ → TopoState α σ}
    {is : List ℕ} {s : TopoState α σ} {scheduled : Bool}
    (h : (scheduleLoop elems succ call visited is s scheduled).2 = false) :
    scheduled = false ∧ (scheduleLoop elems succ call visited is s scheduled).1 = s := by
  induction is generalizing s scheduled with
  | nil => exact ⟨h, rfl⟩
  | cons i is ih =>
    rw [scheduleLoop] at h ⊢
    by_cases hready : s.inDegree i = 0 ∧ visited i = false
    · rw [if_pos hready] at h
      cases hs' : (call (Function.update visited i true) (schedule elems succ i s)).found with
      | true =>
        simp only [hs', if_true] at h
        cases h
      | false =>
        simp only [hs', Bool.false_eq_true, if_false] at h
        exact absurd (ih h).1.symm Bool.false_ne_true
    · rw [if_neg hready] at h ⊢
      exact ih h

theorem scheduleLoop_restores {call : (ℕ → Bool) → TopoState α σ → TopoState α σ}
    (hcall : ∀ visited s, (call visited s).found = false → Restored s (call visited s))
    {is : List ℕ} (his : ∀ i ∈ is, i < elems.length) {s : TopoState α σ} {scheduled : Bool}
    (hfound : (scheduleLoop elems succ call visited is s scheduled).1.found = false) :
    Restored s (scheduleLoop elems succ call visited is s scheduled).1 := by
  induction is generalizing s scheduled with
  | nil => exact ⟨rfl, rfl⟩
  | cons i is ih =>
    obtain ⟨hi, his⟩ := List.forall_mem_cons.1 his
    rw [scheduleLoop] at hfound ⊢
    by_cases hready : s.inDegree i = 0 ∧ visited i = false
    · rw [if_pos hready] at hfound ⊢
      cases hs' : (call (Function.update visited i true) (schedule elems succ i s)).found with
      | true =>
        simp only [hs', if_true] at hfound
        cases hfound
      | false =>
        simp only [hs', Bool.false_eq_true, if_false] at hfound ⊢
        obtain ⟨h1, h2⟩ := ih his hfound
        obtain ⟨h3, h4⟩ := (hcall _ _ hs').unschedule hi
        exact ⟨h1.trans h3, h2.trans h4⟩
    · rw [if_neg hready] at hfound ⊢
      exact ih his hfound

/-- **A call that does not succeed restores the sorting and the in-degrees.** -/
theorem allTopoSortUtil_restores (elems : List α) (succ : ℕ → List ℕ)
    (prop : List α → σ → Bool × σ) (fuel : ℕ) (visited : ℕ → Bool) (s : TopoState α σ)
    (hfound : (allTopoSortUtil elems succ prop fuel visited s).found = false) :
    Restored s (allTopoSortUtil elems succ prop fuel visited s) := by
  induction fuel generalizing visited s with
  | zero => exact ⟨rfl, rfl⟩
  | succ fuel ih =>
    rw [allTopoSortUtil] at hfound ⊢
    cases hs : s.found with
    | true => exact ⟨rfl, rfl⟩
    | false =>
      have hrange : ∀ i ∈ List.range elems.length, i < elems.length :=
        fun i hi => List.mem_range.1 hi
      simp only [hs, Bool.false_eq_true, if_false] at hfound ⊢
      split
      · rename_i hscheduled
        rw [if_pos hscheduled] at hfound
        exact scheduleLoop_restores ih hrange hfound
      · rename_i hscheduled
        rw [Bool.not_eq_true] at hscheduled
        show Restored s (scheduleLoop _ _ _ _ _ _ _).1
        rw [(scheduleLoop_of_not_scheduled hscheduled).2]
        exact ⟨rfl, rfl⟩

/-! ## The sortings that are tried -/

/-- The in-degrees, counting the edges from nodes that are not visited. -/
def degrees (n : ℕ) (succ : ℕ → List ℕ) (visited : ℕ → Bool) (j : ℕ) : ℤ :=
  ∑ a ∈ Finset.range n, if visited a then 0 else ((succ a).count j : ℤ)

/-- The sorting that visits more nodes. -/
def extend (elems : List α) (cur : List α) (q : List ℕ) : List α :=
  cur ++ q.filterMap fun i => elems[i]?

/-- All sortings. -/
def sortings (elems : List α) (succ : ℕ → List ℕ) : List (List α) :=
  (completions elems.length succ (elems.length + 1) fun _ => false).map (extend elems [])

/-- The sorting and the in-degrees of a search that has not succeeded. -/
def At (cur : List α) (deg : ℕ → ℤ) (s : TopoState α σ) : Prop :=
  s.current = cur ∧ s.inDegree = deg ∧ s.found = false

variable {n i : ℕ} {cur : List α} {deg : ℕ → ℤ}

theorem degrees_update (hi : i < n) (hv : visited i = false) :
    degrees n succ (Function.update visited i true) =
      addDegree (-1) (succ i) (degrees n succ visited) := by
  funext j
  rw [addDegree_apply, degrees, degrees]
  -- one summand has become zero
  have hterm : ∀ a, (if Function.update visited i true a then (0 : ℤ) else (succ a).count j) =
      (if visited a then 0 else ((succ a).count j : ℤ)) -
        if a = i then ((succ i).count j : ℤ) else 0 := by
    intro a
    by_cases ha : a = i
    · subst ha
      simp [hv]
    · simp [ha]
  rw [Finset.sum_congr rfl fun a _ => hterm a, Finset.sum_sub_distrib, Finset.sum_ite_eq',
    if_pos (Finset.mem_range.2 hi)]
  ring

/-- The nodes that are tried are those that are ready. -/
theorem ready_iff_degrees :
    ready n succ visited i = true ↔ degrees n succ visited i = 0 ∧ visited i = false := by
  rw [ready_iff, and_comm, degrees, Finset.sum_eq_zero_iff_of_nonneg fun a _ => by split <;> simp]
  refine and_congr_left fun _ => forall_congr' fun a => ?_
  rw [Finset.mem_range]
  refine imp_congr_right fun _ => ?_
  cases visited a <;> simp [List.count_eq_zero]

theorem extend_cons (cur : List α) (hi : i < elems.length) (q : List ℕ) :
    extend elems cur (i :: q) = extend elems (cur ++ elems[i]?.toList) q := by
  rw [extend, extend, List.getElem?_eq_getElem hi, List.filterMap_cons,
    List.getElem?_eq_getElem hi, Option.toList_some, List.append_assoc, List.singleton_append]

theorem At.unschedule {s : TopoState α σ} (hi : i < elems.length)
    (h : At (cur ++ elems[i]?.toList) (addDegree (-1) (succ i) deg) s) :
    At cur deg (unschedule succ i s) := by
  obtain ⟨h1, h2, h3⟩ := h
  refine ⟨?_, ?_, h3⟩
  · show s.current.dropLast = cur
    rw [h1, List.getElem?_eq_getElem hi, Option.toList_some, List.dropLast_concat]
  · show addDegree 1 (succ i) s.inDegree = deg
    rw [h2, addDegree_addDegree]

/-- Going over the nodes is a search of the sortings that go on with one that is ready. -/
theorem outcome_scheduleLoop {call : (ℕ → Bool) → TopoState α σ → TopoState α σ}
    {sort : (ℕ → Bool) → List (List ℕ)}
    (hdeg : ∀ j < elems.length, deg j = degrees elems.length succ visited j)
    (hcall : ∀ i < elems.length, visited i = false → ∀ cur s,
      At cur (addDegree (-1) (succ i) deg) s →
      Outcome prop (·.user) (At cur (addDegree (-1) (succ i) deg)) (·.found = true)
        ((sort (Function.update visited i true)).map (extend elems cur)) s
        ((call (Function.update visited i true) s).found, call (Function.update visited i true) s))
    {is : List ℕ} (his : ∀ i ∈ is, i < elems.length) {s : TopoState α σ} (hs : At cur deg s)
    (scheduled : Bool) :
    Outcome prop (·.user) (At cur deg) (·.found = true)
      (((is.filter (ready elems.length succ visited)).flatMap fun i =>
        (sort (Function.update visited i true)).map (i :: ·)).map (extend elems cur)) s
      ((scheduleLoop elems succ call visited is s scheduled).1.found,
        (scheduleLoop elems succ call visited is s scheduled).1) ∧
      ((scheduleLoop elems succ call visited is s scheduled).2 = true ↔
        scheduled = true ∨ is.filter (ready elems.length succ visited) ≠ []) := by
  induction is generalizing s scheduled with
  | nil =>
    refine ⟨⟨hs.2.2, rfl, fun _ => hs, fun h => h⟩, ?_⟩
    rw [scheduleLoop]
    simp
  | cons i is ih =>
    obtain ⟨hi, his⟩ := List.forall_mem_cons.1 his
    have hready : (s.inDegree i = 0 ∧ visited i = false) ↔
        ready elems.length succ visited i = true := by
      rw [ready_iff_degrees, hs.2.1, hdeg i hi]
    rw [scheduleLoop]
    by_cases hr : ready elems.length succ visited i = true
    · rw [if_pos (hready.2 hr), List.filter_cons_of_pos hr, List.flatMap_cons, List.map_append,
        List.map_map]
      have hsched : At (cur ++ elems[i]?.toList) (addDegree (-1) (succ i) deg)
          (schedule elems succ i s) := by
        obtain ⟨rfl, rfl, h3⟩ := hs
        exact ⟨rfl, rfl, h3⟩
      have hout := hcall i hi (hready.2 hr).2 _ _ hsched
      have hlist : (sort (Function.update visited i true)).map (extend elems cur ∘ (i :: ·)) =
          (sort (Function.update visited i true)).map (extend elems (cur ++ elems[i]?.toList)) :=
        List.map_congr_left fun q _ => extend_cons cur hi q
      rw [hlist]
      set s' := call (Function.update visited i true) (schedule elems succ i s)
      cases hs' : s'.found with
      | true =>
        simp only [hs', if_true]
        have hhere : Outcome prop (·.user) (At cur deg) (·.found = true)
            ((sort (Function.update visited i true)).map (extend elems (cur ++ elems[i]?.toList)))
            s (true, s') :=
          hout.frame rfl hs'.symm rfl (fun h => absurd (hs'.symm.trans h).symm Bool.false_ne_true)
            fun _ h => h
        exact ⟨by simpa [hs'] using hhere.append_of_found rfl _, by simp⟩
      | false =>
        simp only [hs', Bool.false_eq_true, if_false]
        have hback : At cur deg (unschedule succ i s') := (hout.inv hs').unschedule hi
        obtain ⟨hloop, hflag⟩ := ih his hback true
        have hhere : Outcome prop (·.user) (At cur deg) (·.found = true)
            ((sort (Function.update visited i true)).map (extend elems (cur ++ elems[i]?.toList)))
            s (false, unschedule succ i s') :=
          hout.frame rfl hs'.symm rfl (fun _ _ => hback) fun h => absurd (hs'.symm.trans h)
            Bool.false_ne_true
        refine ⟨hhere.append rfl hloop, ?_⟩
        rw [hflag]
        simp
    · rw [if_neg (mt hready.1 hr), List.filter_cons_of_neg hr]
      exact ih his hs scheduled

/-- **The calls of the predicate** are those of a search of the completions. -/
theorem outcome_allTopoSortUtil {s : TopoState α σ}
    (hdeg : ∀ j < elems.length, deg j = degrees elems.length succ visited j) (hs : At cur deg s) :
    Outcome prop (·.user) (At cur deg) (·.found = true)
      ((completions elems.length succ fuel visited).map (extend elems cur)) s
      ((allTopoSortUtil elems succ prop fuel visited s).found,
        allTopoSortUtil elems succ prop fuel visited s) := by
  induction fuel generalizing visited s cur deg with
  | zero => exact ⟨hs.2.2, rfl, fun _ => hs, fun h => h⟩
  | succ fuel ih =>
    obtain ⟨hloop, hflag⟩ := outcome_scheduleLoop hdeg
      (fun i hi hv cur s hs => ih (fun j hj => by
        rw [degrees_update hi hv, addDegree_apply, addDegree_apply, hdeg j hj]) hs)
      (fun i hi => List.mem_range.1 hi) hs false
    rw [allTopoSortUtil, completions]
    simp only [hs.2.2, Bool.false_eq_true, if_false]
    simp only [Bool.false_eq_true, false_or] at hflag
    cases havail : (List.range elems.length).filter (ready elems.length succ visited) with
    | nil =>
      rw [havail] at hflag
      have hnot := Bool.eq_false_iff.2 (mt hflag.1 (not_not.2 rfl))
      simp only [hnot, Bool.false_eq_true, if_false]
      rw [(scheduleLoop_of_not_scheduled hnot).2]
      obtain ⟨rfl, rfl, h3⟩ := hs
      have hcur : extend elems s.current [] = s.current := List.append_nil _
      rw [List.map_singleton, hcur]
      cases hp : (prop s.current s.user).1 <;>
        refine ⟨by simp [searchAll, hp], by simp [searchAll, hp], ?_, ?_⟩ <;> simp [At]
    | cons a avail =>
      rw [havail] at hflag hloop
      rw [if_pos (hflag.2 (List.cons_ne_nil _ _))]
      exact hloop

/-- **The sortings of a graph are searched.** -/
theorem allTopoSort_eq {inDegree : ℕ → ℤ}
    (hdeg : ∀ j < elems.length, inDegree j = degrees elems.length succ (fun _ => false) j) (x : σ) :
    allTopoSort elems succ inDegree prop x = searchAll prop (sortings elems succ) x := by
  set s : TopoState α σ := { current := [], inDegree := inDegree, found := false, user := x }
  have h : Outcome prop (·.user) (At [] inDegree) (·.found = true) (sortings elems succ) s
      ((allTopoSortUtil elems succ prop (elems.length + 1) (fun _ => false) s).found,
        allTopoSortUtil elems succ prop (elems.length + 1) (fun _ => false) s) :=
    outcome_allTopoSortUtil hdeg ⟨rfl, rfl, rfl⟩
  exact Prod.ext h.found h.view

/-! ## Sortings are linear extensions -/

section Sortings

variable {t : List α} {q : List ℕ}

theorem before_filterMap {a b : α} {i j : ℕ} (h : Before q i j) (hi : elems[i]? = some a)
    (hj : elems[j]? = some b) : Before (q.filterMap fun i => elems[i]?) a b := by
  obtain ⟨l₁, l₂, rfl, hmem⟩ := h
  refine ⟨l₁.filterMap fun i => elems[i]?, l₂.filterMap fun i => elems[i]?, ?_, ?_⟩
  · rw [List.filterMap_append, List.filterMap_cons, hj]
  · exact List.mem_filterMap.2 ⟨i, hmem, hi⟩

/-- The elements of different nodes are different. -/
theorem getElem?_inj (hnd : elems.Nodup) {i j : ℕ} {a : α} (hi : elems[i]? = some a)
    (hj : elems[j]? = some a) : i = j :=
  (List.getElem?_inj (List.getElem?_eq_some_iff.1 hi).1 hnd).1 (hi.trans hj.symm)

/-- A completion gives a sorting. -/
theorem isSorting_filterMap (hnd : elems.Nodup)
    (h : IsCompletion elems.length succ (fun _ => false) q) :
    IsSorting elems succ (q.filterMap fun i => elems[i]?) := by
  refine ⟨h.nodup.filterMap fun i j a hi hj => getElem?_inj hnd hi hj, fun a => ?_, ?_⟩
  · rw [List.mem_filterMap, List.mem_iff_getElem?]
    refine ⟨?_, ?_⟩
    · rintro ⟨i, -, hi⟩
      exact ⟨i, hi⟩
    · rintro ⟨i, hi⟩
      exact ⟨i, (h.mem_iff i).2 ⟨(List.getElem?_eq_some_iff.1 hi).1, rfl⟩, hi⟩
  · intro i j a b hi hj hij
    refine before_filterMap (h.before i j ?_ ?_ hij) hi hj
    · exact (h.mem_iff i).2 ⟨(List.getElem?_eq_some_iff.1 hi).1, rfl⟩
    · exact (h.mem_iff j).2 ⟨(List.getElem?_eq_some_iff.1 hj).1, rfl⟩

variable [DecidableEq α]

theorem getElem?_idxOf {a : α} (ha : a ∈ elems) : elems[elems.idxOf a]? = some a :=
  List.getElem?_idxOf ha

/-- A sorting comes from a completion. -/
theorem isCompletion_map_idxOf (hnd : elems.Nodup) (h : IsSorting elems succ t) :
    IsCompletion elems.length succ (fun _ => false) (t.map fun a => elems.idxOf a) := by
  have hget : ∀ a ∈ t, elems[elems.idxOf a]? = some a := fun a ha =>
    getElem?_idxOf ((h.mem_iff a).1 ha)
  have hinj : ∀ a ∈ t, ∀ b ∈ t, elems.idxOf a = elems.idxOf b → a = b := by
    intro a ha b hb hab
    have := hget a ha
    rw [hab, hget b hb] at this
    exact (Option.some.inj this).symm
  refine ⟨List.Nodup.map_on hinj h.nodup, fun i => ?_, fun i j hi hj hij => ?_⟩
  · rw [List.mem_map]
    refine ⟨?_, ?_⟩
    · rintro ⟨a, ha, rfl⟩
      exact ⟨List.idxOf_lt_length_of_mem ((h.mem_iff a).1 ha), rfl⟩
    · rintro ⟨hi, -⟩
      have ha := (h.mem_iff elems[i]).2 (List.getElem_mem hi)
      exact ⟨elems[i], ha, getElem?_inj hnd (hget _ ha) (List.getElem?_eq_getElem hi)⟩
  · obtain ⟨a, ha, rfl⟩ := List.mem_map.1 hi
    obtain ⟨b, hb, rfl⟩ := List.mem_map.1 hj
    exact (before_map_iff hinj ha hb).2 (h.before _ _ a b (hget a ha) (hget b hb) hij)

theorem filterMap_map_idxOf (ht : ∀ a ∈ t, a ∈ elems) :
    ((t.map fun a => elems.idxOf a).filterMap fun i => elems[i]?) = t := by
  induction t with
  | nil => rfl
  | cons a t ih =>
    obtain ⟨ha, ht⟩ := List.forall_mem_cons.1 ht
    rw [List.map_cons, List.filterMap_cons, getElem?_idxOf ha, ih ht]

theorem map_idxOf_filterMap (hnd : elems.Nodup) (hq : ∀ i ∈ q, i < elems.length) :
    (q.filterMap fun i => elems[i]?).map (fun a => elems.idxOf a) = q := by
  induction q with
  | nil => rfl
  | cons i q ih =>
    obtain ⟨hi, hq⟩ := List.forall_mem_cons.1 hq
    rw [List.filterMap_cons, List.getElem?_eq_getElem hi, List.map_cons, ih hq,
      hnd.idxOf_getElem]

end Sortings

theorem rest_fresh (n : ℕ) : rest n (fun _ => false) < n + 1 := by
  rw [rest, Nat.lt_succ_iff]
  exact (List.length_filter_le _ _).trans List.length_range.le

variable {t : List α}

/-- **All linear extensions are tried.** -/
theorem mem_sortings_iff (hnd : elems.Nodup) (hac : Acyclic (Edge elems.length succ)) :
    t ∈ sortings elems succ ↔ IsSorting elems succ t := by
  classical
  rw [sortings, List.mem_map]
  refine ⟨?_, fun h => ?_⟩
  · rintro ⟨q, hq, rfl⟩
    exact isSorting_filterMap hnd ((mem_completions_iff hac (rest_fresh _)).1 hq)
  · exact ⟨_, (mem_completions_iff hac (rest_fresh _)).2 (isCompletion_map_idxOf hnd h),
      filterMap_map_idxOf fun a => (h.mem_iff a).1⟩

/-- **No linear extension is tried twice.** -/
theorem nodup_sortings (hnd : elems.Nodup) (hac : Acyclic (Edge elems.length succ)) :
    (sortings elems succ).Nodup := by
  classical
  -- the nodes can be read off a sorting
  have hback : ∀ q ∈ completions elems.length succ (elems.length + 1) fun _ => false,
      (extend elems [] q).map (fun a => elems.idxOf a) = q := by
    intro q hq
    have hq := (mem_completions_iff hac (rest_fresh _)).1 hq
    exact map_idxOf_filterMap hnd fun i hi => ((hq.mem_iff i).1 hi).1
  refine List.Nodup.map_on (fun q hq q' hq' h => ?_) nodup_completions
  rw [← hback q hq, ← hback q' hq', h]

end TopoSort

open TopoSort

/-! ## Matrices and adjacency lists -/

/-- What the search of combinations passes on: the sortings so far, whether the predicate has been
satisfied, and what the predicate itself changes. -/
structure CombineState (α σ : Type*) where
  current : List (List α)
  found : Bool
  user : σ

/-- Calls the predicate on a combination. -/
def CombineState.call {α σ : Type*} (prop : List (List α) → σ → Bool × σ) (c : CombineState α σ) :
    Bool × CombineState α σ :=
  let r := prop c.current c.user
  (r.1, { c with found := r.1, user := r.2 })

/-- Adds a sorting to the combination. -/
def CombineState.push {α σ : Type*} (sorting : List α) (c : CombineState α σ) :
    CombineState α σ :=
  { c with current := c.current ++ [sorting] }

/-- Takes the last sorting back. -/
def CombineState.pop {α σ : Type*} (c : CombineState α σ) : CombineState α σ :=
  { c with current := c.current.dropLast }

/-- A matrix with the elements that its mapper gives to the indices. -/
structure MappedMatrix (α : Type*) extends Matrix2D where
  elems : List α

namespace MappedMatrix

variable {α σ : Type*}

/-- The indices that the loop over row `i` stops at. -/
def succ (m : MappedMatrix α) (i : ℕ) : List ℕ := (List.range m.len).filter fun j => m.at' i j

def getInDegrees (m : MappedMatrix α) (i : ℕ) : ℤ :=
  (List.range m.len).foldl (fun d j => d + (m.at' j i).toNat) 0

def allTopoSort (m : MappedMatrix α) (prop : List α → σ → Bool × σ) (x : σ) : Bool × σ :=
  TopoSort.allTopoSort m.elems m.succ m.getInDegrees prop x

def combineAllTopoSortUtil (prop : List (List α) → σ → Bool × σ) :
    List (MappedMatrix α) → CombineState α σ → Bool × CombineState α σ
  | [], c => if c.found then (true, c) else c.call prop
  | m :: toCombine, c =>
    if c.found then (true, c)
    else
      let r := m.allTopoSort (fun sorting c =>
        let res := combineAllTopoSortUtil prop toCombine (c.push sorting)
        (res.1, res.2.pop)) c
      (r.2.found, r.2)

def combineAllTopoSort (toCombine : List (MappedMatrix α))
    (prop : List (List α) → σ → Bool × σ) (x : σ) : Bool × σ :=
  let r := combineAllTopoSortUtil prop toCombine { current := [], found := false, user := x }
  (r.1, r.2.user)

/-- What mappers guarantee. -/
structure Wf (m : MappedMatrix α) : Prop where
  nodup : m.elems.Nodup
  length : m.elems.length = m.len

end MappedMatrix

namespace AdjList

variable {α σ : Type*}

def allTopoSort (l : AdjList α) (prop : List α → σ → Bool × σ) (x : σ) : Bool × σ :=
  TopoSort.allTopoSort l.elems l.nodeSucc l.inDegree prop x

/-- The combination is left as it is if the search ends. -/
def combineAllTopoSortUtil (prop : List (List α) → σ → Bool × σ) :
    List (AdjList α) → CombineState α σ → Bool × CombineState α σ
  | [], c => if c.found then (true, c) else c.call prop
  | l :: toCombine, c =>
    if c.found then (true, c)
    else
      l.allTopoSort (fun sorting c =>
        let res := combineAllTopoSortUtil prop toCombine (c.push sorting)
        if res.1 then (true, res.2) else (false, res.2.pop)) c

def combineAllTopoSort (toCombine : List (AdjList α))
    (prop : List (List α) → σ → Bool × σ) (x : σ) : Bool × σ :=
  let r := combineAllTopoSortUtil prop toCombine { current := [], found := false, user := x }
  (r.1, r.2.user)

end AdjList

namespace TopoSort

variable {α σ : Type*}

/-! ## Combinations -/

/-- The combination of a search that has not succeeded. -/
def CombineAt (cur : List (List α)) (c : CombineState α σ) : Prop :=
  c.current = cur ∧ c.found = false

/-- The combinations of these sortings are searched. -/
def Searches (prop : List (List α) → σ → Bool × σ) (xss : List (List (List α)))
    (util : CombineState α σ → Bool × CombineState α σ) : Prop :=
  ∀ cur c, CombineAt cur c → Outcome prop (·.user) (CombineAt cur) (·.found = true)
    ((tuples xss).map (cur ++ ·)) c (util c)

variable {prop : List (List α) → σ → Bool × σ} {xss : List (List (List α))}
  {util util' : CombineState α σ → Bool × CombineState α σ}

theorem searches_nil (h : ∀ c, c.found = false → util c = c.call prop) :
    Searches prop [] util := by
  rintro _ c ⟨rfl, hc⟩
  rw [h c hc, tuples, List.map_singleton, List.append_nil, CombineState.call]
  cases hp : (prop c.current c.user).1 <;>
    refine ⟨by simp [searchAll, hp], by simp [searchAll, hp], ?_, ?_⟩ <;> simp [CombineAt]

/-- Going over the sortings of one more graph. -/
theorem searches_cons (h : Searches prop xss util) (xs : List (List α))
    (back : Bool × CombineState α σ → Bool × CombineState α σ)
    (hback : ∀ r, (back r).1 = r.1 ∧ (back r).2.user = r.2.user ∧ (back r).2.found = r.2.found ∧
      (r.1 = false → (back r).2.current = r.2.current.dropLast))
    (h' : ∀ c, c.found = false →
      util' c = searchAll (fun sorting c => back (util (c.push sorting))) xs c) :
    Searches prop (xs :: xss) util' := by
  rintro cur c hc
  rw [h' c hc.2]
  have hlist : (tuples (xs :: xss)).map (cur ++ ·) =
      xs.flatMap fun x => (tuples xss).map (cur ++ [x] ++ ·) := by
    rw [tuples, List.map_flatMap]
    refine List.flatMap_congr fun x _ => ?_
    rw [List.map_map]
    refine List.map_congr_left fun t _ => ?_
    rw [List.append_assoc, List.singleton_append]
    rfl
  rw [hlist]
  refine searchAll_flatMap (fun sorting c hc => ?_) xs hc
  obtain ⟨h1, h2, h3, h4⟩ := hback (util (c.push sorting))
  obtain ⟨rfl, hfound⟩ := hc
  refine (h _ (c.push sorting) ⟨rfl, hfound⟩).frame rfl h1 h2 (fun hr hat => ⟨?_, ?_⟩) ?_
  · rw [h4 hr, hat.1]
    exact List.dropLast_concat
  · rw [h3]
    exact hat.2
  · intro _ hfin
    rw [h3]
    exact hfin

/-- A search that does not succeed leaves the combination as it was. -/
theorem Searches.restores (h : Searches prop xss util) {c : CombineState α σ}
    (hc : c.found = false) (hfail : (util c).1 = false) : (util c).2.current = c.current :=
  ((h c.current c ⟨rfl, hc⟩).inv hfail).1

variable {G : Type*} {elems : G → List α} {succ : G → ℕ → List ℕ} {gs : List G}

/-- The members of combinations of sortings are sortings. -/
theorem mem_tuples_map
    (h : ∀ g ∈ gs, (elems g).Nodup ∧ Acyclic (LinearExtension.Edge (elems g).length (succ g)))
    (t : List (List α)) :
    t ∈ tuples (gs.map fun g => sortings (elems g) (succ g)) ↔
      List.Forall₂ (fun t g => IsSorting (elems g) (succ g) t) t gs := by
  rw [mem_tuples, List.forall₂_map_right_iff]
  induction gs generalizing t with
  | nil => rw [List.forall₂_nil_right_iff, List.forall₂_nil_right_iff]
  | cons g gs ih =>
    obtain ⟨hg, hgs⟩ := List.forall_mem_cons.1 h
    simp only [List.forall₂_cons_right_iff, mem_sortings_iff hg.1 hg.2, ih hgs]

/-- **A search of combinations** enumerates the combinations of linear extensions. -/
theorem Searches.enumerates {p : List (List α) → Bool}
    {util : CombineState α (List (List (List α))) → Bool × CombineState α (List (List (List α)))}
    (h : Searches (record p) (gs.map fun g => sortings (elems g) (succ g)) util)
    (hgs : ∀ g ∈ gs, (elems g).Nodup ∧ Acyclic (LinearExtension.Edge (elems g).length (succ g))) :
    Enumerates (fun t => List.Forall₂ (fun t g => IsSorting (elems g) (succ g) t) t gs) p
      ((util { current := [], found := false, user := [] }).1,
        (util { current := [], found := false, user := [] }).2.user) := by
  have hout := h [] { current := [], found := false, user := [] } ⟨rfl, rfl⟩
  have hlist : ∀ l : List (List (List α)), l.map (([] : List (List α)) ++ ·) = l := List.map_id
  rw [hlist] at hout
  rw [hout.found, hout.view]
  refine enumerates_searchAll (nodup_tuples fun xs hxs => ?_) (mem_tuples_map hgs) p
  obtain ⟨g, hg, rfl⟩ := List.mem_map.1 hxs
  exact nodup_sortings (hgs g hg).1 (hgs g hg).2

end TopoSort

namespace MappedMatrix

variable {α σ : Type*} {m : MappedMatrix α}

theorem getInDegrees_eq (m : MappedMatrix α) (i : ℕ) :
    m.getInDegrees i = ∑ j ∈ Finset.range m.len, ((m.at' j i).toNat : ℤ) := by
  rw [getInDegrees]
  induction m.len with
  | zero => rfl
  | succ n ih => rw [List.range_succ, List.foldl_append, ih, Finset.sum_range_succ]; rfl

theorem mem_succ {i j : ℕ} : j ∈ m.succ i ↔ j < m.len ∧ m.at' i j = true := by
  rw [succ, List.mem_filter, List.mem_range]

theorem inDegree_eq (hm : m.Wf) {i : ℕ} (hi : i < m.elems.length) :
    m.getInDegrees i = degrees m.elems.length m.succ (fun _ => false) i := by
  rw [getInDegrees_eq, degrees, hm.length]
  refine Finset.sum_congr rfl fun j _ => ?_
  have hnd : (m.succ j).Nodup := List.nodup_range.filter _
  rw [hm.length] at hi
  rw [if_neg Bool.false_ne_true, hnd.count]
  cases hat : m.at' j i <;> simp [mem_succ, hat, hi]

theorem edge_eq (hm : m.Wf) : LinearExtension.Edge m.elems.length m.succ = m.Edge := by
  funext i j
  rw [LinearExtension.Edge, Matrix2D.Edge, mem_succ, hm.length]

theorem searches_combineAllTopoSortUtil {ms : List (MappedMatrix α)} (hms : ∀ m ∈ ms, m.Wf)
    (prop : List (List α) → σ → Bool × σ) :
    Searches prop (ms.map fun m => sortings m.elems m.succ) (combineAllTopoSortUtil prop ms) := by
  induction ms with
  | nil =>
    refine searches_nil fun c hc => ?_
    rw [combineAllTopoSortUtil, hc]
    rfl
  | cons m ms ih =>
    obtain ⟨hm, hms⟩ := List.forall_mem_cons.1 hms
    have hsearch := searches_cons (ih hms) (sortings m.elems m.succ)
      (fun r => (r.1, r.2.pop)) (fun r => ⟨rfl, rfl, rfl, fun _ => rfl⟩) fun _ _ => rfl
    intro cur c hc
    have h := hsearch cur c hc
    rw [combineAllTopoSortUtil, hc.2, allTopoSort, allTopoSort_eq fun j hj => inDegree_eq hm hj]
    -- the flag says whether the search has succeeded
    refine h.frame rfl ?_ rfl (fun _ h => h) fun _ h => h
    cases hr : (searchAll _ _ c).1 with
    | true => exact h.fin hr
    | false => exact (h.inv hr).2

end MappedMatrix

namespace AdjList

variable {α σ : Type*} {l : AdjList α}

/-- The counters of a graph are the in-degrees. -/
theorem Wf.inDegree_eq (hl : l.Wf) (i : ℕ) :
    l.inDegree i = degrees l.elems.length l.nodeSucc (fun _ => false) i := by
  rw [hl.inDegree i, degrees]
  exact Finset.sum_congr rfl fun j _ => (if_neg Bool.false_ne_true).symm

theorem Wf.edge_eq (hl : l.Wf) : LinearExtension.Edge l.elems.length l.nodeSucc = l.Edge := by
  funext i j
  exact propext (and_iff_right_of_imp fun hij => (hl.succ i j hij).1)

theorem searches_combineAllTopoSortUtil {ls : List (AdjList α)} (hls : ∀ l ∈ ls, l.Wf)
    (prop : List (List α) → σ → Bool × σ) :
    Searches prop (ls.map fun l => sortings l.elems l.nodeSucc)
      (combineAllTopoSortUtil prop ls) := by
  induction ls with
  | nil =>
    refine searches_nil fun c hc => ?_
    rw [combineAllTopoSortUtil, hc]
    rfl
  | cons l ls ih =>
    obtain ⟨hl, hls⟩ := List.forall_mem_cons.1 hls
    refine searches_cons (ih hls) (sortings l.elems l.nodeSucc)
      (fun r => if r.1 then (true, r.2) else (false, r.2.pop)) (fun r => ?_) fun c hc => ?_
    · cases hr : r.1 <;> simp [CombineState.pop]
    · rw [combineAllTopoSortUtil, hc, allTopoSort, allTopoSort_eq fun j _ => hl.inDegree_eq j]
      rfl

end AdjList

/-- **All combinations of linear extensions are tried**, each of them once, until the predicate is
satisfied, for matrices and for adjacency lists.  What does not succeed leaves no trace, neither in
the combination nor in the in-degrees and the sorting of a graph. -/
theorem combineAllTopoSort_enumerates {α σ : Type*} (ms : List (MappedMatrix α))
    (hms : ∀ m ∈ ms, m.Wf ∧ Acyclic m.Edge) (ls : List (AdjList α))
    (hls : ∀ l ∈ ls, l.Wf ∧ Acyclic l.Edge) :
    (∀ p, Enumerates (fun t => List.Forall₂ (fun t m => IsSorting m.elems m.succ t) t ms) p
      (MappedMatrix.combineAllTopoSort ms (record p) [])) ∧
    (∀ p, Enumerates (fun t => List.Forall₂ (fun t l => IsSorting l.elems l.nodeSucc t) t ls) p
      (AdjList.combineAllTopoSort ls (record p) [])) ∧
    (∀ (prop : List (List α) → σ → Bool × σ) c, c.found = false →
      ((MappedMatrix.combineAllTopoSortUtil prop ms c).1 = false →
        (MappedMatrix.combineAllTopoSortUtil prop ms c).2.current = c.current) ∧
      ((AdjList.combineAllTopoSortUtil prop ls c).1 = false →
        (AdjList.combineAllTopoSortUtil prop ls c).2.current = c.current)) ∧
    ∀ (elems : List α) (succ : ℕ → List ℕ) (prop : List α → σ → Bool × σ) fuel visited s,
      (allTopoSortUtil elems succ prop fuel visited s).found = false →
      (allTopoSortUtil elems succ prop fuel visited s).current = s.current ∧
        (allTopoSortUtil elems succ prop fuel visited s).inDegree = s.inDegree := by
  have hm : ∀ m ∈ ms, m.elems.Nodup ∧ Acyclic (LinearExtension.Edge m.elems.length m.succ) :=
    fun m hm => ⟨(hms m hm).1.nodup, MappedMatrix.edge_eq (hms m hm).1 ▸ (hms m hm).2⟩
  have hl : ∀ l ∈ ls, l.elems.Nodup ∧ Acyclic (LinearExtension.Edge l.elems.length l.nodeSucc) :=
    fun l hl => ⟨(hls l hl).1.nodup, (hls l hl).1.edge_eq ▸ (hls l hl).2⟩
  have hmwf : ∀ m ∈ ms, m.Wf := fun m hm => (hms m hm).1
  have hlwf : ∀ l ∈ ls, l.Wf := fun l hl => (hls l hl).1
  refine ⟨fun p => ?_, fun p => ?_, fun prop c hc => ⟨fun h => ?_, fun h => ?_⟩, ?_⟩
  · exact (MappedMatrix.searches_combineAllTopoSortUtil hmwf _).enumerates hm
  · exact (AdjList.searches_combineAllTopoSortUtil hlwf _).enumerates hl
  · exact (MappedMatrix.searches_combineAllTopoSortUtil hmwf prop).restores hc h
  · exact (AdjList.searches_combineAllTopoSortUtil hlwf prop).restores hc h
  · exact fun elems succ prop fuel visited s =>
      allTopoSortUtil_restores elems succ prop fuel visited s

/-- A matrix with one edge. -/
def stepMatrix : MappedMatrix ℕ := { (Matrix2D.ofSize 2).addEdge 0 1 with elems := [5, 6] }

/-- An adjacency list with one edge. -/
def stepList : AdjList ℕ := (AdjList.ofElems [5, 6, 7]).addEdgeIds 0 2

theorem stepMatrix_edge {i j : ℕ} (h : stepMatrix.Edge i j) : i < j := by
  have hat := (Matrix2D.at_addEdge 0 1 i j).1 h.2.2
  rcases hat with hat | ⟨rfl, rfl⟩
  · cases hat
  · exact Nat.zero_lt_one

theorem stepList_built : AdjList.Built [5, 6, 7] [(5, 7)] stepList :=
  .addEdge (E := []) (a := 5) (b := 7) .ofElems rfl

theorem stepList_edge {i j : ℕ} (h : stepList.Edge i j) : i < j := by
  have hedge : AddEdge (AdjList.ofElems [5, 6, 7]).Edge 0 2 i j :=
    (congrFun (congrFun (AdjList.edge_addEdgeIds rfl) i) j).mp h
  rcases hedge with hedge | ⟨rfl, rfl⟩
  · cases hedge
  · exact Nat.zero_lt_two

theorem combineAllTopoSort_enumerates_step :
    (∀ p, Enumerates (fun t => List.Forall₂ (fun t m => IsSorting m.elems m.succ t) t
        [stepMatrix, stepMatrix]) p
      (MappedMatrix.combineAllTopoSort [stepMatrix, stepMatrix] (record p) [])) ∧
    (∀ p, Enumerates (fun t => List.Forall₂ (fun t l => IsSorting l.elems l.nodeSucc t) t
        [stepList]) p (AdjList.combineAllTopoSort [stepList] (record p) [])) ∧
    (∀ (prop : List (List ℕ) → Unit → Bool × Unit) c, c.found = false →
      ((MappedMatrix.combineAllTopoSortUtil prop [stepMatrix, stepMatrix] c).1 = false →
        (MappedMatrix.combineAllTopoSortUtil prop [stepMatrix, stepMatrix] c).2.current =
          c.current) ∧
      ((AdjList.combineAllTopoSortUtil prop [stepList] c).1 = false →
        (AdjList.combineAllTopoSortUtil prop [stepList] c).2.current = c.current)) ∧
    ∀ (elems : List ℕ) (succ : ℕ → List ℕ) (prop : List ℕ → Unit → Bool × Unit) fuel visited s,
      (allTopoSortUtil elems succ prop fuel visited s).found = false →
      (allTopoSortUtil elems succ prop fuel visited s).current = s.current ∧
        (allTopoSortUtil elems succ prop fuel visited s).inDegree = s.inDegree :=
  combineAllTopoSort_enumerates [stepMatrix, stepMatrix]
    (by
      have hm : stepMatrix.Wf ∧ Acyclic stepMatrix.Edge :=
        ⟨⟨by decide, rfl⟩, acyclic_of_lt fun _ _ h => stepMatrix_edge h⟩
      simp [hm])
    [stepList]
    (by
      have hl : stepList.Wf ∧ Acyclic stepList.Edge :=
        ⟨(AdjList.inv_of_built (by decide) stepList_built).toWf,
          acyclic_of_lt fun _ _ h => stepList_edge h⟩
      simpa using hl)

end GenMC
