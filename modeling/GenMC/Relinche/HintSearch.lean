import GenMC.Relinche.Extension
import Mathlib.Data.Finset.Sort
import Mathlib.Data.List.GetD
import Mathlib.Order.Minimal

/-!
# The hint search is sound and complete

Hints are sound because the matrix and the bit vector of every extension are right
(`Extension.Valid`), and no two of them imply each other because of how they are added to the list
(`Extensions.maybeAdd`).

They are complete because of targets.  A target is a set of edges that kills all linearizations and
has no edge in vain, and there is one in every set that kills all of them (`exists_target`).  Each
edge of a target alone kills some linearization, so none of the rules for skipping an edge applies
to it while the extension is a part of the target (`Target.considered`), and what the rest of the
target kills is known to be killable when the search gets to the edge (`Target.killable`).  Hence
the search takes up a target edge by edge, in the order of the pool (`Target.expand`).

* `HintsFor` says what the hints for some linearizations have to be.
* `Specification.calculateObservationHints_spec`: the search returns such hints.
-/

set_option autoImplicit false

namespace GenMC

open Relation

/-! ## Bits -/

namespace BitVector

theorem length_orAssign (v w : List Bool) : (orAssign v w).length = max v.length w.length := by
  rw [orAssign, List.length_mapIdx]
  split
  · rw [List.length_append, List.length_replicate]
    omega
  · omega

theorem getD_orAssign (v w : List Bool) (i : ℕ) :
    (orAssign v w).getD i false = (v.getD i false || w.getD i false) := by
  have hget : ∀ u : List Bool, (u.mapIdx fun i x => x || w.getD i false).getD i false =
      if i < u.length then u.getD i false || w.getD i false else false := by
    intro u
    rw [List.getD_eq_getElem?_getD, List.getElem?_mapIdx, List.getD_eq_getElem?_getD]
    by_cases hi : i < u.length
    · simp [hi]
    · simp [hi]
  rw [orAssign, hget]
  by_cases hlt : v.length < w.length
  · rw [if_pos hlt]
    have happ : (v ++ List.replicate (w.length - v.length) false).getD i false =
        v.getD i false := by
      rw [List.getD_eq_getElem?_getD, List.getD_eq_getElem?_getD]
      by_cases hi : i < v.length
      · rw [List.getElem?_append_left hi]
      · rw [List.getElem?_append_right (not_lt.1 hi), List.getElem?_replicate,
          List.getElem?_eq_none (not_lt.1 hi)]
        split <;> rfl
    rw [happ, List.length_append, List.length_replicate]
    split
    · rfl
    · rw [List.getD_eq_default v false (by omega), List.getD_eq_default w false (by omega)]
      rfl
  · rw [if_neg hlt]
    split
    · rfl
    · rw [List.getD_eq_default v false (by omega), List.getD_eq_default w false (by omega)]
      rfl

theorem all_iff {v : List Bool} : all v = true ↔ ∀ i < v.length, v.getD i false = true := by
  rw [all, List.all_eq_true]
  refine ⟨fun h i hi => ?_, fun h b hb => ?_⟩
  · rw [List.getD_eq_getElem v false hi]
    exact h _ (List.getElem_mem hi)
  · obtain ⟨i, hi, rfl⟩ := List.mem_iff_getElem.1 hb
    have := h i hi
    rwa [List.getD_eq_getElem v false hi] at this

theorem head_le_head {b c : Bool} (h : b = true → c = true) :
    (if b == true then 1 else 0) ≤ if c == true then 1 else 0 := by
  cases b with
  | false => exact Nat.zero_le _
  | true => rw [h rfl]

theorem count_le_count {v w : List Bool}
    (h : ∀ i, v.getD i false = true → w.getD i false = true) : count v ≤ count w := by
  rw [count, count]
  induction v generalizing w with
  | nil => exact Nat.zero_le _
  | cons b v ih =>
    cases w with
    | nil =>
      have hnone : true ∉ b :: v := by
        intro hmem
        obtain ⟨i, hi, heq⟩ := List.mem_iff_getElem.1 hmem
        have := h i (by rw [List.getD_eq_getElem _ false hi, heq])
        simp at this
      rw [List.count_eq_zero_of_not_mem hnone]
      exact Nat.zero_le _
    | cons c w =>
      have hrest := ih fun i hi => h (i + 1) hi
      have hhead : (if b == true then 1 else 0) ≤ if c == true then 1 else 0 :=
        head_le_head (h 0)
      rw [List.count_cons, List.count_cons]
      omega

theorem count_lt_count {v w : List Bool} (h : ∀ i, v.getD i false = true → w.getD i false = true)
    {i : ℕ} (hv : v.getD i false = false) (hw : w.getD i false = true) : count v < count w := by
  induction i generalizing v w with
  | zero =>
    cases w with
    | nil => exact absurd hw Bool.false_ne_true
    | cons c w =>
      obtain rfl : c = true := hw
      have hv' : count v ≤ count w := by
        cases v with
        | nil => exact Nat.zero_le _
        | cons b v =>
          obtain rfl : b = false := hv
          rw [count, List.count_cons_of_ne Bool.false_ne_true]
          exact count_le_count fun i hi => h (i + 1) hi
      have hw' : count (true :: w) = count w + 1 := List.count_cons_self
      omega
  | succ i ih =>
    cases w with
    | nil => exact absurd hw Bool.false_ne_true
    | cons c w =>
      cases v with
      | nil =>
        have := ih (v := []) (w := w) nofun rfl hw
        rw [count] at this ⊢
        rw [count, List.count_cons]
        exact this.trans_le (Nat.le_add_right _ _)
      | cons b v =>
        have hrest := ih (fun i hi => h (i + 1) hi) hv hw
        have hhead : (if b == true then 1 else 0) ≤ if c == true then 1 else 0 :=
          head_le_head (h 0)
        rw [count, count] at hrest ⊢
        rw [List.count_cons, List.count_cons]
        omega

end BitVector

/-! ## Events and edges -/

theorem toCallIdx_toBegin (id : ℕ) : toCallIdx (toBeginExtEvent id) = id := by
  rw [toCallIdx, toBeginExtEvent]
  omega

theorem toCallIdx_toEnd (id : ℕ) : toCallIdx (toEndExtEvent id) = id := by
  rw [toCallIdx, toEndExtEvent, toBeginExtEvent]
  omega

theorem toEnd_ne_toBegin (a b : ℕ) : toEndExtEvent a ≠ toBeginExtEvent b := by
  rw [toEndExtEvent, toBeginExtEvent, toBeginExtEvent]
  omega

variable {obs : Observation} {lins : List Linearization} {E E' : Set CallEdge}

theorem hbExt_mono (h : E ⊆ E') {x y : ℕ} (hxy : HbExt obs E x y) : HbExt obs E' x y := by
  cases hxy with
  | call h' => exact .call h'
  | hb h' => exact .hb h'
  | ext h' => exact .ext (h h')

theorem transGen_hbExt_mono (h : E ⊆ E') {x y : ℕ} (hxy : TransGen (HbExt obs E) x y) :
    TransGen (HbExt obs E') x y :=
  TransGen.mono (fun _ _ => hbExt_mono h) x y hxy

theorem reflTransGen_hbExt_mono (h : E ⊆ E') {x y : ℕ} (hxy : ReflTransGen (HbExt obs E) x y) :
    ReflTransGen (HbExt obs E') x y :=
  ReflTransGen.mono (fun _ _ => hbExt_mono h) x y hxy

/-- One more extension edge is one more edge of the graph. -/
theorem hbExt_insert (p : CallEdge) (E : Set CallEdge) :
    HbExt obs (insert p E) =
      AddEdge (HbExt obs E) (toEndExtEvent p.first) (toBeginExtEvent p.second) := by
  funext x y
  refine propext ⟨fun h => ?_, ?_⟩
  · cases h with
    | call h' => exact .inl (.call h')
    | hb h' => exact .inl (.hb h')
    | ext h' =>
      rcases h' with rfl | h'
      · exact .inr ⟨rfl, rfl⟩
      · exact .inl (.ext h')
  · rintro (h | ⟨rfl, rfl⟩)
    · exact hbExt_mono (Set.subset_insert p E) h
    · exact .ext (Set.mem_insert p E)

/-- Edges within the closure of others add nothing to it. -/
theorem Implied.transGen (h : Implied obs E E') {x y : ℕ} (hxy : TransGen (HbExt obs E) x y) :
    TransGen (HbExt obs E') x y := by
  refine TransGen.closed (fun x y hxy => ?_) x y hxy
  cases hxy with
  | call h' => exact .single (.call h')
  | hb h' => exact .single (.hb h')
  | ext h' => exact h _ h'

theorem Implied.trans {E'' : Set CallEdge} (h : Implied obs E E') (h' : Implied obs E' E'') :
    Implied obs E E'' :=
  fun p hp => h'.transGen (h p hp)

theorem implied_refl (E : Set CallEdge) : Implied obs E E := fun _ hp => .single (.ext hp)

/-- A linearization that respects happens-before and contradicts an edge that follows from others
contradicts one of the others. -/
theorem contradicts_of_implied {lin : Linearization}
    (hlin : lin.Respects obs.hb) {a b : ℕ}
    (h : TransGen (HbExt obs E) (toEndExtEvent a) (toBeginExtEvent b))
    (hab : lin.isBefore b a = true) : Contradicts E lin := by
  by_contra hno
  -- the index of its call in the linearization never decreases along an edge
  have hrank : ∀ x y, HbExt obs E x y →
      lin.getIndex (toCallIdx x) ≤ lin.getIndex (toCallIdx y) := by
    intro x y hxy
    cases hxy with
    | call => rw [toCallIdx_toBegin, toCallIdx_toEnd]
    | hb hp =>
      rw [toCallIdx_toBegin, toCallIdx_toEnd]
      have := hlin _ hp
      simpa [Linearization.isBefore] using this
    | ext hp =>
      rw [toCallIdx_toBegin, toCallIdx_toEnd]
      by_contra hlt
      exact hno ⟨_, hp, by simpa [Linearization.isBefore] using hlt⟩
  have hle := le_of_transGen (fun x => lin.getIndex (toCallIdx x)) hrank h
  rw [toCallIdx_toBegin, toCallIdx_toEnd] at hle
  rw [Linearization.isBefore, decide_eq_true_eq] at hab
  omega

/-! ## Happens-before without extension edges -/

theorem at_foldl_addEdge {ι : Type*} (L : List ι) (f g : ι → ℕ) (m : Matrix2D) (i j : ℕ) :
    (L.foldl (fun m e => m.addEdge (f e) (g e)) m).at' i j = true ↔
      m.at' i j = true ∨ ∃ e ∈ L, i = f e ∧ j = g e := by
  induction L generalizing m with
  | nil => simp
  | cons e L ih =>
    rw [List.foldl_cons, ih, Matrix2D.at_addEdge]
    simp only [List.mem_cons, exists_eq_or_imp]
    tauto

theorem len_foldl_addEdge {ι : Type*} (L : List ι) (f g : ι → ℕ) (m : Matrix2D) :
    (L.foldl (fun m e => m.addEdge (f e) (g e)) m).len = m.len := by
  induction L generalizing m with
  | nil => rfl
  | cons e L ih =>
    rw [List.foldl_cons, ih]
    rfl

theorem hbExt_empty_iff {x y : ℕ} :
    HbExt obs ∅ x y ↔ (∃ id ∈ obs.ids, x = toBeginExtEvent id ∧ y = toEndExtEvent id) ∨
      ∃ p ∈ obs.hb.vset, x = toBeginExtEvent p.first ∧ y = toEndExtEvent p.second := by
  refine ⟨fun h => ?_, ?_⟩
  · cases h with
    | call h => exact .inl ⟨_, List.mem_range.2 h, rfl, rfl⟩
    | hb h => exact .inr ⟨_, h, rfl, rfl⟩
    | ext h => exact absurd h (Set.notMem_empty _)
  · rintro (⟨id, h, rfl, rfl⟩ | ⟨p, h, rfl, rfl⟩)
    · exact .call (List.mem_range.1 h)
    · exact .hb h

/-- Happens-before leads from begins to ends, so that no edge follows another one. -/
theorem hbExt_empty_not_comp {x y z : ℕ} (h : HbExt obs ∅ x y) : ¬ HbExt obs ∅ y z := by
  intro h'
  rw [hbExt_empty_iff] at h h'
  simp only [toBeginExtEvent, toEndExtEvent] at h h'
  rcases h with ⟨_, _, _, h⟩ | ⟨_, _, _, h⟩ <;>
    rcases h' with ⟨_, _, h', _⟩ | ⟨_, _, h', _⟩ <;> omega

theorem transGen_hbExt_empty {x y : ℕ} : TransGen (HbExt obs ∅) x y ↔ HbExt obs ∅ x y := by
  refine ⟨fun h => ?_, .single⟩
  induction h with
  | single h => exact h
  | tail _ h ih => exact absurd h (hbExt_empty_not_comp ih)

theorem ofObservation_spec (obs : Observation) :
    (∀ a b, (Extension.ofObservation obs).areHbOrdered a b = true ↔
        TransGen (HbExt obs ∅) a b) ∧
      (Extension.ofObservation obs).hbext.len = obs.getNumOps * 2 := by
  set m := obs.hb.vset.foldl
    (fun m edge => m.addEdge (toBeginExtEvent edge.first) (toEndExtEvent edge.second))
    (obs.ids.foldl (fun m id => m.addEdge (toBeginExtEvent id) (toEndExtEvent id))
      (Matrix2D.ofSize (obs.getNumOps * 2))) with hm
  have hat : ∀ a b, m.at' a b = true ↔ HbExt obs ∅ a b := by
    intro a b
    rw [hm, at_foldl_addEdge, at_foldl_addEdge, hbExt_empty_iff]
    simp [Matrix2D.ofSize]
  have hclosed : m.transClosure = m := by
    refine Matrix2D.transClosure_of_bipartite fun i j k hij => ?_
    by_contra hjk
    exact hbExt_empty_not_comp ((hat i j).1 hij) ((hat j k).1 (by simpa using hjk))
  have hdef : (Extension.ofObservation obs).hbext = m.transClosure := rfl
  refine ⟨fun a b => ?_, ?_⟩
  · rw [Extension.areHbOrdered, hdef, hclosed, hat, transGen_hbExt_empty]
  · rw [hdef, hclosed, hm, len_foldl_addEdge, len_foldl_addEdge]
    rfl

theorem acyclic_hbExt_empty : Acyclic (HbExt obs ∅) := by
  intro x h
  rw [transGen_hbExt_empty] at h
  exact hbExt_empty_not_comp h h

/-! ## Extensions of an observation -/

/-- Edges as edges between calls. -/
def pairsOf (L : List ExtEdge) : Set CallEdge := {p | ∃ e ∈ L, e.toPair = p}

/-- The edges of a hint. -/
def Hint.toSet (h : Hint) : Set CallEdge := {p | p ∈ h.edges}

/-- The pool the search for an observation starts with. -/
def startPool (obs : Observation) (lins : List Linearization) : EdgePool :=
  calculateEdgePool obs lins (Extension.ofObservation obs)

theorem mem_pairsOf {L : List ExtEdge} {e : ExtEdge} (h : e ∈ L) : e.toPair ∈ pairsOf L :=
  ⟨e, h, rfl⟩

theorem pairsOf_subset {L L' : List ExtEdge} (h : L ⊆ L') : pairsOf L ⊆ pairsOf L' := by
  rintro p ⟨e, he, rfl⟩
  exact mem_pairsOf (h he)

theorem pairsOf_concat (L : List ExtEdge) (e : ExtEdge) :
    pairsOf (L ++ [e]) = insert e.toPair (pairsOf L) := by
  ext p
  simp only [pairsOf, List.mem_append, List.mem_singleton, Set.mem_ofPred_eq, Set.mem_insert_iff]
  refine ⟨?_, ?_⟩
  · rintro ⟨f, hf | rfl, rfl⟩
    · exact .inr ⟨f, hf, rfl⟩
    · exact .inl rfl
  · rintro (rfl | ⟨f, hf, rfl⟩)
    · exact ⟨e, .inr rfl, rfl⟩
    · exact ⟨f, .inl hf, rfl⟩

theorem toSet_toHint (x : Extension) : x.toHint.toSet = pairsOf x.ext := by
  ext p
  simp [Hint.toSet, Extension.toHint, pairsOf]

/-- What the edges of the pool look like. -/
theorem mem_startPool {e : ExtEdge} (h : e ∈ (startPool obs lins).edges) :
    e.src = toEndExtEvent e.toPair.first ∧ e.dst = toBeginExtEvent e.toPair.second ∧
      e.toPair.first < obs.getNumOps ∧ e.toPair.second < obs.getNumOps ∧
      e.contradictingLins =
        lins.map fun lin => lin.isBefore e.toPair.second e.toPair.first := by
  obtain ⟨a, ha, b, hb, -, rfl⟩ := mem_edgePoolList.1 h
  simp only [ExtEdge.toPair, ExtEdge.between, toCallIdx_toEnd, toCallIdx_toBegin]
  exact ⟨trivial, trivial, ha, hb, trivial⟩

theorem eq_of_toPair_eq {e f : ExtEdge} (he : e ∈ (startPool obs lins).edges)
    (hf : f ∈ (startPool obs lins).edges) (h : e.toPair = f.toPair) : e = f := by
  obtain ⟨hes, hed, -, -, hel⟩ := mem_startPool he
  obtain ⟨hfs, hfd, -, -, hfl⟩ := mem_startPool hf
  refine ExtEdge.ext ?_ ?_ ?_
  · rw [hes, hfs, h]
  · rw [hed, hfd, h]
  · rw [hel, hfl, h]

theorem contradictingLins_getD {e : ExtEdge} (he : e ∈ (startPool obs lins).edges) {i : ℕ}
    (hi : i < lins.length) :
    e.contradictingLins.getD i false = lins[i].isBefore e.toPair.second e.toPair.first := by
  obtain ⟨-, -, -, -, hel⟩ := mem_startPool he
  rw [hel, List.getD_eq_getElem _ false (by rwa [List.length_map]), List.getElem_map]

theorem length_contradictingLins {e : ExtEdge} (he : e ∈ (startPool obs lins).edges) :
    e.contradictingLins.length = lins.length := by
  obtain ⟨-, -, -, -, hel⟩ := mem_startPool he
  rw [hel, List.length_map]

theorem inRange_pairsOf {L : List ExtEdge} (h : L ⊆ (startPool obs lins).edges) :
    obs.InRange (pairsOf L) := by
  rintro p ⟨e, he, rfl⟩
  obtain ⟨-, -, h1, h2, -⟩ := mem_startPool (h he)
  exact ⟨h1, h2⟩

/-- Paths stay between the events of the observation. -/
theorem transGen_hbExt_lt (hhb : obs.InRange {p | p ∈ obs.hb}) (hE : obs.InRange E) {x y : ℕ}
    (h : TransGen (HbExt obs E) x y) : x < obs.getNumOps * 2 := by
  obtain ⟨z, hxz, -⟩ := TransGen.head'_iff.1 h
  cases hxz with
  | call hid =>
    rw [toBeginExtEvent]
    omega
  | hb hp =>
    have := (hhb _ hp).1
    rw [toBeginExtEvent]
    omega
  | ext hp =>
    have := (hE _ hp).1
    rw [toEndExtEvent, toBeginExtEvent]
    omega

/-- The matrix and the bit vector of an extension are those of its edges. -/
structure Extension.Valid (obs : Observation) (lins : List Linearization) (x : Extension) :
    Prop where
  edges : x.ext ⊆ (startPool obs lins).edges
  ordered : ∀ a b, x.areHbOrdered a b = true ↔ TransGen (HbExt obs (pairsOf x.ext)) a b
  len : x.hbext.len = obs.getNumOps * 2
  acyclic : Acyclic (HbExt obs (pairsOf x.ext))
  killed : ∀ i, x.killedLins.getD i false = true ↔
    ∃ e ∈ x.ext, e.contradictingLins.getD i false = true
  length_le : x.killedLins.length ≤ lins.length
  length_eq : x.ext ≠ [] → x.killedLins.length = lins.length

theorem valid_ofObservation (obs : Observation) (lins : List Linearization) :
    (Extension.ofObservation obs).Valid obs lins := by
  have hpairs : pairsOf (Extension.ofObservation obs).ext = ∅ := by
    ext p
    simp [pairsOf, Extension.ofObservation]
  obtain ⟨hord, hlen⟩ := ofObservation_spec obs
  exact {
    edges := List.nil_subset _
    ordered := by rwa [hpairs]
    len := hlen
    acyclic := by
      rw [hpairs]
      exact acyclic_hbExt_empty
    killed := by simp [Extension.ofObservation]
    length_le := Nat.zero_le _
    length_eq := fun h => absurd rfl h }

namespace Extension.Valid

variable {x : Extension} {e : ExtEdge}

theorem ordered_edge (hx : x.Valid obs lins) (he : e ∈ (startPool obs lins).edges) :
    x.areHbOrdered e.src e.dst = true ↔
      TransGen (HbExt obs (pairsOf x.ext)) (toEndExtEvent e.toPair.first)
        (toBeginExtEvent e.toPair.second) := by
  obtain ⟨hs, hd, -⟩ := mem_startPool he
  rw [hx.ordered, hs, hd]

/-- `isSubsetOf` decides whether an extension is implied. -/
theorem isSubsetOf_iff {y : Extension} (hx : x.Valid obs lins) (hy : y.Valid obs lins) :
    x.isSubsetOf y = true ↔ Implied obs (pairsOf x.ext) (pairsOf y.ext) := by
  rw [isSubsetOf, List.all_eq_true]
  refine ⟨?_, fun h e he => ?_⟩
  · rintro h p ⟨e, he, rfl⟩
    exact (hy.ordered_edge (hx.edges he)).1 (h e he)
  · exact (hy.ordered_edge (hx.edges he)).2 (h _ (mem_pairsOf he))

theorem optOrdered_iff (hx : x.Valid obs lins) {a b : ℕ} :
    x.areHbOptOrdered a b = true ↔ ReflTransGen (HbExt obs (pairsOf x.ext)) a b := by
  rw [areHbOptOrdered, Bool.or_eq_true, decide_eq_true_eq, hx.ordered,
    reflTransGen_iff_eq_or_transGen, eq_comm]

/-- **Adding an edge** that neither follows nor leads to a cycle. -/
theorem addEdge (hhb : obs.InRange {p | p ∈ obs.hb}) (hx : x.Valid obs lins)
    (he : e ∈ (startPool obs lins).edges) (hcon : x.areConnected e = false) :
    (x.addEdge e).Valid obs lins := by
  obtain ⟨hs, hd, -⟩ := mem_startPool he
  rw [areConnected, Bool.or_eq_false_iff] at hcon
  have hpairs : pairsOf (x.addEdge e).ext = insert e.toPair (pairsOf x.ext) :=
    pairsOf_concat x.ext e
  have hgraph : HbExt obs (pairsOf (x.addEdge e).ext) =
      AddEdge (HbExt obs (pairsOf x.ext)) e.src e.dst := by
    rw [hpairs, hbExt_insert, hs, hd]
  have hne : e.src ≠ e.dst := by
    rw [hs, hd]
    exact toEnd_ne_toBegin _ _
  have hback : ¬ ReflTransGen (HbExt obs (pairsOf x.ext)) e.dst e.src := by
    rw [← hx.optOrdered_iff, areHbOptOrdered, hcon.2]
    simpa using hne.symm
  have hlens : (x.addEdge e).killedLins.length = lins.length := by
    have h1 := hx.length_le
    have h2 := length_contradictingLins he
    rw [Extension.addEdge, BitVector.length_orAssign]
    omega
  exact {
    edges := List.append_subset.2 ⟨hx.edges, List.cons_subset.2 ⟨he, List.nil_subset _⟩⟩
    ordered := by
      intro a b
      have hlen : ∀ i j, x.hbext.at' i j = true → i < x.hbext.len := by
        intro i j hij
        rw [hx.len]
        exact transGen_hbExt_lt hhb (inRange_pairsOf hx.edges) ((hx.ordered i j).1 hij)
      have hrefl : ∀ {i j}, (j = i ∨ x.hbext.at' i j = true) ↔
          ReflTransGen (HbExt obs (pairsOf x.ext)) i j := by
        intro i j
        rw [reflTransGen_iff_eq_or_transGen, ← hx.ordered]
        rfl
      rw [hgraph, transGen_addEdge_iff, areHbOrdered, Extension.addEdge,
        Matrix2D.at_addEdgeAndTransitive (hlen _ _), hrefl, eq_comm (a := a), hrefl,
        ← hx.ordered]
      rfl
    len := hx.len
    acyclic := by
      rw [hgraph]
      exact acyclic_addEdge hx.acyclic hback
    killed := by
      intro i
      have happ : (x.addEdge e).ext = x.ext ++ [e] := rfl
      rw [Extension.addEdge, BitVector.getD_orAssign, Bool.or_eq_true, hx.killed]
      simp only [List.mem_append, List.mem_singleton]
      refine ⟨?_, ?_⟩
      · rintro (⟨f, hf, hi⟩ | hi)
        · exact ⟨f, .inl hf, hi⟩
        · exact ⟨e, .inr rfl, hi⟩
      · rintro ⟨f, hf | rfl, hi⟩
        · exact .inl ⟨f, hf, hi⟩
        · exact .inr hi
    length_le := hlens.le
    length_eq := fun _ => hlens }

/-- `killsAllLins`, for an extension with an edge. -/
theorem killsAllLins_iff (hx : x.Valid obs lins) (hne : x.ext ≠ []) :
    x.killsAllLins = true ↔
      ∀ i < lins.length, ∃ e ∈ x.ext, e.contradictingLins.getD i false = true := by
  rw [killsAllLins, BitVector.all_iff, hx.length_eq hne]
  simp only [hx.killed]

/-- An extension that kills all linearizations contradicts them. -/
theorem contradicts (hx : x.Valid obs lins) (hne : x.ext ≠ []) (h : x.killsAllLins = true)
    {lin : Linearization} (hlin : lin ∈ lins) : Contradicts (pairsOf x.ext) lin := by
  obtain ⟨i, hi, rfl⟩ := List.mem_iff_getElem.1 hlin
  obtain ⟨e, he, hbit⟩ := (hx.killsAllLins_iff hne).1 h i hi
  rw [contradictingLins_getD (hx.edges he) hi] at hbit
  exact ⟨e.toPair, mem_pairsOf he, hbit⟩

end Extension.Valid

/-! ## Sets of edges that the search has to find -/

/-- A set of edges that kills all linearizations, and none of the edges in vain. -/
structure Target (obs : Observation) (lins : List Linearization) (maxExtSize : ℕ)
    (T : List ExtEdge) : Prop where
  sublist : T.Sublist (startPool obs lins).edges
  acyclic : Acyclic (HbExt obs (pairsOf T))
  kills : ∀ i < lins.length, ∃ e ∈ T, e.contradictingLins.getD i false = true
  needed : ∀ e ∈ T, ∃ i < lins.length, e.contradictingLins.getD i false = true ∧
    ∀ f ∈ T, f.contradictingLins.getD i false = true → f = e
  size : T.length ≤ maxExtSize

namespace Target

variable {maxExtSize : ℕ} {T P S : List ExtEdge} {e : ExtEdge} {x : Extension}

theorem nodup (hT : Target obs lins maxExtSize T) : T.Nodup :=
  hT.sublist.nodup (List.Nodup.of_map _ (startPool obs lins).nodup)

/-- No edge follows from the others. -/
theorem not_implied (hlins : ∀ lin ∈ lins, lin.Respects obs.hb)
    (hT : Target obs lins maxExtSize T) (he : e ∈ T) (hP : P ⊆ T) (heP : e ∉ P) :
    ¬ TransGen (HbExt obs (pairsOf P)) (toEndExtEvent e.toPair.first)
      (toBeginExtEvent e.toPair.second) := by
  intro hpath
  have hpool := hT.sublist.subset
  obtain ⟨i, hi, hbit, honly⟩ := hT.needed e he
  rw [contradictingLins_getD (hpool he) hi] at hbit
  obtain ⟨p, ⟨f, hf, rfl⟩, hbit'⟩ :=
    contradicts_of_implied (hlins _ (List.getElem_mem hi)) hpath hbit
  rw [← contradictingLins_getD (hpool (hP hf)) hi] at hbit'
  exact heP (honly f (hP hf) hbit' ▸ hf)

/-- The edge `e` closes no cycle with other edges of the target. -/
theorem not_reach_back (hT : Target obs lins maxExtSize T) (he : e ∈ T) (hP : P ⊆ T) :
    ¬ ReflTransGen (HbExt obs (pairsOf P)) e.dst e.src := by
  intro hpath
  obtain ⟨hs, hd, -⟩ := mem_startPool (hT.sublist.subset he)
  have hedge : HbExt obs (pairsOf T) e.src e.dst := by
    rw [hs, hd]
    exact .ext (mem_pairsOf he)
  exact hT.acyclic e.src
    (TransGen.head' hedge (reflTransGen_hbExt_mono (pairsOf_subset hP) hpath))

variable (hlins : ∀ lin ∈ lins, lin.Respects obs.hb)
  (hT : Target obs lins maxExtSize T) (hx : x.Valid obs lins) (hsub : x.ext ⊆ T)
  (he : e ∈ T) (hnew : e ∉ x.ext)

include hlins hT hx hsub he hnew

/-- The search does not skip an edge of the target because it is connected, -/
theorem areConnected : x.areConnected e = false := by
  have hpool := hT.sublist.subset he
  obtain ⟨hs, hd, -⟩ := mem_startPool hpool
  rw [Extension.areConnected, Bool.or_eq_false_iff]
  refine ⟨?_, ?_⟩
  · rw [Bool.eq_false_iff, ne_eq, hx.ordered_edge hpool]
    exact hT.not_implied hlins he hsub hnew
  · rw [Bool.eq_false_iff, ne_eq, hx.ordered]
    exact fun h => hT.not_reach_back he hsub h.to_reflTransGen

/-- nor because an edge of the extension would follow, -/
theorem isMonotoneNext : x.isMonotoneNext e = true := by
  rw [Extension.isMonotoneNext, Bool.not_eq_true', ← Bool.not_eq_true, List.any_eq_true]
  rintro ⟨o, ho, hord⟩
  rw [Bool.and_eq_true, hx.optOrdered_iff, hx.optOrdered_iff] at hord
  obtain ⟨hto, hfrom⟩ := hord
  have hback := hT.not_reach_back he hsub
  -- without `o` the extension still leads to the new edge and away from it
  set Q := x.ext.filter (· ≠ o) with hQ
  have hQx : Q ⊆ x.ext := List.filter_sublist.subset
  have hgraph : HbExt obs (pairsOf x.ext) = AddEdge (HbExt obs (pairsOf Q)) o.src o.dst := by
    have hpairs : pairsOf x.ext = pairsOf (Q ++ [o]) := by
      refine Set.Subset.antisymm (pairsOf_subset fun f hf => ?_) (pairsOf_subset fun f hf => ?_)
      · by_cases hfo : f = o
        · simp [hfo]
        · simp [hQ, hf, hfo]
      · rcases List.mem_append.1 hf with hf | hf
        · exact hQx hf
        · exact List.mem_singleton.1 hf ▸ ho
    obtain ⟨hos, hod, -⟩ := mem_startPool (hx.edges ho)
    rw [hpairs, pairsOf_concat, hbExt_insert, hos, hod]
  have hto' : ReflTransGen (HbExt obs (pairsOf Q)) o.src e.src := by
    have h := hto
    rw [hgraph, reflTransGen_addEdge_iff] at h
    rcases h with h | ⟨-, h⟩
    · exact h
    · exact absurd (hfrom.trans (reflTransGen_hbExt_mono (pairsOf_subset hQx) h)) hback
  have hfrom' : ReflTransGen (HbExt obs (pairsOf Q)) e.dst o.dst := by
    have h := hfrom
    rw [hgraph, reflTransGen_addEdge_iff] at h
    rcases h with h | ⟨h, -⟩
    · exact h
    · exact absurd ((reflTransGen_hbExt_mono (pairsOf_subset hQx) h).trans hto) hback
  have hpath : TransGen (HbExt obs (pairsOf (Q ++ [e]))) o.src o.dst := by
    obtain ⟨hes, hed, -⟩ := mem_startPool (hT.sublist.subset he)
    rw [pairsOf_concat, hbExt_insert, ← hes, ← hed]
    exact transGen_addEdge hto' hfrom'
  obtain ⟨hos, hod, -⟩ := mem_startPool (hx.edges ho)
  rw [hos, hod] at hpath
  refine hT.not_implied hlins (hsub ho) (fun f hf => ?_) (fun hmem => ?_) hpath
  · rcases List.mem_append.1 hf with hf | hf
    · exact hsub (hQx hf)
    · exact List.mem_singleton.1 hf ▸ he
  · rcases List.mem_append.1 hmem with hmem | hmem
    · simp [hQ] at hmem
    · exact hnew (List.mem_singleton.1 hmem ▸ ho)

omit hlins in
/-- nor because it kills nothing new. -/
theorem getNumKilledLins : (x.addEdge e).getNumKilledLins ≠ x.getNumKilledLins := by
  obtain ⟨i, -, hbit, honly⟩ := hT.needed e he
  have hold : x.killedLins.getD i false = false := by
    rw [Bool.eq_false_iff, ne_eq, hx.killed]
    rintro ⟨f, hf, hf'⟩
    exact hnew (honly f (hsub hf) hf' ▸ hf)
  refine (BitVector.count_lt_count (i := i) (fun j hj => ?_) hold ?_).ne'
  · rw [Extension.addEdge, BitVector.getD_orAssign, hj]
    rfl
  · rw [Extension.addEdge, BitVector.getD_orAssign, hbit, Bool.or_true]

end Target

/-! ## The list of extensions -/

/-- Some extension in a list is implied by the edges. -/
def Found (obs : Observation) (E : Set CallEdge) (extensions : List Extension) : Prop :=
  ∃ y ∈ extensions, Implied obs (pairsOf y.ext) E

/-- What goes to the list of extensions. -/
structure Extension.IsHint (obs : Observation) (lins : List Linearization) (maxExtSize : ℕ)
    (y : Extension) : Prop where
  valid : y.Valid obs lins
  nonempty : y.ext ≠ []
  kills : y.killsAllLins = true
  size : y.size ≤ maxExtSize

/-- Extensions that do not imply each other. -/
structure Extensions (obs : Observation) (lins : List Linearization) (maxExtSize : ℕ)
    (extensions : List Extension) : Prop where
  isHint : ∀ y ∈ extensions, y.IsHint obs lins maxExtSize
  incomparable : extensions.Pairwise fun y z =>
    y.isSubsetOf z = false ∧ z.isSubsetOf y = false

variable {maxExtSize : ℕ} {extensions : List Extension} {newExt : Extension}

theorem Extensions.maybeAdd (h : Extensions obs lins maxExtSize extensions)
    (hnew : newExt.IsHint obs lins maxExtSize) :
    Extensions obs lins maxExtSize (maybeAddExtension extensions newExt) := by
  rw [maybeAddExtension]
  split
  · exact h
  · rename_i hany
    rw [List.any_eq_true] at hany
    refine ⟨fun y hy => ?_, List.pairwise_append.2 ⟨h.incomparable.filter _,
      List.pairwise_singleton _ _, fun y hy z hz => ?_⟩⟩
    · rcases List.mem_append.1 hy with hy | hy
      · exact h.isHint y (List.mem_of_mem_filter hy)
      · exact List.mem_singleton.1 hy ▸ hnew
    · obtain rfl := List.mem_singleton.1 hz
      obtain ⟨hmem, hnot⟩ := List.mem_filter.1 hy
      exact ⟨Bool.eq_false_iff.2 fun hc => hany ⟨y, hmem, hc⟩, by simpa using hnot⟩

/-- An extension that is added or discarded is implied by an extension of the new list, -/
theorem Extensions.found_new (h : Extensions obs lins maxExtSize extensions)
    (hnew : newExt.Valid obs lins) :
    Found obs (pairsOf newExt.ext) (maybeAddExtension extensions newExt) := by
  rw [maybeAddExtension]
  split
  · rename_i hany
    obtain ⟨y, hy, hsub⟩ := List.any_eq_true.1 hany
    exact ⟨y, hy, ((h.isHint y hy).valid.isSubsetOf_iff hnew).1 hsub⟩
  · exact ⟨newExt, List.mem_append_right _ List.mem_cons_self, implied_refl _⟩

/-- and so is one that is erased. -/
theorem Extensions.found_old (h : Extensions obs lins maxExtSize extensions)
    (hnew : newExt.Valid obs lins) (hE : Found obs E extensions) :
    Found obs E (maybeAddExtension extensions newExt) := by
  obtain ⟨y, hy, himp⟩ := hE
  rw [maybeAddExtension]
  split
  · exact ⟨y, hy, himp⟩
  · by_cases hsub : newExt.isSubsetOf y = true
    · refine ⟨newExt, List.mem_append_right _ List.mem_cons_self, ?_⟩
      exact ((hnew.isSubsetOf_iff (h.isHint y hy).valid).1 hsub).trans himp
    · refine ⟨y, List.mem_append_left _ (List.mem_filter.2 ⟨hy, ?_⟩), himp⟩
      simpa using hsub

/-! ## One extension -/

/-- What one edge can do. -/
theorem considerEdge_cases (maxExtSize : ℕ) (x : Extension) (s : SearchState) (e : ExtEdge) :
    considerEdge maxExtSize x s e = s ∨
      x.areConnected e = false ∧ x.size + 1 ≤ maxExtSize ∧
        ((x.addEdge e).killsAllLins = true ∧ considerEdge maxExtSize x s e =
            { s with extensions := maybeAddExtension s.extensions (x.addEdge e) } ∨
          ∃ queue, (queue = s.queue ∨ queue = s.queue ++ [x.addEdge e]) ∧
            considerEdge maxExtSize x s e = { s with
              killable := BitVector.orAssign s.killable e.contradictingLins
              queue := queue }) := by
  rw [considerEdge]
  split
  · exact .inl rfl
  · rename_i hcon
    split
    · exact .inl rfl
    · split
      · exact .inl rfl
      · rename_i hsize
        simp only
        split
        · rename_i hkill
          exact .inr ⟨by simpa using hcon, not_lt.1 hsize, .inl ⟨hkill, rfl⟩⟩
        · split
          · exact .inl rfl
          · split
            · exact .inr ⟨by simpa using hcon, not_lt.1 hsize, .inr ⟨_, .inr rfl, rfl⟩⟩
            · exact .inr ⟨by simpa using hcon, not_lt.1 hsize, .inr ⟨_, .inl rfl, rfl⟩⟩

/-- The invariant of the search. -/
structure SearchInv (obs : Observation) (lins : List Linearization) (maxExtSize : ℕ)
    (s : SearchState) : Prop where
  queue : ∀ x ∈ s.queue, x.Valid obs lins
  extensions : Extensions obs lins maxExtSize s.extensions
  killable : s.killable.length ≤ lins.length

/-- What is not lost. -/
structure SearchState.Le (obs : Observation) (s s' : SearchState) : Prop where
  queue : s.queue ⊆ s'.queue
  killable : ∀ i, s.killable.getD i false = true → s'.killable.getD i false = true
  found : ∀ E, Found obs E s.extensions → Found obs E s'.extensions

theorem SearchState.Le.refl (s : SearchState) : SearchState.Le obs s s where
  queue := List.Subset.refl _
  killable := fun _ h => h
  found := fun _ h => h

theorem SearchState.Le.trans {s s' s'' : SearchState} (h : SearchState.Le obs s s')
    (h' : SearchState.Le obs s' s'') : SearchState.Le obs s s'' where
  queue := fun _ hx => h'.queue (h.queue hx)
  killable := fun i hi => h'.killable i (h.killable i hi)
  found := fun E hE => h'.found E (h.found E hE)

section Expand

variable {x : Extension} {s : SearchState} {e : ExtEdge}
  (hhb : obs.InRange {p | p ∈ obs.hb}) (hx : x.Valid obs lins)

include hhb hx

theorem considerEdge_inv (he : e ∈ (startPool obs lins).edges)
    (hs : SearchInv obs lins maxExtSize s) :
    SearchInv obs lins maxExtSize (considerEdge maxExtSize x s e) ∧
      SearchState.Le obs s (considerEdge maxExtSize x s e) := by
  obtain heq | ⟨hcon, hsize, ⟨hkill, heq⟩ | ⟨queue, hqueue, heq⟩⟩ :=
    considerEdge_cases maxExtSize x s e
  · rw [heq]
    exact ⟨hs, .refl s⟩
  · have hnew : (x.addEdge e).IsHint obs lins maxExtSize :=
      ⟨hx.addEdge hhb he hcon, by simp [Extension.addEdge], hkill, by
        simpa [Extension.size, Extension.addEdge] using hsize⟩
    rw [heq]
    refine ⟨⟨hs.queue, hs.extensions.maybeAdd hnew, hs.killable⟩, List.Subset.refl _,
      fun _ h => h, ?_⟩
    exact fun E hE => hs.extensions.found_old hnew.valid hE
  · rw [heq]
    refine ⟨⟨fun y hy => ?_, hs.extensions, ?_⟩, fun y hy => ?_, fun i hi => ?_, fun _ h => h⟩
    · rcases hqueue with rfl | rfl
      · exact hs.queue y hy
      · rcases List.mem_append.1 hy with hy | hy
        · exact hs.queue y hy
        · exact List.mem_singleton.1 hy ▸ hx.addEdge hhb he hcon
    · rw [BitVector.length_orAssign, length_contradictingLins he]
      exact max_le hs.killable le_rfl
    · rcases hqueue with rfl | rfl
      · exact hy
      · exact List.mem_append_left _ hy
    · rw [BitVector.getD_orAssign, hi]
      rfl

theorem foldl_considerEdge_inv {L : List ExtEdge} (hL : L ⊆ (startPool obs lins).edges)
    (hs : SearchInv obs lins maxExtSize s) :
    SearchInv obs lins maxExtSize (L.foldl (considerEdge maxExtSize x) s) ∧
      SearchState.Le obs s (L.foldl (considerEdge maxExtSize x) s) := by
  induction L generalizing s with
  | nil => exact ⟨hs, .refl s⟩
  | cons e L ih =>
    obtain ⟨he, hL⟩ := List.cons_subset.1 hL
    obtain ⟨h1, h2⟩ := considerEdge_inv hhb hx he hs
    obtain ⟨h3, h4⟩ := ih hL h1
    exact ⟨h3, h2.trans h4⟩

end Expand

/-! ## Completeness -/

/-- Either an extension was found for the target, or one in the queue is the beginning of it and
goes on with edges that are still to come. -/
def Pending (obs : Observation) (lins : List Linearization) (T : List ExtEdge) (s : SearchState) :
    Prop :=
  Found obs (pairsOf T) s.extensions ∨
    ∃ x ∈ s.queue, ∃ S, T = x.ext ++ S ∧ S ≠ [] ∧ S.Sublist ((startPool obs lins).after x)

theorem Pending.mono {T : List ExtEdge} {s s' : SearchState} (h : Pending obs lins T s)
    (hle : SearchState.Le obs s s') : Pending obs lins T s' := by
  rcases h with h | ⟨x, hx, S, hS⟩
  · exact .inl (hle.found _ h)
  · exact .inr ⟨x, hle.queue hx, S, hS⟩

section Complete

variable {T S : List ExtEdge} {x : Extension} {s : SearchState} {e f : ExtEdge}
  (hhb : obs.InRange {p | p ∈ obs.hb})
  (hlins : ∀ lin ∈ lins, lin.Respects obs.hb)
  (hT : Target obs lins maxExtSize T) (hx : x.Valid obs lins) (hTS : T = x.ext ++ S)

include hT hTS in
theorem Target.not_mem_ext (hf : f ∈ S) : f ∉ x.ext := by
  have hnodup := hT.nodup
  rw [hTS, List.nodup_append] at hnodup
  exact fun hmem => hnodup.2.2 f hmem f hf rfl

include hhb hlins hT hx hTS

/-- An edge of the target does not kill everything if there is another one to come. -/
theorem Target.killsAllLins_addEdge (he : e ∈ S) (hf : f ∈ S) (hne : e ≠ f) :
    (x.addEdge f).killsAllLins = false := by
  have hsub : x.ext ⊆ T := hTS ▸ List.subset_append_left _ _
  have hST : S ⊆ T := hTS ▸ List.subset_append_right _ _
  have hcon := hT.areConnected hlins hx hsub (hST hf) (hT.not_mem_ext hTS hf)
  have hvalid := hx.addEdge hhb (hT.sublist.subset (hST hf)) hcon
  obtain ⟨i, hi, -, honly⟩ := hT.needed e (hST he)
  rw [Bool.eq_false_iff, ne_eq, hvalid.killsAllLins_iff (by simp [Extension.addEdge])]
  intro hall
  obtain ⟨g, hg, hbit⟩ := hall i hi
  rcases List.mem_append.1 hg with hg | hg
  · exact hT.not_mem_ext hTS he (honly g (hsub hg) hbit ▸ hg)
  · obtain rfl := List.mem_singleton.1 hg
    exact hne (honly g (hST hf) hbit).symm

omit hhb in
/-- **Edges of the target are not skipped.** -/
theorem Target.considered (hf : f ∈ S) :
    considerEdge maxExtSize x s f =
      if (x.addEdge f).killsAllLins then
        { s with extensions := maybeAddExtension s.extensions (x.addEdge f) }
      else
        let killable := BitVector.orAssign s.killable f.contradictingLins
        if (x.addEdge f).killsLeftoverLins killable then
          { s with killable := killable, queue := s.queue ++ [x.addEdge f] }
        else { s with killable := killable } := by
  have hsub : x.ext ⊆ T := hTS ▸ List.subset_append_left _ _
  have hfT : f ∈ T := hTS ▸ List.mem_append_right _ hf
  have hnew := hT.not_mem_ext hTS hf
  have hsize : ¬ x.size + 1 > maxExtSize := by
    have h1 := hT.size
    have h2 := List.length_pos_of_mem hf
    rw [hTS, List.length_append] at h1
    rw [Extension.size]
    omega
  rw [considerEdge, hT.areConnected hlins hx hsub hfT hnew,
    hT.isMonotoneNext hlins hx hsub hfT hnew, if_neg hsize]
  simp only [Bool.not_true, Bool.false_eq_true, if_false]
  rw [if_neg (hT.getNumKilledLins hx hsub hfT hnew)]

/-- Once the edges of the target after `e` were gone through, what they kill is killable. -/
theorem Target.killable (he : e ∈ S) {L : List ExtEdge} (hL : L ⊆ (startPool obs lins).edges)
    (hs : SearchInv obs lins maxExtSize s) (hf : f ∈ S) (hne : e ≠ f) (hfL : f ∈ L) {i : ℕ}
    (hi : f.contradictingLins.getD i false = true) :
    (L.foldl (considerEdge maxExtSize x) s).killable.getD i false = true := by
  obtain ⟨L₁, L₂, rfl⟩ := List.append_of_mem hfL
  obtain ⟨hL₁, hfL₂⟩ := List.append_subset.1 hL
  obtain ⟨hfpool, hL₂⟩ := List.cons_subset.1 hfL₂
  obtain ⟨hs₁, -⟩ := foldl_considerEdge_inv hhb hx hL₁ hs
  obtain ⟨hs₂, -⟩ := considerEdge_inv hhb hx hfpool hs₁
  rw [List.foldl_append, List.foldl_cons]
  refine (foldl_considerEdge_inv hhb hx hL₂ hs₂).2.killable i ?_
  rw [hT.considered hlins hx hTS hf, hT.killsAllLins_addEdge hhb hlins hx hTS he hf hne]
  simp only [Bool.false_eq_true, if_false]
  split
  · rw [BitVector.getD_orAssign, hi, Bool.or_true]
  · rw [BitVector.getD_orAssign, hi, Bool.or_true]

/-- **The search gets on with a target** when it takes the beginning of it from the queue. -/
theorem Target.expand (hS : S ≠ []) (hsub : S.Sublist ((startPool obs lins).after x))
    {queue : List Extension} (hs : SearchInv obs lins maxExtSize ⟨[], queue, extensions⟩) :
    Pending obs lins T (expand (startPool obs lins) maxExtSize x queue extensions) := by
  obtain ⟨e, S, rfl⟩ := List.exists_cons_of_ne_nil hS
  -- the edges before `e`, and those after it, which are gone through first
  obtain ⟨A, R, hA, hR⟩ : ∃ A R, (startPool obs lins).after x = A ++ e :: R ∧ S.Sublist R := by
    obtain ⟨r₁, r₂, h, he, hr⟩ := List.cons_sublist_iff.1 hsub
    obtain ⟨A, B, rfl⟩ := List.append_of_mem he
    exact ⟨A, B ++ r₂, by rw [h, List.append_assoc, List.cons_append],
      hr.trans (List.sublist_append_right _ _)⟩
  obtain ⟨pre, hpre⟩ := (startPool obs lins).after_suffix x
  have hpool : (startPool obs lins).edges = (pre ++ A) ++ e :: R := by
    rw [← hpre, hA, List.append_assoc]
  have hRpool : R.reverse ⊆ (startPool obs lins).edges := by
    intro f hf
    rw [hpool]
    exact List.mem_append_right _ (List.mem_cons_of_mem _ (List.mem_reverse.1 hf))
  have hepool : e ∈ (startPool obs lins).edges := by
    rw [hpool]
    exact List.mem_append_right _ List.mem_cons_self
  have hApool : A.reverse ⊆ (startPool obs lins).edges := by
    intro f hf
    rw [hpool]
    exact List.mem_append_left _ (List.mem_append_right _ (List.mem_reverse.1 hf))
  have hnodup : e ∉ S := by
    have := hT.nodup
    rw [hTS, List.nodup_append] at this
    exact (List.nodup_cons.1 this.2.1).1
  have hlast := List.mem_cons_self (a := e) (l := S)
  rw [GenMC.expand, hA, List.reverse_append, List.reverse_cons, List.append_assoc,
    List.foldl_append, List.foldl_append, List.foldl_cons, List.foldl_nil]
  generalize hs₁ : R.reverse.foldl (considerEdge maxExtSize x) ⟨[], queue, extensions⟩ = s₁
  have hinv₁ : SearchInv obs lins maxExtSize s₁ :=
    hs₁ ▸ (foldl_considerEdge_inv hhb hx hRpool hs).1
  refine Pending.mono ?_ (foldl_considerEdge_inv hhb hx hApool
    (considerEdge_inv hhb hx hepool hinv₁).1).2
  have hcon := hT.areConnected hlins hx (hTS ▸ List.subset_append_left _ _)
    (hTS ▸ List.mem_append_right _ hlast) (hT.not_mem_ext hTS hlast)
  have hvalid := hx.addEdge hhb hepool hcon
  have hTS' : T = (x.addEdge e).ext ++ S := by
    rw [hTS, Extension.addEdge, List.append_assoc, List.singleton_append]
  rw [hT.considered hlins hx hTS hlast]
  by_cases hnil : S = []
  · -- it is the last edge
    rw [hnil, List.append_nil] at hTS'
    have hkill : (x.addEdge e).killsAllLins = true := by
      rw [hvalid.killsAllLins_iff (by simp [Extension.addEdge]), ← hTS']
      exact hT.kills
    rw [if_pos hkill, hTS']
    exact .inl (hinv₁.extensions.found_new hvalid)
  · obtain ⟨f, hf⟩ := List.exists_mem_of_ne_nil S hnil
    have hkill := hT.killsAllLins_addEdge hhb hlins hx hTS (List.mem_cons_of_mem e hf) hlast
      (fun hc => hnodup (hc ▸ hf))
    have hleft : (x.addEdge e).killsLeftoverLins
        (BitVector.orAssign s₁.killable e.contradictingLins) = true := by
      rw [Extension.killsLeftoverLins, BitVector.all_iff]
      intro i hi
      have hlen : i < lins.length := by
        have h1 := hvalid.length_le
        have h2 := hinv₁.killable
        have h3 := length_contradictingLins hepool
        rw [BitVector.length_orAssign, BitVector.length_orAssign] at hi
        omega
      rw [BitVector.getD_orAssign, BitVector.getD_orAssign]
      obtain ⟨g, hg, hbit⟩ := hT.kills i hlen
      rw [hTS', List.mem_append] at hg
      rcases hg with hg | hg
      · rw [(hvalid.killed i).2 ⟨g, hg, hbit⟩, Bool.true_or]
      · have hkillable := hT.killable hhb hlins hx hTS hlast hRpool hs (List.mem_cons_of_mem e hg)
          (fun hc => hnodup (hc ▸ hg)) (List.mem_reverse.2 (hR.subset hg)) hbit
        rw [← hs₁, hkillable, Bool.true_or, Bool.or_true]
    rw [hkill]
    simp only [Bool.false_eq_true, if_false, hleft, if_true]
    refine .inr ⟨x.addEdge e, List.mem_append_right _ List.mem_cons_self, S, hTS', hnil, ?_⟩
    rwa [EdgePool.after_addEdge, EdgePool.afterEdge_eq _ hpool]

end Complete

/-! ## The whole search -/

theorem expand_inv {x : Extension} {queue : List Extension} (hhb : obs.InRange {p | p ∈ obs.hb})
    (hs : SearchInv obs lins maxExtSize ⟨[], x :: queue, extensions⟩) :
    SearchInv obs lins maxExtSize (expand (startPool obs lins) maxExtSize x queue extensions) ∧
      SearchState.Le obs ⟨[], queue, extensions⟩
        (expand (startPool obs lins) maxExtSize x queue extensions) := by
  refine foldl_considerEdge_inv hhb (hs.queue x List.mem_cons_self) (fun e he => ?_)
    ⟨fun y hy => hs.queue y (List.mem_cons_of_mem x hy), hs.extensions, hs.killable⟩
  exact ((startPool obs lins).after_suffix x).subset (List.mem_reverse.1 he)

theorem search_inv {queue : List Extension} (hhb : obs.InRange {p | p ∈ obs.hb})
    (hs : SearchInv obs lins maxExtSize ⟨[], queue, extensions⟩) :
    Extensions obs lins maxExtSize
      (search (startPool obs lins) maxExtSize queue extensions) := by
  induction queue, extensions using search.induct (startPool obs lins) maxExtSize with
  | case1 extensions =>
    rw [search]
    exact hs.extensions
  | case2 extensions x queue s ih =>
    obtain ⟨h, -⟩ := expand_inv hhb hs
    rw [search]
    exact ih ⟨h.queue, h.extensions, Nat.zero_le _⟩

theorem search_found {queue : List Extension} {T : List ExtEdge}
    (hhb : obs.InRange {p | p ∈ obs.hb})
    (hlins : ∀ lin ∈ lins, lin.Respects obs.hb)
    (hT : Target obs lins maxExtSize T)
    (hs : SearchInv obs lins maxExtSize ⟨[], queue, extensions⟩)
    (hpend : Pending obs lins T ⟨[], queue, extensions⟩) :
    Found obs (pairsOf T) (search (startPool obs lins) maxExtSize queue extensions) := by
  induction queue, extensions using search.induct (startPool obs lins) maxExtSize with
  | case1 extensions =>
    rw [search]
    rcases hpend with h | ⟨x, hx, -⟩
    · exact h
    · exact absurd hx List.not_mem_nil
  | case2 extensions x queue s ih =>
    obtain ⟨h, hle⟩ := expand_inv hhb hs
    have hpend' : Pending obs lins T s := by
      rcases hpend with hfound | ⟨y, hy, S, hTS, hS, hsub⟩
      · exact .inl (hle.found _ hfound)
      · rcases List.mem_cons.1 hy with rfl | hy
        · exact hT.expand hhb hlins (hs.queue y List.mem_cons_self) hTS hS hsub
            ⟨fun z hz => hs.queue z (List.mem_cons_of_mem y hz), hs.extensions, hs.killable⟩
        · exact .inr ⟨y, hle.queue hy, S, hTS, hS, hsub⟩
    rw [search]
    exact ih ⟨h.queue, h.extensions, Nat.zero_le _⟩ hpend'

/-! ## Every set of edges has a target -/

/-- The pool has all edges of a set that keeps the graph acyclic. -/
theorem exists_mem_startPool (hE : obs.InRange E) (hacyclic : Acyclic (HbExt obs E)) {p : CallEdge}
    (hp : p ∈ E) : ∃ e ∈ (startPool obs lins).edges, e.toPair = p := by
  obtain ⟨h1, h2⟩ := hE p hp
  obtain ⟨hord, -⟩ := ofObservation_spec obs
  have hforth : (Extension.ofObservation obs).areHbOrdered (toEndExtEvent p.first)
      (toBeginExtEvent p.second) = false := by
    rw [Bool.eq_false_iff, ne_eq, hord, transGen_hbExt_empty, hbExt_empty_iff]
    rintro (⟨id, -, h, -⟩ | ⟨q, -, h, -⟩)
    · exact toEnd_ne_toBegin _ _ h
    · exact toEnd_ne_toBegin _ _ h
  have hback : (Extension.ofObservation obs).areHbOrdered (toBeginExtEvent p.second)
      (toEndExtEvent p.first) = false := by
    rw [Bool.eq_false_iff, ne_eq, hord]
    intro h
    exact hacyclic _ (TransGen.head (.ext hp) (transGen_hbExt_mono (Set.empty_subset _) h))
  refine ⟨{ ExtEdge.between p.first p.second with
    contradictingLins := lins.map fun lin => lin.isBefore p.second p.first }, ?_, ?_⟩
  · refine mem_edgePoolList.2 ⟨_, h1, _, h2, ?_, rfl⟩
    rw [Extension.areConnected, ExtEdge.between, hforth, hback]
    rfl
  · simp [ExtEdge.toPair, ExtEdge.between, toCallIdx_toEnd, toCallIdx_toBegin]

/-- Every set of edges that contradicts all linearizations has a target in it. -/
theorem exists_target {E : Finset CallEdge} (hE : obs.InRange E) (hsize : E.card ≤ maxExtSize)
    (hacyclic : Acyclic (HbExt obs E)) (hkills : ∀ lin ∈ lins, Contradicts E lin) :
    ∃ T, Target obs lins maxExtSize T ∧ pairsOf T ⊆ E := by
  -- a smallest part of the edges that is enough
  obtain ⟨M, ⟨hME, hMkills⟩, hmin⟩ := exists_minimal_of_wellFoundedLT
    (fun M : Finset CallEdge => M ⊆ E ∧ ∀ lin ∈ lins, Contradicts M lin)
    ⟨E, Finset.Subset.refl E, hkills⟩
  set T := (startPool obs lins).edges.filter (fun e => e.toPair ∈ M) with hTdef
  have hTpool : T.Sublist (startPool obs lins).edges := List.filter_sublist
  have hTM : ∀ {e}, e ∈ T → e.toPair ∈ M := by
    intro e he
    simpa using (List.mem_filter.1 he).2
  have hMT : ∀ {p}, p ∈ M → ∃ e ∈ T, e.toPair = p := by
    intro p hp
    obtain ⟨e, he, rfl⟩ := exists_mem_startPool hE hacyclic (hME hp)
    exact ⟨e, List.mem_filter.2 ⟨he, by simpa using hp⟩, rfl⟩
  have hpairs : pairsOf T ⊆ E := by
    rintro p ⟨e, he, rfl⟩
    exact hME (hTM he)
  refine ⟨T, ⟨hTpool, hacyclic.mono fun _ _ => hbExt_mono hpairs, fun i hi => ?_,
    fun e he => ?_, ?_⟩, hpairs⟩
  · obtain ⟨p, hp, hbit⟩ := hMkills _ (List.getElem_mem hi)
    obtain ⟨e, he, rfl⟩ := hMT hp
    refine ⟨e, he, ?_⟩
    rwa [contradictingLins_getD (hTpool.subset he) hi]
  · -- without `e` some linearization would be left
    obtain ⟨lin, hlin, hleft⟩ : ∃ lin ∈ lins, ¬ Contradicts (M.erase e.toPair) lin := by
      by_contra hno
      push Not at hno
      have hle : M ≤ M.erase e.toPair :=
        hmin ⟨(Finset.erase_subset _ _).trans hME, hno⟩ (Finset.erase_subset _ _)
      exact Finset.notMem_erase _ _ (hle (hTM he))
    obtain ⟨i, hi, rfl⟩ := List.mem_iff_getElem.1 hlin
    have honly : ∀ p ∈ M, lins[i].isBefore p.second p.first = true → p = e.toPair := by
      intro p hp hbit
      by_contra hne
      exact hleft ⟨p, Finset.mem_coe.2 (Finset.mem_erase.2 ⟨hne, hp⟩), hbit⟩
    refine ⟨i, hi, ?_, fun f hf hbit => ?_⟩
    · obtain ⟨p, hp, hbit⟩ := hMkills _ hlin
      rw [contradictingLins_getD (hTpool.subset he) hi, ← honly p hp hbit]
      exact hbit
    · rw [contradictingLins_getD (hTpool.subset hf) hi] at hbit
      exact eq_of_toPair_eq (hTpool.subset hf) (hTpool.subset he) (honly _ (hTM hf) hbit)
  · have hnodup : (T.map ExtEdge.toPair).Nodup := by
      refine List.Nodup.map_on (fun e he f hf h => ?_)
        (hTpool.nodup (List.Nodup.of_map _ (startPool obs lins).nodup))
      exact eq_of_toPair_eq (hTpool.subset he) (hTpool.subset hf) h
    have hcard : (T.map ExtEdge.toPair).toFinset.card ≤ M.card := by
      refine Finset.card_le_card fun p hp => ?_
      obtain ⟨e, he, rfl⟩ := List.mem_map.1 (List.mem_toFinset.1 hp)
      exact hTM he
    rw [List.toFinset_card_of_nodup hnodup, List.length_map] at hcard
    exact hcard.trans ((Finset.card_le_card hME).trans hsize)

/-! ## The result -/

/-- What the hints of an observation have to be for some linearizations: they are small, keep the
graph acyclic and contradict the linearizations, there is one for every set of edges that does the
same, and none of them is implied by another one. -/
structure HintsFor (obs : Observation) (lins : List Linearization) (maxExtSize : ℕ)
    (hints : List Hint) : Prop where
  size : ∀ h ∈ hints, h.edges.length ≤ maxExtSize
  inRange : ∀ h ∈ hints, obs.InRange h.toSet
  acyclic : ∀ h ∈ hints, Acyclic (HbExt obs h.toSet)
  contradicts : ∀ h ∈ hints, ∀ lin ∈ lins, Contradicts h.toSet lin
  complete : ∀ E : Finset CallEdge, obs.InRange E → E.card ≤ maxExtSize →
    Acyclic (HbExt obs E) → (∀ lin ∈ lins, Contradicts E lin) →
      ∃ h ∈ hints, Implied obs h.toSet E
  incomparable : hints.Pairwise fun h h' =>
    ¬ Implied obs h.toSet h'.toSet ∧ ¬ Implied obs h'.toSet h.toSet

theorem hintsFor_observationHints (hhb : obs.InRange {p | p ∈ obs.hb}) (hne : lins ≠ [])
    (hlins : ∀ lin ∈ lins, lin.Respects obs.hb)
    (maxExtSize : ℕ) : HintsFor obs lins maxExtSize (observationHints obs lins maxExtSize) := by
  have hstart : SearchInv obs lins maxExtSize ⟨[], [Extension.ofObservation obs], []⟩ := by
    refine ⟨fun x hx => ?_, ⟨nofun, List.Pairwise.nil⟩, Nat.zero_le _⟩
    exact List.mem_singleton.1 hx ▸ valid_ofObservation obs lins
  have hext := search_inv hhb hstart
  have hmem : ∀ h ∈ observationHints obs lins maxExtSize, ∃ y : Extension,
      y.IsHint obs lins maxExtSize ∧ h = y.toHint := by
    intro h hh
    obtain ⟨y, hy, rfl⟩ := List.mem_map.1 hh
    exact ⟨y, hext.isHint y hy, rfl⟩
  refine ⟨fun h hh => ?_, fun h hh => ?_, fun h hh => ?_, fun h hh lin hlin => ?_,
    fun E hE hsize hacyclic hkills => ?_, ?_⟩
  · obtain ⟨y, hy, rfl⟩ := hmem h hh
    simpa [Extension.toHint, Extension.size] using hy.size
  · obtain ⟨y, hy, rfl⟩ := hmem h hh
    rw [toSet_toHint]
    exact inRange_pairsOf hy.valid.edges
  · obtain ⟨y, hy, rfl⟩ := hmem h hh
    rw [toSet_toHint]
    exact hy.valid.acyclic
  · obtain ⟨y, hy, rfl⟩ := hmem h hh
    rw [toSet_toHint]
    exact hy.valid.contradicts hy.nonempty hy.kills hlin
  · obtain ⟨T, hT, hTE⟩ := exists_target hE hsize hacyclic hkills
    have hTne : T ≠ [] := by
      rintro rfl
      obtain ⟨e, he, -⟩ := hT.kills 0 (List.length_pos_iff.2 hne)
      exact absurd he List.not_mem_nil
    obtain ⟨y, hy, himp⟩ := search_found hhb hlins hT hstart
      (.inr ⟨_, List.mem_cons_self, T, rfl, hTne, hT.sublist⟩)
    refine ⟨y.toHint, List.mem_map_of_mem hy, ?_⟩
    rw [toSet_toHint]
    exact fun p hp => transGen_hbExt_mono hTE (himp p hp)
  · refine List.pairwise_map.2 (hext.incomparable.imp_of_mem fun {y z} hy hz h => ?_)
    have hy := (hext.isHint y hy).valid
    have hz := (hext.isHint z hz).valid
    rw [toSet_toHint, toSet_toHint, ← hy.isSubsetOf_iff hz, ← hz.isSubsetOf_iff hy]
    exact ⟨Bool.eq_false_iff.1 h.1, Bool.eq_false_iff.1 h.2⟩

namespace Specification

/-- **The hint search is sound and complete** for every observation with linearizations that respect
its happens-before. -/
theorem calculateObservationHints_spec {spec : Specification} {obs : Observation} {r : Record}
    (hr : spec.lookupSync obs = some r) (hhb : obs.InRange {p | p ∈ obs.hb})
    (hne : r.lins.vset ≠ []) (hlins : ∀ lin ∈ r.lins.vset, lin.Respects obs.hb) :
    ∃ hints, spec.calculateObservationHints obs = some hints ∧
      HintsFor obs r.lins.vset spec.maxExtSize hints := by
  refine ⟨observationHints obs r.lins.vset spec.maxExtSize, ?_,
    hintsFor_observationHints hhb hne hlins spec.maxExtSize⟩
  rw [calculateObservationHints, hr]
  rfl

/-- Three calls, the first one before the second. -/
def threeCalls : Observation := { ops := List.replicate 3 default, hb := ⟨[⟨0, 1⟩]⟩ }

/-- The calls were seen in one order. -/
def threeCallsSpec : Specification where
  data := [(threeCalls, { lins := ⟨[⟨[0, 2, 1]⟩]⟩ })]
  maxExtSize := 2

theorem threeCalls_hints :
    ∃ hints, threeCallsSpec.calculateObservationHints threeCalls = some hints ∧
      HintsFor threeCalls [⟨[0, 2, 1]⟩] 2 hints := by
  refine @calculateObservationHints_spec threeCallsSpec threeCalls { lins := ⟨[⟨[0, 2, 1]⟩]⟩ }
    (by decide) (fun p hp => ?_) (by decide) (fun lin hlin => ?_)
  · obtain rfl := List.mem_singleton.1 hp
    decide
  · obtain rfl := List.mem_singleton.1 hlin
    intro p hp
    obtain rfl := List.mem_singleton.1 hp
    decide

end Specification

end GenMC
