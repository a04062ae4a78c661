import GenMC.ADT.AdaptiveView
import Mathlib.Data.List.MinMax

/-!
# Joins and containment

`join` is the pointwise maximum, but whether a summary is contained in a view is not the pointwise
order: a summary that has become a view is compared base with base, and the diff of the other view
is only asked about the diff.  So a join of two contained summaries is contained if the view has in
its base what the join has moved into one.

* `CowView.written` and `CowView.writtenByUpdate`: what an update of a view writes into its base.
  With a base of its own that is what is new.  Otherwise it is nothing as long as the diff has room,
  and everything once it has not.
* `moved`: what `join` writes into a base, from the shapes of the two summaries.
* `join_containedIn_iff`: **a join is contained in a view exactly when both summaries are, and the
  base of the view has what was moved.**
-/

set_option autoImplicit false

namespace GenMC

open SharedView SharedView.Memory

namespace CowView

open AdaptiveView

/-! ## Adding events to a view -/

/-- The events that a view has not seen do not fit into its diff: they are of several threads, or
not of the thread of the diff. -/
def Crowded (v : CowView) (es : List Event) : Prop :=
  ∃ e ∈ es, ¬ v.contains e ∧ (¬ v.diff.isInitializer ∧ v.diff.thread ≠ e.thread ∨
    ∃ e' ∈ es, ¬ v.contains e' ∧ e'.thread ≠ e.thread)

instance (v : CowView) (es : List Event) : Decidable (v.Crowded es) :=
  inferInstanceAs (Decidable (∃ e ∈ es, _))

/-- What adding events writes into the base of a view. -/
def written (others : List ℕ) (v : CowView) (es : List Event) (t : ℕ) : ℕ :=
  if v.unique others then if v.getMax t < eventsAt es t then eventsAt es t else 0
  else if v.Crowded es then max (v.getMax t) (eventsAt es t) else 0

variable {v w : CowView} {others : List ℕ} {e : Event} {es : List Event} {t : ℕ}

theorem getMax_eq_vec (h : v.diff.isInitializer = true) (t : ℕ) : v.getMax t = v.vec.getD t 0 := by
  rw [getMax_eq, Event.isInitializer_iff.1 h, eventAt_init, Nat.max_zero]

theorem lt_eventAt_iff : v.getMax t < eventAt e t ↔ ¬ v.contains e ∧ e.thread = t := by
  rw [eventAt, contains, decide_eq_true_eq, not_le]
  split
  · rename_i ht
    subst ht
    exact (and_iff_left rfl).symm
  · rename_i ht
    exact iff_of_false (Nat.not_lt_zero _) fun h => ht h.2

theorem lt_eventsAt_iff :
    v.getMax t < eventsAt es t ↔ ∃ e ∈ es, ¬ v.contains e ∧ e.thread = t := by
  rw [← not_le, eventsAt_le_iff]
  simp only [not_forall, not_le, lt_eventAt_iff, exists_prop]

/-- Whether the diff has no room only depends on how far the events go. -/
theorem crowded_iff : v.Crowded es ↔ ∃ t, v.getMax t < eventsAt es t ∧
    (¬ v.diff.isInitializer ∧ v.diff.thread ≠ t ∨ ∃ t' ≠ t, v.getMax t' < eventsAt es t') := by
  simp only [lt_eventsAt_iff]
  refine ⟨?_, ?_⟩
  · rintro ⟨e, he, hc, h⟩
    refine ⟨e.thread, ⟨e, he, hc, rfl⟩, h.imp_right ?_⟩
    rintro ⟨e', he', hc', hne⟩
    exact ⟨e'.thread, hne, e', he', hc', rfl⟩
  · rintro ⟨_, ⟨e, he, hc, rfl⟩, h⟩
    refine ⟨e, he, hc, h.imp_right ?_⟩
    rintro ⟨_, hne, e', he', hc', rfl⟩
    exact ⟨e', he', hc', hne⟩

/-- A diff in use only has room for its thread. -/
theorem crowded_iff_of_diff (h : ¬ v.diff.isInitializer) :
    v.Crowded es ↔ ∃ t ≠ v.diff.thread, v.getMax t < eventsAt es t := by
  rw [crowded_iff]
  refine ⟨?_, ?_⟩
  · rintro ⟨t, ht, ⟨-, hne⟩ | ⟨t', hne, ht'⟩⟩
    · exact ⟨t, hne.symm, ht⟩
    · by_cases heq : t = v.diff.thread
      · exact ⟨t', heq ▸ hne, ht'⟩
      · exact ⟨t, heq, ht⟩
  · rintro ⟨t, hne, ht⟩
    exact ⟨t, ht, .inl ⟨h, hne.symm⟩⟩

/-- A diff that is not in use has room for one thread. -/
theorem crowded_iff_of_isInitializer (h : v.diff.isInitializer = true) :
    v.Crowded es ↔ ∃ t t', t' ≠ t ∧ v.getMax t < eventsAt es t ∧ v.getMax t' < eventsAt es t' := by
  rw [crowded_iff]
  refine ⟨?_, ?_⟩
  · rintro ⟨t, ht, ⟨hd, -⟩ | ⟨t', hne, ht'⟩⟩
    · exact absurd h hd
    · exact ⟨t, t', hne, ht, ht'⟩
  · rintro ⟨t, t', hne, ht, ht'⟩
    exact ⟨t, ht, .inr ⟨t', hne, ht'⟩⟩

/-! ### Views with a base of their own -/

theorem unique_modifyBase (f : ViewBase → ViewBase) :
    (v.modifyBase f).unique others = v.unique others := by
  rw [unique, unique, address, address, modifyBase, Option.map_map]
  rfl

/-- A hydrated view has a base of its own. -/
theorem unique_hydrate (others : List ℕ) (v : CowView) :
    (v.hydrate others).unique others = true := by
  have hfresh : freshAddress others v ∉ others := fun hmem =>
    absurd (List.le_max_of_le (List.mem_append_right v.address.toList hmem) le_rfl)
      (Nat.not_succ_le_self _)
  rw [hydrate]
  split <;> exact decide_eq_true hfresh

theorem isInitializer_hydrate (others : List ℕ) (v : CowView) :
    (v.hydrate others).diff.isInitializer = true := by
  rw [hydrate]
  split
  · rename_i h
    exact h
  · rfl

theorem unique_updateIdx (h : v.unique others = true) (e : Event) :
    (v.updateIdx others e).unique others = true := by
  rw [updateIdx]
  split
  · exact h
  · rw [unique_modifyBase]
    exact h

theorem vec_updateIdx_of_unique (h : v.unique others = true) (e : Event) (t : ℕ) :
    (v.updateIdx others e).vec.getD t 0 =
      max (v.vec.getD t 0) (if v.getMax t < eventAt e t then eventAt e t else 0) := by
  rw [updateIdx]
  split
  · rename_i hc
    rw [if_neg (not_lt.2 (contains_iff.1 hc t)), Nat.max_zero]
  · rename_i hc
    rw [vec_modifyBase (isSome_of_unique h), getD_updateIdx_eq]
    congr 1
    by_cases ht : e.thread = t
    · rw [if_pos (lt_eventAt_iff.2 ⟨hc, ht⟩)]
    · rw [eventAt, if_neg ht, ite_self]

/-- A base of its own takes all that is new. -/
theorem vec_foldl_of_unique (es : List Event) (t : ℕ) : ∀ {v : CowView}, v.unique others = true →
    (es.foldl (updateIdx others) v).vec.getD t 0 =
      max (v.vec.getD t 0) (if v.getMax t < eventsAt es t then eventsAt es t else 0) := by
  induction es with
  | nil => exact fun _ => (Nat.max_zero _).symm
  | cons e es ih =>
    intro v h
    rw [List.foldl_cons, ih (unique_updateIdx h e), vec_updateIdx_of_unique h, getMax_updateIdx,
      eventsAt_cons]
    have := vec_le_getMax v t
    split_ifs <;> omega

/-- After hydration everything is in the base. -/
theorem vec_foldl_hydrate (v : CowView) (es : List Event) (t : ℕ) :
    (es.foldl (updateIdx others) (v.hydrate others)).vec.getD t 0 =
      max (v.getMax t) (eventsAt es t) := by
  rw [vec_foldl_of_unique es t (unique_hydrate others v), getMax_hydrate,
    ← getMax_eq_vec (isInitializer_hydrate others v), getMax_hydrate]
  split_ifs <;> omega

/-! ### Views that share their base -/

theorem not_isInitializer_of_not_contains (h : ¬ v.contains e) : ¬ e.isInitializer := by
  intro he
  rw [contains, Event.isInitializer_iff.1 he] at h
  exact h (decide_eq_true (Nat.zero_le _))

/-- An event that the diff has room for becomes the diff. -/
theorem updateIdx_of_room (hu : v.unique others = false) (hc : ¬ v.contains e)
    (hd : ¬ v.diff.isInitializer → e.thread = v.diff.thread) :
    v.updateIdx others e = { v with diff := e } := by
  rw [updateIdx, if_neg hc, if_neg (by rw [hu]; exact Bool.false_ne_true)]
  split_ifs with hinit ht
  · rfl
  · have hlt : v.diff.index < e.index := by
      have hle := (le_max_right _ _).trans_eq (getMax_eq v e.thread).symm
      rw [eventAt, if_pos ht.symm] at hle
      rw [contains, decide_eq_true_eq, not_le] at hc
      omega
    rw [Event.max, if_pos (.inr ⟨ht.symm, hlt⟩)]
  · exact absurd (hd hinit) ht

/-- A diff without room goes into a base of its own first. -/
theorem updateIdx_of_no_room (hu : v.unique others = false) (hc : ¬ v.contains e)
    (hd : ¬ v.diff.isInitializer) (ht : e.thread ≠ v.diff.thread) :
    v.updateIdx others e = (v.hydrate others).updateIdx others e := by
  have hc' : ¬ (v.hydrate others).contains e := by
    rw [contains, getMax_hydrate]
    exact hc
  rw [updateIdx, if_neg hc, if_neg (by rw [hu]; exact Bool.false_ne_true), if_neg hd, if_neg ht,
    updateIdx, if_neg hc', if_pos (unique_hydrate others v)]

theorem crowded_cons_of_contains (hc : v.contains e = true) :
    v.Crowded (e :: es) ↔ v.Crowded es := by
  simp [Crowded, hc]

/-- An event that the diff has room for leaves no room for the other threads. -/
theorem crowded_cons_iff (hc : ¬ v.contains e)
    (hd : ¬ v.diff.isInitializer → e.thread = v.diff.thread) :
    v.Crowded (e :: es) ↔ ∃ t ≠ e.thread, v.getMax t < eventsAt es t := by
  have hcons : ∀ t ≠ e.thread, eventsAt (e :: es) t = eventsAt es t := fun t ht => by
    rw [eventsAt_cons, eventAt, if_neg ht.symm, Nat.zero_max]
  by_cases hinit : v.diff.isInitializer = true
  · rw [crowded_iff_of_isInitializer hinit]
    refine ⟨?_, ?_⟩
    · rintro ⟨t, t', hne, ht, ht'⟩
      by_cases heq : t = e.thread
      · have hne' : t' ≠ e.thread := heq ▸ hne
        exact ⟨t', hne', hcons t' hne' ▸ ht'⟩
      · exact ⟨t, heq, hcons t heq ▸ ht⟩
    · rintro ⟨t, hne, ht⟩
      refine ⟨e.thread, t, hne, ?_, (hcons t hne).symm ▸ ht⟩
      exact lt_eventsAt_iff.2 ⟨e, List.mem_cons_self .., hc, rfl⟩
  · rw [crowded_iff_of_diff hinit, ← hd hinit]
    refine exists_congr fun t => and_congr_right fun hne => ?_
    rw [hcons t hne]

theorem crowded_updateIdx (hu : v.unique others = false) (hc : ¬ v.contains e)
    (hd : ¬ v.diff.isInitializer → e.thread = v.diff.thread) :
    (v.updateIdx others e).Crowded es ↔ v.Crowded (e :: es) := by
  have hdiff : (v.updateIdx others e).diff = e := by rw [updateIdx_of_room hu hc hd]
  rw [crowded_cons_iff hc hd, crowded_iff_of_diff
    (by rw [hdiff]; exact not_isInitializer_of_not_contains hc), hdiff]
  refine exists_congr fun t => and_congr_right fun hne => ?_
  rw [getMax_updateIdx, eventAt, if_neg hne.symm, Nat.max_zero]

/-- **A shared base stays as it is as long as the diff has room**, and is left behind for a base
with everything in it once it has not. -/
theorem vec_foldl_of_shared (es : List Event) (t : ℕ) : ∀ {v : CowView}, v.unique others = false →
    (es.foldl (updateIdx others) v).vec.getD t 0 =
      if v.Crowded es then max (v.getMax t) (eventsAt es t) else v.vec.getD t 0 := by
  induction es with
  | nil =>
    intro v _
    rw [if_neg (by simp [Crowded])]
    rfl
  | cons e es ih =>
    intro v hu
    by_cases hc : v.contains e = true
    · have hsame : v.updateIdx others e = v := by rw [updateIdx, if_pos hc]
      rw [List.foldl_cons, hsame, ih hu, if_congr (crowded_cons_of_contains hc) rfl rfl,
        eventsAt_cons, ← max_assoc, max_eq_left (contains_iff.1 hc t)]
    by_cases hd : ¬ v.diff.isInitializer → e.thread = v.diff.thread
    · have hu' : (v.updateIdx others e).unique others = false := by
        rw [updateIdx_of_room hu hc hd]
        exact hu
      have hvec : (v.updateIdx others e).vec = v.vec := by
        rw [updateIdx_of_room hu hc hd]
        rfl
      rw [List.foldl_cons, ih hu', if_congr (crowded_updateIdx hu hc hd) rfl rfl, hvec,
        getMax_updateIdx, eventsAt_cons, max_assoc]
    · obtain ⟨hinit, hne⟩ := Classical.not_imp.1 hd
      have hcrowded : v.Crowded (e :: es) := by
        rw [crowded_iff_of_diff hinit]
        exact ⟨e.thread, hne, lt_eventsAt_iff.2 ⟨e, List.mem_cons_self .., hc, rfl⟩⟩
      rw [if_pos hcrowded, List.foldl_cons, updateIdx_of_no_room hu hc hinit hne,
        ← List.foldl_cons, vec_foldl_hydrate]

/-- **What adding events writes into the base of a view.** -/
theorem vec_foldl_updateIdx (others : List ℕ) (v : CowView) (es : List Event) (t : ℕ) :
    (es.foldl (updateIdx others) v).vec.getD t 0 =
      max (v.vec.getD t 0) (v.written others es t) := by
  rw [written]
  by_cases hu : v.unique others = true
  · rw [if_pos hu, vec_foldl_of_unique es t hu]
  · rw [if_neg hu, vec_foldl_of_shared es t (Bool.not_eq_true _ ▸ hu)]
    split_ifs
    · rw [← max_assoc, max_eq_right (vec_le_getMax v t)]
    · exact (Nat.max_zero _).symm

/-! ## Adding a view to a view -/

/-- Both views have a diff, and the diffs are of different threads. -/
def TwoDiffs (v w : CowView) : Prop :=
  ¬ v.diff.isInitializer ∧ ¬ w.diff.isInitializer ∧ v.diff.thread ≠ w.diff.thread

instance (v w : CowView) : Decidable (v.TwoDiffs w) := inferInstanceAs (Decidable (_ ∧ _))

/-- What `update` writes into the base of a view. -/
def writtenByUpdate (others : List ℕ) (v w : CowView) (t : ℕ) : ℕ :=
  if v.unique others then eventAt w.diff t
  else if v.base = none ∨ w.base = none ∨ v.base = w.base then
    if v.TwoDiffs w ∧
        max (v.getMax w.diff.thread) (w.vec.getD w.diff.thread 0) < w.diff.index then
      max (v.getMax t) (w.getMax t)
    else 0
  else if v.containsView w then 0
  else max (v.getMax t) (w.getMax t)

/-- A base of its own takes the other base and the other diff. -/
theorem vec_merge (h : v.base.isSome) (w : CowView) (t : ℕ) :
    (v.merge w).vec.getD t 0 =
      max (max (v.vec.getD t 0) (w.vec.getD t 0)) (eventAt w.diff t) := by
  rw [merge]
  split
  · rename_i hd
    rw [vec_mergeBase h, Event.isInitializer_iff.1 hd, eventAt_init, Nat.max_zero]
  · rw [vec_modifyBase (by rw [isSome_mergeBase]; exact h), getD_updateIdx_eq, vec_mergeBase h]

/-- Unless it is contained, another view ends up in a base with everything. -/
theorem vec_mergeSlow (others : List ℕ) (v w : CowView) (t : ℕ) :
    (v.mergeSlow others w).vec.getD t 0 =
      if v.containsView w then v.vec.getD t 0 else max (v.getMax t) (w.getMax t) := by
  rw [mergeSlow]
  split
  · rfl
  · rw [vec_merge (isSome_hydrate others v), ← getMax_eq_vec (isInitializer_hydrate others v),
      getMax_hydrate, max_assoc, ← getMax_eq]

/-- With compatible bases only two diffs of different threads are in each other's way. -/
theorem vec_updateDiff (others : List ℕ) (v w : CowView) (t : ℕ) :
    (v.updateDiff others w).vec.getD t 0 =
      if v.TwoDiffs w ∧ ¬ v.containsView w then max (v.getMax t) (w.getMax t)
      else v.vec.getD t 0 := by
  rw [updateDiff]
  by_cases hv : v.diff.isInitializer = true
  · have hone : ¬ (v.TwoDiffs w ∧ ¬ v.containsView w) := fun h => h.1.1 hv
    rw [if_pos hv, if_neg hone]
    split <;> rfl
  by_cases hw : w.diff.isInitializer = true
  · have hone : ¬ (v.TwoDiffs w ∧ ¬ v.containsView w) := fun h => h.1.2.1 hw
    rw [if_neg hv, if_pos hw, if_neg hone]
    split <;> rfl
  by_cases ht : v.diff.thread = w.diff.thread
  · have hone : ¬ (v.TwoDiffs w ∧ ¬ v.containsView w) := fun h => h.1.2.2 ht
    rw [if_neg hv, if_neg hw, if_pos ht, if_neg hone]
    rfl
  rw [if_neg hv, if_neg hw, if_neg ht, vec_mergeSlow]
  by_cases hc : v.containsView w = true
  · rw [if_pos hc, if_neg fun h => h.2 hc]
  · rw [if_neg hc, if_pos ⟨⟨hv, hw, ht⟩, hc⟩]

/-- A view that has taken over the base of another one only has to look at its diff. -/
theorem containsView_adoptBase (h : v.base = none ∨ w.base = none ∨ v.base = w.base)
    (hw : w.vec.Trimmed) : (v.adoptBase w).containsView w = true ↔
      w.diff.index ≤ max (v.getMax w.diff.thread) (w.vec.getD w.diff.thread 0) := by
  obtain ⟨-, hle, hmax⟩ := getMax_adoptBase h
  rw [containsView_iff_of_trimmed hw, hmax, and_iff_left (.inr hle)]

/-- **What adding a view writes into the base of a view.** -/
theorem vec_update (others : List ℕ) (v : CowView) (hw : w.vec.Trimmed) (t : ℕ) :
    (v.update others w).vec.getD t 0 =
      max (max (v.vec.getD t 0) (w.vec.getD t 0)) (v.writtenByUpdate others w t) := by
  have hall : max (max (v.vec.getD t 0) (w.vec.getD t 0)) (max (v.getMax t) (w.getMax t)) =
      max (v.getMax t) (w.getMax t) :=
    max_eq_right (max_le_max (vec_le_getMax v t) (vec_le_getMax w t))
  rw [update, writtenByUpdate]
  by_cases hu : v.unique others = true
  · rw [if_pos hu, if_pos hu, vec_merge (isSome_of_unique hu)]
  rw [if_neg hu, if_neg hu]
  by_cases hb : v.base = none ∨ w.base = none ∨ v.base = w.base
  · by_cases he : v.base = none ∧ v.diff.isInitializer = true
    · have hone : ¬ (v.TwoDiffs w ∧
          max (v.getMax w.diff.thread) (w.vec.getD w.diff.thread 0) < w.diff.index) :=
        fun h => h.1.1 he.2
      rw [if_pos he, if_pos hb, if_neg hone, vec_of_base_none he.1, Nat.max_zero]
      exact (Nat.zero_max _).symm
    · obtain ⟨hdiff, -, hmax⟩ := getMax_adoptBase hb
      have hclash : ((v.adoptBase w).TwoDiffs w ∧ ¬ (v.adoptBase w).containsView w) ↔
          v.TwoDiffs w ∧
            max (v.getMax w.diff.thread) (w.vec.getD w.diff.thread 0) < w.diff.index := by
        rw [containsView_adoptBase hb hw, not_le, TwoDiffs, TwoDiffs, hdiff]
      rw [if_neg he, if_pos hb, if_pos hb, vec_updateDiff, if_congr hclash rfl rfl, hmax,
        vec_adoptBase hb, max_assoc (v.getMax t), max_eq_right (vec_le_getMax w t)]
      split_ifs
      · exact hall.symm
      · exact (Nat.max_zero _).symm
  · have he : ¬ (v.base = none ∧ v.diff.isInitializer = true) := fun he => hb (.inl he.1)
    rw [if_neg hb, if_neg he, if_neg hb, vec_mergeSlow]
    split_ifs with hc
    · have hle : w.vec.getD t 0 ≤ v.vec.getD t 0 := by
        rcases ((containsView_iff_of_trimmed hw).1 hc).2 with heq | hle
        · exact absurd (.inr (.inr heq)) hb
        · exact hle t
      rw [max_eq_left hle, Nat.max_zero]
    · exact hall.symm

/-- What is written does not depend on the order of the events. -/
theorem written_congr {es es' : List Event} (h : ∀ t, eventsAt es t = eventsAt es' t) (v : CowView)
    (t : ℕ) : v.written others es t = v.written others es' t := by
  have hcrowded : v.Crowded es ↔ v.Crowded es' := by
    rw [crowded_iff, crowded_iff]
    simp only [h]
  rw [written, written, h, if_congr hcrowded rfl rfl]

end CowView

namespace AdaptiveView

/-! ## Events that become a view -/

/-- The threads of events that other events do not have. -/
def newThreads (ls rs : List Event) : Finset ℕ :=
  (rs.map (·.thread)).toFinset \ (ls.map (·.thread)).toFinset

/-- Adding events to events turns them into a view. -/
def Overflows (ls rs : List Event) : Prop :=
  (newThreads ls rs).Nonempty ∧ SmallVectorCapacity < ls.length + (newThreads ls rs).card

instance (ls rs : List Event) : Decidable (Overflows ls rs) :=
  inferInstanceAs (Decidable (_ ∧ _))

/-- What adding events to events writes into the base of the view that they become. -/
def promoted (others : List ℕ) (ls rs : List Event) (t : ℕ) : ℕ :=
  if Overflows ls rs then CowView.empty.written others (ls ++ rs) t else 0

theorem newThreads_cons_of_mem {ls rs : List Event} {e : Event}
    (h : e.thread ∈ ls.map (·.thread)) : newThreads ls (e :: rs) = newThreads ls rs := by
  rw [newThreads, List.map_cons, List.toFinset_cons,
    Finset.insert_sdiff_of_mem _ (List.mem_toFinset.2 h), newThreads]

theorem newThreads_cons_of_not_mem {ls rs : List Event} {e : Event}
    (h : e.thread ∉ ls.map (·.thread)) :
    newThreads ls (e :: rs) = insert e.thread (newThreads (ls ++ [e]) rs) := by
  ext x
  by_cases hx : x = e.thread
  · subst hx
    simpa [newThreads] using h
  · simp [newThreads, hx]

theorem card_newThreads_cons {ls rs : List Event} {e : Event}
    (h : e.thread ∉ ls.map (·.thread)) :
    (newThreads ls (e :: rs)).card = (newThreads (ls ++ [e]) rs).card + 1 := by
  rw [newThreads_cons_of_not_mem h, Finset.card_insert_of_notMem]
  simp [newThreads]

/-- Raising the event of a thread needs no room. -/
theorem overflows_raise {ls rs : List Event} {e : Event} (h : e.thread ∈ ls.map (·.thread)) :
    Overflows ls (e :: rs) ↔
      Overflows (ls.modify (ls.findIdx (·.thread = e.thread)) (Event.max · e)) rs := by
  rw [Overflows, Overflows, newThreads_cons_of_mem h, newThreads, newThreads, threads_raise,
    List.length_modify]

/-- An event of a new thread takes a place. -/
theorem overflows_append {ls rs : List Event} {e : Event} (h : e.thread ∉ ls.map (·.thread))
    (hlen : ls.length < SmallVectorCapacity) :
    Overflows ls (e :: rs) ↔ Overflows (ls ++ [e]) rs := by
  rw [Overflows, Overflows, ← Finset.card_pos, ← Finset.card_pos, card_newThreads_cons h,
    List.length_append, List.length_singleton]
  omega

theorem overflows_of_full {ls rs : List Event} {e : Event} (h : e.thread ∉ ls.map (·.thread))
    (hlen : ¬ ls.length < SmallVectorCapacity) : Overflows ls (e :: rs) := by
  rw [Overflows, ← Finset.card_pos, card_newThreads_cons h]
  omega

theorem foldl_addEvent_view (others : List ℕ) (es : List Event) : ∀ v : CowView,
    es.foldl (addEvent others) (view v) = view (es.foldl (CowView.updateIdx others) v) := by
  induction es with
  | nil => exact fun _ => rfl
  | cons e es ih => exact fun v => ih (v.updateIdx others e)

/-- Events stay events as long as there is room for their threads, and are a view of all of them
after that. -/
theorem foldl_addEvent_events (others : List ℕ) (rs : List Event) : ∀ ls : List Event,
    if Overflows ls rs then ∃ es, rs.foldl (addEvent others) (events ls) =
        view (promoteToView others es) ∧ ∀ t, eventsAt es t = max (eventsAt ls t) (eventsAt rs t)
    else ∃ es, rs.foldl (addEvent others) (events ls) = events es := by
  induction rs with
  | nil =>
    intro ls
    rw [if_neg fun h => by simpa [newThreads] using h.1]
    exact ⟨ls, rfl⟩
  | cons e rs ih =>
    intro ls
    rw [List.foldl_cons, addEvent]
    by_cases hany : ls.any (·.thread = e.thread) = true
    · -- the event of the thread is raised
      have hmem : e.thread ∈ ls.map (·.thread) := by simpa using hany
      have hrest := ih (ls.modify (ls.findIdx (·.thread = e.thread)) (Event.max · e))
      simp only [eventsAt_modify hany, max_assoc, ← eventsAt_cons, ← overflows_raise hmem] at hrest
      rw [if_pos hany]
      exact hrest
    have hmem : e.thread ∉ ls.map (·.thread) := by simpa using hany
    rw [if_neg hany]
    by_cases hlen : ls.length < SmallVectorCapacity
    · -- there is room for the event
      have hrest := ih (ls ++ [e])
      simp only [eventsAt_concat, max_assoc, ← eventsAt_cons, ← overflows_append hmem hlen] at hrest
      rw [if_pos hlen]
      exact hrest
    · -- the events become a view
      rw [if_neg hlen, if_pos (overflows_of_full hmem hlen), foldl_addEvent_view]
      refine ⟨ls ++ e :: rs, ?_, eventsAt_append ls (e :: rs)⟩
      rw [promoteToView, promoteToView, List.foldl_append, List.foldl_cons]

/-- The entry of the base of a summary that has become a view. -/
def baseOf : AdaptiveView → ℕ → ℕ
  | view v, t => v.vec.getD t 0
  | _, _ => 0

theorem baseOf_foldl_addEvent (others : List ℕ) (ls rs : List Event) (t : ℕ) :
    (rs.foldl (addEvent others) (events ls)).baseOf t = promoted others ls rs t := by
  have hcases := foldl_addEvent_events others rs ls
  rw [promoted]
  split at hcases
  · rename_i hover
    obtain ⟨es, hes, hat⟩ := hcases
    have hsame : ∀ t, eventsAt es t = eventsAt (ls ++ rs) t := fun t => by
      rw [hat, eventsAt_append]
    rw [hes, if_pos hover, ← CowView.written_congr hsame]
    exact (CowView.vec_foldl_updateIdx others CowView.empty es t).trans (Nat.zero_max _)
  · rename_i hover
    obtain ⟨es, hes⟩ := hcases
    rw [hes, if_neg hover]
    rfl

/-! ## What a join moves -/

/-- The cases of `moved`, where updates stand for events. -/
def movedStorage (others : List ℕ) : AdaptiveView → AdaptiveView → ℕ → ℕ
  | event l, events rs => promoted others rs [l]
  | event l, view r => r.written others [l]
  | events ls, event r => promoted others ls [r]
  | events ls, events rs => promoted others ls rs
  | events ls, view r => r.written others ls
  | view l, event r => l.written others [r]
  | view l, events rs => l.written others rs
  | view l, view r => l.writtenByUpdate others r
  | _, _ => fun _ => 0

/-- What `join` writes into the base of a view. -/
def moved (others : List ℕ) (lhs rhs : AdaptiveView) : ℕ → ℕ :=
  movedStorage others lhs.demote rhs.demote

theorem baseOf_demote (s : AdaptiveView) (t : ℕ) : s.demote.baseOf t = s.baseOf t := by
  cases s <;> rfl

/-- **The base after a join** has both bases and what is moved. -/
theorem baseOf_join (others : List ℕ) (lhs : AdaptiveView) {rhs : AdaptiveView} (h : rhs.Tidy)
    (t : ℕ) : (join others lhs rhs).baseOf t =
      max (max (lhs.baseOf t) (rhs.baseOf t)) (moved others lhs rhs t) := by
  have hstorage : ∀ l r : AdaptiveView, l.demote = l → r.demote = r → r.Tidy →
      (joinStorage others l r).baseOf t =
        max (max (l.baseOf t) (r.baseOf t)) (movedStorage others l r t) := by
    intro l r hl hr htidy
    -- the sides that are no view have nothing in a base
    have hevents : ∀ ls rs : List Event, (rs.foldl (addEvent others) (events ls)).baseOf t =
        max (max 0 0) (promoted others ls rs t) := fun ls rs =>
      (baseOf_foldl_addEvent others ls rs t).trans (Nat.zero_max _).symm
    have hleft : ∀ (v : CowView) (es : List Event),
        (es.foldl (CowView.updateIdx others) v).vec.getD t 0 =
          max (max (v.vec.getD t 0) 0) (v.written others es t) := fun v es => by
      rw [CowView.vec_foldl_updateIdx, Nat.max_zero]
    have hright : ∀ (v : CowView) (es : List Event),
        (es.foldl (CowView.updateIdx others) v).vec.getD t 0 =
          max (max 0 (v.vec.getD t 0)) (v.written others es t) := fun v es => by
      rw [CowView.vec_foldl_updateIdx, Nat.zero_max]
    cases r with
    | empty => cases l <;> simp [joinStorage, baseOf, movedStorage]
    | update pos v => cases hr
    | event r =>
      cases l with
      | empty => rfl
      | update pos v => cases hl
      | event l =>
        show (unify l r).baseOf t = 0
        rw [unify]
        split <;> rfl
      | events ls => exact hevents ls [r]
      | view l => exact hleft l [r]
    | events rs =>
      cases l with
      | empty => rfl
      | update pos v => cases hl
      | event l => exact hevents rs [l]
      | events ls => exact hevents ls rs
      | view l => exact hleft l rs
    | view r =>
      cases l with
      | empty => simp [joinStorage, baseOf, movedStorage]
      | update pos v => cases hl
      | event l => exact hright r [l]
      | events ls => exact hright r ls
      | view l => exact CowView.vec_update others l htidy t
  rw [join, hstorage _ _ (demote_demote lhs) (demote_demote rhs) (tidy_demote h), baseOf_demote,
    baseOf_demote, moved]

/-! ## Joins and containment -/

/-- Whether a summary is contained in a view is the pointwise order, of what they have seen and of
their bases. -/
theorem containedIn_iff_base {s : AdaptiveView} (hs : s.Tidy) (v : CowView) :
    s.containedIn v = true ↔
      (∀ t, s.seen t ≤ v.getMax t) ∧ ∀ t, s.baseOf t ≤ v.vec.getD t 0 := by
  rw [containedIn_iff hs]
  refine and_congr_right fun hcovers => ⟨fun h t => ?_, ?_⟩
  · cases s with
    | view w =>
      by_contra hlt
      refine h ⟨w, rfl, hcovers, fun heq => hlt ?_, t, not_le.1 hlt⟩
      rw [baseOf, CowView.vec, CowView.vec, heq]
    | event _ => exact Nat.zero_le _
    | events _ => exact Nat.zero_le _
    | update _ _ => exact Nat.zero_le _
    | empty => exact Nat.zero_le _
  · rintro h ⟨w, rfl, -, -, t, ht⟩
    exact absurd (h t) (not_le.2 ht)

variable {a b c : AdaptiveView}

/-- **A join is contained in a view exactly when both summaries are, and the base of the view has
what was moved.** -/
theorem join_containedIn_iff (others : List ℕ) (ha : a.Tidy) (hb : b.Tidy) (v : CowView) :
    (join others a b).containedIn v = true ↔
      (a.containedIn v = true ∧ b.containedIn v = true) ∧
        ∀ t, moved others a b t ≤ v.vec.getD t 0 := by
  rw [containedIn_iff_base (tidy_join others ha hb), containedIn_iff_base ha,
    containedIn_iff_base hb]
  simp only [seen_join, baseOf_join others a hb, max_le_iff, forall_and]
  tauto

/-- A view that has both summaries has in its base what their join moves. -/
def Kept (others : List ℕ) (a b : AdaptiveView) (v : CowView) : Prop :=
  a.containedIn v = true → b.containedIn v = true → ∀ t, moved others a b t ≤ v.vec.getD t 0

/-- Nothing is lost by a join exactly when the base of the view has what is moved. -/
theorem join_containedIn_iff_kept (others : List ℕ) (ha : a.Tidy) (hb : b.Tidy) (v : CowView) :
    ((join others a b).containedIn v = true ↔ a.containedIn v = true ∧ b.containedIn v = true) ↔
      Kept others a b v := by
  rw [join_containedIn_iff others ha hb, and_iff_left_iff_imp, and_imp, Kept]

/-- A summary moves nothing when it is joined with a copy of itself, which has the same base. -/
theorem moved_self (others : List ℕ) (h : ∀ v, a = view v → v.unique others = false) (t : ℕ) :
    moved others a a t = 0 := by
  cases a with
  | empty => rfl
  | event e => rfl
  | update e v => rfl
  | events es =>
    have hno : ¬ Overflows es es := fun h => by
      simpa [newThreads] using h.1
    exact if_neg hno
  | view v =>
    have hu : ¬ v.unique others = true := by
      rw [h v rfl]
      exact Bool.false_ne_true
    have hone : ¬ (v.TwoDiffs v ∧
        max (v.getMax v.diff.thread) (v.vec.getD v.diff.thread 0) < v.diff.index) :=
      fun h => h.1.2.2 rfl
    show v.writtenByUpdate others v t = 0
    rw [CowView.writtenByUpdate, if_neg hu, if_pos (.inr (.inr rfl)), if_neg hone]

/-- Summaries that are built from events, lists of events, views and updates by joins. -/
inductive Built : AdaptiveView → Prop
  | empty : Built empty
  | event (e : Event) : Built (event e)
  | events (es : List Event) : Built (events es)
  | view {v : CowView} (h : v.vec.Trimmed) : Built (view v)
  | update (pos : Event) (v : CowView) : Built (update pos v)
  | join (others : List ℕ) {a b : AdaptiveView} (ha : Built a) (hb : Built b) :
    Built (join others a b)

theorem Built.tidy (h : Built a) : a.Tidy := by
  induction h with
  | empty => trivial
  | event e => trivial
  | events es => trivial
  | view h => exact h
  | update pos v => trivial
  | join others ha hb iha ihb => exact tidy_join others iha ihb

/-! ### The laws of joins -/

theorem join_comm_of_kept {others others' : List ℕ} (ha : a.Tidy) (hb : b.Tidy) {v : CowView}
    (h : Kept others a b v) (h' : Kept others' b a v) :
    (join others a b).containedIn v = true ↔ (join others' b a).containedIn v = true := by
  rw [(join_containedIn_iff_kept others ha hb v).2 h,
    (join_containedIn_iff_kept others' hb ha v).2 h']
  exact and_comm

theorem join_assoc_of_kept {o₁ o₂ o₃ o₄ : List ℕ} (ha : a.Tidy) (hb : b.Tidy) (hc : c.Tidy)
    {v : CowView} (h₁ : Kept o₁ a b v) (h₂ : Kept o₂ (join o₁ a b) c v) (h₃ : Kept o₃ b c v)
    (h₄ : Kept o₄ a (join o₃ b c) v) :
    (join o₂ (join o₁ a b) c).containedIn v = true ↔
      (join o₄ a (join o₃ b c)).containedIn v = true := by
  rw [(join_containedIn_iff_kept o₂ (tidy_join o₁ ha hb) hc v).2 h₂,
    (join_containedIn_iff_kept o₁ ha hb v).2 h₁,
    (join_containedIn_iff_kept o₄ ha (tidy_join o₃ hb hc) v).2 h₄,
    (join_containedIn_iff_kept o₃ hb hc v).2 h₃]
  exact and_assoc

/-- A join of a summary and a copy of it is always the summary. -/
theorem join_self_containedIn {others : List ℕ} (ha : a.Tidy)
    (h : ∀ w, a = view w → w.unique others = false) (v : CowView) :
    (join others a a).containedIn v = true ↔ a.containedIn v = true := by
  rw [join_containedIn_iff others ha ha, and_self, and_iff_left_iff_imp]
  intro _ t
  rw [moved_self others h]
  exact Nat.zero_le _

/-- **A join is the union of the summaries exactly when a view that has both of them has in its base
what the join moves.**  Joins that are unions are commutative and associative.  That they are
idempotent needs nothing: the copy that a summary is joined with has the same base. -/
theorem join_union_exact (ha : Built a) (hb : Built b) (hc : Built c) (v : CowView) :
    (∀ others, ((join others a b).containedIn v = true ↔
        a.containedIn v = true ∧ b.containedIn v = true) ↔ Kept others a b v) ∧
      (∀ others others', Kept others a b v → Kept others' b a v →
        ((join others a b).containedIn v = true ↔ (join others' b a).containedIn v = true)) ∧
      (∀ o₁ o₂ o₃ o₄, Kept o₁ a b v → Kept o₂ (join o₁ a b) c v → Kept o₃ b c v →
        Kept o₄ a (join o₃ b c) v → ((join o₂ (join o₁ a b) c).containedIn v = true ↔
          (join o₄ a (join o₃ b c)).containedIn v = true)) ∧
      ∀ others, (∀ w, a = view w → w.unique others = false) →
        ((join others a a).containedIn v = true ↔ a.containedIn v = true) := by
  refine ⟨fun others => ?_, fun _ _ => ?_, fun _ _ _ _ => ?_, fun _ h => ?_⟩
  · exact join_containedIn_iff_kept others ha.tidy hb.tidy v
  · exact join_comm_of_kept ha.tidy hb.tidy
  · exact join_assoc_of_kept ha.tidy hb.tidy hc.tidy
  · exact join_self_containedIn ha.tidy h v

def eightEvents : List Event := (List.range 8).map fun i => ⟨i + 1, 1⟩

def ninthEvent : Event := ⟨9, 1⟩

/-- A view with eight events in a base that it shares, and the ninth one in its diff. -/
def eightAndNinth : CowView := (promoteToView [] eightEvents).updateIdx [1] ninthEvent

/-- The view has the eight events and the ninth one, but not their join, which has the ninth event
in its base. -/
theorem eightAndNinth_join_not_union :
    Built (events eightEvents) ∧ Built (event ninthEvent) ∧
      (events eightEvents).containedIn eightAndNinth = true ∧
      (event ninthEvent).containedIn eightAndNinth = true ∧
      (join [1] (events eightEvents) (event ninthEvent)).containedIn eightAndNinth = false :=
  ⟨.events _, .event _, by decide, by decide, by decide⟩

theorem eightAndNinth_join_union_exact :
    (((join [1] (events eightEvents) (event ninthEvent)).containedIn eightAndNinth = true ↔
        (events eightEvents).containedIn eightAndNinth = true ∧
          (event ninthEvent).containedIn eightAndNinth = true) ↔
      Kept [1] (events eightEvents) (event ninthEvent) eightAndNinth) ∧
    ((join [1] (view eightAndNinth) (view eightAndNinth)).containedIn eightAndNinth = true ↔
      (view eightAndNinth).containedIn eightAndNinth = true) := by
  have htrimmed : eightAndNinth.vec.Trimmed :=
    CowView.trimmed_updateIdx _ (trimmed_foldl_updateIdx _ _ CowView.trimmed_empty) _
  refine ⟨(join_union_exact (.events _) (.event _) .empty eightAndNinth).1 [1], ?_⟩
  refine (join_union_exact (.view htrimmed) .empty .empty eightAndNinth).2.2.2 [1] fun w hw => ?_
  rw [← view.inj hw]
  decide

end AdaptiveView

end GenMC
