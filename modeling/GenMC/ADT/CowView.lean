import GenMC.ADT.ViewOrder

/-!
# Views as values

The views that are stored in a container are copied, changed and dropped with it.  A view is a value
here: the address of its base together with the vector there, and its diff.  Two views share a base
if they have the same address.  A base is only changed in place when no other view has it, so a
vector never changes under another view; the operations are given the addresses that the other views
have, from which they see whether a base is shared and which addresses are free.

This is the class `View` of the source once more, next to the population of views in `Memory`, where
a change to one view goes through the memory of all.

* `CowView.getMax_updateIdx` and `CowView.getMax_update`: the updates are pointwise maxima, whatever
  is shared.
* `CowView.containsView_iff_of_trimmed`: what `contains` answers, and
  `CowView.covers_of_containsView` that it is right when it says yes.
-/

set_option autoImplicit false

namespace GenMC

open SharedView SharedView.Memory

/-- A view: the address and the vector of its base, and its diff. -/
structure CowView where
  base : Option (ℕ × ViewBase)
  diff : Event
deriving DecidableEq

namespace CowView

/-- A new view. -/
def empty : CowView := ⟨none, Event.getInit⟩

/-- The vector of the base. -/
def vec (v : CowView) : ViewBase := (v.base.map (·.2)).getD []

/-- The address of the base. -/
def address (v : CowView) : Option ℕ := v.base.map (·.1)

def getMax (v : CowView) (t : ℕ) : ℕ :=
  let baseMax := if v.base.isSome then ViewBase.getMax v.vec t else 0
  if ¬ v.diff.isInitializer ∧ v.diff.thread = t then max baseMax v.diff.index else baseMax

def contains (v : CowView) (e : Event) : Bool := e.index ≤ v.getMax e.thread

/-- `View::size`. -/
def size (v : CowView) : ℕ :=
  max v.vec.length (if v.diff.isInitializer then 0 else v.diff.thread + 1)

/-- `View::empty`. -/
def isEmpty (v : CowView) : Bool := v.diff.index = 0 && v.vec.isEmpty

/-- `View::operator==`. -/
def beq (v w : CowView) : Bool :=
  (v.base = w.base ∧ v.diff = w.diff) ||
    (List.range (max v.size w.size)).all fun i => v.getMax i = w.getMax i

/-- Whether no view that has one of the other addresses shares the base. -/
def unique (others : List ℕ) (v : CowView) : Bool := v.address.any fun a => a ∉ others

/-- An address that no view has. -/
def freshAddress (others : List ℕ) (v : CowView) : ℕ :=
  (v.address.toList ++ others).foldr max 0 + 1

def modifyBase (v : CowView) (f : ViewBase → ViewBase) : CowView :=
  { v with base := v.base.map fun b => (b.1, f b.2) }

/-- `View::hydrate`. -/
def hydrate (others : List ℕ) (v : CowView) : CowView :=
  if v.diff.isInitializer then { v with base := some (freshAddress others v, v.vec) }
  else ⟨some (freshAddress others v, ViewBase.updateIdx v.vec v.diff), Event.getInit⟩

/-- `View::updateIdx`. -/
def updateIdx (others : List ℕ) (v : CowView) (e : Event) : CowView :=
  if v.contains e then v
  else if v.unique others then v.modifyBase (ViewBase.updateIdx · e)
  else if v.diff.isInitializer then { v with diff := e }
  else if e.thread = v.diff.thread then { v with diff := Event.max v.diff e }
  else (v.hydrate others).modifyBase (ViewBase.updateIdx · e)

/-- `View::contains(const View &)`, for two different objects. -/
def containsView (v w : CowView) : Bool :=
  if ¬ w.diff.isInitializer ∧ w.diff.index > v.getMax w.diff.thread then false
  else if w.base = none ∨ v.base = w.base then true
  else if v.base = none then w.vec.isEmpty
  else ViewBase.containsView v.vec w.vec

/-- The first half of `merge`: the base of another view. -/
def mergeBase (v w : CowView) : CowView :=
  if w.base.isSome ∧ v.base ≠ w.base then v.modifyBase (ViewBase.update · w.vec) else v

/-- The helper of `View::update`. -/
def merge (v w : CowView) : CowView :=
  if w.diff.isInitializer then v.mergeBase w
  else (v.mergeBase w).modifyBase (ViewBase.updateIdx · w.diff)

/-- The end of `View::update`. -/
def mergeSlow (others : List ℕ) (v w : CowView) : CowView :=
  if v.containsView w then v else (v.hydrate others).merge w

/-- The base of another view, for a view without one. -/
def adoptBase (v w : CowView) : CowView := if v.base = none then { v with base := w.base } else v

/-- The part of `View::update` for bases that are compatible. -/
def updateDiff (others : List ℕ) (v w : CowView) : CowView :=
  if v.diff.isInitializer then
    if v.base.isSome ∧ ¬ ViewBase.contains v.vec w.diff then { v with diff := w.diff } else v
  else if w.diff.isInitializer then
    if v.base.isSome ∧ ViewBase.contains v.vec v.diff then { v with diff := Event.getInit } else v
  else if v.diff.thread = w.diff.thread then { v with diff := Event.max v.diff w.diff }
  else v.mergeSlow others w

/-- `View::update`. -/
def update (others : List ℕ) (v w : CowView) : CowView :=
  if v.unique others then v.merge w
  else if v.base = none ∧ v.diff.isInitializer then w
  else if v.base = none ∨ w.base = none ∨ v.base = w.base then
    (v.adoptBase w).updateDiff others w
  else v.mergeSlow others w

/-- `View::setMax`. -/
def setMax (others : List ℕ) (v : CowView) (e : Event) : CowView :=
  if v.unique others then v.modifyBase (ViewBase.setMax · e)
  else if (v.base = none ∨ ¬ ViewBase.contains v.vec e) ∧
      (v.diff.isInitializer ∨ e.thread = v.diff.thread) then
    { v with diff := if e.index = 0 then Event.getInit else e }
  else (v.hydrate others).modifyBase (ViewBase.setMax · e)

/-! ## The value of a view -/

variable {v w : CowView}

theorem vec_of_base_none (h : v.base = none) : v.vec = [] := by
  rw [vec, h]
  rfl

/-- A view is the maximum of its vector and its diff. -/
theorem getMax_eq (v : CowView) (t : ℕ) :
    v.getMax t = max (v.vec.getD t 0) (eventAt v.diff t) := by
  have hbase : (if v.base.isSome then ViewBase.getMax v.vec t else 0) = v.vec.getD t 0 := by
    cases hb : v.base with
    | none =>
      rw [vec_of_base_none hb]
      rfl
    | some a => exact ViewBase.getMax_eq _ t
  rw [getMax, hbase, eventAt]
  by_cases ht : v.diff.thread = t
  · by_cases hd : v.diff.isInitializer = true
    · rw [if_neg (fun hc => hc.1 hd), if_pos ht, Event.isInitializer_iff.1 hd]
      exact (Nat.max_zero _).symm
    · rw [if_pos ⟨hd, ht⟩, if_pos ht]
  · rw [if_neg (fun hc => ht hc.2), if_neg ht, Nat.max_zero]

theorem vec_le_getMax (v : CowView) (t : ℕ) : v.vec.getD t 0 ≤ v.getMax t := by
  rw [getMax_eq]
  exact le_max_left _ _

@[simp] theorem getMax_empty (t : ℕ) : empty.getMax t = 0 := by
  rw [getMax_eq, empty, eventAt_init]
  rfl

/-- An event is in a view if the view is at least what the event says. -/
theorem contains_iff {e : Event} : v.contains e = true ↔ ∀ t, eventAt e t ≤ v.getMax t := by
  rw [contains, decide_eq_true_eq]
  refine ⟨fun h t => ?_, fun h => ?_⟩
  · rw [eventAt]
    split
    · rename_i ht
      rw [← ht]
      exact h
    · exact Nat.zero_le _
  · have := h e.thread
    rwa [eventAt, if_pos rfl] at this

theorem vec_modifyBase (h : v.base.isSome) (f : ViewBase → ViewBase) :
    (v.modifyBase f).vec = f v.vec := by
  obtain ⟨b, hb⟩ := Option.isSome_iff_exists.1 h
  rw [modifyBase, vec, vec, hb]
  rfl

theorem isSome_modifyBase (f : ViewBase → ViewBase) :
    (v.modifyBase f).base.isSome = v.base.isSome := by
  rw [modifyBase, Option.isSome_map]

theorem isSome_of_unique {others : List ℕ} (h : v.unique others = true) : v.base.isSome := by
  rw [unique, address] at h
  cases hb : v.base with
  | none =>
    rw [hb] at h
    exact Bool.noConfusion h
  | some b => rfl

theorem getMax_modifyBase_updateIdx (h : v.base.isSome) (e : Event) (t : ℕ) :
    (v.modifyBase (ViewBase.updateIdx · e)).getMax t = max (v.getMax t) (eventAt e t) := by
  rw [getMax_eq, vec_modifyBase h, getD_updateIdx_eq, getMax_eq, modifyBase]
  exact max_right_comm _ _ _

theorem isSome_hydrate (others : List ℕ) (v : CowView) : (v.hydrate others).base.isSome := by
  rw [hydrate]
  split <;> rfl

theorem getMax_hydrate (others : List ℕ) (v : CowView) (t : ℕ) :
    (v.hydrate others).getMax t = v.getMax t := by
  rw [hydrate]
  split
  · rw [getMax_eq, getMax_eq]
    rfl
  · rw [getMax_eq, getMax_eq, eventAt_init, Nat.max_zero]
    exact getD_updateIdx_eq _ _ _

/-- **`updateIdx` is the maximum with one event.** -/
theorem getMax_updateIdx (others : List ℕ) (v : CowView) (e : Event) (t : ℕ) :
    (v.updateIdx others e).getMax t = max (v.getMax t) (eventAt e t) := by
  rw [updateIdx]
  split_ifs with hc hu hd ht
  · exact (max_eq_left (contains_iff.1 hc t)).symm
  · exact getMax_modifyBase_updateIdx (isSome_of_unique hu) e t
  · rw [getMax_eq, getMax_eq, Event.isInitializer_iff.1 hd, eventAt_init, Nat.max_zero]
    rfl
  · rw [getMax_eq, getMax_eq, eventAt_max ht.symm, max_assoc]
    rfl
  · rw [getMax_modifyBase_updateIdx (isSome_hydrate others v), getMax_hydrate]

theorem isSome_mergeBase (v w : CowView) : (v.mergeBase w).base.isSome = v.base.isSome := by
  rw [mergeBase]
  split
  · exact isSome_modifyBase _
  · rfl

theorem diff_mergeBase (v w : CowView) : (v.mergeBase w).diff = v.diff := by
  rw [mergeBase]
  split <;> rfl

theorem vec_mergeBase (h : v.base.isSome) (w : CowView) (t : ℕ) :
    (v.mergeBase w).vec.getD t 0 = max (v.vec.getD t 0) (w.vec.getD t 0) := by
  rw [mergeBase]
  split
  · rw [vec_modifyBase h, ViewBase.getD_update]
  · rename_i hsame
    refine (max_eq_left ?_).symm
    by_cases hw : w.base.isSome = true
    · have heq : v.base = w.base := by
        by_contra hne
        exact hsame ⟨hw, hne⟩
      rw [vec, vec, heq]
    · rw [vec_of_base_none (Option.not_isSome_iff_eq_none.1 hw)]
      exact Nat.zero_le _

theorem getMax_mergeBase (h : v.base.isSome) (w : CowView) (t : ℕ) :
    (v.mergeBase w).getMax t = max (v.getMax t) (w.vec.getD t 0) := by
  rw [getMax_eq, vec_mergeBase h, diff_mergeBase, getMax_eq]
  exact max_right_comm _ _ _

theorem getMax_merge (h : v.base.isSome) (w : CowView) (t : ℕ) :
    (v.merge w).getMax t = max (v.getMax t) (w.getMax t) := by
  rw [merge]
  split
  · rename_i hd
    rw [getMax_mergeBase h, getMax_eq w, Event.isInitializer_iff.1 hd, eventAt_init, Nat.max_zero]
  · rw [getMax_modifyBase_updateIdx (by rw [isSome_mergeBase]; exact h), getMax_mergeBase h,
      max_assoc, ← getMax_eq]

/-- What `containsView` answers, without its fast paths. -/
theorem containsView_iff : v.containsView w = true ↔
    w.diff.index ≤ v.getMax w.diff.thread ∧
      (v.base = w.base ∨ (v.base = none → w.vec = []) ∧
        (v.base ≠ none → w.base ≠ none → ViewBase.containsView v.vec w.vec = true)) := by
  have hguard : (¬ w.diff.isInitializer = true ∧ w.diff.index > v.getMax w.diff.thread) ↔
      ¬ w.diff.index ≤ v.getMax w.diff.thread := by
    rw [not_le]
    refine ⟨And.right, fun hlt => ⟨fun hinit => ?_, hlt⟩⟩
    rw [Event.isInitializer_iff.1 hinit] at hlt
    cases hlt
  rw [containsView, if_congr hguard rfl rfl]
  by_cases hd : w.diff.index ≤ v.getMax w.diff.thread
  · rw [if_neg (not_not.2 hd), and_iff_right hd]
    by_cases hb : v.base = w.base
    · simp [hb]
    · rw [or_iff_right hb]
      by_cases hw : w.base = none
      · simp [hw, vec_of_base_none hw]
      · rw [if_neg (not_or.2 ⟨hw, hb⟩)]
        by_cases hv : v.base = none
        · simp [hv, hw]
        · simp [hv, hw]
  · rw [if_pos hd]
    simp [hd]

/-- **What `containsView` answers is right when it says yes.** -/
theorem covers_of_containsView (h : v.containsView w = true) (t : ℕ) :
    w.getMax t ≤ v.getMax t := by
  obtain ⟨hdiff, hbase⟩ := containsView_iff.1 h
  have hd : eventAt w.diff t ≤ v.getMax t := contains_iff.1 (decide_eq_true hdiff) t
  have hb : w.vec.getD t 0 ≤ v.vec.getD t 0 := by
    rcases hbase with heq | ⟨hnone, hsome⟩
    · have hvec : w.vec = v.vec := by rw [vec, vec, heq]
      rw [hvec]
    · by_cases hv : v.base = none
      · rw [hnone hv]
        exact Nat.zero_le _
      · by_cases hw : w.base = none
        · rw [vec_of_base_none hw]
          exact Nat.zero_le _
        · exact ViewBase.getD_le_of_containsView (hsome hv hw) t
  rw [getMax_eq]
  exact max_le (hb.trans (vec_le_getMax v t)) hd

/-- Views whose vectors do not end with a zero are compared diff with view and base with base. -/
theorem containsView_iff_of_trimmed (hw : w.vec.Trimmed) : v.containsView w = true ↔
    w.diff.index ≤ v.getMax w.diff.thread ∧
      (v.base = w.base ∨ ∀ t, w.vec.getD t 0 ≤ v.vec.getD t 0) := by
  rw [containsView_iff]
  refine and_congr_right fun _ => or_congr_right ?_
  by_cases hv : v.base = none
  · rw [vec_of_base_none hv]
    have hnil : w.vec = [] ↔ ∀ t, w.vec.getD t 0 ≤ ([] : ViewBase).getD t 0 := by
      rw [← ViewBase.containsView_iff hw, ViewBase.containsView]
      cases w.vec <;> simp
    rw [← hnil]
    simp [hv]
  · by_cases hwb : w.base = none
    · simp [hv, hwb, vec_of_base_none hwb]
    · simp [hv, hwb, ViewBase.containsView_iff hw]

theorem getMax_mergeSlow (others : List ℕ) (v w : CowView) (t : ℕ) :
    (v.mergeSlow others w).getMax t = max (v.getMax t) (w.getMax t) := by
  rw [mergeSlow]
  split
  · rename_i h
    exact (max_eq_left (covers_of_containsView h t)).symm
  · rw [getMax_merge (isSome_hydrate others v), getMax_hydrate]

/-- Views of which one has no base, or with the same base. -/
theorem vec_adoptBase (h : v.base = none ∨ w.base = none ∨ v.base = w.base) (t : ℕ) :
    (v.adoptBase w).vec.getD t 0 = max (v.vec.getD t 0) (w.vec.getD t 0) := by
  rw [adoptBase]
  by_cases hv : v.base = none
  · rw [if_pos hv, vec_of_base_none hv]
    exact (Nat.zero_max _).symm
  · rw [if_neg hv]
    refine (max_eq_left ?_).symm
    rcases h with h | h | h
    · exact absurd h hv
    · rw [vec_of_base_none h]
      exact Nat.zero_le _
    · rw [vec, vec, h]

theorem getMax_adoptBase (h : v.base = none ∨ w.base = none ∨ v.base = w.base) :
    (v.adoptBase w).diff = v.diff ∧ (∀ t, w.vec.getD t 0 ≤ (v.adoptBase w).vec.getD t 0) ∧
      ∀ t, (v.adoptBase w).getMax t = max (v.getMax t) (w.vec.getD t 0) := by
  have hdiff : (v.adoptBase w).diff = v.diff := by
    rw [adoptBase]
    split <;> rfl
  refine ⟨hdiff, fun t => ?_, fun t => ?_⟩
  · rw [vec_adoptBase h]
    exact le_max_right _ _
  · rw [getMax_eq, vec_adoptBase h, hdiff, getMax_eq]
    exact max_right_comm _ _ _

/-- A view whose base covers the other base only has to look at the diffs. -/
theorem getMax_updateDiff (others : List ℕ) (hvec : ∀ t, w.vec.getD t 0 ≤ v.vec.getD t 0)
    (hne : v.base = none → ¬ v.diff.isInitializer = true) (t : ℕ) :
    (v.updateDiff others w).getMax t = max (v.getMax t) (eventAt w.diff t) := by
  rw [updateDiff]
  split_ifs with h1 h2 h3 h4 h5
  · -- the other diff fits into this view
    rw [getMax_eq, getMax_eq v, Event.isInitializer_iff.1 h1, eventAt_init, Nat.max_zero]
    rfl
  · -- the other diff is in the base
    have hsome : v.base.isSome = true := by
      by_contra hnone
      exact hne (Option.not_isSome_iff_eq_none.1 hnone) h1
    have hc : ViewBase.contains v.vec w.diff = true := by
      by_contra hc
      exact h2 ⟨hsome, hc⟩
    exact (max_eq_left ((eventAt_le_of_contains hc t).trans (vec_le_getMax v t))).symm
  · -- this diff has come into the base
    rw [getMax_eq, getMax_eq v, Event.isInitializer_iff.1 h3, eventAt_init, Nat.max_zero,
      Nat.max_zero, max_eq_left (eventAt_le_of_contains h4.2 t)]
    rfl
  · rw [Event.isInitializer_iff.1 h3, eventAt_init, Nat.max_zero]
  · rw [getMax_eq, getMax_eq v, max_assoc, ← eventAt_max h5]
    rfl
  · have hle : w.vec.getD t 0 ≤ v.getMax t := (hvec t).trans (vec_le_getMax v t)
    rw [getMax_mergeSlow, getMax_eq w, ← max_assoc, max_eq_left hle]

/-- **`update` is the pointwise maximum.** -/
theorem getMax_update (others : List ℕ) (v w : CowView) (t : ℕ) :
    (v.update others w).getMax t = max (v.getMax t) (w.getMax t) := by
  rw [update]
  split_ifs with hu he hb
  · exact getMax_merge (isSome_of_unique hu) w t
  · have hzero : v.getMax t = 0 := by
      rw [getMax_eq, vec_of_base_none he.1, Event.isInitializer_iff.1 he.2, eventAt_init]
      rfl
    rw [hzero, Nat.zero_max]
  · obtain ⟨hdiff, hvec, hadopt⟩ := getMax_adoptBase hb
    rw [getMax_updateDiff others hvec ?_, hadopt, getMax_eq w, max_assoc]
    intro hnone hinit
    rw [hdiff] at hinit
    refine he ⟨?_, hinit⟩
    by_contra hv
    rw [adoptBase, if_neg hv] at hnone
    exact hv hnone
  · exact getMax_mergeSlow others v w t

/-- Beyond its size a view has seen nothing. -/
theorem getMax_eq_zero_of_size_le {t : ℕ} (h : v.size ≤ t) : v.getMax t = 0 := by
  rw [size] at h
  have hvec : v.vec.getD t 0 = 0 := List.getD_eq_default _ _ ((le_max_left _ _).trans h)
  have hdiff : eventAt v.diff t = 0 := by
    by_cases hd : v.diff.isInitializer = true
    · rw [Event.isInitializer_iff.1 hd, eventAt_init]
    · have := (le_max_right _ _).trans h
      rw [if_neg hd] at this
      exact if_neg (by omega)
  rw [getMax_eq, hvec, hdiff]
  rfl

/-- Views that compare equal have the same value. -/
theorem getMax_eq_of_beq (h : v.beq w = true) (t : ℕ) : v.getMax t = w.getMax t := by
  rw [beq, Bool.or_eq_true] at h
  rcases h with h | h
  · rw [decide_eq_true_eq] at h
    have : v = w := by
      cases v
      cases w
      simpa using h
    rw [this]
  · rw [List.all_eq_true] at h
    by_cases ht : t < max v.size w.size
    · simpa using h t (List.mem_range.2 ht)
    · have := not_lt.1 ht
      rw [getMax_eq_zero_of_size_le ((le_max_left _ _).trans this),
        getMax_eq_zero_of_size_le ((le_max_right _ _).trans this)]

theorem beq_iff : v.beq w = true ↔ v.getMax = w.getMax := by
  refine ⟨fun h => funext (getMax_eq_of_beq h), fun h => ?_⟩
  rw [beq, h]
  simp

/-! ## A view that shares nothing -/

/-- A view whose base, if it has one, is its own and has taken up the diff. -/
def Own (v : CowView) : Prop := v.base.isSome → v.diff = Event.getInit

theorem own_empty : empty.Own := fun h => absurd h Bool.false_ne_true

theorem unique_nil (v : CowView) : v.unique [] = v.base.isSome := by
  rw [unique, address]
  cases v.base <;> rfl

/-- What `setMax` makes of a base of its own. -/
theorem setMax_base (h : v.base.isSome) (hd : v.diff = Event.getInit) (e : Event) :
    (v.modifyBase (ViewBase.setMax · e)).Own ∧
      ∀ t, (v.modifyBase (ViewBase.setMax · e)).getMax t =
        if t = e.thread then e.index else v.getMax t := by
  have hdiff : (v.modifyBase (ViewBase.setMax · e)).diff = Event.getInit := hd
  refine ⟨fun _ => hdiff, fun t => ?_⟩
  rw [getMax_eq, hdiff, vec_modifyBase h, ViewBase.getD_assign, getMax_eq, hd, eventAt_init,
    Nat.max_zero, Nat.max_zero]

/-- **`setMax` assigns one entry** of a view that shares nothing. -/
theorem Own.setMax (h : v.Own) (e : Event) :
    (v.setMax [] e).Own ∧
      ∀ t, (v.setMax [] e).getMax t = if t = e.thread then e.index else v.getMax t := by
  rw [CowView.setMax, unique_nil]
  by_cases hb : v.base.isSome = true
  · rw [if_pos hb]
    exact setMax_base hb (h hb) e
  · have hnone : v.base = none := Option.not_isSome_iff_eq_none.1 hb
    rw [if_neg hb]
    split
    · rename_i hcase
      refine ⟨fun h => absurd h hb, fun t => ?_⟩
      rw [getMax_eq, getMax_eq]
      simp only [vec, hnone, Option.map_none, Option.getD_none, List.getD_nil, Nat.zero_max]
      by_cases he : e.index = 0
      · rw [if_pos he, eventAt_init]
        split
        · exact he.symm
        · rename_i ht
          rcases hcase.2 with hinit | hthread
          · rw [Event.isInitializer_iff.1 hinit, eventAt_init]
          · exact (if_neg fun h => ht (h.symm.trans hthread.symm)).symm
      · rw [if_neg he, eventAt]
        split
        · rename_i ht
          rw [if_pos ht.symm]
        · rename_i ht
          rw [if_neg fun h => ht h.symm]
          rcases hcase.2 with hinit | hthread
          · rw [Event.isInitializer_iff.1 hinit, eventAt_init]
          · exact (if_neg fun h => ht (hthread.trans h)).symm
    · have hdiff : (v.hydrate []).diff = Event.getInit := by
        rw [hydrate]
        split
        · rename_i hinit
          exact Event.isInitializer_iff.1 hinit
        · rfl
      obtain ⟨hown, hmax⟩ := setMax_base (isSome_hydrate [] v) hdiff e
      refine ⟨hown, fun t => ?_⟩
      rw [hmax, getMax_hydrate]

theorem length_trim_le (b : ViewBase) : b.trim.length ≤ b.length := by
  rw [ViewBase.trim, List.length_reverse]
  exact (List.length_dropWhile_le _ _).trans (List.length_reverse ..).le

theorem length_setMax_le (b : ViewBase) (e : Event) :
    (ViewBase.setMax b e).length ≤ max b.length (e.thread + 1) := by
  rw [ViewBase.setMax]
  split
  · exact le_max_left _ _
  · have hset : ((if b.length ≤ e.thread then b.resize (e.thread + 1) else b).set e.thread
        e.index).length ≤ max b.length (e.thread + 1) := by
      rw [List.length_set]
      split
      · rw [ViewBase.length_resize]
      · exact le_max_left _ _
    generalize (if b.length ≤ e.thread then b.resize (e.thread + 1) else b).set e.thread e.index = u
      at hset
    simp only
    split
    · exact (length_trim_le u).trans hset
    · exact hset

theorem size_modifyBase_le (h : v.base.isSome) (hd : v.diff = Event.getInit) (e : Event) :
    (v.modifyBase (ViewBase.setMax · e)).size ≤ max v.vec.length (e.thread + 1) := by
  have hdiff : (v.modifyBase (ViewBase.setMax · e)).diff = Event.getInit := hd
  rw [size, hdiff, vec_modifyBase h]
  exact max_le (length_setMax_le _ _) (Nat.zero_le _)

/-- A view grows to the thread of the entry at most. -/
theorem Own.size_setMax_le (h : v.Own) (e : Event) :
    (v.setMax [] e).size ≤ max v.size (e.thread + 1) := by
  have hvec : v.vec.length ≤ v.size := le_max_left _ _
  rw [CowView.setMax, unique_nil]
  by_cases hb : v.base.isSome = true
  · rw [if_pos hb]
    exact (size_modifyBase_le hb (h hb) e).trans (max_le_max hvec le_rfl)
  · have hnone : v.base = none := Option.not_isSome_iff_eq_none.1 hb
    rw [if_neg hb]
    split
    · rename_i hcase
      rw [size]
      simp only [vec, hnone, Option.map_none, Option.getD_none, List.length_nil, Nat.zero_max]
      by_cases he : e.index = 0
      · rw [if_pos he]
        exact Nat.zero_le _
      · rw [if_neg he]
        split
        · exact Nat.zero_le _
        · exact le_max_right _ _
    · rename_i hcase
      have hd : ¬ v.diff.isInitializer = true := fun hd => hcase ⟨.inl hnone, .inl hd⟩
      have hsize : v.size = v.diff.thread + 1 := by
        rw [size, vec_of_base_none hnone, if_neg hd]
        exact Nat.zero_max _
      have hhydrate : (v.hydrate []).diff = Event.getInit ∧
          (v.hydrate []).vec.length ≤ v.size := by
        rw [hydrate, if_neg hd]
        refine ⟨rfl, ?_⟩
        have hlen : (ViewBase.updateIdx v.vec v.diff).length ≤ max v.vec.length
            (v.diff.thread + 1) := by
          rw [ViewBase.updateIdx]
          split
          · exact length_setMax_le _ _
          · exact le_max_left _ _
        exact hlen.trans (max_le hvec hsize.ge)
      exact (size_modifyBase_le (isSome_hydrate [] v) hhydrate.1 e).trans
        (max_le_max hhydrate.2 le_rfl)

/-! ## Zeros at the end -/

theorem trimmed_empty : empty.vec.Trimmed := ViewBase.trimmed_nil

theorem trimmed_modifyBase {f : ViewBase → ViewBase} (hf : v.vec.Trimmed → (f v.vec).Trimmed)
    (h : v.vec.Trimmed) : (v.modifyBase f).vec.Trimmed := by
  cases hb : v.base with
  | none =>
    rw [modifyBase, vec, hb]
    exact ViewBase.trimmed_nil
  | some b =>
    rw [vec_modifyBase (by rw [hb]; rfl)]
    exact hf h

theorem trimmed_hydrate (others : List ℕ) (h : v.vec.Trimmed) :
    (v.hydrate others).vec.Trimmed := by
  rw [hydrate]
  split
  · exact h
  · exact h.updateIdx v.diff

theorem trimmed_updateIdx (others : List ℕ) (h : v.vec.Trimmed) (e : Event) :
    (v.updateIdx others e).vec.Trimmed := by
  rw [updateIdx]
  split_ifs
  · exact h
  · exact trimmed_modifyBase (fun h => h.updateIdx e) h
  · exact h
  · exact h
  · exact trimmed_modifyBase (fun h => h.updateIdx e) (trimmed_hydrate others h)

theorem trimmed_merge (h : v.vec.Trimmed) (hw : w.vec.Trimmed) : (v.merge w).vec.Trimmed := by
  have hbase : (v.mergeBase w).vec.Trimmed := by
    rw [mergeBase]
    split
    · exact trimmed_modifyBase (fun h => h.update hw) h
    · exact h
  rw [merge]
  split
  · exact hbase
  · exact trimmed_modifyBase (fun h => h.updateIdx w.diff) hbase

theorem trimmed_mergeSlow (others : List ℕ) (h : v.vec.Trimmed) (hw : w.vec.Trimmed) :
    (v.mergeSlow others w).vec.Trimmed := by
  rw [mergeSlow]
  split
  · exact h
  · exact trimmed_merge (trimmed_hydrate others h) hw

theorem trimmed_update (others : List ℕ) (h : v.vec.Trimmed) (hw : w.vec.Trimmed) :
    (v.update others w).vec.Trimmed := by
  have hadopt : (v.adoptBase w).vec.Trimmed := by
    rw [adoptBase]
    split
    · exact hw
    · exact h
  rw [update]
  split_ifs
  · exact trimmed_merge h hw
  · exact hw
  · rw [updateDiff]
    split_ifs
    · exact hadopt
    · exact hadopt
    · exact hadopt
    · exact hadopt
    · exact hadopt
    · exact trimmed_mergeSlow others hadopt hw
  · exact trimmed_mergeSlow others h hw

end CowView

end GenMC
