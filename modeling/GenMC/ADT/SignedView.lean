import GenMC.Execution.Event
import Mathlib.Data.List.GetD
import Mathlib.Data.List.TakeWhile

/-!
# Views with negative indices

The indices of an event and of a view are signed in the source, so that a view can say that not even
the begin of a thread has been seen.  But a thread that a view has never heard of has index `0`, and
this is also the least that a diff is taken for: the view forgets a negative index that it has as a
diff, and remembers one that is written to its base.

This is the class `View` of the source for such indices, for a view that is not copied and so never
shares its base.

* `SignedView.getMax_setMax_of_base`: a view with a base remembers any index.
* `SignedView.getMax_updateIdx`: `updateIdx` is the update of the map, wherever the index is stored.
-/

set_option autoImplicit false

namespace GenMC

/-! ## Vectors -/

namespace SignedBase

def getMax (v : List ℤ) (t : ℕ) : ℤ := if t < v.length then v.getD t 0 else 0

/-- Appends zeros. -/
def resize (v : List ℤ) (n : ℕ) : List ℤ := v ++ List.replicate (n - v.length) 0

/-- Removes the zeros at the end. -/
def trim (v : List ℤ) : List ℤ := (v.reverse.dropWhile (· == 0)).reverse

def setMax (v : List ℤ) (t : ℕ) (i : ℤ) : List ℤ :=
  if i = 0 ∧ v.length ≤ t then v
  else
    let v' := (if v.length ≤ t then resize v (t + 1) else v).set t i
    if i = 0 ∧ t = v'.length - 1 then trim v' else v'

def updateIdx (v : List ℤ) (t : ℕ) (i : ℤ) : List ℤ := if getMax v t < i then setMax v t i else v

theorem getMax_eq (v : List ℤ) (t : ℕ) : getMax v t = v.getD t 0 := by
  rw [getMax]
  split
  · rfl
  · rename_i h
    rw [List.getD_eq_default _ _ (not_lt.1 h)]

/-- Zeros at the end of a vector do not count. -/
theorem getD_append_zeros (v w : List ℤ) (hw : ∀ x ∈ w, x = 0) (t : ℕ) :
    (v ++ w).getD t 0 = v.getD t 0 := by
  by_cases h : t < v.length
  · rw [List.getD_append _ _ _ _ h]
  · rw [List.getD_append_right _ _ _ _ (not_lt.1 h), List.getD_eq_default v _ (not_lt.1 h)]
    by_cases ht : t - v.length < w.length
    · rw [List.getD_eq_getElem _ _ ht]
      exact hw _ (List.getElem_mem ht)
    · exact List.getD_eq_default _ _ (not_lt.1 ht)

theorem getD_resize (v : List ℤ) (n t : ℕ) : (resize v n).getD t 0 = v.getD t 0 :=
  getD_append_zeros v _ (fun _ hx => List.eq_of_mem_replicate hx) t

theorem getD_trim (v : List ℤ) (t : ℕ) : (trim v).getD t 0 = v.getD t 0 := by
  have hsplit : v = trim v ++ (v.reverse.takeWhile (· == 0)).reverse := by
    rw [trim, ← List.reverse_append, List.takeWhile_append_dropWhile, List.reverse_reverse]
  conv_rhs => rw [hsplit]
  refine (getD_append_zeros _ _ (fun x hx => ?_) t).symm
  have hzero := List.mem_takeWhile_imp (List.mem_reverse.1 hx)
  exact beq_iff_eq.1 hzero

/-- A vector is changed at one thread. -/
theorem getD_setMax (v : List ℤ) (t : ℕ) (i : ℤ) (u : ℕ) :
    (setMax v t i).getD u 0 = if u = t then i else v.getD u 0 := by
  have hset : ((if v.length ≤ t then resize v (t + 1) else v).set t i).getD u 0 =
      if u = t then i else v.getD u 0 := by
    have hlt : t < (if v.length ≤ t then resize v (t + 1) else v).length := by
      split
      · rw [resize, List.length_append, List.length_replicate]
        omega
      · omega
    rw [List.getD_eq_getElem?_getD, List.getElem?_set]
    by_cases hu : t = u
    · subst hu
      rw [if_pos rfl, if_pos hlt, if_pos rfl]
      rfl
    · rw [if_neg hu, if_neg (Ne.symm hu), ← List.getD_eq_getElem?_getD]
      split
      · exact getD_resize v _ u
      · rfl
  rw [setMax]
  split
  · rename_i h
    obtain ⟨rfl, hlen⟩ := h
    split
    · rename_i hu
      rw [hu, List.getD_eq_default _ _ hlen]
    · rfl
  · simp only
    generalize (if v.length ≤ t then resize v (t + 1) else v).set t i = w at hset ⊢
    split
    · rw [getD_trim, hset]
    · exact hset

theorem getD_updateIdx (v : List ℤ) (t : ℕ) (i : ℤ) (u : ℕ) :
    (updateIdx v t i).getD u 0 = if u = t then max (v.getD t 0) i else v.getD u 0 := by
  rw [updateIdx, getMax_eq]
  split
  · rename_i h
    rw [getD_setMax, max_eq_right h.le]
  · rename_i h
    split
    · rename_i hu
      rw [hu, max_eq_left (not_lt.1 h)]
    · rfl

end SignedBase

/-! ## Views -/

/-- A view that shares its base with no other view: the vector of its base, and its diff. -/
structure SignedView where
  base : Option (List ℤ)
  diff : ℕ × ℤ
deriving DecidableEq

namespace SignedView

open SignedBase

/-- A new view. -/
def empty : SignedView := ⟨none, (0, 0)⟩

/-- `View::getMax`. -/
def getMax (v : SignedView) (t : ℕ) : ℤ :=
  let baseMax := v.base.elim 0 (SignedBase.getMax · t)
  if v.diff ≠ (0, 0) ∧ v.diff.1 = t then max baseMax v.diff.2 else baseMax

/-- `View::contains`, for an event that may have a negative index. -/
def contains (v : SignedView) (t : ℕ) (i : ℤ) : Bool := i ≤ v.getMax t

/-- `View::hydrate`. -/
def hydrate (v : SignedView) : SignedView :=
  if v.diff = (0, 0) then { v with base := some (v.base.getD []) }
  else ⟨some (SignedBase.updateIdx (v.base.getD []) v.diff.1 v.diff.2), (0, 0)⟩

def modifyBase (v : SignedView) (f : List ℤ → List ℤ) : SignedView :=
  { v with base := v.base.map f }

/-- `View::setMax`. -/
def setMax (v : SignedView) (t : ℕ) (i : ℤ) : SignedView :=
  if v.base.isSome then v.modifyBase (SignedBase.setMax · t i)
  else if v.diff = (0, 0) ∨ t = v.diff.1 then { v with diff := if i = 0 then (0, 0) else (t, i) }
  else v.hydrate.modifyBase (SignedBase.setMax · t i)

/-- `View::updateIdx`.  The maximum of two events of one thread has the greater index. -/
def updateIdx (v : SignedView) (t : ℕ) (i : ℤ) : SignedView :=
  if v.contains t i then v
  else if v.base.isSome then v.modifyBase (SignedBase.updateIdx · t i)
  else if v.diff = (0, 0) then { v with diff := (t, i) }
  else if t = v.diff.1 then { v with diff := (t, max v.diff.2 i) }
  else v.hydrate.modifyBase (SignedBase.updateIdx · t i)

/-- What the assertions of the source say: a view with a base of its own has no diff. -/
def Settled (v : SignedView) : Prop := v.base.isSome → v.diff = (0, 0)

variable {v : SignedView}

@[simp] theorem getMax_empty (t : ℕ) : empty.getMax t = 0 := rfl

theorem settled_empty : empty.Settled := fun h => absurd h Bool.false_ne_true

theorem getMax_of_base {b : List ℤ} (h : v.Settled) (hb : v.base = some b) (t : ℕ) :
    v.getMax t = b.getD t 0 := by
  have hdiff := h (by rw [hb]; rfl)
  rw [getMax, hb, hdiff]
  exact (if_neg fun hne => hne.1 rfl).trans (SignedBase.getMax_eq b t)

/-- A view without a base knows one thread, and no negative index. -/
theorem getMax_of_base_none (hb : v.base = none) (t : ℕ) :
    v.getMax t = if v.diff.1 = t then max 0 v.diff.2 else 0 := by
  rw [getMax, hb]
  by_cases hdiff : v.diff = (0, 0)
  · rw [hdiff]
    simp
  · simp [hdiff]

theorem hydrate_of_base_none (hb : v.base = none) :
    ∃ b, v.hydrate = ⟨some b, (0, 0)⟩ ∧ ∀ t, b.getD t 0 = v.getMax t := by
  rw [hydrate, hb]
  split
  · rename_i hdiff
    refine ⟨[], by rw [hdiff]; rfl, fun t => ?_⟩
    rw [getMax_of_base_none hb, hdiff]
    simp
  · refine ⟨_, rfl, fun t => ?_⟩
    rw [getD_updateIdx, getMax_of_base_none hb]
    simp [eq_comm]

/-- A view with a base remembers any index. -/
theorem getMax_setMax_of_base (h : v.Settled) (hb : v.base.isSome) (t : ℕ) (i : ℤ) :
    (v.setMax t i).Settled ∧ (v.setMax t i).base.isSome ∧
      ∀ u, (v.setMax t i).getMax u = if u = t then i else v.getMax u := by
  obtain ⟨b, hb'⟩ := Option.isSome_iff_exists.1 hb
  have heq : v.setMax t i = ⟨some (SignedBase.setMax b t i), (0, 0)⟩ := by
    rw [setMax, if_pos hb, modifyBase, hb', h hb]
    rfl
  rw [heq]
  refine ⟨fun _ => rfl, rfl, fun u => ?_⟩
  rw [getMax_of_base (fun _ => rfl) rfl, getD_setMax, getMax_of_base h hb']

/-- **`updateIdx` changes a view at one thread**, if the event is new. -/
theorem getMax_updateIdx (h : v.Settled) {t : ℕ} {i : ℤ} (hi : v.getMax t < i) :
    (v.updateIdx t i).Settled ∧
      ∀ u, (v.updateIdx t i).getMax u = if u = t then i else v.getMax u := by
  have hnot : ¬ v.contains t i = true := by
    rw [contains, decide_eq_true_eq]
    exact not_le.2 hi
  rw [updateIdx, if_neg hnot]
  split
  · rename_i hb
    obtain ⟨b, hb⟩ := Option.isSome_iff_exists.1 hb
    have heq : v.modifyBase (SignedBase.updateIdx · t i) =
        ⟨some (SignedBase.updateIdx b t i), (0, 0)⟩ := by
      rw [modifyBase, hb, h (by rw [hb]; rfl)]
      rfl
    rw [heq]
    refine ⟨fun _ => rfl, fun u => ?_⟩
    rw [getMax_of_base h hb] at hi
    rw [getMax_of_base (fun _ => rfl) rfl, getD_updateIdx, max_eq_right hi.le,
      getMax_of_base h hb]
  · rename_i hb
    have hb : v.base = none := by simpa using hb
    split
    · rename_i hdiff
      have hzero : ∀ u, v.getMax u = 0 := fun u => by simp [getMax_of_base_none hb, hdiff]
      refine ⟨fun hsome => absurd hsome (by simp [hb]), fun u => ?_⟩
      rw [hzero] at hi
      rw [hzero, getMax_of_base_none (v := { v with diff := (t, i) }) hb u, max_eq_right hi.le]
      exact if_congr eq_comm rfl rfl
    · split
      · rename_i ht
        subst ht
        refine ⟨fun hsome => absurd hsome (by simp [hb]), fun u => ?_⟩
        rw [getMax_of_base_none hb, if_pos rfl] at hi
        rw [getMax_of_base_none hb u,
          getMax_of_base_none (v := { v with diff := (v.diff.1, max v.diff.2 i) }) hb u]
        simp only
        split_ifs <;> omega
      · obtain ⟨b, hbase, hget⟩ := hydrate_of_base_none hb
        rw [hbase, modifyBase]
        refine ⟨fun _ => rfl, fun u => ?_⟩
        rw [getMax_of_base (fun _ => rfl) rfl, getD_updateIdx, hget, hget,
          max_eq_right hi.le]

end SignedView
end GenMC
