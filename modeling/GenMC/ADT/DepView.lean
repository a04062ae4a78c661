import GenMC.ADT.CowView
import GenMC.ADT.VSetInvariant

/-!
# Vector clocks with holes

A `DepView` is a view together with a set of *holes* for each thread: the events below the maximum
of the thread that were not seen.  Raising a maximum makes holes of what is skipped, lowering one
drops the holes above it, and uniting two of them intersects the holes below the smaller maximum
and keeps those of the larger one above it.

Holes are only ever events up to the maximum (`DepView.Inv`): adding one above it fails, and
removing one there changes nothing.  With this, `DepView.Run.refines_sets` says that a `DepView` is
a set of events, whatever operations it went through, and that none of them fails.

`DepView.hasHole` has its test the wrong way round.  `DepView.PosRun.reportsHole_iff` says that its
answer is right for the threads without a set of holes, and for no others.
-/

set_option autoImplicit false

namespace GenMC

open SharedView

/-- A view and the holes of its threads.  The base of the view is never shared. -/
structure DepView where
  view : CowView
  holes : List (VSet ℕ)

namespace DepView

def empty : DepView := ⟨CowView.empty, []⟩

def size (v : DepView) : ℕ := v.view.size

def getMax (v : DepView) (t : ℕ) : ℕ := v.view.getMax t

/-- The holes of a thread. -/
def holesAt (v : DepView) (t : ℕ) : VSet ℕ := v.holes.getD t VSet.empty

def contains (v : DepView) (e : Event) : Bool :=
  e.index ≤ v.getMax e.thread &&
    (e.index = 0 || (e.thread < v.holes.length && (v.holesAt e.thread).count e.index = 0))

/-- Meant to say that there is a hole in the position of the event; what it asks is that there is
none. -/
def hasHole (v : DepView) (e : Event) : Bool :=
  e.thread < v.holes.length && (v.holesAt e.thread).count e.index = 0

/-- Makes sure that there is a set of holes for the thread. -/
def grow (v : DepView) (t : ℕ) : DepView :=
  { v with holes := v.holes ++ List.replicate (t + 1 - v.holes.length) VSet.empty }

def modifyHoles (v : DepView) (t : ℕ) (f : VSet ℕ → VSet ℕ) : DepView :=
  { v.grow t with holes := (v.grow t).holes.modify t f }

/-- The maximum of the thread has to be at least the index. -/
def addHole (v : DepView) (e : Event) : Option DepView :=
  if e.index ≤ v.getMax e.thread then some (v.modifyHoles e.thread (·.insert e.index)) else none

/-- The holes from an event on, as many as given. -/
def addHolesInRange (v : DepView) (start : Event) (n : ℕ) : Option DepView :=
  (List.range' start.index n).foldlM (fun v i => v.addHole ⟨start.thread, i⟩) v

def removeHole (v : DepView) (e : Event) : DepView :=
  v.modifyHoles e.thread fun h => (h.erase e.index).1

def removeHolesInRange (v : DepView) (start : Event) (n : ℕ) : DepView :=
  (List.range' start.index n).foldl (fun v i => v.removeHole ⟨start.thread, i⟩) v

/-- `view_.setMax`. -/
def viewSetMax (v : DepView) (e : Event) : DepView := { v with view := v.view.setMax [] e }

def updateIdx (v : DepView) (e : Event) : Option DepView :=
  let old := v.getMax e.thread
  if old < e.index then
    ((v.viewSetMax e).grow e.thread).addHolesInRange ⟨e.thread, old + 1⟩ (e.index - (old + 1))
  else some (v.removeHole e)

def setMax (v : DepView) (e : Event) : Option DepView :=
  let v := if v.size ≤ e.thread then v.grow e.thread else v
  let old := v.getMax e.thread
  if old < e.index then
    (v.viewSetMax e).addHolesInRange ⟨e.thread, old + 1⟩ (e.index - (old + 1))
  else some ((v.viewSetMax e).removeHolesInRange e (old + 1 - e.index))

/-- One thread of a union; the other view has to have holes for it. -/
def updateThread (w v : DepView) (i : ℕ) : Option DepView := do
  let hs ← w.holes[i]?
  let isec := ((v.grow i).holesAt i).intersectWith hs
  if v.getMax i < w.getMax i then
    let isec := isec.insertRange (hs.vset.dropWhile (· < v.getMax i + 1))
    some ((v.modifyHoles i fun _ => isec).viewSetMax ⟨i, w.getMax i⟩)
  else
    let isec := isec.insertRange (((v.grow i).holesAt i).vset.dropWhile (· < w.getMax i + 1))
    some (v.modifyHoles i fun _ => isec)

def update (v w : DepView) : Option DepView :=
  if w.size = 0 then some v else (List.range w.size).foldlM (updateThread w) v

/-- The sets of holes are sorted, and there is one for each thread that has been seen. -/
structure Wf (v : DepView) : Prop where
  own : v.view.Own
  size : v.size ≤ v.holes.length
  sorted : ∀ t, (v.holesAt t).Sorted

/-- Moreover, no hole is above the maximum of its thread. -/
structure Inv (v : DepView) : Prop extends v.Wf where
  below : ∀ t, ∀ i ∈ v.holesAt t, i ≤ v.getMax t

/-- The events that were seen: those up to the maximum that are no holes. -/
def Seen (v : DepView) (e : Event) : Prop :=
  e.index ≤ v.getMax e.thread ∧ e.index ∉ v.holesAt e.thread

/-! ## Holes -/

variable {v w : DepView}

@[simp] theorem holesAt_grow (v : DepView) (t u : ℕ) : (v.grow t).holesAt u = v.holesAt u := by
  rw [holesAt, holesAt, grow]
  by_cases hu : u < v.holes.length
  · rw [List.getD_append _ _ _ _ hu]
  · rw [List.getD_append_right _ _ _ _ (not_lt.1 hu), List.getD_eq_default v.holes _ (not_lt.1 hu)]
    by_cases h : u - v.holes.length < t + 1 - v.holes.length
    · rw [List.getD_replicate _ h]
    · rw [List.getD_eq_default _ _ (by rw [List.length_replicate]; omega)]

@[simp] theorem getMax_grow (v : DepView) (t u : ℕ) : (v.grow t).getMax u = v.getMax u := rfl

theorem length_grow (v : DepView) (t : ℕ) :
    (v.grow t).holes.length = max v.holes.length (t + 1) := by
  rw [grow, List.length_append, List.length_replicate]
  omega

@[simp] theorem getMax_modifyHoles (v : DepView) (t : ℕ) (f : VSet ℕ → VSet ℕ) (u : ℕ) :
    (v.modifyHoles t f).getMax u = v.getMax u := rfl

theorem length_modifyHoles (v : DepView) (t : ℕ) (f : VSet ℕ → VSet ℕ) :
    (v.modifyHoles t f).holes.length = max v.holes.length (t + 1) := by
  rw [modifyHoles, List.length_modify, length_grow]

/-- The holes of one thread are changed. -/
theorem holesAt_modifyHoles (v : DepView) (t : ℕ) (f : VSet ℕ → VSet ℕ) (u : ℕ) :
    (v.modifyHoles t f).holesAt u = if u = t then f (v.holesAt t) else v.holesAt u := by
  have hlt : t < (v.grow t).holes.length := by
    rw [length_grow]
    omega
  rw [holesAt, modifyHoles, List.getD_eq_getElem?_getD, List.getElem?_modify]
  split
  · rename_i htu
    subst htu
    rw [if_pos rfl, ← holesAt_grow v t t, holesAt, List.getD_eq_getElem?_getD,
      List.getElem?_eq_getElem hlt]
    rfl
  · rename_i htu
    rw [if_neg (Ne.symm htu), ← holesAt_grow v t u, holesAt, List.getD_eq_getElem?_getD]
    rw [id_map']

theorem Wf.grow (h : v.Wf) (t : ℕ) : (v.grow t).Wf where
  own := h.own
  size := by
    rw [length_grow]
    exact h.size.trans (le_max_left _ _)
  sorted := fun u => by
    rw [holesAt_grow]
    exact h.sorted u

/-- Changing the holes of one thread. -/
theorem Wf.modifyHoles (h : v.Wf) {t : ℕ} {f : VSet ℕ → VSet ℕ}
    (hsorted : (f (v.holesAt t)).Sorted) : (v.modifyHoles t f).Wf where
  own := h.own
  size := by
    rw [length_modifyHoles]
    exact h.size.trans (le_max_left _ _)
  sorted := fun u => by
    rw [holesAt_modifyHoles]
    split
    · exact hsorted
    · exact h.sorted u

/-- Changing the maximum of a thread that has holes. -/
theorem Wf.viewSetMax (h : v.Wf) {e : Event} (ht : e.thread < v.holes.length) :
    (v.viewSetMax e).Wf where
  own := (h.own.setMax e).1
  size := (h.own.size_setMax_le e).trans (max_le h.size ht)
  sorted := h.sorted

theorem Wf.getMax_viewSetMax (h : v.Wf) (e : Event) (t : ℕ) :
    (v.viewSetMax e).getMax t = if t = e.thread then e.index else v.getMax t :=
  (h.own.setMax e).2 t

@[simp] theorem holesAt_viewSetMax (v : DepView) (e : Event) (t : ℕ) :
    (v.viewSetMax e).holesAt t = v.holesAt t := rfl

/-- What is contained was seen, or is the begin of its thread. -/
theorem Wf.contains_iff (h : v.Wf) {e : Event} :
    v.contains e = true ↔ e.index = 0 ∨ v.Seen e := by
  rw [contains, Bool.and_eq_true, decide_eq_true_iff, Bool.or_eq_true, decide_eq_true_iff,
    Bool.and_eq_true, decide_eq_true_iff, decide_eq_true_iff,
    (h.sorted e.thread).count_eq_zero_iff, Seen]
  by_cases he : e.index = 0
  · simp [he]
  · simp only [he, false_or]
    refine and_congr_right fun hle => and_iff_right ?_
    -- a thread with a maximum has been seen
    by_contra hlen
    have hzero := CowView.getMax_eq_zero_of_size_le (v := v.view) (h.size.trans (not_lt.1 hlen))
    rw [getMax, hzero] at hle
    exact he (Nat.le_zero.1 hle)

theorem le_getMax_of_contains {e : Event} (h : v.contains e = true) :
    e.index ≤ v.getMax e.thread := by
  rw [contains, Bool.and_eq_true] at h
  exact of_decide_eq_true h.1

theorem Wf.addHole (h : v.Wf) {e : Event} (he : e.index ≤ v.getMax e.thread) :
    ∃ v', v.addHole e = some v' ∧ v'.Wf ∧ v'.getMax = v.getMax ∧
      ∀ t i, i ∈ v'.holesAt t ↔ i ∈ v.holesAt t ∨ (t = e.thread ∧ i = e.index) := by
  refine ⟨_, if_pos he, h.modifyHoles ((h.sorted e.thread).insert e.index), rfl, fun t i => ?_⟩
  rw [holesAt_modifyHoles]
  split
  · rename_i ht
    rw [VSet.mem_insert, ht]
    tauto
  · rename_i ht
    simp [ht]

/-- Adding holes up to the maximum. -/
theorem Wf.addHolesInRange (h : v.Wf) {t s n : ℕ} (hle : s + n ≤ v.getMax t + 1) :
    ∃ v', v.addHolesInRange ⟨t, s⟩ n = some v' ∧ v'.Wf ∧ v'.getMax = v.getMax ∧
      ∀ u i, i ∈ v'.holesAt u ↔ i ∈ v.holesAt u ∨ (u = t ∧ s ≤ i ∧ i < s + n) := by
  induction n generalizing v s with
  | zero =>
    refine ⟨v, rfl, h, rfl, fun u i => ?_⟩
    have : ¬ (s ≤ i ∧ i < s + 0) := by omega
    tauto
  | succ n ih =>
    obtain ⟨v₁, hadd, h₁, hmax₁, hmem₁⟩ := h.addHole (e := ⟨t, s⟩) (by simp only; omega)
    obtain ⟨v₂, hrest, h₂, hmax₂, hmem₂⟩ := ih h₁ (s := s + 1) (by rw [hmax₁]; omega)
    refine ⟨v₂, ?_, h₂, hmax₂.trans hmax₁, fun u i => ?_⟩
    · rw [DepView.addHolesInRange, List.range'_succ, List.foldlM_cons]
      exact (congrArg (· >>= _) hadd).trans hrest
    · rw [hmem₂, hmem₁, or_assoc, ← and_or_left]
      have : (i = s ∨ s + 1 ≤ i ∧ i < s + 1 + n) ↔ s ≤ i ∧ i < s + (n + 1) := by omega
      rw [this]

theorem Wf.removeHole (h : v.Wf) (e : Event) :
    (v.removeHole e).Wf ∧
      ∀ t i, i ∈ (v.removeHole e).holesAt t ↔
        i ∈ v.holesAt t ∧ ¬ (t = e.thread ∧ i = e.index) := by
  refine ⟨h.modifyHoles ((h.sorted e.thread).erase e.index), fun t i => ?_⟩
  rw [DepView.removeHole, holesAt_modifyHoles]
  split
  · rename_i ht
    rw [(h.sorted e.thread).mem_erase, ht]
    tauto
  · rename_i ht
    simp [ht]

theorem Wf.removeHolesInRange (h : v.Wf) (t s n : ℕ) :
    (v.removeHolesInRange ⟨t, s⟩ n).Wf ∧
      (v.removeHolesInRange ⟨t, s⟩ n).getMax = v.getMax ∧
      ∀ u i, i ∈ (v.removeHolesInRange ⟨t, s⟩ n).holesAt u ↔
        i ∈ v.holesAt u ∧ ¬ (u = t ∧ s ≤ i ∧ i < s + n) := by
  induction n generalizing v s with
  | zero =>
    refine ⟨h, rfl, fun u i => ?_⟩
    have : ¬ (s ≤ i ∧ i < s + 0) := by omega
    change i ∈ v.holesAt u ↔ _
    tauto
  | succ n ih =>
    obtain ⟨h₁, hmem₁⟩ := h.removeHole ⟨t, s⟩
    obtain ⟨h₂, hmax₂, hmem₂⟩ := ih h₁ (s + 1)
    have hstep : v.removeHolesInRange ⟨t, s⟩ (n + 1) =
        (v.removeHole ⟨t, s⟩).removeHolesInRange ⟨t, s + 1⟩ n := by
      rw [DepView.removeHolesInRange, List.range'_succ, List.foldl_cons]
      rfl
    rw [hstep]
    refine ⟨h₂, hmax₂, fun u i => ?_⟩
    rw [hmem₂, hmem₁]
    have : s ≤ i ∧ i < s + (n + 1) ↔ i = s ∨ (s + 1 ≤ i ∧ i < s + 1 + n) := by omega
    rw [this]
    tauto

/-! ## The operations on sets of events -/

theorem ext_event {x e : Event} (ht : x.thread = e.thread) : x = e ↔ x.index = e.index := by
  rw [Event.ext_iff']
  exact and_iff_right ht

/-- Adding a hole removes one event. -/
theorem Inv.addHole (h : v.Inv) {e : Event} (he : e.index ≤ v.getMax e.thread) :
    ∃ v', v.addHole e = some v' ∧ v'.Inv ∧ v'.getMax = v.getMax ∧
      ∀ x, v'.Seen x ↔ v.Seen x ∧ x ≠ e := by
  obtain ⟨v', hadd, hwf, hmax, hmem⟩ := h.toWf.addHole he
  refine ⟨v', hadd, ⟨hwf, fun t i hi => ?_⟩, hmax, fun x => ?_⟩
  · rw [hmax]
    rcases (hmem t i).1 hi with hi | ⟨rfl, rfl⟩
    · exact h.below t i hi
    · exact he
  · rw [Seen, Seen, hmax, hmem, Ne, Event.ext_iff']
    tauto

/-- Removing a hole adds one event, if it is not above the maximum. -/
theorem Inv.removeHole (h : v.Inv) (e : Event) :
    (v.removeHole e).Inv ∧
      ∀ x, (v.removeHole e).Seen x ↔ v.Seen x ∨ (x = e ∧ e.index ≤ v.getMax e.thread) := by
  obtain ⟨hwf, hmem⟩ := h.toWf.removeHole e
  have hmax : (v.removeHole e).getMax = v.getMax := rfl
  refine ⟨⟨hwf, fun t i hi => h.below t i ((hmem t i).1 hi).1⟩, fun x => ?_⟩
  rw [Seen, Seen, hmax, hmem, ← Event.ext_iff']
  by_cases hx : x = e
  · simp only [hx, not_true_eq_false, and_false, not_false_eq_true, and_true, true_and]
    tauto
  · simp [hx]

/-- Raising the maximum makes holes of what is skipped. -/
theorem Inv.raise (h : v.Inv) {e : Event} (ht : e.thread < v.holes.length)
    (hlt : v.getMax e.thread < e.index) :
    ∃ v', (v.viewSetMax e).addHolesInRange ⟨e.thread, v.getMax e.thread + 1⟩
        (e.index - (v.getMax e.thread + 1)) = some v' ∧ v'.Inv ∧
      ∀ x, v'.Seen x ↔ v.Seen x ∨ x = e := by
  have hmaxset := h.toWf.getMax_viewSetMax e
  obtain ⟨v', hadd, hwf, hmax, hmem⟩ := (h.toWf.viewSetMax ht).addHolesInRange
    (t := e.thread) (s := v.getMax e.thread + 1) (n := e.index - (v.getMax e.thread + 1))
    (by rw [hmaxset, if_pos rfl]; omega)
  refine ⟨v', hadd, ⟨hwf, fun t i hi => ?_⟩, fun x => ?_⟩
  · rw [hmax, hmaxset]
    rcases (hmem t i).1 hi with hi | ⟨rfl, hi⟩
    · have := h.below t i hi
      split
      · rename_i ht
        subst ht
        omega
      · exact this
    · rw [if_pos rfl]
      omega
  · rw [Seen, Seen, hmax, hmaxset, hmem, holesAt_viewSetMax]
    have hbelow := h.below x.thread x.index
    by_cases hx : x.thread = e.thread
    · rw [if_pos hx, ext_event hx]
      rw [hx] at hbelow ⊢
      by_cases hhole : x.index ∈ v.holesAt e.thread
      · have := hbelow hhole
        simp only [hhole, true_or, not_true_eq_false, and_false, false_or, false_iff]
        omega
      · simp only [hhole, false_or, true_and, not_and, not_lt, not_false_eq_true, and_true]
        omega
    · have hne : x ≠ e := fun heq => hx (congrArg Event.thread heq)
      simp [hx, hne]

theorem Inv.updateIdx (h : v.Inv) (e : Event) :
    ∃ v', v.updateIdx e = some v' ∧ v'.Inv ∧ ∀ x, v'.Seen x ↔ v.Seen x ∨ x = e := by
  rw [DepView.updateIdx]
  split
  · rename_i hlt
    have hgrow : (v.grow e.thread).Inv := ⟨h.toWf.grow _, fun t => by
      rw [holesAt_grow]
      exact h.below t⟩
    have hlen : e.thread < (v.grow e.thread).holes.length := by
      rw [length_grow]
      omega
    obtain ⟨v', hadd, hinv, hseen⟩ := hgrow.raise hlen hlt
    refine ⟨v', hadd, hinv, fun x => ?_⟩
    rw [hseen, Seen, Seen, holesAt_grow, getMax_grow]
  · rename_i hle
    obtain ⟨hinv, hseen⟩ := h.removeHole e
    refine ⟨_, rfl, hinv, fun x => ?_⟩
    rw [hseen, and_iff_left (not_lt.1 hle)]

/-- Lowering the maximum drops the holes above it. -/
theorem Inv.lower (h : v.Inv) {e : Event} (ht : e.thread < v.holes.length)
    (hle : e.index ≤ v.getMax e.thread) :
    ((v.viewSetMax e).removeHolesInRange e (v.getMax e.thread + 1 - e.index)).Inv ∧
      ∀ x, ((v.viewSetMax e).removeHolesInRange e (v.getMax e.thread + 1 - e.index)).Seen x ↔
        (v.Seen x ∧ (x.thread = e.thread → x.index < e.index)) ∨ x = e := by
  have hmaxset := h.toWf.getMax_viewSetMax e
  obtain ⟨hwf, hmax, hmem⟩ := (h.toWf.viewSetMax ht).removeHolesInRange e.thread e.index
    (v.getMax e.thread + 1 - e.index)
  refine ⟨⟨hwf, fun t i hi => ?_⟩, fun x => ?_⟩
  · obtain ⟨hi, hnot⟩ := (hmem t i).1 hi
    have := h.below t i hi
    rw [hmax, hmaxset]
    split
    · rename_i ht
      subst ht
      simp only [true_and] at hnot
      omega
    · exact this
  · rw [Seen, Seen, hmax, hmaxset, hmem, holesAt_viewSetMax]
    by_cases hx : x.thread = e.thread
    · rw [if_pos hx, ext_event hx, hx]
      by_cases hhole : x.index ∈ v.holesAt e.thread
      · have := h.below e.thread x.index hhole
        simp only [hhole, true_and, not_not, not_true_eq_false, and_false, false_and, false_or]
        omega
      · simp only [hhole, false_and, not_false_eq_true, and_true, forall_const]
        omega
    · have hne : x ≠ e := fun heq => hx (congrArg Event.thread heq)
      simp [hx, hne]

/-- `setMax` keeps the events of the thread below the new maximum. -/
theorem Inv.setMax (h : v.Inv) (e : Event) :
    ∃ v', v.setMax e = some v' ∧ v'.Inv ∧ ∀ x, v'.Seen x ↔
      (v.Seen x ∧ (x.thread = e.thread → x.index ≤ v.getMax e.thread ∧ x.index < e.index)) ∨
        x = e := by
  obtain ⟨u, hu, hinv, hlen, hmax, hseen⟩ : ∃ u : DepView,
      (if v.size ≤ e.thread then v.grow e.thread else v) = u ∧ u.Inv ∧
        e.thread < u.holes.length ∧ u.getMax = v.getMax ∧ ∀ x, u.Seen x ↔ v.Seen x := by
    split
    · refine ⟨_, rfl, ⟨h.toWf.grow _, fun t => ?_⟩, ?_, rfl, fun x => ?_⟩
      · rw [holesAt_grow]
        exact h.below t
      · rw [length_grow]
        omega
      · rw [Seen, Seen, holesAt_grow, getMax_grow]
    · rename_i hsize
      exact ⟨_, rfl, h, (not_le.1 hsize).trans_le h.size, rfl, fun _ => Iff.rfl⟩
  have hold : ∀ x, v.Seen x → x.thread = e.thread → x.index ≤ v.getMax e.thread := by
    intro x hx hthread
    rw [← hthread]
    exact hx.1
  rw [DepView.setMax]
  simp only [hu]
  split
  · rename_i hlt
    obtain ⟨v', hadd, hinv', hseen'⟩ := hinv.raise hlen hlt
    refine ⟨v', hadd, hinv', fun x => ?_⟩
    rw [hseen', hseen]
    refine or_congr_left (and_iff_left_of_imp fun hx hthread => ?_).symm
    have := hold x hx hthread
    rw [hmax] at hlt
    exact ⟨this, this.trans_lt hlt⟩
  · rename_i hnlt
    obtain ⟨hinv', hseen'⟩ := hinv.lower hlen (not_lt.1 hnlt)
    refine ⟨_, rfl, hinv', fun x => ?_⟩
    rw [hseen', hseen]
    refine or_congr_left (and_congr_right fun hx => ?_)
    exact ⟨fun hlt hthread => ⟨hold x hx hthread, hlt hthread⟩, fun hlt hthread =>
      (hlt hthread).2⟩

/-- Adding holes keeps the maxima. -/
theorem getMax_addHolesInRange {v' : DepView} {t s n : ℕ}
    (hstep : v.addHolesInRange ⟨t, s⟩ n = some v') : v'.getMax = v.getMax := by
  induction n generalizing v s with
  | zero => rw [← Option.some.inj hstep]
  | succ n ih =>
    rw [DepView.addHolesInRange, List.range'_succ, List.foldlM_cons] at hstep
    obtain ⟨v₁, hadd, hrest⟩ := Option.bind_eq_some_iff.1 hstep
    rw [DepView.addHole] at hadd
    split at hadd
    · rw [ih (s := s + 1) hrest, ← Option.some.inj hadd]
      rfl
    · cases hadd

/-- The new maximum of a thread. -/
theorem Wf.getMax_setMax (h : v.Wf) {v' : DepView} {e : Event} (hstep : v.setMax e = some v')
    (t : ℕ) : v'.getMax t = if t = e.thread then e.index else v.getMax t := by
  obtain ⟨u, hu, hwf, hlen, hmax⟩ : ∃ u : DepView,
      (if v.size ≤ e.thread then v.grow e.thread else v) = u ∧ u.Wf ∧
        e.thread < u.holes.length ∧ u.getMax = v.getMax := by
    split
    · refine ⟨_, rfl, h.grow _, ?_, rfl⟩
      rw [length_grow]
      omega
    · rename_i hsize
      exact ⟨_, rfl, h, (not_le.1 hsize).trans_le h.size, rfl⟩
  rw [DepView.setMax] at hstep
  simp only [hu] at hstep
  rw [← hmax, ← hwf.getMax_viewSetMax]
  split at hstep
  · rw [getMax_addHolesInRange hstep]
  · rw [← Option.some.inj hstep]
    exact congrFun ((hwf.viewSetMax hlen).removeHolesInRange e.thread e.index _).2.1 t

/-! ## Union -/

/-- The holes of a union, given the two maxima. -/
theorem mem_unionHoles {a b : VSet ℕ} (ha : a.Sorted) (hb : b.Sorted) {m : ℕ} {c : VSet ℕ}
    (hc : c.Sorted) :
    ((a.intersectWith b).insertRange (c.vset.dropWhile (· < m + 1))).Sorted ∧
      ∀ i, i ∈ (a.intersectWith b).insertRange (c.vset.dropWhile (· < m + 1)) ↔
        (i ∈ a ∧ i ∈ b) ∨ (i ∈ c ∧ m < i) := by
  have hsorted : (a.intersectWith b).Sorted := by
    rw [VSet.intersectWith_eq hb ha]
    exact ha.filter _
  refine ⟨hsorted.insertRange _, fun i => ?_⟩
  rw [hsorted.mem_insertRange, VSet.mem_intersectWith hb ha, hc.mem_dropWhile, Nat.succ_le_iff]

/-- One thread of a union. -/
theorem Inv.updateThread (hw : w.Inv) (hv : v.Inv) {i : ℕ} (hi : i < w.holes.length) :
    ∃ v', DepView.updateThread w v i = some v' ∧ v'.Inv ∧
      ∀ x, v'.Seen x ↔ v.Seen x ∨ (x.thread = i ∧ w.Seen x) := by
  have hhs : w.holes[i] = w.holesAt i := by
    rw [holesAt, List.getD_eq_getElem?_getD, List.getElem?_eq_getElem hi]
    rfl
  have ha := hv.sorted i
  have hb := hw.sorted i
  rw [DepView.updateThread, List.getElem?_eq_getElem hi, hhs]
  simp only [Option.bind_eq_bind, Option.bind_some, holesAt_grow]
  split
  · rename_i hlt
    obtain ⟨hsorted, hmem⟩ := mem_unionHoles ha hb (m := v.getMax i) hb
    have hwf := hv.toWf.modifyHoles (t := i) (f := fun _ => _) hsorted
    have hlen : i < (v.modifyHoles i fun _ =>
        ((v.holesAt i).intersectWith (w.holesAt i)).insertRange
        ((w.holesAt i).vset.dropWhile (· < v.getMax i + 1))).holes.length := by
      rw [length_modifyHoles]
      omega
    have hmax := hwf.getMax_viewSetMax ⟨i, w.getMax i⟩
    refine ⟨_, rfl, ⟨hwf.viewSetMax hlen, fun t j hj => ?_⟩, fun x => ?_⟩
    · rw [holesAt_viewSetMax, holesAt_modifyHoles] at hj
      rw [hmax]
      split at hj
      · rename_i ht
        rw [if_pos ht]
        rcases (hmem j).1 hj with hj | hj
        · exact hw.below i j hj.2
        · exact hw.below i j hj.1
      · rename_i ht
        rw [if_neg ht]
        exact hv.below t j hj
    · rw [Seen, hmax, holesAt_viewSetMax, holesAt_modifyHoles, Seen, Seen]
      by_cases hx : x.thread = i
      · have hv' := hv.below i x.index
        simp only [hx, if_true, hmem, true_and]
        by_cases h1 : x.index ∈ v.holesAt i
        · have := hv' h1
          by_cases h2 : x.index ∈ w.holesAt i
          · simp [h1, h2]
          · simp only [h1, h2, and_false, false_and, or_self, not_false_eq_true, and_true,
              not_true_eq_false, false_or]
        · by_cases h2 : x.index ∈ w.holesAt i
          · simp only [h1, h2, true_and, false_or, not_lt, not_false_eq_true, and_true,
              not_true_eq_false, and_false, or_false]
            omega
          · simp only [h1, h2, false_and, or_self, not_false_eq_true, and_true]
            omega
      · simp only [hx, if_false, false_and, or_false, getMax_modifyHoles]
  · rename_i hnlt
    obtain ⟨hsorted, hmem⟩ := mem_unionHoles ha hb (m := w.getMax i) ha
    have hwf := hv.toWf.modifyHoles (t := i) (f := fun _ => _) hsorted
    refine ⟨_, rfl, ⟨hwf, fun t j hj => ?_⟩, fun x => ?_⟩
    · rw [holesAt_modifyHoles] at hj
      split at hj
      · rename_i ht
        rw [getMax_modifyHoles, ht]
        rcases (hmem j).1 hj with hj | hj
        · exact hv.below i j hj.1
        · exact hv.below i j hj.1
      · exact hv.below t j hj
    · rw [Seen, holesAt_modifyHoles, Seen, Seen, getMax_modifyHoles]
      by_cases hx : x.thread = i
      · have hw' := hw.below i x.index
        simp only [hx, if_true, hmem, true_and]
        by_cases h2 : x.index ∈ w.holesAt i
        · have := hw' h2
          by_cases h1 : x.index ∈ v.holesAt i
          · simp [h1, h2]
          · simp only [h1, h2, and_false, false_and, or_self, not_false_eq_true, and_true,
              not_true_eq_false, or_false]
        · by_cases h1 : x.index ∈ v.holesAt i
          · simp only [h1, h2, and_false, true_and, false_or, not_lt, not_false_eq_true, and_true,
              not_true_eq_false, and_false]
            omega
          · simp only [h1, h2, and_false, false_and, or_self, not_false_eq_true, and_true]
            omega
      · simp only [hx, if_false, false_and, or_false]

/-- The threads below `n`. -/
theorem Inv.updateThreads (hw : w.Inv) (hv : v.Inv) {n : ℕ} (hn : n ≤ w.holes.length) :
    ∃ v', (List.range n).foldlM (DepView.updateThread w) v = some v' ∧ v'.Inv ∧
      ∀ x, v'.Seen x ↔ v.Seen x ∨ (x.thread < n ∧ w.Seen x) := by
  induction n with
  | zero => exact ⟨v, rfl, hv, fun x => by simp⟩
  | succ n ih =>
    obtain ⟨v₁, hfold, h₁, hseen₁⟩ := ih (Nat.le_of_succ_le hn)
    obtain ⟨v₂, hstep, h₂, hseen₂⟩ := hw.updateThread h₁ hn
    refine ⟨v₂, ?_, h₂, fun x => ?_⟩
    · rw [List.range_succ, List.foldlM_append, hfold]
      simp only [Option.bind_eq_bind, Option.bind_some, List.foldlM_cons, hstep, List.foldlM_nil]
      rfl
    · rw [hseen₂, hseen₁, or_assoc, ← or_and_right, Nat.lt_succ_iff_lt_or_eq]

/-- **`update` is the union.** -/
theorem Inv.update (hv : v.Inv) (hw : w.Inv) :
    ∃ u, v.update w = some u ∧ u.Inv ∧
      ∀ x, x.index ≠ 0 → (u.Seen x ↔ v.Seen x ∨ w.Seen x) := by
  have hsize : ∀ x : Event, x.index ≠ 0 → w.Seen x → x.thread < w.size := by
    intro x hx hseen
    by_contra hlt
    have hzero := CowView.getMax_eq_zero_of_size_le (v := w.view) (not_lt.1 hlt)
    have := hseen.1
    rw [getMax, hzero] at this
    exact hx (Nat.le_zero.1 this)
  rw [DepView.update]
  split
  · rename_i hempty
    refine ⟨v, rfl, hv, fun x hx => (or_iff_left fun hseen => ?_).symm⟩
    have := hsize x hx hseen
    omega
  · obtain ⟨u, hfold, hu, hseen⟩ := hw.updateThreads hv hw.size
    refine ⟨u, hfold, hu, fun x hx => ?_⟩
    rw [hseen]
    exact or_congr_right (and_iff_right_of_imp (hsize x hx))

theorem inv_empty : empty.Inv where
  own := CowView.own_empty
  size := by decide
  sorted := fun _ => VSet.sorted_empty
  below := fun _ _ hi => absurd hi List.not_mem_nil

/-! ## Runs

What the operations are meant to do is said on sets of events. -/

/-- The events that are left by `setMax`, given the old maximum of the thread. -/
def keepBelow (old : ℕ) (S : Set Event) (e : Event) : Set Event :=
  {x | (x ∈ S ∧ (x.thread = e.thread → x.index ≤ old ∧ x.index < e.index)) ∨
    (x = e ∧ 0 < e.index)}

/-- An event is added if it is not above the maximum. -/
def addUpTo (max : ℕ) (S : Set Event) (e : Event) : Set Event :=
  {x | x ∈ S ∨ (x = e ∧ e.index ≤ max)}

/-- A `DepView` that was built by operations, and the set of events it should be. -/
inductive Run : DepView → Set Event → Prop
  | empty : Run empty ∅
  | updateIdx {v v' : DepView} {S : Set Event} (e : Event) (h : Run v S)
      (hstep : v.updateIdx e = some v') : Run v' (insert e S)
  | setMax {v v' : DepView} {S : Set Event} (e : Event) (h : Run v S)
      (hstep : v.setMax e = some v') : Run v' (keepBelow (v.getMax e.thread) S e)
  | removeHole {v : DepView} {S : Set Event} (e : Event) (h : Run v S) :
      Run (v.removeHole e) (addUpTo (v.getMax e.thread) S e)
  | addHole {v v' : DepView} {S : Set Event} (e : Event) (h : Run v S)
      (he : e.index ≤ v.getMax e.thread) (hstep : v.addHole e = some v') : Run v' (S \ {e})
  | update {v w u : DepView} {S T : Set Event} (h : Run v S) (h' : Run w T)
      (hstep : v.update w = some u) : Run u (S ∪ T)

/-- A `DepView` contains the begins and the events of a set. -/
def Refines (v : DepView) (S : Set Event) : Prop :=
  ∀ x, v.contains x = true ↔ x.index = 0 ∨ x ∈ S

/-- The invariant of a run: what was seen, apart from the begins, is the set. -/
structure Models (v : DepView) (S : Set Event) : Prop where
  inv : v.Inv
  seen : ∀ x, x.index ≠ 0 → (v.Seen x ↔ x ∈ S)

section
variable {S T U : Set Event} {u : DepView}

theorem Models.refines (h : v.Models S) : v.Refines S := by
  intro x
  rw [h.inv.toWf.contains_iff]
  by_cases hx : x.index = 0
  · simp [hx]
  · simp only [hx, false_or]
    exact h.seen x hx

theorem Models.updateIdx (h : v.Models S) (e : Event) :
    ∃ v', v.updateIdx e = some v' ∧ v'.Models (insert e S) := by
  obtain ⟨v', hstep, hinv, hseen⟩ := h.inv.updateIdx e
  refine ⟨v', hstep, hinv, fun x hx => ?_⟩
  rw [hseen, h.seen x hx, Set.mem_insert_iff, or_comm]

theorem Models.setMax (h : v.Models S) (e : Event) :
    ∃ v', v.setMax e = some v' ∧ v'.Models (keepBelow (v.getMax e.thread) S e) := by
  obtain ⟨v', hstep, hinv, hseen⟩ := h.inv.setMax e
  refine ⟨v', hstep, hinv, fun x hx => ?_⟩
  rw [hseen, h.seen x hx, keepBelow, Set.mem_ofPred_eq]
  refine or_congr_right (and_iff_left_of_imp ?_).symm
  rintro rfl
  exact Nat.pos_of_ne_zero hx

theorem Models.removeHole (h : v.Models S) (e : Event) :
    (v.removeHole e).Models (addUpTo (v.getMax e.thread) S e) := by
  obtain ⟨hinv, hseen⟩ := h.inv.removeHole e
  refine ⟨hinv, fun x hx => ?_⟩
  rw [hseen, h.seen x hx]
  rfl

theorem Models.addHole (h : v.Models S) {e : Event} (he : e.index ≤ v.getMax e.thread) :
    ∃ v', v.addHole e = some v' ∧ v'.Models (S \ {e}) := by
  obtain ⟨v', hstep, hinv, -, hseen⟩ := h.inv.addHole he
  refine ⟨v', hstep, hinv, fun x hx => ?_⟩
  rw [hseen, h.seen x hx]
  rfl

theorem Models.update (h : v.Models S) (h' : w.Models T) :
    ∃ u, v.update w = some u ∧ u.Models (S ∪ T) := by
  obtain ⟨u, hstep, hinv, hseen⟩ := h.inv.update h'.inv
  refine ⟨u, hstep, hinv, fun x hx => ?_⟩
  rw [hseen x hx, h.seen x hx, h'.seen x hx, Set.mem_union]

theorem models_empty : empty.Models ∅ where
  inv := inv_empty
  seen := fun x hx => by
    refine ⟨fun h => hx (Nat.le_zero.1 ?_), fun h => absurd h (Set.notMem_empty x)⟩
    exact h.1.trans_eq (CowView.getMax_empty x.thread)

/-- The set is right all along a run. -/
theorem Run.models (h : Run v S) : v.Models S := by
  induction h with
  | empty => exact models_empty
  | updateIdx e _ hstep ih =>
    obtain ⟨v', hstep', hmodels⟩ := ih.updateIdx e
    rwa [Option.some_inj.1 (hstep.symm.trans hstep')]
  | setMax e _ hstep ih =>
    obtain ⟨v', hstep', hmodels⟩ := ih.setMax e
    rwa [Option.some_inj.1 (hstep.symm.trans hstep')]
  | removeHole e _ ih => exact ih.removeHole e
  | addHole e _ he hstep ih =>
    obtain ⟨v', hstep', hmodels⟩ := ih.addHole he
    rwa [Option.some_inj.1 (hstep.symm.trans hstep')]
  | update _ _ hstep ih ih' =>
    obtain ⟨u, hstep', hmodels⟩ := ih.update ih'
    rwa [Option.some_inj.1 (hstep.symm.trans hstep')]

theorem Refines.contains_eq (h : v.Refines S) (h' : w.Refines S) (x : Event) :
    v.contains x = w.contains x := by
  rw [Bool.eq_iff_iff, h x, h' x]

/-- `update` is commutative, associative and idempotent, as far as `contains` sees. -/
theorem Models.update_laws (hv : v.Models S) (hw : w.Models T) (hu : u.Models U) :
    (∃ a b, v.update w = some a ∧ w.update v = some b ∧ ∀ x, a.contains x = b.contains x) ∧
    (∃ a b c d, v.update w = some a ∧ a.update u = some b ∧ w.update u = some c ∧
      v.update c = some d ∧ ∀ x, b.contains x = d.contains x) ∧
    ∃ a, v.update v = some a ∧ ∀ x, a.contains x = v.contains x := by
  obtain ⟨vw, hvw, mvw⟩ := hv.update hw
  obtain ⟨wv, hwv, mwv⟩ := hw.update hv
  obtain ⟨vwu, hvwu, mvwu⟩ := mvw.update hu
  obtain ⟨wu, hwu, mwu⟩ := hw.update hu
  obtain ⟨vwu', hvwu', mvwu'⟩ := hv.update mwu
  obtain ⟨vv, hvv, mvv⟩ := hv.update hv
  rw [Set.union_comm] at mwv
  rw [← Set.union_assoc] at mvwu'
  rw [Set.union_self] at mvv
  exact ⟨⟨vw, wv, hvw, hwv, mvw.refines.contains_eq mwv.refines⟩,
    ⟨vw, vwu, wu, vwu', hvw, hvwu, hwu, hvwu', mvwu.refines.contains_eq mvwu'.refines⟩,
    vv, hvv, mvv.refines.contains_eq hv.refines⟩

/-- **A `DepView` is a set of events** in every run: no operation fails, each does to the events
what it should, and `update` is a union. -/
theorem Run.refines_sets (hv : Run v S) (hw : Run w T) (hu : Run u U) :
    v.Refines S ∧
    (∀ e, ∃ v', v.updateIdx e = some v' ∧ v'.Refines (insert e S)) ∧
    (∀ e, ∃ v', v.setMax e = some v' ∧ v'.Refines (keepBelow (v.getMax e.thread) S e)) ∧
    (∀ e, (v.removeHole e).Refines (addUpTo (v.getMax e.thread) S e)) ∧
    (∀ e, e.index ≤ v.getMax e.thread → ∃ v', v.addHole e = some v' ∧ v'.Refines (S \ {e})) ∧
    (∃ a, v.update w = some a ∧ a.Refines (S ∪ T)) ∧
    (∃ a b, v.update w = some a ∧ w.update v = some b ∧ ∀ x, a.contains x = b.contains x) ∧
    (∃ a b c d, v.update w = some a ∧ a.update u = some b ∧ w.update u = some c ∧
      v.update c = some d ∧ ∀ x, b.contains x = d.contains x) ∧
    ∃ a, v.update v = some a ∧ ∀ x, a.contains x = v.contains x := by
  have hm := hv.models
  refine ⟨hm.refines, fun e => ?_, fun e => ?_, fun e => (hm.removeHole e).refines,
    fun e he => ?_, ?_, hm.update_laws hw.models hu.models⟩
  · obtain ⟨v', hstep, h⟩ := hm.updateIdx e
    exact ⟨v', hstep, h.refines⟩
  · obtain ⟨v', hstep, h⟩ := hm.setMax e
    exact ⟨v', hstep, h.refines⟩
  · obtain ⟨v', hstep, h⟩ := hm.addHole he
    exact ⟨v', hstep, h.refines⟩
  · obtain ⟨a, hstep, h⟩ := hm.update hw.models
    exact ⟨a, hstep, h.refines⟩

theorem refines_sets_updateIdx :
    ∃ v, empty.updateIdx ⟨1, 3⟩ = some v ∧ v.Refines (insert ⟨1, 3⟩ ∅) := by
  obtain ⟨v, hstep, -⟩ := models_empty.updateIdx ⟨1, 3⟩
  exact ⟨v, hstep, (Run.refines_sets (.updateIdx ⟨1, 3⟩ .empty hstep) .empty .empty).1⟩

/-- Removing a hole above the maximum adds nothing. -/
theorem removeHole_above :
    Run empty ∅ ∧ ¬ (empty.removeHole ⟨1, 5⟩).Refines (insert ⟨1, 5⟩ ∅) := by
  refine ⟨.empty, fun h => ?_⟩
  have hnot : (empty.removeHole ⟨1, 5⟩).contains ⟨1, 5⟩ = false := by decide
  rw [(h ⟨1, 5⟩).2 (.inr (Set.mem_insert _ _))] at hnot
  cases hnot

end

/-! ## Asking for holes -/

/-- A `DepView` that was built by operations on events of positive index. -/
inductive PosRun : DepView → Prop
  | empty : PosRun empty
  | updateIdx {v v' : DepView} {e : Event} (h : PosRun v) (he : 0 < e.index)
      (hstep : v.updateIdx e = some v') : PosRun v'
  | setMax {v v' : DepView} {e : Event} (h : PosRun v) (he : 0 < e.index)
      (hstep : v.setMax e = some v') : PosRun v'
  | removeHole {v : DepView} {e : Event} (h : PosRun v) (he : 0 < e.index) :
      PosRun (v.removeHole e)
  | addHole {v v' : DepView} {e : Event} (h : PosRun v) (he : 0 < e.index)
      (hstep : v.addHole e = some v') : PosRun v'
  | update {v w u : DepView} (h : PosRun v) (h' : PosRun w) (hstep : v.update w = some u) :
      PosRun u

theorem le_getMax_of_addHole {v' : DepView} {e : Event} (h : v.addHole e = some v') :
    e.index ≤ v.getMax e.thread := by
  by_contra hle
  rw [addHole, if_neg hle] at h
  cases h

/-- What was seen is seen after an update, the begins of the threads included. -/
theorem Inv.seen_update {u : DepView} (hv : v.Inv) (hw : w.Inv) (h : v.update w = some u)
    {x : Event} (hx : v.Seen x) : u.Seen x := by
  rw [DepView.update] at h
  split at h
  · cases h
    exact hx
  · obtain ⟨u', hfold, -, hseen⟩ := hw.updateThreads hv hw.size
    rw [hfold] at h
    cases h
    exact (hseen x).2 (.inl hx)

theorem PosRun.run (h : PosRun v) : ∃ S, Run v S := by
  induction h with
  | empty => exact ⟨_, .empty⟩
  | updateIdx _ _ hstep ih => exact ih.elim fun _ h => ⟨_, h.updateIdx _ hstep⟩
  | setMax _ _ hstep ih => exact ih.elim fun _ h => ⟨_, h.setMax _ hstep⟩
  | removeHole _ _ ih => exact ih.elim fun _ h => ⟨_, h.removeHole _⟩
  | addHole _ _ hstep ih =>
    exact ih.elim fun _ h => ⟨_, h.addHole _ (le_getMax_of_addHole hstep) hstep⟩
  | update _ _ hstep ih ih' =>
    obtain ⟨S, h⟩ := ih
    obtain ⟨T, h'⟩ := ih'
    exact ⟨S ∪ T, h.update h' hstep⟩

theorem PosRun.inv (h : PosRun v) : v.Inv :=
  h.run.elim fun _ h => h.models.inv

/-- The begins of the threads never become holes. -/
theorem PosRun.seen_begin (h : PosRun v) (t : ℕ) : v.Seen ⟨t, 0⟩ := by
  induction h with
  | empty => exact ⟨Nat.zero_le _, List.not_mem_nil⟩
  | updateIdx h _ hstep ih =>
    obtain ⟨v', hstep', -, hseen⟩ := h.inv.updateIdx _
    cases hstep.symm.trans hstep'
    exact (hseen _).2 (.inl ih)
  | setMax h he hstep ih =>
    obtain ⟨v', hstep', -, hseen⟩ := h.inv.setMax _
    cases hstep.symm.trans hstep'
    exact (hseen _).2 (.inl ⟨ih, fun _ => ⟨Nat.zero_le _, he⟩⟩)
  | removeHole h _ ih => exact ((h.inv.removeHole _).2 _).2 (.inl ih)
  | addHole h he hstep ih =>
    obtain ⟨v', hstep', -, -, hseen⟩ := h.inv.addHole (le_getMax_of_addHole hstep)
    cases hstep.symm.trans hstep'
    refine (hseen _).2 ⟨ih, ?_⟩
    rintro rfl
    exact lt_irrefl 0 he
  | update h h' hstep ih _ => exact h.inv.seen_update h'.inv hstep ih

/-- The holes of every thread are in range. -/
def HolesInRange (v : DepView) : Prop :=
  ∀ t, ∀ i ∈ v.holesAt t, 1 ≤ i ∧ i ≤ v.getMax t

/-- A hole is reported at the event exactly when it is one: up to the maximum, not contained. -/
def ReportsHole (v : DepView) (e : Event) : Prop :=
  v.hasHole e = true ↔ e.index ≤ v.getMax e.thread ∧ v.contains e = false

theorem PosRun.holesInRange (h : PosRun v) : v.HolesInRange := by
  refine fun t i hi => ⟨Nat.pos_of_ne_zero ?_, h.inv.below t i hi⟩
  rintro rfl
  exact (h.seen_begin t).2 hi

/-- What is to be reported: the events that are recorded as holes. -/
theorem Inv.hole_iff (h : v.Inv) {e : Event} (he : 1 ≤ e.index) :
    e.index ≤ v.getMax e.thread ∧ v.contains e = false ↔ e.index ∈ v.holesAt e.thread := by
  rw [← Bool.not_eq_true, h.toWf.contains_iff, Seen, or_iff_right (by omega)]
  refine ⟨fun ⟨hle, hnot⟩ => ?_, fun hi => ⟨h.below _ _ hi, fun hseen => hseen.2 hi⟩⟩
  by_contra hi
  exact hnot ⟨hle, hi⟩

theorem Wf.hasHole_iff (h : v.Wf) {e : Event} :
    v.hasHole e = true ↔ e.thread < v.holes.length ∧ e.index ∉ v.holesAt e.thread := by
  rw [hasHole, Bool.and_eq_true, decide_eq_true_iff, decide_eq_true_iff,
    (h.sorted e.thread).count_eq_zero_iff]

theorem holesAt_of_length_le {t : ℕ} (h : v.holes.length ≤ t) : v.holesAt t = VSet.empty := by
  rw [holesAt, List.getD_eq_default _ _ h]

/-- **Holes stay in range, and `hasHole` is right for the threads without a set of holes only**:
for all others it says the opposite of what it should. -/
theorem PosRun.reportsHole_iff (h : PosRun v) {e : Event} (he : 1 ≤ e.index) :
    v.HolesInRange ∧ v.ReportsHole e ↔ v.holes.length ≤ e.thread := by
  rw [and_iff_right h.holesInRange, ReportsHole, h.inv.hole_iff he, h.inv.toWf.hasHole_iff]
  refine ⟨fun hiff => ?_, fun hlen => ?_⟩
  · by_contra hlen
    rw [and_iff_right (not_le.1 hlen)] at hiff
    exact iff_not_self hiff.symm
  · have hmem : e.index ∉ v.holesAt e.thread := by
      rw [holesAt_of_length_le hlen]
      exact List.not_mem_nil
    exact iff_of_false (fun hlt => absurd hlt.1 (not_lt.2 hlen)) hmem

/-- A view with an event of thread 0 says the truth about thread 1. -/
theorem reportsHole_otherThread :
    ∃ v, empty.updateIdx ⟨0, 3⟩ = some v ∧ v.contains ⟨0, 3⟩ = true ∧
      v.HolesInRange ∧ v.ReportsHole ⟨1, 3⟩ := by
  obtain ⟨v, hstep, -⟩ := inv_empty.updateIdx ⟨0, 3⟩
  have hfacts : (empty.updateIdx ⟨0, 3⟩).map (fun v => (v.contains ⟨0, 3⟩, v.holes.length)) =
      some (true, 1) := by decide
  rw [hstep, Option.map_some, Option.some_inj, Prod.mk.injEq] at hfacts
  obtain ⟨hin, hlen⟩ := hfacts
  exact ⟨v, hstep, hin, (PosRun.reportsHole_iff (.updateIdx .empty (by decide) hstep)
    (by decide)).2 hlen.le⟩

/-- An event that was just added is reported as a hole. -/
theorem not_reportsHole_updateIdx :
    ∃ v, empty.updateIdx ⟨1, 3⟩ = some v ∧ PosRun v ∧ ¬ v.ReportsHole ⟨1, 3⟩ := by
  obtain ⟨v, hstep, -⟩ := inv_empty.updateIdx ⟨1, 3⟩
  refine ⟨v, hstep, .updateIdx .empty (by decide) hstep, fun h => ?_⟩
  have hwrong : v.hasHole ⟨1, 3⟩ = true ∧ v.contains ⟨1, 3⟩ = true := by
    have heq : (empty.updateIdx ⟨1, 3⟩).map
        (fun v => (v.hasHole ⟨1, 3⟩, v.contains ⟨1, 3⟩)) = some (true, true) := by decide
    rw [hstep, Option.map_some, Option.some_inj, Prod.mk.injEq] at heq
    exact heq
  rw [(h.1 hwrong.1).2] at hwrong
  cases hwrong.2

end DepView
end GenMC
