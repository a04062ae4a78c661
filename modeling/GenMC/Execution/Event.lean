import Mathlib.Order.Basic
import Mathlib.Tactic

/-!
# Events and views

An `Event` is the position of a label in an execution graph: a thread id and an index in that
thread.  Index `0` is the begin of the thread, and `(0, 0)` is the initializer.

A `View` is a vector clock: for each thread, the index of the last event seen.  The source keeps
it as a shared vector and a difference; here it is the function that `View::getMax` computes.  Two
features of that function matter to every user of it.  A view is closed under program order, and
*it contains the event of index `0` of every thread*, also of threads it has never heard of, since
`getMax` answers `0` for them.
-/

set_option autoImplicit false

namespace GenMC

/-- The position of a label in an execution graph. -/
structure Event where
  thread : ℕ
  index : ℕ
deriving DecidableEq, Repr, Inhabited

namespace Event

/-- The initializer. -/
def getInit : Event := ⟨0, 0⟩

/-- Whether an event is the initializer. -/
def isInitializer (e : Event) : Bool := e = getInit

/-- The position after an event in its thread. -/
def next (e : Event) : Event := ⟨e.thread, e.index + 1⟩

@[simp] theorem isInitializer_iff {e : Event} : e.isInitializer = true ↔ e = getInit := by
  simp [isInitializer]

theorem ext_iff' {a b : Event} : a = b ↔ a.thread = b.thread ∧ a.index = b.index := by
  cases a
  cases b
  simp

end Event

/-- A vector clock whose events are closed under program order. -/
@[ext] structure View where
  /-- The last index seen in a thread. -/
  getMax : ℕ → ℕ

namespace View

/-- The view in which nothing but the begins has been seen. -/
def empty : View := ⟨fun _ => 0⟩

instance : Inhabited View := ⟨empty⟩

/-- Whether an event is in the view. -/
def contains (v : View) (e : Event) : Bool := e.index ≤ v.getMax e.thread

/-- Makes `e` the last event seen in its thread. -/
def setMax (v : View) (e : Event) : View := ⟨Function.update v.getMax e.thread e.index⟩

/-- Adds `e` and its predecessors in program order. -/
def updateIdx (v : View) (e : Event) : View :=
  if v.getMax e.thread < e.index then v.setMax e else v

/-- Adds everything in another view. -/
def update (v w : View) : View := ⟨fun t => max (v.getMax t) (w.getMax t)⟩

@[simp] theorem contains_iff {v : View} {e : Event} :
    v.contains e = true ↔ e.index ≤ v.getMax e.thread := by
  simp [contains]

@[simp] theorem getMax_empty (t : ℕ) : empty.getMax t = 0 := rfl

@[simp] theorem getMax_update (v w : View) (t : ℕ) :
    (v.update w).getMax t = max (v.getMax t) (w.getMax t) := rfl

/-- Every view contains the begins. -/
theorem contains_of_index_eq_zero (v : View) {e : Event} (h : e.index = 0) :
    v.contains e = true := by
  simp [h]

/-- A view is closed under program order. -/
theorem contains_of_le {v : View} {t i j : ℕ} (h : v.contains ⟨t, j⟩ = true) (hij : i ≤ j) :
    v.contains ⟨t, i⟩ = true := by
  rw [contains_iff] at h ⊢
  exact hij.trans h

theorem getMax_updateIdx (v : View) (e : Event) (t : ℕ) :
    (v.updateIdx e).getMax t = if t = e.thread then max (v.getMax t) e.index else v.getMax t := by
  rw [updateIdx, setMax]
  split
  · by_cases ht : t = e.thread
    · subst ht
      simp only [Function.update_self, if_true]
      omega
    · simp [ht]
  · split
    · subst_vars
      omega
    · rfl

theorem contains_update {v w : View} {e : Event} :
    (v.update w).contains e = (v.contains e || w.contains e) := by
  rw [Bool.eq_iff_iff]
  simp

end View

end GenMC
