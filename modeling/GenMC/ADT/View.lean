import GenMC.Execution.Event
import Mathlib.Data.Finset.Card
import Mathlib.Data.List.GetD

/-!
# Views that share their contents

A view of the source is a pointer to a vector that it may share with other views (its *base*) and
one event on top of it (its *diff*).  Copying a view shares the base; changing a view changes the
base in place if no one else has it, hides the change in the diff if it can, and copies the base
(`hydrate`) only when there is no other way.  Which of these happens depends on reference counts and
on which views share their bases, that is on the history of all views together.

* `Memory` is a population of views and the bases they point to, with their reference counts.
* `Op` and `Memory.step` are the operations on views, with the fast paths of the source.
* `Reference` is the same population with every view a map of its own, and the pointwise maximum for
  the updates (`View.updateIdx` and `View.update`).
* `RcInv` says that the reference counts are right; `Memory.step_models` that the operations do to
  the views what they do to the maps, and `run_models` that this is so after any sequence of them.

A view that has been moved from keeps its diff and loses its base.  Its value is unspecified, and
the reference has none for it until something is assigned to it.
-/

set_option autoImplicit false

namespace GenMC

/-- `std::max` on events, which are ordered by thread and then by index. -/
def Event.max (a b : Event) : Event :=
  if a.thread < b.thread ∨ (a.thread = b.thread ∧ a.index < b.index) then b else a

namespace SharedView

/-- The vector of a base. -/
abbrev ViewBase := List ℕ

namespace ViewBase

def getMax (v : ViewBase) (t : ℕ) : ℕ := if t < v.length then v.getD t 0 else 0

def contains (v : ViewBase) (e : Event) : Bool := e.index ≤ getMax v e.thread

/-- Whether another vector is below this one. -/
def containsView (v w : ViewBase) : Bool :=
  if v.length < w.length then false
  else (List.range w.length).all fun i => w.getD i 0 ≤ v.getD i 0

/-- Appends zeros. -/
def resize (v : ViewBase) (n : ℕ) : ViewBase := v ++ List.replicate (n - v.length) 0

/-- Removes the zeros at the end. -/
def trim (v : ViewBase) : ViewBase := (v.reverse.dropWhile (· == 0)).reverse

def setMax (v : ViewBase) (e : Event) : ViewBase :=
  if e.index = 0 ∧ v.length ≤ e.thread then v
  else
    let v' := ((if v.length ≤ e.thread then resize v (e.thread + 1) else v).set e.thread e.index)
    if e.index = 0 ∧ e.thread = v'.length - 1 then trim v' else v'

def updateIdx (v : ViewBase) (e : Event) : ViewBase :=
  if getMax v e.thread < e.index then setMax v e else v

def update (v w : ViewBase) : ViewBase :=
  if w.isEmpty then v
  else
    (if v.length < w.length then resize v w.length else v).mapIdx fun i x =>
      if i < w.length then max x (w.getD i 0) else x

/-! ## Vectors as maps -/

@[simp] theorem getMax_eq (v : ViewBase) (t : ℕ) : getMax v t = v.getD t 0 := by
  rw [getMax]
  split
  · rfl
  · rename_i h
    rw [List.getD_eq_default _ _ (not_lt.1 h)]

theorem getD_resize (v : ViewBase) (n t : ℕ) : (resize v n).getD t 0 = v.getD t 0 := by
  rw [resize, List.getD_eq_getElem?_getD, List.getD_eq_getElem?_getD]
  by_cases h : t < v.length
  · rw [List.getElem?_append_left h]
  · rw [List.getElem?_append_right (not_lt.1 h), List.getElem?_eq_none (not_lt.1 h)]
    by_cases h' : t - v.length < n - v.length
    · rw [List.getElem?_replicate, if_pos h']
      rfl
    · rw [List.getElem?_replicate, if_neg h']

theorem length_resize (v : ViewBase) (n : ℕ) : (resize v n).length = max v.length n := by
  rw [resize, List.length_append, List.length_replicate]
  omega

/-- A vector is changed at one thread. -/
theorem getD_setMax (v : ViewBase) {e : Event} (he : e.index ≠ 0) (t : ℕ) :
    (setMax v e).getD t 0 = if t = e.thread then e.index else v.getD t 0 := by
  rw [setMax, if_neg (fun h => he h.1)]
  simp only
  rw [if_neg (fun h => he h.1), List.getD_eq_getElem?_getD, List.getElem?_set]
  by_cases ht : e.thread = t
  · subst ht
    rw [if_pos rfl, if_pos rfl]
    have hlt : e.thread < (if v.length ≤ e.thread then resize v (e.thread + 1) else v).length := by
      split
      · rw [length_resize]
        omega
      · omega
    rw [if_pos hlt]
    rfl
  · rw [if_neg ht, if_neg (Ne.symm ht), ← List.getD_eq_getElem?_getD]
    split
    · exact getD_resize v _ t
    · rfl

/-- `updateIdx` is the maximum with one event. -/
theorem getD_updateIdx (v : ViewBase) (e : Event) (t : ℕ) :
    (updateIdx v e).getD t 0 =
      if t = e.thread then max (v.getD t 0) e.index else v.getD t 0 := by
  rw [updateIdx, getMax_eq]
  by_cases hlt : v.getD e.thread 0 < e.index
  · rw [if_pos hlt, getD_setMax v (by omega)]
    by_cases ht : t = e.thread
    · subst ht
      rw [if_pos rfl, if_pos rfl, max_eq_right hlt.le]
    · rw [if_neg ht, if_neg ht]
  · rw [if_neg hlt]
    by_cases ht : t = e.thread
    · subst ht
      rw [if_pos rfl, max_eq_left (not_lt.1 hlt)]
    · rw [if_neg ht]

/-- `update` is the pointwise maximum. -/
theorem getD_update (v w : ViewBase) (t : ℕ) :
    (update v w).getD t 0 = max (v.getD t 0) (w.getD t 0) := by
  rw [update]
  by_cases hw : w.isEmpty = true
  · rw [if_pos hw, List.isEmpty_iff.1 hw]
    simp
  · rw [if_neg hw]
    set u := if v.length < w.length then resize v w.length else v with hu
    have hget : u.getD t 0 = v.getD t 0 := by
      rw [hu]
      split
      · exact getD_resize v _ t
      · rfl
    have hlen : w.length ≤ u.length := by
      rw [hu]
      split
      · rw [length_resize]
        omega
      · omega
    rw [List.getD_eq_getElem?_getD, List.getElem?_mapIdx]
    by_cases ht : t < u.length
    · rw [List.getD_eq_getElem?_getD, List.getElem?_eq_getElem ht] at hget
      rw [List.getElem?_eq_getElem ht, ← hget]
      by_cases htw : t < w.length
      · simp [htw]
      · rw [List.getD_eq_default w 0 (not_lt.1 htw)]
        simp [htw]
    · have hv : v.getD t 0 = 0 := by
        rw [← hget, List.getD_eq_default u 0 (not_lt.1 ht)]
      rw [List.getElem?_eq_none (not_lt.1 ht), hv, List.getD_eq_default w 0 (by omega)]
      rfl

/-- What `containsView` answers is right when it says yes. -/
theorem getD_le_of_containsView {v w : ViewBase} (h : containsView v w = true) (t : ℕ) :
    w.getD t 0 ≤ v.getD t 0 := by
  rw [containsView] at h
  split at h
  · cases h
  · by_cases ht : t < w.length
    · simpa using List.all_eq_true.1 h t (List.mem_range.2 ht)
    · rw [List.getD_eq_default w 0 (not_lt.1 ht)]
      exact Nat.zero_le _

end ViewBase

/-! ## Views in memory -/

/-- A view: a pointer to a base and an event on top of it. -/
structure Obj where
  base : Option ℕ
  diff : Event

/-- A base with its reference count. -/
structure Cell where
  view : ViewBase
  count : ℕ

/-- A population of views and their bases. -/
structure Memory where
  cells : ℕ → Option Cell
  /-- The next address. -/
  fresh : ℕ
  objs : ℕ → Option Obj
  /-- How many views there have been. -/
  numObjs : ℕ

namespace Memory

def empty : Memory := ⟨fun _ => none, 0, fun _ => none, 0⟩

def baseOf (m : Memory) (i : ℕ) : Option ℕ := (m.objs i).bind (·.base)

def diffOf (m : Memory) (i : ℕ) : Event := ((m.objs i).map (·.diff)).getD Event.getInit

/-- The vector a view points to. -/
def baseView (m : Memory) (i : ℕ) : ViewBase :=
  (((m.baseOf i).bind m.cells).map (·.view)).getD []

def useCount (m : Memory) (i : ℕ) : ℕ := (((m.baseOf i).bind m.cells).map (·.count)).getD 0

/-- `View::getMax`. -/
def getMax (m : Memory) (i t : ℕ) : ℕ :=
  let baseMax := if (m.baseOf i).isSome then ViewBase.getMax (m.baseView i) t else 0
  if ¬ (m.diffOf i).isInitializer ∧ (m.diffOf i).thread = t then max baseMax (m.diffOf i).index
  else baseMax

def contains (m : Memory) (i : ℕ) (e : Event) : Bool := e.index ≤ m.getMax i e.thread

/-! ### Pointers -/

/-- `Rc::add_ref`. -/
def addRef (m : Memory) (a : ℕ) : Memory :=
  { m with
    cells := Function.update m.cells a ((m.cells a).map fun c => { c with count := c.count + 1 }) }

/-- `Rc::release`: the last reference deletes the base. -/
def release (m : Memory) (a : ℕ) : Memory :=
  { m with
    cells := Function.update m.cells a ((m.cells a).bind fun c =>
      if c.count - 1 = 0 then none else some { c with count := c.count - 1 }) }

def addRef? (m : Memory) (o : Option ℕ) : Memory := o.elim m m.addRef

def release? (m : Memory) (o : Option ℕ) : Memory := o.elim m m.release

/-- Puts a view in a slot. -/
def setObj (m : Memory) (i : ℕ) (o : Option Obj) : Memory :=
  { m with objs := Function.update m.objs i o }

/-- Replaces a view: the new base is referenced before the old one is released. -/
def replace (m : Memory) (i : ℕ) (o : Option Obj) : Memory :=
  ((m.addRef? (o.bind (·.base))).setObj i o).release? (m.baseOf i)

/-- `base_ = b`. -/
def setBase (m : Memory) (i : ℕ) (b : Option ℕ) : Memory := m.replace i (some ⟨b, m.diffOf i⟩)

def setDiff (m : Memory) (i : ℕ) (e : Event) : Memory := m.setObj i (some ⟨m.baseOf i, e⟩)

/-- Changes the vector a view points to. -/
def modifyBase (m : Memory) (i : ℕ) (f : ViewBase → ViewBase) : Memory :=
  match m.baseOf i with
  | none => m
  | some a =>
    { m with
      cells := Function.update m.cells a ((m.cells a).map fun c => { c with view := f c.view }) }

/-- `make_intrusive`: a base at a new address, not referenced yet. -/
def alloc (m : Memory) (v : ViewBase) : Memory :=
  { m with
    cells := Function.update m.cells m.fresh (some ⟨v, 0⟩)
    fresh := m.fresh + 1 }

/-! ### Operations on views -/

/-- `View::hydrate`. -/
def hydrate (m : Memory) (i : ℕ) : Memory :=
  let m₁ := (m.alloc (m.baseView i)).setBase i (some m.fresh)
  if (m₁.diffOf i).isInitializer then m₁
  else (m₁.modifyBase i (ViewBase.updateIdx · (m₁.diffOf i))).setDiff i Event.getInit

/-- `View::updateIdx`. -/
def updateIdx (m : Memory) (i : ℕ) (e : Event) : Memory :=
  if m.contains i e then m
  else if (m.baseOf i).isSome ∧ m.useCount i = 1 then m.modifyBase i (ViewBase.updateIdx · e)
  else if (m.diffOf i).isInitializer then m.setDiff i e
  else if e.thread = (m.diffOf i).thread then m.setDiff i (Event.max (m.diffOf i) e)
  else (m.hydrate i).modifyBase i (ViewBase.updateIdx · e)

/-- `View::contains(const View &)`. -/
def containsView (m : Memory) (i j : ℕ) : Bool :=
  if i = j then true
  else if ¬ (m.diffOf j).isInitializer ∧ (m.diffOf j).index > m.getMax i (m.diffOf j).thread then
    false
  else if m.baseOf j = none ∨ m.baseOf i = m.baseOf j then true
  else if m.baseOf i = none then (m.baseView j).isEmpty
  else ViewBase.containsView (m.baseView i) (m.baseView j)

/-- The helper of `View::update`: merges view `j` into the base of view `i`. -/
def merge (m : Memory) (i j : ℕ) : Memory :=
  let m₁ := if (m.baseOf j).isSome ∧ m.baseOf i ≠ m.baseOf j then
      m.modifyBase i (ViewBase.update · (m.baseView j))
    else m
  if (m₁.diffOf j).isInitializer then m₁
  else m₁.modifyBase i (ViewBase.updateIdx · (m₁.diffOf j))

/-- The end of `View::update`. -/
def mergeSlow (m : Memory) (i j : ℕ) : Memory :=
  if m.containsView i j then m else (m.hydrate i).merge i j

/-- `View::update`. -/
def update (m : Memory) (i j : ℕ) : Memory :=
  if (m.baseOf i).isSome ∧ m.useCount i = 1 then m.merge i j
  else if m.baseOf i = none ∧ (m.diffOf i).isInitializer then
    (m.setBase i (m.baseOf j)).setDiff i (m.diffOf j)
  else if m.baseOf i = none ∨ m.baseOf j = none ∨ m.baseOf i = m.baseOf j then
    let m₁ := if m.baseOf i = none then m.setBase i (m.baseOf j) else m
    if (m₁.diffOf i).isInitializer then
      if (m₁.baseOf i).isSome ∧ ¬ ViewBase.contains (m₁.baseView i) (m₁.diffOf j) then
        m₁.setDiff i (m₁.diffOf j)
      else m₁
    else if (m₁.diffOf j).isInitializer then
      if (m₁.baseOf i).isSome ∧ ViewBase.contains (m₁.baseView i) (m₁.diffOf i) then
        m₁.setDiff i Event.getInit
      else m₁
    else if (m₁.diffOf i).thread = (m₁.diffOf j).thread then
      m₁.setDiff i (Event.max (m₁.diffOf i) (m₁.diffOf j))
    else m₁.mergeSlow i j
  else m.mergeSlow i j

/-- A new view with a base and a diff. -/
def push (m : Memory) (b : Option ℕ) (d : Event) : Memory :=
  { m with numObjs := m.numObjs + 1 }.replace m.numObjs (some ⟨b, d⟩)

end Memory

/-- The operations on a population of views. -/
inductive Op where
  | create
  | copy (i : ℕ)
  | move (i : ℕ)
  | assign (i j : ℕ)
  | moveAssign (i j : ℕ)
  | destroy (i : ℕ)
  | updateIdx (i : ℕ) (e : Event)
  | update (i j : ℕ)

/-- The views an operation is about. -/
def Op.operands : Op → List ℕ
  | create => []
  | copy i => [i]
  | move i => [i]
  | assign i j => [i, j]
  | moveAssign i j => [i, j]
  | destroy i => [i]
  | updateIdx i _ => [i]
  | update i j => [i, j]

/-- What an operation does.  A moved pointer changes its owner and not its count, which is what
copying it and clearing the source does. -/
def Memory.apply (m : Memory) : Op → Memory
  | .create => m.push none Event.getInit
  | .copy i => m.push (m.baseOf i) (m.diffOf i)
  | .move i => (m.push (m.baseOf i) (m.diffOf i)).setBase i none
  | .assign i j => if i = j then m else (m.setBase i (m.baseOf j)).setDiff i (m.diffOf j)
  | .moveAssign i j =>
    if i = j then m else ((m.setBase i (m.baseOf j)).setDiff i (m.diffOf j)).setBase j none
  | .destroy i => m.replace i none
  | .updateIdx i e => m.updateIdx i e
  | .update i j => m.update i j

/-- An operation on views that exist. -/
def Memory.step (m : Memory) (op : Op) : Option Memory :=
  if op.operands.all fun i => (m.objs i).isSome then some (m.apply op) else none

/-- The same population, with a map for each view. -/
structure Reference where
  views : ℕ → Option View
  numObjs : ℕ

namespace Reference

def empty : Reference := ⟨fun _ => none, 0⟩

def set (r : Reference) (i : ℕ) (v : Option View) : Reference :=
  { r with views := Function.update r.views i v }

def push (r : Reference) (v : Option View) : Reference :=
  { r.set r.numObjs v with numObjs := r.numObjs + 1 }

def apply (r : Reference) : Op → Reference
  | .create => r.push (some View.empty)
  | .copy i => r.push (r.views i)
  | .move i => (r.push (r.views i)).set i none
  | .assign i j => r.set i (r.views j)
  | .moveAssign i j => if i = j then r else (r.set i (r.views j)).set j none
  | .destroy i => r.set i none
  | .updateIdx i e => r.set i ((r.views i).map (·.updateIdx e))
  | .update i j => r.set i ((r.views i).bind fun v => (r.views j).map v.update)

end Reference

/-- The views are what the maps are. -/
def Models (m : Memory) (r : Reference) : Prop :=
  m.numObjs = r.numObjs ∧ ∀ i v, r.views i = some v → ∀ t, m.getMax i t = v.getMax t

/-! ## Reference counts -/

namespace Memory

/-- The views that point to a base. -/
def owners (m : Memory) (a : ℕ) : Finset ℕ :=
  (Finset.range m.numObjs).filter fun i => m.baseOf i = some a

/-- Reference counts are right, pointers lead somewhere and new addresses are new. -/
structure RcInv (m : Memory) : Prop where
  count : ∀ a c, m.cells a = some c → c.count = (m.owners a).card
  valid : ∀ i a, m.baseOf i = some a → (m.cells a).isSome
  fresh : ∀ a, (m.cells a).isSome → a < m.fresh
  bound : ∀ i, m.numObjs ≤ i → m.objs i = none

theorem rcInv_empty : RcInv empty where
  count := nofun
  valid := nofun
  fresh := nofun
  bound := fun _ _ => rfl

variable {m : Memory} {i j : ℕ}

theorem RcInv.lt_numObjs (h : RcInv m) (hi : (m.objs i).isSome) : i < m.numObjs := by
  by_contra hge
  rw [h.bound i (not_lt.1 hge)] at hi
  cases hi

theorem RcInv.mem_owners (h : RcInv m) {a : ℕ} : i ∈ m.owners a ↔ m.baseOf i = some a := by
  rw [owners, Finset.mem_filter, Finset.mem_range, and_iff_right_iff_imp]
  intro hb
  refine h.lt_numObjs ?_
  cases ho : m.objs i with
  | none =>
    rw [baseOf, ho] at hb
    cases hb
  | some o => rfl

theorem cells_addRef? (o : Option ℕ) (a : ℕ) :
    (m.addRef? o).cells a =
      (m.cells a).map fun c => if o = some a then { c with count := c.count + 1 } else c := by
  cases o with
  | none => simp [addRef?]
  | some b =>
    simp only [addRef?, Option.elim, addRef]
    by_cases hb : a = b
    · subst hb
      simp
    · simp [hb, Ne.symm hb]

theorem cells_release? (o : Option ℕ) (a : ℕ) :
    (m.release? o).cells a =
      (m.cells a).bind fun c =>
        if o = some a then (if c.count - 1 = 0 then none else some { c with count := c.count - 1 })
        else some c := by
  cases o with
  | none => simp [release?]
  | some b =>
    simp only [release?, Option.elim, release]
    by_cases hb : a = b
    · subst hb
      simp
    · simp [hb, Ne.symm hb]

theorem objs_addRef? (o : Option ℕ) : (m.addRef? o).objs = m.objs := by
  cases o <;> rfl

theorem objs_release? (o : Option ℕ) : (m.release? o).objs = m.objs := by
  cases o <;> rfl

theorem objs_replace (o : Option Obj) (k : ℕ) :
    (m.replace i o).objs k = if k = i then o else m.objs k := by
  rw [replace, objs_release?, setObj]
  by_cases hk : k = i
  · subst hk
    simp
  · simp [hk, objs_addRef?]

theorem numObjs_replace (o : Option Obj) : (m.replace i o).numObjs = m.numObjs := by
  rw [replace]
  cases m.baseOf i <;> cases o.bind (·.base) <;> rfl

theorem fresh_replace (o : Option Obj) : (m.replace i o).fresh = m.fresh := by
  rw [replace]
  cases m.baseOf i <;> cases o.bind (·.base) <;> rfl

theorem baseOf_replace (o : Option Obj) (k : ℕ) :
    (m.replace i o).baseOf k = if k = i then o.bind (·.base) else m.baseOf k := by
  rw [baseOf, objs_replace]
  split <;> rfl

/-- The number of owners of a base before and after a view is replaced. -/
theorem card_owners_replace (o : Option Obj) (hi : i < m.numObjs) (a : ℕ) :
    ((m.replace i o).owners a).card + (if m.baseOf i = some a then 1 else 0) =
      (m.owners a).card + if o.bind (·.base) = some a then 1 else 0 := by
  have hmem : ∀ k, k ∈ (m.replace i o).owners a ↔
      k < m.numObjs ∧ (if k = i then o.bind (·.base) else m.baseOf k) = some a := by
    intro k
    rw [owners, Finset.mem_filter, Finset.mem_range, numObjs_replace, baseOf_replace]
  have hmem' : ∀ k, k ∈ m.owners a ↔ k < m.numObjs ∧ m.baseOf k = some a := by
    intro k
    rw [owners, Finset.mem_filter, Finset.mem_range]
  have herase : ((m.replace i o).owners a).erase i = (m.owners a).erase i := by
    ext k
    rw [Finset.mem_erase, Finset.mem_erase, hmem, hmem']
    by_cases hk : k = i
    · simp [hk]
    · simp [hk]
  have hnew : ((m.replace i o).owners a).card = (((m.replace i o).owners a).erase i).card +
      if o.bind (·.base) = some a then 1 else 0 := by
    by_cases hb : o.bind (·.base) = some a
    · rw [if_pos hb, Finset.card_erase_add_one ((hmem i).2 ⟨hi, by rw [if_pos rfl, hb]⟩)]
    · have : i ∉ (m.replace i o).owners a := by
        rw [hmem, if_pos rfl]
        exact fun hc => hb hc.2
      rw [if_neg hb, Finset.erase_eq_of_notMem this, Nat.add_zero]
  have hold : (m.owners a).card = ((m.owners a).erase i).card +
      if m.baseOf i = some a then 1 else 0 := by
    by_cases hb : m.baseOf i = some a
    · rw [if_pos hb, Finset.card_erase_add_one ((hmem' i).2 ⟨hi, hb⟩)]
    · have : i ∉ m.owners a := by
        rw [hmem']
        exact fun hc => hb hc.2
      rw [if_neg hb, Finset.erase_eq_of_notMem this, Nat.add_zero]
  rw [hnew, hold, herase]
  omega

/-- What replacing a view does to the bases: a base without owners goes away, and the count of the
others is that of their owners. -/
theorem RcInv.cells_replace (h : RcInv m) (o : Option Obj) (hi : i < m.numObjs) (a : ℕ) :
    (m.replace i o).cells a = (m.cells a).bind fun c =>
      if m.baseOf i = some a ∧ ((m.replace i o).owners a).card = 0 then none
      else some ⟨c.view, ((m.replace i o).owners a).card⟩ := by
  have hcard := card_owners_replace o hi a
  have hcells : (m.replace i o).cells a =
      (((m.addRef? (o.bind (·.base))).setObj i o).release? (m.baseOf i)).cells a := rfl
  rw [hcells, cells_release?]
  show ((m.addRef? (o.bind (·.base))).cells a).bind _ = _
  rw [cells_addRef?]
  cases hc : m.cells a with
  | none => rfl
  | some c =>
    have hcount := h.count a c hc
    simp only [Option.map_some, Option.bind_some]
    by_cases hold : m.baseOf i = some a
    · rw [if_pos hold] at hcard ⊢
      by_cases hnew : o.bind (·.base) = some a
      · rw [if_pos hnew] at hcard
        simp only [hnew, if_true, hold, true_and]
        rw [show c.count + 1 - 1 = ((m.replace i o).owners a).card by omega]
      · rw [if_neg hnew] at hcard
        simp only [hnew, if_false, hold, true_and]
        rw [show c.count - 1 = ((m.replace i o).owners a).card by omega]
    · rw [if_neg hold] at hcard
      simp only [hold, if_false, false_and]
      by_cases hnew : o.bind (·.base) = some a
      · rw [if_pos hnew] at hcard
        rw [if_pos hnew, show c.count + 1 = ((m.replace i o).owners a).card by omega]
      · rw [if_neg hnew] at hcard
        rw [if_neg hnew, show ((m.replace i o).owners a).card = c.count by omega]

/-- A base that is still pointed to keeps its vector. -/
theorem RcInv.view_replace (h : RcInv m) (o : Option Obj) (hi : i < m.numObjs) {k a : ℕ}
    (hk : (m.replace i o).baseOf k = some a) :
    ((m.replace i o).cells a).map (·.view) = (m.cells a).map (·.view) := by
  have hpos : ((m.replace i o).owners a).card ≠ 0 := by
    refine Finset.card_ne_zero_of_mem (a := k) ?_
    rw [owners, Finset.mem_filter, Finset.mem_range, numObjs_replace]
    refine ⟨?_, hk⟩
    by_cases hki : k = i
    · rw [hki]
      exact hi
    · rw [baseOf_replace, if_neg hki] at hk
      exact Finset.mem_range.1 (Finset.mem_filter.1 (h.mem_owners.2 hk)).1
  rw [h.cells_replace o hi a]
  cases m.cells a with
  | none => rfl
  | some c =>
    rw [Option.bind_some, if_neg (fun hc => hpos hc.2)]
    rfl

/-- **Replacing a view keeps the reference counts right.** -/
theorem RcInv.replace (h : RcInv m) (o : Option Obj) (hi : i < m.numObjs)
    (ho : ∀ a, o.bind (·.base) = some a → (m.cells a).isSome) : RcInv (m.replace i o) where
  count := by
    intro a c hc
    rw [h.cells_replace o hi a, Option.bind_eq_some_iff] at hc
    obtain ⟨c₀, -, hc⟩ := hc
    split at hc
    · cases hc
    · cases hc
      rfl
  valid := by
    intro k a hk
    have hview := h.view_replace o hi hk
    have hold : (m.cells a).isSome := by
      rw [baseOf_replace] at hk
      split at hk
      · exact ho a hk
      · exact h.valid k a hk
    have hmap : ((m.cells a).map (·.view)).isSome := by rw [Option.isSome_map]; exact hold
    rw [← hview, Option.isSome_map] at hmap
    exact hmap
  fresh := by
    intro a ha
    rw [fresh_replace]
    rw [h.cells_replace o hi a] at ha
    cases hc : m.cells a with
    | none =>
      rw [hc] at ha
      cases ha
    | some c => exact h.fresh a (by rw [hc]; rfl)
  bound := by
    intro k hk
    rw [numObjs_replace] at hk
    rw [objs_replace, if_neg (by omega)]
    exact h.bound k hk

/-- The vector of another view does not change when a view is replaced. -/
theorem RcInv.baseView_replace_of_ne (h : RcInv m) (o : Option Obj) (hi : i < m.numObjs) {k : ℕ}
    (hk : k ≠ i) : (m.replace i o).baseView k = m.baseView k := by
  have hbase : (m.replace i o).baseOf k = m.baseOf k := by rw [baseOf_replace, if_neg hk]
  rw [baseView, baseView, hbase]
  cases hb : m.baseOf k with
  | none => rfl
  | some a =>
    rw [Option.bind_some, Option.bind_some, h.view_replace o hi (hbase.trans hb)]

/-- The vector of the new view. -/
theorem RcInv.baseView_replace_self (h : RcInv m) (o : Option Obj) (hi : i < m.numObjs) :
    (m.replace i o).baseView i =
      (((o.bind (·.base)).bind m.cells).map (·.view)).getD [] := by
  have hbase : (m.replace i o).baseOf i = o.bind (·.base) := by rw [baseOf_replace, if_pos rfl]
  rw [baseView, hbase]
  cases hb : o.bind (·.base) with
  | none => rfl
  | some a =>
    rw [Option.bind_some, Option.bind_some, h.view_replace o hi (hbase.trans hb)]

theorem diffOf_replace (o : Option Obj) (k : ℕ) :
    (m.replace i o).diffOf k =
      if k = i then (o.map (·.diff)).getD Event.getInit else m.diffOf k := by
  rw [diffOf, objs_replace]
  split <;> rfl

/-! ## The value of a view -/

/-- What an event says about a thread. -/
def eventAt (d : Event) (t : ℕ) : ℕ := if d.thread = t then d.index else 0

/-- A view is the maximum of its vector and its diff. -/
theorem getMax_eq (t : ℕ) :
    m.getMax i t = max ((m.baseView i).getD t 0) (eventAt (m.diffOf i) t) := by
  have hbase : (if (m.baseOf i).isSome then ViewBase.getMax (m.baseView i) t else 0) =
      (m.baseView i).getD t 0 := by
    cases hb : m.baseOf i with
    | none =>
      have : m.baseView i = [] := by rw [baseView, hb]; rfl
      rw [this]
      rfl
    | some a => exact ViewBase.getMax_eq _ t
  rw [getMax, hbase, eventAt]
  by_cases ht : (m.diffOf i).thread = t
  · by_cases hd : (m.diffOf i).isInitializer = true
    · rw [if_neg (fun hc => hc.1 hd), if_pos ht, Event.isInitializer_iff.1 hd]
      exact (Nat.max_zero _).symm
    · rw [if_pos ⟨hd, ht⟩, if_pos ht]
  · rw [if_neg (fun hc => ht hc.2), if_neg ht, Nat.max_zero]

theorem getMax_congr {m' : Memory} {k : ℕ} (hb : m'.baseView k = m.baseView k)
    (hd : m'.diffOf k = m.diffOf k) (t : ℕ) : m'.getMax k t = m.getMax k t := by
  rw [getMax_eq, getMax_eq, hb, hd]

/-- The only owner of a base. -/
theorem RcInv.unique (h : RcInv m) (hi : (m.baseOf i).isSome) (hu : m.useCount i = 1) {k : ℕ}
    (hk : m.baseOf k = m.baseOf i) : k = i := by
  obtain ⟨a, ha⟩ := Option.isSome_iff_exists.1 hi
  obtain ⟨c, hc⟩ := Option.isSome_iff_exists.1 (h.valid i a ha)
  have hcount : c.count = 1 := by
    rw [useCount, ha, Option.bind_some, hc] at hu
    exact hu
  have hcard : (m.owners a).card = 1 := by rw [← h.count a c hc, hcount]
  exact Finset.card_le_one.1 hcard.le k (h.mem_owners.2 (hk.trans ha)) i (h.mem_owners.2 ha)

/-- A view has changed to a new value, and no other view has. -/
structure Changed (m m' : Memory) (i : ℕ) (f : ℕ → ℕ) : Prop where
  rc : RcInv m'
  numObjs : m'.numObjs = m.numObjs
  objs : ∀ k, (m'.objs k).isSome = (m.objs k).isSome
  self : ∀ t, m'.getMax i t = f t
  other : ∀ k, k ≠ i → ∀ t, m'.getMax k t = m.getMax k t

theorem RcInv.changed_refl (h : RcInv m) {f : ℕ → ℕ} (hf : ∀ t, m.getMax i t = f t) :
    Changed m m i f :=
  ⟨h, rfl, fun _ => rfl, hf, fun _ _ _ => rfl⟩

theorem Changed.trans {m₁ m₂ m₃ : Memory} {f f' : ℕ → ℕ} (h : Changed m₁ m₂ i f)
    (h' : Changed m₂ m₃ i f') : Changed m₁ m₃ i f' where
  rc := h'.rc
  numObjs := h'.numObjs.trans h.numObjs
  objs := fun k => (h'.objs k).trans (h.objs k)
  self := h'.self
  other := fun k hk t => (h'.other k hk t).trans (h.other k hk t)

/-! ## The building blocks -/

theorem objs_modifyBase (f : ViewBase → ViewBase) : (m.modifyBase i f).objs = m.objs := by
  rw [modifyBase]
  split <;> rfl

theorem baseOf_modifyBase (f : ViewBase → ViewBase) (k : ℕ) :
    (m.modifyBase i f).baseOf k = m.baseOf k := by
  rw [baseOf, objs_modifyBase, baseOf]

theorem diffOf_modifyBase (f : ViewBase → ViewBase) (k : ℕ) :
    (m.modifyBase i f).diffOf k = m.diffOf k := by
  rw [diffOf, objs_modifyBase, diffOf]

theorem numObjs_modifyBase (f : ViewBase → ViewBase) :
    (m.modifyBase i f).numObjs = m.numObjs := by
  rw [modifyBase]
  split <;> rfl

theorem fresh_modifyBase (f : ViewBase → ViewBase) : (m.modifyBase i f).fresh = m.fresh := by
  rw [modifyBase]
  split <;> rfl

theorem cells_modifyBase (f : ViewBase → ViewBase) (a : ℕ) :
    (m.modifyBase i f).cells a = (m.cells a).map fun c =>
      if m.baseOf i = some a then { c with view := f c.view } else c := by
  rw [modifyBase]
  split
  · rename_i hb
    rw [hb]
    simp
  · rename_i b hb
    rw [hb]
    by_cases ha : a = b
    · subst ha
      simp
    · simp [ha, Ne.symm ha]

theorem owners_modifyBase (f : ViewBase → ViewBase) (a : ℕ) :
    (m.modifyBase i f).owners a = m.owners a := by
  simp only [owners, numObjs_modifyBase, baseOf_modifyBase]

theorem RcInv.modifyBase (h : RcInv m) (f : ViewBase → ViewBase) :
    RcInv (m.modifyBase i f) where
  count := by
    intro a c hc
    rw [cells_modifyBase, Option.map_eq_some_iff] at hc
    obtain ⟨c₀, hc₀, rfl⟩ := hc
    rw [owners_modifyBase, ← h.count a c₀ hc₀]
    split <;> rfl
  valid := by
    intro k a hk
    rw [baseOf_modifyBase] at hk
    rw [cells_modifyBase, Option.isSome_map]
    exact h.valid k a hk
  fresh := by
    intro a ha
    rw [cells_modifyBase, Option.isSome_map] at ha
    rw [fresh_modifyBase]
    exact h.fresh a ha
  bound := by
    intro k hk
    rw [numObjs_modifyBase] at hk
    rw [objs_modifyBase]
    exact h.bound k hk

theorem RcInv.baseView_modifyBase_self (h : RcInv m) (hi : (m.baseOf i).isSome)
    (f : ViewBase → ViewBase) : (m.modifyBase i f).baseView i = f (m.baseView i) := by
  obtain ⟨a, ha⟩ := Option.isSome_iff_exists.1 hi
  obtain ⟨c, hc⟩ := Option.isSome_iff_exists.1 (h.valid i a ha)
  rw [baseView, baseOf_modifyBase, ha, Option.bind_some, cells_modifyBase, hc, baseView, ha,
    Option.bind_some, hc]
  simp

theorem baseView_modifyBase_of_ne (f : ViewBase → ViewBase) {k : ℕ}
    (hk : m.baseOf k ≠ m.baseOf i) : (m.modifyBase i f).baseView k = m.baseView k := by
  rw [baseView, baseOf_modifyBase, baseView]
  cases hb : m.baseOf k with
  | none => rfl
  | some a =>
    rw [Option.bind_some, Option.bind_some, cells_modifyBase, Option.map_map]
    cases m.cells a with
    | none => rfl
    | some c =>
      have : ¬ m.baseOf i = some a := fun hc => hk (hb.trans hc.symm)
      simp [this]

/-- **Changing a base in place changes one view**, if no other view has it. -/
theorem RcInv.changed_modifyBase (h : RcInv m) (hi : (m.baseOf i).isSome)
    (hu : m.useCount i = 1) {f : ViewBase → ViewBase} {g : ℕ → ℕ}
    (hg : ∀ t, max ((f (m.baseView i)).getD t 0) (eventAt (m.diffOf i) t) = g t) :
    Changed m (m.modifyBase i f) i g where
  rc := h.modifyBase f
  numObjs := numObjs_modifyBase f
  objs := fun k => by rw [objs_modifyBase]
  self := fun t => by
    rw [getMax_eq, h.baseView_modifyBase_self hi, diffOf_modifyBase, hg]
  other := fun k hk t => by
    refine getMax_congr (baseView_modifyBase_of_ne f fun hb => ?_) (diffOf_modifyBase f k) t
    exact hk (h.unique hi hu hb)

/-- Replacing the base and the diff of a view changes that view. -/
theorem RcInv.changed_replace (h : RcInv m) (hi : (m.objs i).isSome) (o : Obj)
    (ho : ∀ a, o.base = some a → (m.cells a).isSome) :
    Changed m (m.replace i (some o)) i fun t =>
      max ((((o.base.bind m.cells).map (·.view)).getD []).getD t 0) (eventAt o.diff t) where
  rc := h.replace (some o) (h.lt_numObjs hi) ho
  numObjs := numObjs_replace _
  objs := fun k => by
    rw [objs_replace]
    split
    · rename_i hk
      rw [hk, hi]
      rfl
    · rfl
  self := fun t => by
    rw [getMax_eq, h.baseView_replace_self (some o) (h.lt_numObjs hi), diffOf_replace, if_pos rfl]
    rfl
  other := fun k hk t => by
    refine getMax_congr (h.baseView_replace_of_ne _ (h.lt_numObjs hi) hk) ?_ t
    rw [diffOf_replace, if_neg hk]

theorem objs_setDiff (e : Event) (k : ℕ) :
    (m.setDiff i e).objs k = if k = i then some ⟨m.baseOf i, e⟩ else m.objs k := by
  rw [setDiff, setObj]
  by_cases hk : k = i
  · subst hk
    simp
  · simp [hk]

theorem baseOf_setDiff (e : Event) (k : ℕ) : (m.setDiff i e).baseOf k = m.baseOf k := by
  rw [baseOf, objs_setDiff]
  split
  · rename_i hk
    rw [hk]
    rfl
  · rfl

theorem baseView_setDiff (e : Event) (k : ℕ) : (m.setDiff i e).baseView k = m.baseView k := by
  rw [baseView, baseOf_setDiff, baseView]
  rfl

theorem diffOf_setDiff (e : Event) (k : ℕ) :
    (m.setDiff i e).diffOf k = if k = i then e else m.diffOf k := by
  rw [diffOf, objs_setDiff]
  split <;> rfl

/-- Changing the diff of a view changes that view. -/
theorem RcInv.changed_setDiff (h : RcInv m) (hi : (m.objs i).isSome) (e : Event) :
    Changed m (m.setDiff i e) i fun t => max ((m.baseView i).getD t 0) (eventAt e t) where
  rc :=
    { count := fun a c hc => by
        have howners : (m.setDiff i e).owners a = m.owners a := by
          simp only [owners, baseOf_setDiff]
          rfl
        rw [howners]
        exact h.count a c hc
      valid := fun k a hk => h.valid k a (by rwa [baseOf_setDiff] at hk)
      fresh := h.fresh
      bound := fun k hk => by
        have hlt := h.lt_numObjs hi
        have hk : m.numObjs ≤ k := hk
        rw [objs_setDiff, if_neg (by omega)]
        exact h.bound k hk }
  numObjs := rfl
  objs := fun k => by
    rw [objs_setDiff]
    split
    · rename_i hk
      rw [hk, hi]
      rfl
    · rfl
  self := fun t => by rw [getMax_eq, baseView_setDiff, diffOf_setDiff, if_pos rfl]
  other := fun k hk t =>
    getMax_congr (baseView_setDiff e k) (by rw [diffOf_setDiff, if_neg hk]) t

theorem cells_alloc (v : ViewBase) {a : ℕ} (ha : a ≠ m.fresh) :
    (m.alloc v).cells a = m.cells a := by
  simp [alloc, ha]

theorem RcInv.ne_fresh (h : RcInv m) {a k : ℕ} (hk : m.baseOf k = some a) : a ≠ m.fresh :=
  (h.fresh a (h.valid k a hk)).ne

theorem RcInv.alloc (h : RcInv m) (v : ViewBase) : RcInv (m.alloc v) where
  count := by
    intro a c hc
    by_cases ha : a = m.fresh
    · subst ha
      have hempty : (m.alloc v).owners m.fresh = ∅ :=
        Finset.filter_eq_empty_iff.2 fun k _ hk => h.ne_fresh (k := k) hk rfl
      have hcell : (m.alloc v).cells m.fresh = some ⟨v, 0⟩ := by simp [Memory.alloc]
      rw [hcell] at hc
      cases hc
      rw [hempty, Finset.card_empty]
    · rw [cells_alloc v ha] at hc
      exact h.count a c hc
  valid := by
    intro k a hk
    rw [cells_alloc v (h.ne_fresh (k := k) hk)]
    exact h.valid k a hk
  fresh := by
    intro a ha
    show a < m.fresh + 1
    by_cases hf : a = m.fresh
    · omega
    · rw [cells_alloc v hf] at ha
      have := h.fresh a ha
      omega
  bound := h.bound

theorem RcInv.baseView_alloc (h : RcInv m) (v : ViewBase) (k : ℕ) :
    (m.alloc v).baseView k = m.baseView k := by
  have hb : (m.alloc v).baseOf k = m.baseOf k := rfl
  rw [baseView, baseView, hb]
  cases hk : m.baseOf k with
  | none => rfl
  | some a => rw [Option.bind_some, Option.bind_some, cells_alloc v (h.ne_fresh hk)]

/-! ## Hydration -/

/-- The view has a base of its own and no diff; its value and all other views are as before. -/
structure Hydrated (m m' : Memory) (i : ℕ) : Prop where
  changed : Changed m m' i (m.getMax i)
  isSome : (m'.baseOf i).isSome
  unique : m'.useCount i = 1
  baseView : ∀ k, k ≠ i → m'.baseView k = m.baseView k
  diffOf : ∀ k, k ≠ i → m'.diffOf k = m.diffOf k

theorem RcInv.useCount_eq (h : RcInv m) {a : ℕ} (ha : m.baseOf i = some a) :
    m.useCount i = (m.owners a).card := by
  obtain ⟨c, hc⟩ := Option.isSome_iff_exists.1 (h.valid i a ha)
  rw [useCount, ha, Option.bind_some, hc, ← h.count a c hc]
  rfl

theorem useCount_modifyBase (f : ViewBase → ViewBase) (k : ℕ) :
    (m.modifyBase i f).useCount k = m.useCount k := by
  rw [useCount, baseOf_modifyBase, useCount]
  cases m.baseOf k with
  | none => rfl
  | some a =>
    rw [Option.bind_some, Option.bind_some, cells_modifyBase, Option.map_map]
    cases m.cells a with
    | none => rfl
    | some c =>
      simp only [Option.map_some, Function.comp]
      split <;> rfl

/-- **`hydrate` gives a view a base of its own** and changes no value. -/
theorem RcInv.hydrate (h : RcInv m) (hi : (m.objs i).isSome) : Hydrated m (m.hydrate i) i := by
  have hlt : i < m.numObjs := h.lt_numObjs hi
  set m₀ := m.alloc (m.baseView i) with hm₀
  have h₀ : RcInv m₀ := h.alloc _
  have hcell : m₀.cells m.fresh = some ⟨m.baseView i, 0⟩ := by simp [hm₀, Memory.alloc]
  set o : Obj := ⟨some m.fresh, m.diffOf i⟩ with ho
  set m₁ := m₀.replace i (some o) with hm₁
  have hc₁ : Changed m₀ m₁ i _ := h₀.changed_replace hi o fun a ha => by
    rw [← Option.some.inj ha, hcell]
    rfl
  have hbase : m₁.baseOf i = some m.fresh := by rw [hm₁, baseOf_replace, if_pos rfl]; rfl
  have hview : m₁.baseView i = m.baseView i := by
    rw [hm₁, h₀.baseView_replace_self (some o) hlt]
    show ((m₀.cells m.fresh).map (·.view)).getD [] = _
    rw [hcell]
    rfl
  have hdiff : m₁.diffOf i = m.diffOf i := by rw [hm₁, diffOf_replace, if_pos rfl]; rfl
  have hother : ∀ k, k ≠ i → m₁.baseView k = m.baseView k := by
    intro k hk
    rw [hm₁, h₀.baseView_replace_of_ne _ hlt hk, hm₀, h.baseView_alloc]
  have hotherd : ∀ k, k ≠ i → m₁.diffOf k = m.diffOf k := by
    intro k hk
    rw [hm₁, diffOf_replace, if_neg hk]
    rfl
  have huse : m₁.useCount i = 1 := by
    rw [hc₁.rc.useCount_eq hbase]
    have hcard := card_owners_replace (m := m₀) (some o) hlt m.fresh
    have hnot : m₀.baseOf i ≠ some m.fresh := fun hc => h.ne_fresh (k := i) hc rfl
    have hzero : (m₀.owners m.fresh).card = 0 := by rw [← h₀.count _ _ hcell]
    have hnew : ((some o).bind fun x => x.base) = some m.fresh := rfl
    rw [if_neg hnot, hzero, if_pos hnew] at hcard
    exact hcard
  have hstart : Changed m m₁ i (m.getMax i) :=
    { rc := hc₁.rc
      numObjs := hc₁.numObjs
      objs := hc₁.objs
      self := fun t => by rw [getMax_eq, getMax_eq, hview, hdiff]
      other := fun k hk t => getMax_congr (hother k hk) (hotherd k hk) t }
  have hdef : m.hydrate i = if (m₁.diffOf i).isInitializer then m₁
      else (m₁.modifyBase i (ViewBase.updateIdx · (m₁.diffOf i))).setDiff i Event.getInit := rfl
  have hsome : (m₁.baseOf i).isSome := by rw [hbase]; rfl
  rw [hdef]
  split
  · exact ⟨hstart, hsome, huse, hother, hotherd⟩
  · -- the diff moves into the base
    set m₂ := m₁.modifyBase i (ViewBase.updateIdx · (m₁.diffOf i)) with hm₂
    have hc₂ : Changed m₁ m₂ i _ := hc₁.rc.changed_modifyBase hsome huse (fun t => rfl)
    have hi₂ : (m₂.objs i).isSome := by rw [hc₂.objs, hc₁.objs]; exact hi
    have hview₂ : m₂.baseView i = ViewBase.updateIdx (m.baseView i) (m.diffOf i) := by
      rw [hm₂, hc₁.rc.baseView_modifyBase_self hsome, hview, hdiff]
    have hc₃ := hc₂.rc.changed_setDiff hi₂ Event.getInit
    refine ⟨(hstart.trans hc₂).trans ⟨hc₃.rc, hc₃.numObjs, hc₃.objs, fun t => ?_, hc₃.other⟩,
      ?_, ?_, ?_, ?_⟩
    · rw [hc₃.self, hview₂, ViewBase.getD_updateIdx, getMax_eq, eventAt, eventAt]
      by_cases ht : t = (m.diffOf i).thread
      · rw [if_pos ht, if_pos ht.symm]
        exact Nat.max_eq_left (by split <;> exact Nat.zero_le _)
      · rw [if_neg ht, if_neg (Ne.symm ht)]
        congr 1
        split <;> rfl
    · rw [baseOf_setDiff, hm₂, baseOf_modifyBase]
      exact hsome
    · show (m₂.setDiff i Event.getInit).useCount i = 1
      rw [useCount, baseOf_setDiff]
      show m₂.useCount i = 1
      rw [hm₂, useCount_modifyBase, huse]
    · intro k hk
      rw [baseView_setDiff, hm₂, baseView_modifyBase_of_ne _ fun hb => ?_]
      · exact hother k hk
      · exact hk (hc₁.rc.unique hsome huse hb)
    · intro k hk
      rw [diffOf_setDiff, if_neg hk, hm₂, diffOf_modifyBase]
      exact hotherd k hk

/-! ## The updates -/

theorem getD_updateIdx_eq (v : ViewBase) (e : Event) (t : ℕ) :
    (ViewBase.updateIdx v e).getD t 0 = max (v.getD t 0) (eventAt e t) := by
  rw [ViewBase.getD_updateIdx, eventAt]
  by_cases ht : t = e.thread
  · rw [if_pos ht, if_pos ht.symm]
  · rw [if_neg ht, if_neg (Ne.symm ht), Nat.max_zero]

theorem eventAt_init (t : ℕ) : eventAt Event.getInit t = 0 := by
  rw [eventAt]
  split <;> rfl

theorem eventAt_max {d e : Event} (h : d.thread = e.thread) (t : ℕ) :
    eventAt (Event.max d e) t = max (eventAt d t) (eventAt e t) := by
  by_cases hlt : d.index < e.index
  · have hmax : Event.max d e = e := if_pos (.inr ⟨h, hlt⟩)
    rw [hmax, eventAt, eventAt, h]
    split <;> omega
  · have hmax : Event.max d e = d := if_neg (by omega)
    rw [hmax, eventAt, eventAt, h]
    split <;> omega

theorem eventAt_le_of_contains {v : ViewBase} {e : Event} (h : ViewBase.contains v e = true)
    (t : ℕ) : eventAt e t ≤ v.getD t 0 := by
  have h' : e.index ≤ v.getD e.thread 0 := by
    simpa [ViewBase.contains] using h
  rw [eventAt]
  split
  · rename_i ht
    rw [← ht]
    exact h'
  · exact Nat.zero_le _

theorem RcInv.updateIdx (h : RcInv m) (hi : (m.objs i).isSome) (e : Event) :
    Changed m (m.updateIdx i e) i fun t => max (m.getMax i t) (eventAt e t) := by
  rw [Memory.updateIdx]
  split
  · -- the event is in the view already
    rename_i hc
    refine h.changed_refl fun t => ?_
    have hle : e.index ≤ m.getMax i e.thread := by simpa [Memory.contains] using hc
    rw [eventAt]
    split
    · rename_i ht
      rw [← ht, max_eq_left hle]
    · rw [Nat.max_zero]
  · split
    · rename_i hu
      refine h.changed_modifyBase hu.1 hu.2 fun t => ?_
      rw [getD_updateIdx_eq, getMax_eq]
      omega
    · split
      · rename_i hd
        have hc := h.changed_setDiff hi e
        refine ⟨hc.rc, hc.numObjs, hc.objs, fun t => ?_, hc.other⟩
        rw [hc.self, getMax_eq, Event.isInitializer_iff.1 hd, eventAt_init, Nat.max_zero]
      · split
        · rename_i ht
          have hc := h.changed_setDiff hi (Event.max (m.diffOf i) e)
          refine ⟨hc.rc, hc.numObjs, hc.objs, fun t => ?_, hc.other⟩
          rw [hc.self, getMax_eq, eventAt_max ht.symm]
          omega
        · have hh := h.hydrate hi
          refine hh.changed.trans (hh.changed.rc.changed_modifyBase hh.isSome hh.unique fun t => ?_)
          rw [getD_updateIdx_eq, ← hh.changed.self t, getMax_eq]
          omega

/-- Merging into a base of one's own. -/
theorem RcInv.merge (h : RcInv m) (hi : (m.baseOf i).isSome) (hu : m.useCount i = 1) (j : ℕ) :
    Changed m (m.merge i j) i fun t => max (m.getMax i t) (m.getMax j t) := by
  -- the base of the other view first
  obtain ⟨m₁, hm₁, hc₁, hb₁, hd₁, hu₁⟩ : ∃ m₁,
      m₁ = (if (m.baseOf j).isSome ∧ m.baseOf i ≠ m.baseOf j then
        m.modifyBase i (ViewBase.update · (m.baseView j)) else m) ∧
      Changed m m₁ i (fun t => max (m.getMax i t) ((m.baseView j).getD t 0)) ∧
      m₁.baseOf i = m.baseOf i ∧ m₁.diffOf j = m.diffOf j ∧ m₁.useCount i = 1 := by
    refine ⟨_, rfl, ?_⟩
    split
    · refine ⟨h.changed_modifyBase hi hu fun t => ?_, baseOf_modifyBase _ i, diffOf_modifyBase _ j,
        (useCount_modifyBase _ i).trans hu⟩
      rw [ViewBase.getD_update, getMax_eq]
      omega
    · rename_i hcond
      refine ⟨h.changed_refl fun t => ?_, rfl, rfl, hu⟩
      rw [getMax_eq]
      by_cases hj : (m.baseOf j).isSome
      · have heq : m.baseOf i = m.baseOf j := by
          by_contra hne
          exact hcond ⟨hj, hne⟩
        have hview : m.baseView j = m.baseView i := by rw [baseView, baseView, heq]
        rw [hview]
        omega
      · have hview : m.baseView j = [] := by
          rw [baseView, Option.not_isSome_iff_eq_none.1 hj]
          rfl
        rw [hview]
        simp
  have hdef : m.merge i j = if (m₁.diffOf j).isInitializer then m₁
      else m₁.modifyBase i (ViewBase.updateIdx · (m₁.diffOf j)) := by
    rw [hm₁]
    rfl
  rw [hdef, hd₁]
  split
  · rename_i hd
    refine ⟨hc₁.rc, hc₁.numObjs, hc₁.objs, fun t => ?_, hc₁.other⟩
    rw [hc₁.self, getMax_eq (i := j), Event.isInitializer_iff.1 hd, eventAt_init, Nat.max_zero]
  · refine hc₁.trans (hc₁.rc.changed_modifyBase (by rw [hb₁]; exact hi) hu₁ fun t => ?_)
    have h1 := hc₁.self t
    rw [getMax_eq] at h1
    rw [getD_updateIdx_eq, getMax_eq (i := j)]
    omega

/-- What `containsView` answers is right when it says yes. -/
theorem getMax_le_of_containsView (h : m.containsView i j = true) (t : ℕ) :
    m.getMax j t ≤ m.getMax i t := by
  rw [Memory.containsView] at h
  split at h
  · rename_i hij
    rw [hij]
  · split at h
    · cases h
    · rename_i hdiff
      have hd : eventAt (m.diffOf j) t ≤ m.getMax i t := by
        rw [eventAt]
        split
        · rename_i ht
          by_cases hinit : (m.diffOf j).isInitializer = true
          · rw [Event.isInitializer_iff.1 hinit]
            exact Nat.zero_le _
          · rw [← ht]
            by_contra hlt
            exact hdiff ⟨hinit, not_le.1 hlt⟩
        · exact Nat.zero_le _
      have hb : (m.baseView j).getD t 0 ≤ (m.baseView i).getD t 0 := by
        split at h
        · rename_i hor
          rcases hor with hnone | heq
          · have : m.baseView j = [] := by rw [baseView, hnone]; rfl
            rw [this]
            simp
          · have : m.baseView j = m.baseView i := by rw [baseView, baseView, heq]
            rw [this]
        · split at h
          · rw [List.isEmpty_iff.1 h]
            simp
          · exact ViewBase.getD_le_of_containsView h t
      have hi := getMax_eq (m := m) (i := i) t
      rw [getMax_eq (i := j)]
      omega

theorem RcInv.mergeSlow (h : RcInv m) (hi : (m.objs i).isSome) (j : ℕ) :
    Changed m (m.mergeSlow i j) i fun t => max (m.getMax i t) (m.getMax j t) := by
  rw [Memory.mergeSlow]
  split
  · rename_i hc
    exact h.changed_refl fun t => (max_eq_left (getMax_le_of_containsView hc t)).symm
  · have hh := h.hydrate hi
    have hm := hh.changed.rc.merge hh.isSome hh.unique j
    refine hh.changed.trans ⟨hm.rc, hm.numObjs, hm.objs, fun t => ?_, hm.other⟩
    rw [hm.self, hh.changed.self]
    by_cases hj : j = i
    · rw [hj, hh.changed.self]
    · rw [hh.changed.other j hj]

/-- The part of `update` that tries to get by with the diff, once the bases agree. -/
theorem RcInv.update_diff (h : RcInv m) (hi : (m.objs i).isSome)
    (hb : m.baseOf j = none ∨ m.baseOf i = m.baseOf j)
    (hne : m.baseOf i = none → ¬ (m.diffOf i).isInitializer = true) :
    Changed m
      (if (m.diffOf i).isInitializer then
        if (m.baseOf i).isSome ∧ ¬ ViewBase.contains (m.baseView i) (m.diffOf j) then
          m.setDiff i (m.diffOf j)
        else m
      else if (m.diffOf j).isInitializer then
        if (m.baseOf i).isSome ∧ ViewBase.contains (m.baseView i) (m.diffOf i) then
          m.setDiff i Event.getInit
        else m
      else if (m.diffOf i).thread = (m.diffOf j).thread then
        m.setDiff i (Event.max (m.diffOf i) (m.diffOf j))
      else m.mergeSlow i j) i fun t => max (m.getMax i t) (m.getMax j t) := by
  -- the vector of the other view adds nothing
  have hview : ∀ t, (m.baseView j).getD t 0 ≤ (m.baseView i).getD t 0 := by
    intro t
    rcases hb with hnone | heq
    · have : m.baseView j = [] := by rw [baseView, hnone]; rfl
      rw [this]
      simp
    · have : m.baseView j = m.baseView i := by rw [baseView, baseView, heq]
      rw [this]
  have hdiff : ∀ e, (∀ t, max ((m.baseView i).getD t 0) (eventAt e t) =
      max (m.getMax i t) (m.getMax j t)) →
      Changed m (m.setDiff i e) i fun t => max (m.getMax i t) (m.getMax j t) := by
    intro e he
    have hc := h.changed_setDiff hi e
    exact ⟨hc.rc, hc.numObjs, hc.objs, fun t => by rw [hc.self, he], hc.other⟩
  split
  · rename_i hd
    have hzero : ∀ t, eventAt (m.diffOf i) t = 0 := by
      intro t
      rw [Event.isInitializer_iff.1 hd, eventAt_init]
    split
    · refine hdiff _ fun t => ?_
      have := hview t
      rw [getMax_eq, getMax_eq, hzero]
      omega
    · rename_i hcond
      refine h.changed_refl fun t => ?_
      have hcontains : ViewBase.contains (m.baseView i) (m.diffOf j) = true := by
        by_contra hno
        have hsome : (m.baseOf i).isSome := by
          cases hbi : m.baseOf i with
          | none => exact absurd hd (hne hbi)
          | some a => rfl
        exact hcond ⟨hsome, hno⟩
      have h1 := hview t
      have h2 := eventAt_le_of_contains hcontains t
      rw [getMax_eq, getMax_eq, hzero]
      omega
  · split
    · rename_i hd
      have hzero : ∀ t, eventAt (m.diffOf j) t = 0 := by
        intro t
        rw [Event.isInitializer_iff.1 hd, eventAt_init]
      split
      · rename_i hcond
        refine hdiff _ fun t => ?_
        have h1 := hview t
        have h2 := eventAt_le_of_contains hcond.2 t
        rw [getMax_eq, getMax_eq, hzero, eventAt_init]
        omega
      · refine h.changed_refl fun t => ?_
        have h1 := hview t
        rw [getMax_eq, getMax_eq, hzero]
        omega
    · split
      · rename_i ht
        refine hdiff _ fun t => ?_
        have h1 := hview t
        rw [getMax_eq, getMax_eq, eventAt_max ht]
        omega
      · exact h.mergeSlow hi j

theorem baseOf_setBase (b : Option ℕ) (k : ℕ) :
    (m.setBase i b).baseOf k = if k = i then b else m.baseOf k := by
  rw [setBase, baseOf_replace]
  rfl

theorem diffOf_setBase (b : Option ℕ) (k : ℕ) : (m.setBase i b).diffOf k = m.diffOf k := by
  rw [setBase, diffOf_replace]
  split
  · rename_i hk
    rw [hk]
    rfl
  · rfl

/-- A view takes the base of another one. -/
theorem RcInv.changed_setBase (h : RcInv m) (hi : (m.objs i).isSome) (j : ℕ) :
    Changed m (m.setBase i (m.baseOf j)) i fun t =>
      max ((m.baseView j).getD t 0) (eventAt (m.diffOf i) t) :=
  h.changed_replace hi ⟨m.baseOf j, m.diffOf i⟩ fun a ha => h.valid j a ha

theorem RcInv.baseView_setBase_self (h : RcInv m) (hi : (m.objs i).isSome) (j : ℕ) :
    (m.setBase i (m.baseOf j)).baseView i = m.baseView j :=
  h.baseView_replace_self (some ⟨m.baseOf j, m.diffOf i⟩) (h.lt_numObjs hi)

/-- A view becomes a copy of another one. -/
theorem RcInv.changed_assign (h : RcInv m) (hi : (m.objs i).isSome) (j : ℕ) :
    Changed m ((m.setBase i (m.baseOf j)).setDiff i (m.diffOf j)) i (m.getMax j) := by
  have hc := h.changed_setBase hi j
  have hi' : ((m.setBase i (m.baseOf j)).objs i).isSome := by rw [hc.objs]; exact hi
  have hd := hc.rc.changed_setDiff hi' (m.diffOf j)
  refine hc.trans ⟨hd.rc, hd.numObjs, hd.objs, fun t => ?_, hd.other⟩
  rw [hd.self, h.baseView_setBase_self hi, getMax_eq]

/-- **`update` is the maximum of two views**, whichever of its paths is taken. -/
theorem RcInv.update (h : RcInv m) (hi : (m.objs i).isSome) (j : ℕ) :
    Changed m (m.update i j) i fun t => max (m.getMax i t) (m.getMax j t) := by
  rw [Memory.update]
  split
  · rename_i hu
    exact h.merge hu.1 hu.2 j
  · split
    · -- an empty view becomes a copy
      rename_i hempty
      have hc := h.changed_assign hi j
      refine ⟨hc.rc, hc.numObjs, hc.objs, fun t => ?_, hc.other⟩
      have hview : m.baseView i = [] := by rw [baseView, hempty.1]; rfl
      rw [hc.self, getMax_eq (i := i), hview, Event.isInitializer_iff.1 hempty.2, eventAt_init]
      simp
    · rename_i hfull
      split
      · rename_i hcompat
        by_cases hnone : m.baseOf i = none
        · -- the base of the other view is taken over first
          have hinit : ¬ (m.diffOf i).isInitializer = true := fun hd => hfull ⟨hnone, hd⟩
          have hc := h.changed_setBase hi j
          have hi' : ((m.setBase i (m.baseOf j)).objs i).isSome := by rw [hc.objs]; exact hi
          have hbases : (m.setBase i (m.baseOf j)).baseOf i =
              (m.setBase i (m.baseOf j)).baseOf j := by
            rw [baseOf_setBase, baseOf_setBase, if_pos rfl, ite_self]
          have hd := hc.rc.update_diff hi' (.inr hbases) fun _ => by rwa [diffOf_setBase]
          simp only [if_pos hnone]
          refine hc.trans ⟨hd.rc, hd.numObjs, hd.objs, fun t => ?_, hd.other⟩
          have hview : m.baseView i = [] := by rw [baseView, hnone]; rfl
          have hself := getMax_eq (m := m) (i := i) t
          rw [hview, List.getD_nil, Nat.zero_max] at hself
          rw [hd.self, hc.self]
          by_cases hj : j = i
          · subst hj
            rw [hc.self, hview, List.getD_nil, Nat.zero_max, hself]
          · have hother := getMax_eq (m := m) (i := j) t
            rw [hc.other j hj]
            omega
        · have hb : m.baseOf j = none ∨ m.baseOf i = m.baseOf j := by
            rcases hcompat with hn | hn | hn
            · exact absurd hn hnone
            · exact .inl hn
            · exact .inr hn
          simp only [if_neg hnone]
          exact h.update_diff hi hb fun hn => absurd hn hnone
      · exact h.mergeSlow hi j

/-! ## New views and moves -/

theorem RcInv.grow (h : RcInv m) : RcInv { m with numObjs := m.numObjs + 1 } where
  count := by
    intro a c hc
    have howners : ({ m with numObjs := m.numObjs + 1 } : Memory).owners a = m.owners a := by
      have hlast : m.baseOf m.numObjs ≠ some a := by
        rw [baseOf, h.bound _ le_rfl]
        nofun
      show (Finset.range (m.numObjs + 1)).filter (fun k => m.baseOf k = some a) = _
      rw [Finset.range_add_one, Finset.filter_insert, if_neg hlast]
      rfl
    rw [howners]
    exact h.count a c hc
  valid := h.valid
  fresh := h.fresh
  bound := fun k hk => h.bound k ((Nat.le_succ _).trans hk)

/-- A new view is a copy of the view whose base and diff it is given, and no view changes. -/
structure Pushed (m m' : Memory) (f : ℕ → ℕ) : Prop where
  rc : RcInv m'
  numObjs : m'.numObjs = m.numObjs + 1
  objs : ∀ k, (m.objs k).isSome → (m'.objs k).isSome
  new : ∀ t, m'.getMax m.numObjs t = f t
  other : ∀ k, k ≠ m.numObjs → ∀ t, m'.getMax k t = m.getMax k t

theorem RcInv.push (h : RcInv m) (o : Obj) (ho : ∀ a, o.base = some a → (m.cells a).isSome) :
    Pushed m (m.push o.base o.diff) fun t =>
      max ((((o.base.bind m.cells).map (·.view)).getD []).getD t 0) (eventAt o.diff t) where
  rc := h.grow.replace (some o) (Nat.lt_succ_self _) ho
  numObjs := numObjs_replace _
  objs := by
    intro k hk
    refine (congrArg Option.isSome (objs_replace (some o) k)).trans ?_
    split
    · rfl
    · exact hk
  new := by
    intro t
    have hview := h.grow.baseView_replace_self (some o) (Nat.lt_succ_self _)
    have hdiff := diffOf_replace (m := { m with numObjs := m.numObjs + 1 }) (i := m.numObjs)
      (some o) m.numObjs
    rw [if_pos rfl] at hdiff
    rw [getMax_eq]
    exact congrArg₂ (fun (v : ViewBase) d => max (v.getD t 0) (eventAt d t)) hview hdiff
  other := by
    intro k hk t
    refine getMax_congr (h.grow.baseView_replace_of_ne (some o) (Nat.lt_succ_self _) hk) ?_ t
    exact (diffOf_replace (some o) k).trans (if_neg hk)

theorem RcInv.push_copy (h : RcInv m) (i : ℕ) :
    Pushed m (m.push (m.baseOf i) (m.diffOf i)) (m.getMax i) := by
  have hp := h.push ⟨m.baseOf i, m.diffOf i⟩ fun a ha => h.valid i a ha
  refine ⟨hp.rc, hp.numObjs, hp.objs, fun t => ?_, hp.other⟩
  rw [hp.new, getMax_eq]
  rfl

theorem RcInv.push_create (h : RcInv m) : Pushed m (m.push none Event.getInit) fun _ => 0 := by
  have hp := h.push ⟨none, Event.getInit⟩ nofun
  refine ⟨hp.rc, hp.numObjs, hp.objs, fun t => ?_, hp.other⟩
  rw [hp.new, eventAt_init]
  rfl

/-- A view without a base and with the old diff still belongs to the population. -/
theorem RcInv.changed_clear (h : RcInv m) (hi : (m.objs i).isSome) :
    Changed m (m.setBase i none) i (eventAt (m.diffOf i)) := by
  have hc := h.changed_replace hi ⟨none, m.diffOf i⟩ nofun
  refine ⟨hc.rc, hc.numObjs, hc.objs, fun t => ?_, hc.other⟩
  exact (hc.self t).trans (Nat.zero_max _)

end Memory

/-! ## The maps and the views -/

open Memory

variable {m m' : Memory} {r : Reference}

theorem Models.changed (hr : Models m r) {i : ℕ} {f : ℕ → ℕ} {w : Option View}
    (hc : Changed m m' i f) (hw : ∀ v, w = some v → ∀ t, f t = v.getMax t) :
    Models m' (r.set i w) := by
  refine ⟨hc.numObjs.trans hr.1, fun k v hk t => ?_⟩
  by_cases hki : k = i
  · subst hki
    rw [hc.self]
    exact hw v (by simpa [Reference.set] using hk) t
  · rw [hc.other k hki]
    exact hr.2 k v (by simpa [Reference.set, hki] using hk) t

theorem Models.pushed (hr : Models m r) {f : ℕ → ℕ} {w : Option View} (hp : Pushed m m' f)
    (hw : ∀ v, w = some v → ∀ t, f t = v.getMax t) : Models m' (r.push w) := by
  refine ⟨by rw [hp.numObjs, hr.1]; rfl, fun k v hk t => ?_⟩
  by_cases hkn : k = m.numObjs
  · subst hkn
    rw [hp.new]
    exact hw v (by simpa [Reference.push, Reference.set, hr.1] using hk) t
  · rw [hp.other k hkn]
    exact hr.2 k v (by simpa [Reference.push, Reference.set, ← hr.1, hkn] using hk) t

theorem eventAt_eq_max (v : View) (e : Event) (t : ℕ) :
    (v.updateIdx e).getMax t = max (v.getMax t) (eventAt e t) := by
  rw [View.getMax_updateIdx, eventAt]
  by_cases ht : t = e.thread
  · rw [if_pos ht, if_pos ht.symm]
  · rw [if_neg ht, if_neg (Ne.symm ht), Nat.max_zero]

/-- **One operation does to the views what it does to the maps.** -/
theorem Memory.step_models {op : Op} (h : RcInv m) (hr : Models m r)
    (hs : m.step op = some m') : RcInv m' ∧ Models m' (r.apply op) := by
  rw [step] at hs
  split at hs
  · rename_i hlive
    have hlive : ∀ i ∈ op.operands, (m.objs i).isSome := fun i hi => List.all_eq_true.1 hlive i hi
    cases hs
    cases op with
    | create =>
      have hp := h.push_create
      exact ⟨hp.rc, hr.pushed hp fun v hv t => by cases hv; rfl⟩
    | copy i =>
      have hp := h.push_copy i
      exact ⟨hp.rc, hr.pushed hp fun v hv => hr.2 i v hv⟩
    | move i =>
      have hp := h.push_copy i
      have hc := hp.rc.changed_clear (hp.objs i (hlive i (by simp [Op.operands])))
      exact ⟨hc.rc, (hr.pushed hp fun v hv => hr.2 i v hv).changed hc nofun⟩
    | assign i j =>
      rw [Memory.apply]
      split
      · rename_i hij
        subst hij
        have hset : r.apply (.assign i i) = r := by simp [Reference.apply, Reference.set]
        rw [hset]
        exact ⟨h, hr⟩
      · have hc := h.changed_assign (hlive i (by simp [Op.operands])) j
        exact ⟨hc.rc, hr.changed hc fun v hv => hr.2 j v hv⟩
    | moveAssign i j =>
      rw [Memory.apply, Reference.apply]
      split
      · exact ⟨h, hr⟩
      · have hc := h.changed_assign (hlive i (by simp [Op.operands])) j
        have hj : (((m.setBase i (m.baseOf j)).setDiff i (m.diffOf j)).objs j).isSome := by
          rw [hc.objs]
          exact hlive j (by simp [Op.operands])
        have hd := hc.rc.changed_clear hj
        exact ⟨hd.rc, (hr.changed hc fun v hv => hr.2 j v hv).changed hd nofun⟩
    | destroy i =>
      have hlt := h.lt_numObjs (hlive i (by simp [Op.operands]))
      refine ⟨h.replace none hlt nofun, (numObjs_replace none).trans hr.1, fun k v hk t => ?_⟩
      by_cases hki : k = i
      · subst hki
        simp [Reference.apply, Reference.set] at hk
      · have hview := h.baseView_replace_of_ne none hlt hki
        have hdiff : (m.replace i none).diffOf k = m.diffOf k := by
          rw [diffOf_replace, if_neg hki]
        rw [show (m.apply (.destroy i)).getMax k t = m.getMax k t from getMax_congr hview hdiff t]
        exact hr.2 k v (by simpa [Reference.apply, Reference.set, hki] using hk) t
    | updateIdx i e =>
      have hc := h.updateIdx (hlive i (by simp [Op.operands])) e
      refine ⟨hc.rc, hr.changed hc fun v hv t => ?_⟩
      obtain ⟨w, hw, rfl⟩ := Option.map_eq_some_iff.1 hv
      rw [eventAt_eq_max, hr.2 i w hw]
    | update i j =>
      have hc := h.update (hlive i (by simp [Op.operands])) j
      refine ⟨hc.rc, hr.changed hc fun v hv t => ?_⟩
      obtain ⟨w, hw, hv⟩ := Option.bind_eq_some_iff.1 hv
      obtain ⟨w', hw', rfl⟩ := Option.map_eq_some_iff.1 hv
      rw [View.getMax_update, hr.2 i w hw, hr.2 j w' hw']
  · cases hs

/-- A sequence of operations, from a population without views. -/
def Memory.run (ops : List Op) : Option Memory := ops.foldlM Memory.step Memory.empty

def Reference.run (ops : List Op) : Reference := ops.foldl Reference.apply Reference.empty

theorem Memory.foldlM_models (ops : List Op) (h : RcInv m) (hr : Models m r)
    (hs : ops.foldlM Memory.step m = some m') :
    RcInv m' ∧ Models m' (ops.foldl Reference.apply r) := by
  induction ops generalizing m r with
  | nil =>
    cases hs
    exact ⟨h, hr⟩
  | cons op ops ih =>
    rw [List.foldlM_cons, Option.bind_eq_bind, Option.bind_eq_some_iff] at hs
    obtain ⟨m₁, hm₁, hs⟩ := hs
    obtain ⟨h₁, hr₁⟩ := Memory.step_models h hr hm₁
    exact ih h₁ hr₁ hs

/-- **After any sequence of operations, each view is the map that the same operations make of its
map**, whatever has been shared and copied on the way. -/
theorem run_models (ops : List Op) (hrun : Memory.run ops = some m) (i : ℕ) (v : View)
    (hv : (Reference.run ops).views i = some v) :
    (∀ t, m.getMax i t = v.getMax t) ∧ ∀ e, m.contains i e = v.contains e := by
  have hempty : Models Memory.empty Reference.empty := ⟨rfl, nofun⟩
  have hmax := (Memory.foldlM_models ops rcInv_empty hempty hrun).2.2 i v hv
  refine ⟨hmax, fun e => ?_⟩
  rw [Memory.contains, View.contains, hmax]

/-- Two views that share a base, with a diff each; then the first is updated with itself and with
the second, and the second is moved away. -/
def sharing : List Op :=
  [.create, .updateIdx 0 ⟨1, 2⟩, .updateIdx 0 ⟨2, 1⟩, .copy 0, .updateIdx 0 ⟨3, 4⟩,
    .updateIdx 1 ⟨1, 5⟩, .update 0 0, .update 0 1, .move 1, .updateIdx 2 ⟨4, 1⟩]

theorem sharing_models :
    ∃ m v, Memory.run sharing = some m ∧ (Reference.run sharing).views 0 = some v ∧
      (∀ t, m.getMax 0 t = v.getMax t) ∧ ∀ e, m.contains 0 e = v.contains e := by
  have hrun : (Memory.run sharing).isSome := by decide
  have href : ((Reference.run sharing).views 0).isSome := by decide
  obtain ⟨m, hm⟩ := Option.isSome_iff_exists.1 hrun
  obtain ⟨v, hv⟩ := Option.isSome_iff_exists.1 href
  exact ⟨m, v, hm, hv, run_models sharing hm 0 v hv⟩

end SharedView
end GenMC
