import GenMC.ADT.View
import Mathlib.Data.List.TakeWhile

/-!
# Assigning and comparing shared views

`View::setMax` and `View::contains(const View &)` are the two operations on views that do not work
for every view that there can be.  Both look at the base of a view and at its diff separately.

`setMax` may lower an entry, and a base that is not shared is changed in place, as if it were the
whole view.  It is, as long as *a view that is the only owner of its base has no diff*, which the
source asserts.  But a view becomes the only owner of its base also when the other owner goes away,
and then it may well have a diff.

`contains` compares the bases of two views with each other, and so it answers no if the base of one
view is only covered by the base and the diff of the other one together.

* `Call` and `Memory.call` are all operations on views: those of `Op`, and `setMax` and `clear`.
* `Call.Strands` says when a call takes the second to last owner away from a base whose last owner
  has a diff, and `setMax_exact` that in runs without such calls the assertion holds and `setMax`
  is an assignment.
* `Memory.OnlyDiffCovers` says when the diff is needed to cover a base, and
  `containsView_exact_iff` that these are the views for which `contains` is wrong.
-/

set_option autoImplicit false

namespace GenMC
namespace SharedView

/-! ## Vectors without zeros at the end -/

namespace ViewBase

/-- A vector that does not end with a zero. -/
def Trimmed (v : ViewBase) : Prop := v.getLast? ≠ some 0

theorem trimmed_nil : Trimmed [] := by simp [Trimmed]

theorem trim_append (v : ViewBase) :
    ∃ n, v = trim v ++ List.replicate n 0 := by
  refine ⟨(v.reverse.takeWhile (· == 0)).length, ?_⟩
  have hzero : v.reverse.takeWhile (· == 0) =
      List.replicate (v.reverse.takeWhile (· == 0)).length 0 := by
    refine List.eq_replicate_iff.2 ⟨rfl, fun x hx => ?_⟩
    simpa using List.mem_takeWhile_imp hx
  have hsplit := congrArg List.reverse
    (List.takeWhile_append_dropWhile (p := (· == 0)) (l := v.reverse))
  rw [List.reverse_append, List.reverse_reverse, hzero, List.reverse_replicate] at hsplit
  rw [trim]
  exact hsplit.symm

theorem getD_trim (v : ViewBase) (t : ℕ) : (trim v).getD t 0 = v.getD t 0 := by
  obtain ⟨n, hn⟩ := trim_append v
  conv_rhs => rw [hn]
  by_cases ht : t < (trim v).length
  · rw [List.getD_append _ _ _ _ ht]
  · rw [List.getD_append_right _ _ _ _ (not_lt.1 ht), List.getD_eq_default _ _ (not_lt.1 ht),
      List.getD_eq_getElem?_getD, List.getElem?_getD_replicate_default_eq]

theorem trimmed_trim (v : ViewBase) : Trimmed (trim v) := by
  rw [Trimmed, trim, List.getLast?_reverse]
  intro h
  have := List.head?_dropWhile_not (· == 0) v.reverse
  rw [h] at this
  simp at this

theorem getD_set (v : ViewBase) {i : ℕ} (hi : i < v.length) (x t : ℕ) :
    (v.set i x).getD t 0 = if t = i then x else v.getD t 0 := by
  rw [List.getD_eq_getElem?_getD, List.getElem?_set]
  by_cases ht : i = t
  · subst ht
    rw [if_pos rfl, if_pos hi, if_pos rfl]
    rfl
  · rw [if_neg ht, if_neg (Ne.symm ht), List.getD_eq_getElem?_getD]

/-- **`setMax` assigns one entry** of a vector, also when it lowers it. -/
theorem getD_assign (v : ViewBase) (e : Event) (t : ℕ) :
    (setMax v e).getD t 0 = if t = e.thread then e.index else v.getD t 0 := by
  by_cases he : e.index = 0
  · rw [setMax]
    by_cases hlen : v.length ≤ e.thread
    · rw [if_pos ⟨he, hlen⟩]
      split
      · rename_i ht
        rw [ht, he, List.getD_eq_default _ _ hlen]
      · rfl
    · rw [if_neg (fun h => hlen h.2), if_neg hlen]
      have hset := getD_set v (not_le.1 hlen) e.index t
      simp only
      split
      · rw [getD_trim, hset]
      · exact hset
  · exact getD_setMax v he t

theorem trimmed_set_pos {v : ViewBase} {i x : ℕ} (hv : Trimmed v) (hx : x ≠ 0) :
    Trimmed (v.set i x) := by
  rw [Trimmed, List.getLast?_eq_getElem?, List.getElem?_set, List.length_set]
  split
  · split
    · simpa using hx
    · simp
  · rw [← List.getLast?_eq_getElem?]
    exact hv

theorem Trimmed.setMax {v : ViewBase} (hv : Trimmed v) (e : Event) : Trimmed (setMax v e) := by
  rw [ViewBase.setMax]
  split
  · exact hv
  · rename_i hcase
    simp only
    by_cases hlen : v.length ≤ e.thread
    · have he : e.index ≠ 0 := fun h => hcase ⟨h, hlen⟩
      rw [if_pos hlen, if_neg (fun h => he h.1), Trimmed, List.getLast?_eq_getElem?,
        List.getElem?_set, List.length_set, length_resize]
      have hlast : e.thread = max v.length (e.thread + 1) - 1 := by omega
      rw [if_pos hlast, if_pos (by omega)]
      simpa using he
    · rw [if_neg hlen]
      split
      · exact trimmed_trim _
      · rename_i hne
        rw [List.length_set] at hne
        by_cases he : e.index = 0
        · rw [Trimmed, List.getLast?_eq_getElem?, List.getElem?_set, List.length_set,
            if_neg (fun h => hne ⟨he, h⟩), ← List.getLast?_eq_getElem?]
          exact hv
        · exact trimmed_set_pos hv he

theorem Trimmed.updateIdx {v : ViewBase} (hv : Trimmed v) (e : Event) :
    Trimmed (updateIdx v e) := by
  rw [ViewBase.updateIdx]
  split
  · exact hv.setMax e
  · exact hv

/-- The last entry of a vector is not zero if it is the one before the length. -/
theorem trimmed_iff (v : ViewBase) : Trimmed v ↔ v = [] ∨ v.getD (v.length - 1) 0 ≠ 0 := by
  rw [Trimmed, List.getLast?_eq_getElem?, List.getD_eq_getElem?_getD]
  cases v with
  | nil => simp
  | cons a v => simp

theorem length_update (v w : ViewBase) : (update v w).length = max v.length w.length := by
  rw [update]
  split
  · rename_i hw
    rw [List.isEmpty_iff.1 hw]
    simp
  · rw [List.length_mapIdx]
    split
    · rw [length_resize]
    · omega

theorem Trimmed.update {v w : ViewBase} (hv : Trimmed v) (hw : Trimmed w) :
    Trimmed (update v w) := by
  rw [trimmed_iff] at hv hw ⊢
  rw [getD_update, length_update]
  by_cases hvw : w.length ≤ v.length
  · rw [max_eq_left hvw]
    rcases hv with rfl | hv
    · rw [List.length_nil, Nat.le_zero, List.length_eq_zero_iff] at hvw
      exact .inl (by rw [hvw]; rfl)
    · exact .inr (by omega)
  · rw [max_eq_right (not_le.1 hvw).le]
    rcases hw with rfl | hw
    · simp at hvw
    · exact .inr (by omega)

/-- What `containsView` answers is right for vectors without zeros at the end. -/
theorem containsView_iff {v w : ViewBase} (hw : Trimmed w) :
    containsView v w = true ↔ ∀ t, w.getD t 0 ≤ v.getD t 0 := by
  refine ⟨fun h t => getD_le_of_containsView h t, fun h => ?_⟩
  rw [containsView]
  by_cases hlen : v.length < w.length
  · rcases (trimmed_iff w).1 hw with rfl | hlast
    · simp at hlen
    · have := h (w.length - 1)
      rw [List.getD_eq_default v _ (by omega)] at this
      omega
  · rw [if_neg hlen, List.all_eq_true]
    intro i hi
    simpa using h i

end ViewBase

/-! ## All operations on views -/

namespace Memory

/-- `View::setMax`. -/
def setMax (m : Memory) (i : ℕ) (e : Event) : Memory :=
  if (m.baseOf i).isSome ∧ m.useCount i = 1 then m.modifyBase i (ViewBase.setMax · e)
  else if (m.baseOf i = none ∨ ¬ ViewBase.contains (m.baseView i) e) ∧
      ((m.diffOf i).isInitializer ∨ e.thread = (m.diffOf i).thread) then
    m.setDiff i (if e.index = 0 then Event.getInit else e)
  else (m.hydrate i).modifyBase i (ViewBase.setMax · e)

/-- `View::clear`. -/
def clear (m : Memory) (i : ℕ) : Memory := (m.setBase i none).setDiff i Event.getInit

end Memory

/-- The operations of the class `View`. -/
inductive Call where
  | op (o : Op)
  | setMax (i : ℕ) (e : Event)
  | clear (i : ℕ)

def Call.operands : Call → List ℕ
  | op o => o.operands
  | setMax i _ => [i]
  | clear i => [i]

namespace Memory

def callOn (m : Memory) : Call → Memory
  | .op o => m.apply o
  | .setMax i e => m.setMax i e
  | .clear i => m.clear i

/-- A call on views that exist. -/
def call (m : Memory) (c : Call) : Option Memory :=
  if c.operands.all fun i => (m.objs i).isSome then some (m.callOn c) else none

/-- The populations that runs lead to in which every call is allowed in the population it finds. -/
inductive Reaches (allowed : Memory → Call → Prop) : Memory → Prop where
  | empty : Reaches allowed empty
  | call {m m' : Memory} {c : Call} (h : Reaches allowed m) (hc : allowed m c)
      (hm : m.call c = some m') : Reaches allowed m'

variable {m m' : Memory} {i j : ℕ}

/-! ## The value of `setMax` -/

/-- A view has a base that no other view has. -/
def SoleOwner (m : Memory) (i : ℕ) : Prop := (m.baseOf i).isSome ∧ m.useCount i = 1

instance (m : Memory) (i : ℕ) : Decidable (m.SoleOwner i) :=
  inferInstanceAs (Decidable (_ ∧ _))

theorem diffOf_hydrate_self (m : Memory) (i : ℕ) : (m.hydrate i).diffOf i = Event.getInit := by
  have hdef : m.hydrate i =
      if (((m.alloc (m.baseView i)).setBase i (some m.fresh)).diffOf i).isInitializer then
        (m.alloc (m.baseView i)).setBase i (some m.fresh)
      else (((m.alloc (m.baseView i)).setBase i (some m.fresh)).modifyBase i
        (ViewBase.updateIdx · (((m.alloc (m.baseView i)).setBase i
          (some m.fresh)).diffOf i))).setDiff i Event.getInit := rfl
  rw [hdef]
  split
  · rename_i h
    exact Event.isInitializer_iff.1 h
  · rw [diffOf_setDiff, if_pos rfl]

theorem eventAt_ite (e : Event) (t : ℕ) :
    eventAt (if e.index = 0 then Event.getInit else e) t = eventAt e t := by
  split
  · rename_i h
    rw [eventAt_init, eventAt, h, ite_self]
  · rfl

/-- **What `setMax` does**: it is an assignment, except that the diff of a view that is the only
owner of its base stays in force. -/
theorem RcInv.setMax (h : RcInv m) (hi : (m.objs i).isSome) (e : Event) :
    Changed m (m.setMax i e) i fun t =>
      if m.SoleOwner i then
        max (if t = e.thread then e.index else (m.baseView i).getD t 0) (eventAt (m.diffOf i) t)
      else if t = e.thread then e.index else m.getMax i t := by
  have hdef : m.setMax i e = if m.SoleOwner i then m.modifyBase i (ViewBase.setMax · e)
      else if (m.baseOf i = none ∨ ¬ ViewBase.contains (m.baseView i) e) ∧
        ((m.diffOf i).isInitializer ∨ e.thread = (m.diffOf i).thread) then
        m.setDiff i (if e.index = 0 then Event.getInit else e)
      else (m.hydrate i).modifyBase i (ViewBase.setMax · e) := rfl
  rw [hdef]
  by_cases hsole : m.SoleOwner i
  · simp only [if_pos hsole]
    refine h.changed_modifyBase hsole.1 hsole.2 fun t => ?_
    rw [ViewBase.getD_assign]
  · simp only [if_neg hsole]
    split
    · rename_i hdiff
      have hc := h.changed_setDiff hi (if e.index = 0 then Event.getInit else e)
      refine ⟨hc.rc, hc.numObjs, hc.objs, fun t => ?_, hc.other⟩
      rw [hc.self, eventAt_ite, getMax_eq]
      by_cases ht : t = e.thread
      · -- the base has less than the new value
        have hle : (m.baseView i).getD t 0 ≤ e.index := by
          rcases hdiff.1 with hnone | hless
          · rw [baseView, hnone]
            simp
          · rw [ht]
            simp only [ViewBase.contains, ViewBase.getMax_eq, decide_eq_true_eq, not_le] at hless
            exact hless.le
        rw [if_pos ht, eventAt, if_pos ht.symm, max_eq_right hle]
      · have hold : eventAt (m.diffOf i) t = 0 := by
          rcases hdiff.2 with hinit | hthread
          · rw [Event.isInitializer_iff.1 hinit, eventAt_init]
          · rw [eventAt, if_neg (fun hc => ht (hc.symm.trans hthread.symm))]
        rw [if_neg ht, hold, eventAt, if_neg (Ne.symm ht)]
    · have hh := h.hydrate hi
      refine hh.changed.trans (hh.changed.rc.changed_modifyBase hh.isSome hh.unique fun t => ?_)
      have hself := hh.changed.self t
      rw [getMax_eq, diffOf_hydrate_self, eventAt_init, Nat.max_zero] at hself
      rw [ViewBase.getD_assign, diffOf_hydrate_self, eventAt_init, Nat.max_zero, hself]

theorem RcInv.clear (h : RcInv m) (hi : (m.objs i).isSome) :
    Changed m (m.clear i) i fun _ => 0 := by
  have hc := h.changed_clear hi
  have hi' : ((m.setBase i none).objs i).isSome := by rw [hc.objs]; exact hi
  have hd := hc.rc.changed_setDiff hi' Event.getInit
  refine hc.trans ⟨hd.rc, hd.numObjs, hd.objs, fun t => ?_, hd.other⟩
  have hview : (m.setBase i none).baseView i = [] := by
    rw [baseView, baseOf_setBase, if_pos rfl]
    rfl
  refine (hd.self t).trans ?_
  rw [hview, eventAt_init]
  rfl

/-- **Reference counts are right in every population.** -/
theorem Reaches.rcInv {allowed : Memory → Call → Prop} (h : Reaches allowed m) : RcInv m := by
  induction h with
  | empty => exact rcInv_empty
  | @call m m' c _ _ hm ih =>
    rw [Memory.call] at hm
    split at hm
    · rename_i hlive
      have hlive : ∀ i ∈ c.operands, (m.objs i).isSome := fun i hi => List.all_eq_true.1 hlive i hi
      cases hm
      cases c with
      | op o =>
        have hs : m.step o = some (m.apply o) := by
          exact if_pos (List.all_eq_true.2 fun i hi => hlive i hi)
        exact (step_models (r := ⟨fun _ => none, m.numObjs⟩) ih ⟨rfl, nofun⟩ hs).1
      | setMax i e => exact (ih.setMax (hlive i (by simp [Call.operands])) e).rc
      | clear i => exact (ih.clear (hlive i (by simp [Call.operands]))).rc
    · cases hm

/-! ## Only owners -/

/-- When view `i` lets go of its base, the last owner of that base has a diff. -/
def LeavesBehind (m : Memory) (i : ℕ) : Prop :=
  (m.baseOf i).isSome ∧ ∃ k, k ≠ i ∧ m.baseOf k = m.baseOf i ∧
    (∀ k', m.baseOf k' = m.baseOf i → k' = i ∨ k' = k) ∧ m.diffOf k ≠ Event.getInit

/-- `updateIdx` copies the base of the view. -/
def UpdateIdxHydrates (m : Memory) (i : ℕ) (e : Event) : Prop :=
  ¬ m.contains i e ∧ ¬ m.SoleOwner i ∧ ¬ (m.diffOf i).isInitializer ∧
    e.thread ≠ (m.diffOf i).thread

/-- `setMax` copies the base of the view. -/
def SetMaxHydrates (m : Memory) (i : ℕ) (e : Event) : Prop :=
  ¬ m.SoleOwner i ∧ ¬ ((m.baseOf i = none ∨ ¬ ViewBase.contains (m.baseView i) e) ∧
    ((m.diffOf i).isInitializer ∨ e.thread = (m.diffOf i).thread))

/-- `update` copies the base of a view that has one. -/
def UpdateHydrates (m : Memory) (i j : ℕ) : Prop :=
  ¬ m.SoleOwner i ∧ ¬ m.containsView i j ∧
    ((m.baseOf j).isSome ∧ m.baseOf i ≠ m.baseOf j ∨
      ¬ (m.diffOf i).isInitializer ∧ ¬ (m.diffOf j).isInitializer ∧
        (m.diffOf i).thread ≠ (m.diffOf j).thread)

end Memory

/-- The call takes the second to last owner away from a base, and the last one has a diff. -/
def Call.Strands (m : Memory) : Call → Prop
  | .op .create => False
  | .op (.copy _) => False
  | .op (.move _) => False
  | .op (.assign i j) => m.baseOf i ≠ m.baseOf j ∧ m.LeavesBehind i
  | .op (.moveAssign i j) => i ≠ j ∧ m.LeavesBehind i
  | .op (.destroy i) => m.LeavesBehind i
  | .op (.updateIdx i e) => m.UpdateIdxHydrates i e ∧ m.LeavesBehind i
  | .op (.update i j) => m.UpdateHydrates i j ∧ m.LeavesBehind i
  | .setMax i e => m.SetMaxHydrates i e ∧ m.LeavesBehind i
  | .clear i => m.LeavesBehind i

namespace Memory

variable {m m' : Memory} {i j : ℕ}

/-- What the source asserts: a view that is the only owner of its base has no diff. -/
def SoleInv (m : Memory) : Prop :=
  ∀ i, (m.baseOf i).isSome → (∀ k, m.baseOf k = m.baseOf i → k = i) → m.diffOf i = Event.getInit

theorem RcInv.soleOwner_iff (h : RcInv m) :
    m.SoleOwner i ↔ (m.baseOf i).isSome ∧ ∀ k, m.baseOf k = m.baseOf i → k = i := by
  refine and_congr_right fun hi => ⟨fun hu k hk => h.unique hi hu hk, fun hu => ?_⟩
  obtain ⟨a, ha⟩ := Option.isSome_iff_exists.1 hi
  rw [h.useCount_eq ha, Finset.card_eq_one]
  refine ⟨i, Finset.eq_singleton_iff_unique_mem.2 ⟨h.mem_owners.2 ha, fun k hk => ?_⟩⟩
  exact hu k ((h.mem_owners.1 hk).trans ha.symm)

/-- What changes when only view `i` gets a new base and a new diff. -/
structure Rebased (m m' : Memory) (i : ℕ) : Prop where
  baseOf : ∀ k, k ≠ i → m'.baseOf k = m.baseOf k
  diffOf : ∀ k, k ≠ i → m'.diffOf k = m.diffOf k

theorem Rebased.trans {m₁ m₂ m₃ : Memory} (h : Rebased m₁ m₂ i) (h' : Rebased m₂ m₃ i) :
    Rebased m₁ m₃ i :=
  ⟨fun k hk => (h'.baseOf k hk).trans (h.baseOf k hk),
    fun k hk => (h'.diffOf k hk).trans (h.diffOf k hk)⟩

theorem rebased_modifyBase (f : ViewBase → ViewBase) : Rebased m (m.modifyBase i f) i :=
  ⟨fun k _ => baseOf_modifyBase f k, fun k _ => diffOf_modifyBase f k⟩

theorem rebased_setDiff (e : Event) : Rebased m (m.setDiff i e) i :=
  ⟨fun k _ => baseOf_setDiff e k, fun k hk => by rw [diffOf_setDiff, if_neg hk]⟩

theorem rebased_replace (o : Option Obj) : Rebased m (m.replace i o) i :=
  ⟨fun k hk => by rw [baseOf_replace, if_neg hk], fun k hk => by rw [diffOf_replace, if_neg hk]⟩

theorem rebased_setBase (b : Option ℕ) : Rebased m (m.setBase i b) i := rebased_replace _

theorem rebased_hydrate : Rebased m (m.hydrate i) i := by
  have halloc : Rebased m (m.alloc (m.baseView i)) i := ⟨fun _ _ => rfl, fun _ _ => rfl⟩
  have hbase := halloc.trans (rebased_setBase (m := m.alloc (m.baseView i)) (some m.fresh))
  rw [hydrate]
  split
  · exact hbase
  · exact hbase.trans ((rebased_modifyBase _).trans (rebased_setDiff _))

/-- Merging changes bases in place. -/
theorem merge_frame (m : Memory) (i j k : ℕ) :
    (m.merge i j).baseOf k = m.baseOf k ∧ (m.merge i j).diffOf k = m.diffOf k := by
  rw [merge]
  split <;> split <;>
    simp only [baseOf_modifyBase, diffOf_modifyBase, and_self]

/-- **The invariant survives a change of one view** that does not leave a diff behind. -/
theorem SoleInv.rebased (h : SoleInv m) (hr : Rebased m m' i)
    (hself : (m'.baseOf i).isSome → (∀ k, m'.baseOf k = m'.baseOf i → k = i) →
      m'.diffOf i = Event.getInit)
    (hleft : m'.baseOf i = m.baseOf i ∨ ¬ m.LeavesBehind i) : SoleInv m' := by
  intro k hk hsole
  by_cases hki : k = i
  · subst hki
    exact hself hk hsole
  rw [hr.baseOf k hki] at hk
  rw [hr.diffOf k hki]
  -- the views other than `i` with the base of `k`
  have hothers : ∀ k', k' ≠ i → m.baseOf k' = m.baseOf k → k' = k := fun k' hk' hb =>
    hsole k' (by rw [hr.baseOf k' hk', hr.baseOf k hki, hb])
  by_cases hb : m.baseOf i = m.baseOf k
  · rcases hleft with hsame | hleft
    · exact absurd (hsole i (by rw [hsame, hb, hr.baseOf k hki])) (Ne.symm hki)
    · by_contra hdiff
      refine hleft ⟨by rw [hb]; exact hk, k, hki, hb.symm, fun k' hk' => ?_, hdiff⟩
      by_cases hk'i : k' = i
      · exact .inl hk'i
      · exact .inr (hothers k' hk'i (hk'.trans hb))
  · refine h k hk fun k' hk' => ?_
    by_cases hk'i : k' = i
    · subst hk'i
      exact absurd hk' hb
    · exact hothers k' hk'i hk'

theorem not_leavesBehind_of_none (hb : m.baseOf i = none) : ¬ m.LeavesBehind i := by
  intro h
  have := h.1
  rw [hb] at this
  cases this

theorem SoleInv.congr (h : SoleInv m) (hb : ∀ k, m'.baseOf k = m.baseOf k)
    (hd : ∀ k, m'.diffOf k = m.diffOf k) : SoleInv m' := by
  refine h.rebased (i := 0) ⟨fun k _ => hb k, fun k _ => hd k⟩ ?_ (.inl (hb 0))
  intro hsome hsole
  rw [hb] at hsome
  rw [hd]
  exact h 0 hsome fun k hk => hsole k (by rw [hb, hb, hk])

/-- A view that shares its base may have any diff. -/
theorem SoleInv.setDiff (h : SoleInv m) (hrc : RcInv m) (hi : ¬ m.SoleOwner i) (e : Event) :
    SoleInv (m.setDiff i e) := by
  refine h.rebased (rebased_setDiff e) (fun hsome hsole => ?_) (.inl (baseOf_setDiff e i))
  simp only [baseOf_setDiff] at hsome hsole
  exact absurd (hrc.soleOwner_iff.2 ⟨hsome, hsole⟩) hi

theorem SoleInv.hydrate (h : SoleInv m) (hi : ¬ m.LeavesBehind i) : SoleInv (m.hydrate i) :=
  h.rebased rebased_hydrate (fun _ _ => diffOf_hydrate_self m i) (.inr hi)

theorem SoleInv.modifyBase (h : SoleInv m) (f : ViewBase → ViewBase) :
    SoleInv (m.modifyBase i f) :=
  h.congr (baseOf_modifyBase f) (diffOf_modifyBase f)

theorem SoleInv.merge (h : SoleInv m) (i j : ℕ) : SoleInv (m.merge i j) :=
  h.congr (fun k => (merge_frame m i j k).1) fun k => (merge_frame m i j k).2

theorem SoleInv.updateIdx (h : SoleInv m) (hrc : RcInv m) {e : Event}
    (hs : ¬ (m.UpdateIdxHydrates i e ∧ m.LeavesBehind i)) : SoleInv (m.updateIdx i e) := by
  rw [Memory.updateIdx]
  split
  · exact h
  · rename_i hcontains
    split
    · exact h.modifyBase _
    · rename_i hsole
      split
      · exact h.setDiff hrc hsole e
      · rename_i hinit
        split
        · exact h.setDiff hrc hsole _
        · rename_i hthread
          refine (h.hydrate fun hl => ?_).modifyBase _
          exact hs ⟨⟨hcontains, hsole, hinit, hthread⟩, hl⟩

theorem SoleInv.setMax (h : SoleInv m) (hrc : RcInv m) {e : Event}
    (hs : ¬ (m.SetMaxHydrates i e ∧ m.LeavesBehind i)) : SoleInv (m.setMax i e) := by
  rw [Memory.setMax]
  split
  · exact h.modifyBase _
  · rename_i hsole
    split
    · exact h.setDiff hrc hsole _
    · rename_i hdiff
      exact (h.hydrate fun hl => hs ⟨⟨hsole, hdiff⟩, hl⟩).modifyBase _

/-- `mergeSlow` does nothing or ends with a view that has no diff. -/
theorem SoleInv.mergeSlow (h : SoleInv m) (hs : m.containsView i j ∨ ¬ m.LeavesBehind i) :
    SoleInv (m.mergeSlow i j) := by
  rw [Memory.mergeSlow]
  split
  · exact h
  · rename_i hc
    exact (h.hydrate (hs.resolve_left hc)).merge i j

/-- A view that takes over the base of another view may have any diff. -/
theorem SoleInv.share (h : SoleInv m) (hij : i ≠ j)
    (hb : ∀ k, m'.baseOf k = if k = i then m.baseOf j else m.baseOf k)
    (hd : ∀ k, k ≠ i → m'.diffOf k = m.diffOf k)
    (hleft : m.baseOf i = m.baseOf j ∨ ¬ m.LeavesBehind i) : SoleInv m' := by
  refine h.rebased (i := i) ⟨fun k hk => by rw [hb, if_neg hk], hd⟩ (fun hsome hsole => ?_) ?_
  · refine absurd (hsole j ?_) hij.symm
    rw [hb, hb, if_neg hij.symm, if_pos rfl]
  · rw [hb, if_pos rfl]
    exact hleft.imp_left Eq.symm

/-- The part of `update` that tries to get by with the diff. -/
theorem SoleInv.update_diff (h : SoleInv m) (hrc : RcInv m) (hi : ¬ m.SoleOwner i)
    (hslow : ¬ (m.diffOf i).isInitializer = true → ¬ (m.diffOf j).isInitializer = true →
      (m.diffOf i).thread ≠ (m.diffOf j).thread → m.containsView i j ∨ ¬ m.LeavesBehind i) :
    SoleInv
      (if (m.diffOf i).isInitializer then
        if (m.baseOf i).isSome ∧ ¬ ViewBase.contains (m.baseView i) (m.diffOf j) then
          m.setDiff i (m.diffOf j)
        else m
      else if (m.diffOf j).isInitializer then
        if (m.baseOf i).isSome ∧ ViewBase.contains (m.baseView i) (m.diffOf i) then
          m.setDiff i Event.getInit
        else m
      else if (m.diffOf i).thread = (m.diffOf j).thread then
        m.setDiff i (Event.max (m.diffOf i) (m.diffOf j))
      else m.mergeSlow i j) := by
  split
  · split
    · exact h.setDiff hrc hi _
    · exact h
  · rename_i hdi
    split
    · split
      · exact h.setDiff hrc hi _
      · exact h
    · rename_i hdj
      split
      · exact h.setDiff hrc hi _
      · rename_i hthread
        exact h.mergeSlow (hslow hdi hdj hthread)

theorem SoleInv.update (h : SoleInv m) (hrc : RcInv m) (hi : (m.objs i).isSome)
    (hs : ¬ (m.UpdateHydrates i j ∧ m.LeavesBehind i)) : SoleInv (m.update i j) := by
  rw [Memory.update]
  split
  · exact h.merge i j
  · rename_i hsole
    split
    · rename_i hempty
      by_cases hij : i = j
      · subst hij
        refine h.congr (fun k => ?_) fun k => ?_
        · rw [baseOf_setDiff, baseOf_setBase]
          split
          · rename_i hk
            rw [hk]
          · rfl
        · rw [diffOf_setDiff, diffOf_setBase]
          split
          · rename_i hk
            rw [hk]
          · rfl
      · refine h.share hij (fun k => by rw [baseOf_setDiff, baseOf_setBase]) (fun k hk => ?_)
          (.inr (not_leavesBehind_of_none hempty.1))
        rw [diffOf_setDiff, if_neg hk, diffOf_setBase]
    · split
      · rename_i hcompat
        by_cases hnone : m.baseOf i = none
        · simp only [if_pos hnone]
          have hrc₁ := (hrc.changed_setBase hi j).rc
          have hbase : ∀ k, (m.setBase i (m.baseOf j)).baseOf k =
              if k = i then m.baseOf j else m.baseOf k := baseOf_setBase _
          have h₁ : SoleInv (m.setBase i (m.baseOf j)) := by
            by_cases hij : i = j
            · refine h.congr (fun k => ?_) fun k => diffOf_setBase _ k
              rw [hbase, ← hij]
              split
              · rename_i hk
                rw [hk]
              · rfl
            · exact h.share hij hbase (fun k _ => diffOf_setBase _ k)
                (.inr (not_leavesBehind_of_none hnone))
          -- the base has another owner now
          have hsole₁ : ¬ (m.setBase i (m.baseOf j)).SoleOwner i := by
            intro hc
            obtain ⟨hsome, honly⟩ := hrc₁.soleOwner_iff.1 hc
            have hij : j = i := honly j (by rw [hbase, hbase, if_pos rfl, ite_self])
            rw [hbase, if_pos rfl, hij, hnone] at hsome
            cases hsome
          refine h₁.update_diff hrc₁ hsole₁ fun _ _ _ => .inr fun hl => ?_
          -- the other owner was the only one before
          obtain ⟨hsome, k, hki, hk, honly, hdiff⟩ := hl
          rw [hbase, if_pos rfl] at hsome
          rw [hbase, hbase, if_pos rfl, if_neg hki] at hk
          rw [diffOf_setBase] at hdiff
          refine hdiff (h k (by rw [hk]; exact hsome) fun k' hk' => ?_)
          have hk'i : k' ≠ i := by
            intro hc
            rw [hc, hnone, hk] at hk'
            rw [← hk'] at hsome
            cases hsome
          refine (honly k' ?_).resolve_left hk'i
          rw [hbase, hbase, if_pos rfl, if_neg hk'i, hk', hk]
        · simp only [if_neg hnone]
          refine h.update_diff hrc hsole fun hdi hdj hthread => ?_
          by_contra hc
          rw [not_or, not_not] at hc
          exact hs ⟨⟨hsole, hc.1, .inr ⟨hdi, hdj, hthread⟩⟩, hc.2⟩
      · rename_i hcompat
        rw [not_or, not_or] at hcompat
        refine h.mergeSlow ?_
        by_contra hc
        rw [not_or, not_not] at hc
        exact hs ⟨⟨hsole, hc.1, .inl ⟨Option.isSome_iff_ne_none.2 hcompat.2.1, hcompat.2.2⟩⟩, hc.2⟩

/-- A new view that copies another one, or nothing. -/
theorem SoleInv.push (h : SoleInv m) (hrc : RcInv m) {b : Option ℕ} {d : Event}
    (hb : b = none ∨ ∃ k, (m.objs k).isSome ∧ m.baseOf k = b) : SoleInv (m.push b d) := by
  have hnew : m.baseOf m.numObjs = none := by rw [baseOf, hrc.bound _ le_rfl]; rfl
  have hbase : ∀ k, (m.push b d).baseOf k = if k = m.numObjs then b else m.baseOf k :=
    fun k => baseOf_replace (m := { m with numObjs := m.numObjs + 1 }) _ k
  refine h.rebased (i := m.numObjs) ⟨fun k hk => by rw [hbase, if_neg hk], fun k hk => ?_⟩
    (fun hsome hsole => ?_) (.inr (not_leavesBehind_of_none hnew))
  · exact (diffOf_replace (m := { m with numObjs := m.numObjs + 1 }) _ k).trans (if_neg hk)
  · rw [hbase, if_pos rfl] at hsome
    rcases hb with rfl | ⟨k, hk, rfl⟩
    · cases hsome
    · have hne : k ≠ m.numObjs := (hrc.lt_numObjs hk).ne
      exact absurd (hsole k (by rw [hbase, hbase, if_pos rfl, if_neg hne])) hne

/-- A view that moves hands its base over to a new view. -/
theorem SoleInv.move (h : SoleInv m) (hrc : RcInv m) (hi : (m.objs i).isSome) :
    SoleInv ((m.push (m.baseOf i) (m.diffOf i)).setBase i none) := by
  have hne : i ≠ m.numObjs := (hrc.lt_numObjs hi).ne
  have hbase : ∀ k, ((m.push (m.baseOf i) (m.diffOf i)).setBase i none).baseOf k =
      if k = i then none else if k = m.numObjs then m.baseOf i else m.baseOf k := by
    intro k
    rw [baseOf_setBase]
    exact if_congr Iff.rfl rfl (baseOf_replace (m := { m with numObjs := m.numObjs + 1 }) _ k)
  have hdiff : ∀ k, ((m.push (m.baseOf i) (m.diffOf i)).setBase i none).diffOf k =
      if k = m.numObjs then m.diffOf i else m.diffOf k := by
    intro k
    rw [diffOf_setBase]
    exact diffOf_replace (m := { m with numObjs := m.numObjs + 1 }) _ k
  intro k hk hsole
  rw [hbase] at hk
  have hki : k ≠ i := by
    rintro rfl
    rw [if_pos rfl] at hk
    cases hk
  rw [if_neg hki] at hk
  rw [hdiff]
  by_cases hkn : k = m.numObjs
  · -- the new view is the only owner if the old one was
    subst hkn
    rw [if_pos rfl] at hk ⊢
    refine h i hk fun k' hk' => ?_
    by_contra hk'i
    by_cases hk'n : k' = m.numObjs
    · rw [hk'n, baseOf, hrc.bound _ le_rfl] at hk'
      rw [← hk'] at hk
      cases hk
    · refine hk'n (hsole k' ?_)
      rw [hbase, hbase, if_neg hk'i, if_neg hk'n, if_neg hne.symm, if_pos rfl, hk']
  · rw [if_neg hkn] at hk ⊢
    refine h k hk fun k' hk' => ?_
    by_cases hk'i : k' = i
    · refine absurd (hsole m.numObjs ?_) (Ne.symm hkn)
      rw [hbase, hbase, if_neg hne.symm, if_pos rfl, if_neg hki, if_neg hkn, ← hk', hk'i]
    · by_cases hk'n : k' = m.numObjs
      · rw [hk'n, baseOf, hrc.bound _ le_rfl] at hk'
        rw [← hk'] at hk
        cases hk
      · refine hsole k' ?_
        rw [hbase, hbase, if_neg hk'i, if_neg hk'n, if_neg hki, if_neg hkn, hk']

/-- A view that is moved to another one hands its base over to that one. -/
theorem SoleInv.moveAssign (h : SoleInv m) (hij : i ≠ j) (hs : ¬ m.LeavesBehind i) :
    SoleInv (((m.setBase i (m.baseOf j)).setDiff i (m.diffOf j)).setBase j none) := by
  set m₃ := ((m.setBase i (m.baseOf j)).setDiff i (m.diffOf j)).setBase j none with hm₃
  have hbase : ∀ k, m₃.baseOf k =
      if k = j then none else if k = i then m.baseOf j else m.baseOf k := by
    intro k
    rw [hm₃, baseOf_setBase, baseOf_setDiff, baseOf_setBase]
  have hdiff : ∀ k, m₃.diffOf k = if k = i then m.diffOf j else m.diffOf k := by
    intro k
    rw [hm₃, diffOf_setBase, diffOf_setDiff, diffOf_setBase]
  -- the last owner next to `i` has no diff
  have hlast : ∀ k, k ≠ i → (m.baseOf k).isSome →
      (∀ k', m.baseOf k' = m.baseOf k → k' = i ∨ k' = k) → m.diffOf k = Event.getInit := by
    intro k hki hk honly
    by_cases hb : m.baseOf i = m.baseOf k
    · by_contra hd
      exact hs ⟨by rw [hb]; exact hk, k, hki, hb.symm, fun k' hk' => honly k' (hk'.trans hb), hd⟩
    · refine h k hk fun k' hk' => (honly k' hk').resolve_left ?_
      rintro rfl
      exact hb hk'
  intro k hk hsole
  rw [hbase] at hk
  have hkj : k ≠ j := by
    rintro rfl
    rw [if_pos rfl] at hk
    cases hk
  rw [if_neg hkj] at hk
  rw [hdiff]
  by_cases hki : k = i
  · subst hki
    rw [if_pos rfl] at hk ⊢
    refine hlast j hkj.symm hk fun k' hk' => ?_
    by_cases hk'j : k' = j
    · exact .inr hk'j
    · by_cases hk'k : k' = k
      · exact .inl hk'k
      · refine .inl (hsole k' ?_)
        rw [hbase, hbase, if_neg hk'j, if_neg hk'k, if_neg hkj, if_pos rfl, hk']
  · rw [if_neg hki] at hk ⊢
    refine hlast k hki hk fun k' hk' => ?_
    by_cases hk'i : k' = i
    · exact .inl hk'i
    · by_cases hk'j : k' = j
      · refine absurd (hsole i ?_) (Ne.symm hki)
        rw [hbase, hbase, if_neg hij, if_pos rfl, if_neg hkj, if_neg hki, ← hk', hk'j]
      · refine .inr (hsole k' ?_)
        rw [hbase, hbase, if_neg hk'j, if_neg hk'i, if_neg hkj, if_neg hki, hk']

/-- **A call that strands no one keeps the invariant.** -/
theorem SoleInv.callOn (h : SoleInv m) (hrc : RcInv m) {c : Call}
    (hlive : ∀ i ∈ c.operands, (m.objs i).isSome) (hs : ¬ c.Strands m) : SoleInv (m.callOn c) := by
  cases c with
  | op o =>
    cases o with
    | create => exact h.push hrc (.inl rfl)
    | copy i => exact h.push hrc (.inr ⟨i, hlive i (by simp [Call.operands, Op.operands]), rfl⟩)
    | move i => exact h.move hrc (hlive i (by simp [Call.operands, Op.operands]))
    | assign i j =>
      show SoleInv (if i = j then m else (m.setBase i (m.baseOf j)).setDiff i (m.diffOf j))
      split
      · exact h
      · rename_i hij
        refine h.share hij (fun k => by rw [baseOf_setDiff, baseOf_setBase]) (fun k hk => ?_) ?_
        · rw [diffOf_setDiff, if_neg hk, diffOf_setBase]
        · by_contra hc
          rw [not_or, not_not] at hc
          exact hs hc
    | moveAssign i j =>
      show SoleInv (if i = j then m
        else ((m.setBase i (m.baseOf j)).setDiff i (m.diffOf j)).setBase j none)
      split
      · exact h
      · rename_i hij
        exact h.moveAssign hij fun hl => hs ⟨hij, hl⟩
    | destroy i =>
      show SoleInv (m.replace i none)
      refine h.rebased (rebased_replace none) (fun hsome _ => ?_) (.inr hs)
      rw [baseOf_replace, if_pos rfl] at hsome
      cases hsome
    | updateIdx i e => exact h.updateIdx hrc hs
    | update i j => exact h.update hrc (hlive i (by simp [Call.operands, Op.operands])) hs
  | setMax i e => exact h.setMax hrc hs
  | clear i =>
    show SoleInv ((m.setBase i none).setDiff i Event.getInit)
    refine h.rebased ((rebased_setBase none).trans (rebased_setDiff _)) (fun _ _ => ?_) (.inr hs)
    rw [diffOf_setDiff, if_pos rfl]

/-- In a run that strands no one, a view that is the only owner of its base has no diff. -/
theorem Reaches.soleInv (h : Reaches (fun m c => ¬ c.Strands m) m) : SoleInv m := by
  induction h with
  | empty => nofun
  | @call m m' c hr hc hm ih =>
    rw [Memory.call] at hm
    split at hm
    · rename_i hlive
      cases hm
      exact ih.callOn hr.rcInv (fun i hi => List.all_eq_true.1 hlive i hi) hc
    · cases hm

/-- **In a run that strands no one, what the source asserts is so and `setMax` is an assignment**:
it sets one entry of one view, also to something smaller, and changes no other entry and no other
view. -/
theorem setMax_exact (h : Reaches (fun m c => ¬ c.Strands m) m) :
    (∀ i, m.SoleOwner i → m.diffOf i = Event.getInit) ∧
    ∀ i e, (m.objs i).isSome →
      (m.setMax i e).getMax i e.thread = e.index ∧
      (∀ t, t ≠ e.thread → (m.setMax i e).getMax i t = m.getMax i t) ∧
      ∀ k, k ≠ i → ∀ t, (m.setMax i e).getMax k t = m.getMax k t := by
  have hrc := h.rcInv
  have hsole : ∀ i, m.SoleOwner i → m.diffOf i = Event.getInit := fun i hi =>
    h.soleInv i (hrc.soleOwner_iff.1 hi).1 (hrc.soleOwner_iff.1 hi).2
  refine ⟨hsole, fun i e hi => ?_⟩
  have hc := hrc.setMax hi e
  refine ⟨?_, fun t ht => ?_, hc.other⟩
  · rw [hc.self]
    split
    · rename_i ho
      rw [if_pos rfl, hsole i ho, eventAt_init, Nat.max_zero]
    · rw [if_pos rfl]
  · rw [hc.self, if_neg ht, if_neg ht, ← getMax_eq, ite_self]

end Memory

/-! ## Runs in which a diff is stranded -/

/-- A sequence of calls, from a population without views. -/
def Memory.calls (cs : List Call) : Option Memory := cs.foldlM Memory.call Memory.empty

theorem Memory.reaches_of_calls (cs : List Call) {m : Memory} (h : Memory.calls cs = some m) :
    Reaches (fun _ _ => True) m := by
  suffices ∀ m₀, Reaches (fun _ _ => True) m₀ →
      ∀ cs : List Call, cs.foldlM Memory.call m₀ = some m →
      Reaches (fun _ _ => True) m from this _ .empty cs h
  intro m₀ h₀ cs
  induction cs generalizing m₀ with
  | nil =>
    intro hm
    cases hm
    exact h₀
  | cons c cs ih =>
    intro hm
    rw [List.foldlM_cons, Option.bind_eq_bind, Option.bind_eq_some_iff] at hm
    obtain ⟨m₁, hm₁, hm⟩ := hm
    exact ih m₁ (.call h₀ trivial hm₁) hm

/-- Two copies of a view are lowered in turn. -/
theorem twoCopies_setMax_exact :
    ∃ m, Memory.calls [.op .create, .op (.updateIdx 0 ⟨1, 3⟩), .op (.updateIdx 0 ⟨2, 1⟩),
        .op (.copy 0)] = some m ∧
      (∀ i, m.SoleOwner i → m.diffOf i = Event.getInit) ∧
      (m.setMax 1 ⟨1, 2⟩).getMax 1 1 = 2 ∧ (m.setMax 1 ⟨1, 2⟩).getMax 0 1 = m.getMax 0 1 := by
  have h₁ : Memory.Reaches (fun m c => ¬ c.Strands m) (Memory.empty.callOn (.op .create)) :=
    .call (c := .op .create) .empty not_false rfl
  have h₂ := h₁.call (c := .op (.updateIdx 0 ⟨1, 3⟩))
    (fun hs => Memory.not_leavesBehind_of_none rfl hs.2) rfl
  have h₃ := h₂.call (c := .op (.updateIdx 0 ⟨2, 1⟩))
    (fun hs => Memory.not_leavesBehind_of_none rfl hs.2) rfl
  have h₄ := h₃.call (c := .op (.copy 0)) not_false rfl
  obtain ⟨hsole, hset⟩ := Memory.setMax_exact h₄
  have h := hset 1 ⟨1, 2⟩ rfl
  exact ⟨_, rfl, hsole, h.1, h.2.2 0 (by decide) 1⟩

/-- Two views share a base, the second one hides an event in its diff, and the first one goes. -/
def stranding : List Call :=
  [.op .create, .op (.updateIdx 0 ⟨1, 1⟩), .op (.updateIdx 0 ⟨2, 1⟩), .op (.copy 0),
    .op (.updateIdx 1 ⟨1, 5⟩), .op (.destroy 0)]

/-- The view that is left has a diff and a base of its own, and `setMax` does not lower it. -/
theorem stranding_not_exact :
    ¬ ∀ m, Memory.Reaches (fun _ _ => True) m →
      (∀ i, m.SoleOwner i → m.diffOf i = Event.getInit) ∧
      ∀ i e, (m.objs i).isSome →
        (m.setMax i e).getMax i e.thread = e.index ∧
        (∀ t, t ≠ e.thread → (m.setMax i e).getMax i t = m.getMax i t) ∧
        ∀ k, k ≠ i → ∀ t, (m.setMax i e).getMax k t = m.getMax k t := by
  intro h
  have hrun : (Memory.calls stranding).isSome := by decide
  obtain ⟨m, hm⟩ := Option.isSome_iff_exists.1 hrun
  have hset := ((h m (Memory.reaches_of_calls stranding hm)).2 1 ⟨1, 2⟩ ?_).1
  · have hval : (Memory.calls stranding).map (fun m => (m.setMax 1 ⟨1, 2⟩).getMax 1 1) =
      some 5 := by
      decide
    rw [hm, Option.map_some, Option.some.injEq] at hval
    rw [hval] at hset
    exact absurd hset (by decide)
  · have hlive : (Memory.calls stranding).map (fun m => (m.objs 1).isSome) = some true := by decide
    rw [hm, Option.map_some, Option.some.injEq] at hlive
    exact hlive

/-! ## Comparing views -/

namespace Memory

variable {m m' : Memory} {i j : ℕ}

/-- No base ends with a zero. -/
def Tidy (m : Memory) : Prop := ∀ a c, m.cells a = some c → c.view.Trimmed

theorem Tidy.baseView (h : Tidy m) (i : ℕ) : (m.baseView i).Trimmed := by
  rw [Memory.baseView]
  cases hc : (m.baseOf i).bind m.cells with
  | none => exact ViewBase.trimmed_nil
  | some c =>
    obtain ⟨a, -, ha⟩ := Option.bind_eq_some_iff.1 hc
    exact h a c ha

theorem Tidy.modifyBase (h : Tidy m) {f : ViewBase → ViewBase}
    (hf : ∀ v : ViewBase, v.Trimmed → (f v).Trimmed) : Tidy (m.modifyBase i f) := by
  intro a c hc
  rw [cells_modifyBase, Option.map_eq_some_iff] at hc
  obtain ⟨c₀, hc₀, rfl⟩ := hc
  split
  · exact hf _ (h a c₀ hc₀)
  · exact h a c₀ hc₀

theorem Tidy.replace (h : Tidy m) (o : Option Obj) : Tidy (m.replace i o) := by
  intro a c hc
  have hcells : (m.replace i o).cells a =
      (((m.addRef? (o.bind (·.base))).setObj i o).release? (m.baseOf i)).cells a := rfl
  rw [hcells, cells_release?, Option.bind_eq_some_iff] at hc
  obtain ⟨c₁, hc₁, hc⟩ := hc
  have hc₁ : (m.addRef? (o.bind (·.base))).cells a = some c₁ := hc₁
  have hview : c₁.view.Trimmed := by
    rw [cells_addRef?, Option.map_eq_some_iff] at hc₁
    obtain ⟨c₀, hc₀, rfl⟩ := hc₁
    split <;> exact h a c₀ hc₀
  split at hc
  · split at hc
    · cases hc
    · cases hc
      exact hview
  · cases hc
    exact hview

theorem Tidy.setBase (h : Tidy m) (b : Option ℕ) : Tidy (m.setBase i b) := h.replace _

theorem Tidy.setDiff (h : Tidy m) (e : Event) : Tidy (m.setDiff i e) := h

theorem Tidy.push (h : Tidy m) (b : Option ℕ) (d : Event) : Tidy (m.push b d) := by
  have hgrow : Tidy { m with numObjs := m.numObjs + 1 } := h
  exact hgrow.replace _

theorem Tidy.hydrate (h : Tidy m) (i : ℕ) : Tidy (m.hydrate i) := by
  have halloc : Tidy (m.alloc (m.baseView i)) := by
    intro a c hc
    by_cases ha : a = m.fresh
    · have hcell : (m.alloc (m.baseView i)).cells a = some ⟨m.baseView i, 0⟩ := by
        simp [Memory.alloc, ha]
      rw [hcell] at hc
      cases hc
      exact h.baseView i
    · rw [cells_alloc _ ha] at hc
      exact h a c hc
  rw [Memory.hydrate]
  split
  · exact halloc.setBase _
  · exact (((halloc.setBase _).modifyBase fun v hv => hv.updateIdx _)).setDiff _

theorem Tidy.updateIdx (h : Tidy m) (i : ℕ) (e : Event) : Tidy (m.updateIdx i e) := by
  have hbase : ∀ m' : Memory, Tidy m' → Tidy (m'.modifyBase i (ViewBase.updateIdx · e)) :=
    fun m' h' => h'.modifyBase fun v hv => hv.updateIdx e
  rw [Memory.updateIdx]
  split
  · exact h
  · split
    · exact hbase m h
    · split
      · exact h.setDiff _
      · split
        · exact h.setDiff _
        · exact hbase _ (h.hydrate i)

theorem Tidy.setMax (h : Tidy m) (i : ℕ) (e : Event) : Tidy (m.setMax i e) := by
  have hbase : ∀ m' : Memory, Tidy m' → Tidy (m'.modifyBase i (ViewBase.setMax · e)) :=
    fun m' h' => h'.modifyBase fun v hv => hv.setMax e
  rw [Memory.setMax]
  split
  · exact hbase m h
  · split
    · exact h.setDiff _
    · exact hbase _ (h.hydrate i)

theorem Tidy.merge (h : Tidy m) (i j : ℕ) : Tidy (m.merge i j) := by
  have hupdate : Tidy (m.modifyBase i (ViewBase.update · (m.baseView j))) :=
    h.modifyBase fun v hv => hv.update (h.baseView j)
  rw [Memory.merge]
  split <;> split
  · exact hupdate
  · exact hupdate.modifyBase fun v hv => hv.updateIdx _
  · exact h
  · exact h.modifyBase fun v hv => hv.updateIdx _

theorem Tidy.mergeSlow (h : Tidy m) (i j : ℕ) : Tidy (m.mergeSlow i j) := by
  rw [Memory.mergeSlow]
  split
  · exact h
  · exact (h.hydrate i).merge i j

theorem Tidy.update (h : Tidy m) (i j : ℕ) : Tidy (m.update i j) := by
  rw [Memory.update]
  split
  · exact h.merge i j
  · split
    · exact (h.setBase _).setDiff _
    · split
      · have h₁ : Tidy (if m.baseOf i = none then m.setBase i (m.baseOf j) else m) := by
          split
          · exact h.setBase _
          · exact h
        generalize (if m.baseOf i = none then m.setBase i (m.baseOf j) else m) = m₁ at h₁ ⊢
        dsimp only
        repeat' split
        all_goals first
          | exact h₁
          | exact h₁.setDiff _
          | exact h₁.mergeSlow i j
      · exact h.mergeSlow i j

/-- **No base ever ends with a zero.** -/
theorem Reaches.tidy {allowed : Memory → Call → Prop} (h : Reaches allowed m) : Tidy m := by
  induction h with
  | empty => nofun
  | @call m m' c _ _ hm ih =>
    rw [Memory.call] at hm
    split at hm
    · cases hm
      cases c with
      | op o =>
        cases o with
        | create => exact ih.push _ _
        | copy i => exact ih.push _ _
        | move i => exact (ih.push _ _).setBase _
        | assign i j =>
          show Tidy (if i = j then m else (m.setBase i (m.baseOf j)).setDiff i (m.diffOf j))
          split
          · exact ih
          · exact (ih.setBase _).setDiff _
        | moveAssign i j =>
          show Tidy (if i = j then m
            else ((m.setBase i (m.baseOf j)).setDiff i (m.diffOf j)).setBase j none)
          split
          · exact ih
          · exact ((ih.setBase _).setDiff _).setBase _
        | destroy i => exact ih.replace none
        | updateIdx i e => exact ih.updateIdx i e
        | update i j => exact ih.update i j
      | setMax i e => exact ih.setMax i e
      | clear i => exact (ih.setBase _).setDiff _
    · cases hm

/-- Only the diff of view `i` covers what the base of view `j` has at the thread of that diff, and
everything else of view `j` is covered. -/
structure OnlyDiffCovers (m : Memory) (i j : ℕ) : Prop where
  base_ne : m.baseOf i ≠ m.baseOf j
  above : (m.baseView i).getD (m.diffOf i).thread 0 < (m.baseView j).getD (m.diffOf i).thread 0
  covered : (m.baseView j).getD (m.diffOf i).thread 0 ≤ (m.diffOf i).index
  others : ∀ t, t ≠ (m.diffOf i).thread → (m.baseView j).getD t 0 ≤ (m.baseView i).getD t 0
  diff : (m.diffOf j).index ≤ m.getMax i (m.diffOf j).thread

/-- A view contains another one: every entry is at least as large. -/
def Covers (m : Memory) (i j : ℕ) : Prop := ∀ t, m.getMax j t ≤ m.getMax i t

/-- What `containsView` answers, without its fast paths. -/
theorem Tidy.containsView_iff (h : Tidy m) (hij : i ≠ j) :
    m.containsView i j = true ↔
      (m.diffOf j).index ≤ m.getMax i (m.diffOf j).thread ∧
        (m.baseOf i = m.baseOf j ∨ ∀ t, (m.baseView j).getD t 0 ≤ (m.baseView i).getD t 0) := by
  have hguard : (¬ (m.diffOf j).isInitializer = true ∧
      (m.diffOf j).index > m.getMax i (m.diffOf j).thread) ↔
      ¬ (m.diffOf j).index ≤ m.getMax i (m.diffOf j).thread := by
    rw [not_le]
    refine ⟨And.right, fun hlt => ⟨fun hinit => ?_, hlt⟩⟩
    rw [Event.isInitializer_iff.1 hinit] at hlt
    cases hlt
  rw [containsView, if_neg hij, if_congr hguard rfl rfl]
  by_cases hd : (m.diffOf j).index ≤ m.getMax i (m.diffOf j).thread
  · rw [if_neg (not_not.2 hd), and_iff_right hd]
    by_cases hb : m.baseOf i = m.baseOf j
    · simp [hb]
    · rw [or_iff_right hb]
      by_cases hj : m.baseOf j = none
      · have hview : m.baseView j = [] := by rw [Memory.baseView, hj]; rfl
        simp [hj, hview]
      · rw [if_neg (not_or.2 ⟨hj, hb⟩)]
        split
        · rename_i hi
          have hview : m.baseView i = [] := by rw [Memory.baseView, hi]; rfl
          rw [hview, ← ViewBase.containsView_iff (h.baseView j), ViewBase.containsView]
          cases m.baseView j <;> simp
        · exact ViewBase.containsView_iff (h.baseView j)
  · rw [if_pos hd]
    simp [hd]

/-- **`contains` is the pointwise order, except where a diff is needed to cover a base.** -/
theorem containsView_exact_iff (h : Reaches (fun _ _ => True) m) (i j : ℕ) :
    (m.containsView i j = true ↔ m.Covers i j) ↔ ¬ m.OnlyDiffCovers i j := by
  by_cases hij : i = j
  · subst hij
    have hself : m.containsView i i = true := by rw [containsView, if_pos rfl]
    exact iff_of_true (iff_of_true hself fun _ => le_rfl) fun hc => hc.base_ne rfl
  have hiff := h.tidy.containsView_iff hij
  refine ⟨?_, fun hno => ?_⟩
  · -- the view is covered, but its base is not covered by the other base
    intro hexact hc
    have hcovers : m.Covers i j := by
      intro t
      have hd : eventAt (m.diffOf j) t ≤ m.getMax i t := by
        rw [eventAt]
        split
        · rename_i ht
          rw [← ht]
          exact hc.diff
        · exact Nat.zero_le _
      have hb : (m.baseView j).getD t 0 ≤ m.getMax i t := by
        rw [getMax_eq, eventAt]
        by_cases ht : t = (m.diffOf i).thread
        · rw [if_pos ht.symm, ht]
          exact hc.covered.trans (le_max_right _ _)
        · exact (hc.others t ht).trans (le_max_left _ _)
      rw [getMax_eq]
      exact max_le hb hd
    rcases (hiff.1 (hexact.2 hcovers)).2 with hb | hb
    · exact hc.base_ne hb
    · exact absurd (hb _) (not_le.2 hc.above)
  · refine ⟨getMax_le_of_containsView, fun hcovers => hiff.2 ⟨?_, ?_⟩⟩
    · have hle := hcovers (m.diffOf j).thread
      rw [getMax_eq (i := j), eventAt, if_pos rfl] at hle
      exact (le_max_right _ _).trans hle
    · by_contra hc
      rw [not_or, not_forall] at hc
      obtain ⟨hb, t, ht⟩ := hc
      rw [not_le] at ht
      have hbase : ∀ t', (m.baseView j).getD t' 0 ≤
          max ((m.baseView i).getD t' 0) (eventAt (m.diffOf i) t') := by
        intro t'
        have hle := hcovers t'
        rw [getMax_eq, getMax_eq (i := i)] at hle
        exact (le_max_left _ _).trans hle
      have hthread : (m.diffOf i).thread = t := by
        by_contra hne
        have hle := hbase t
        rw [eventAt, if_neg hne, Nat.max_zero] at hle
        omega
      subst hthread
      refine hno ⟨hb, ht, ?_, fun t' ht' => ?_, ?_⟩
      · have hle := hbase (m.diffOf i).thread
        rw [eventAt, if_pos rfl] at hle
        omega
      · have hle := hbase t'
        rwa [eventAt, if_neg (Ne.symm ht'), Nat.max_zero] at hle
      · have hle := hcovers (m.diffOf j).thread
        rw [getMax_eq (i := j), eventAt, if_pos rfl] at hle
        exact (le_max_right _ _).trans hle

end Memory

/-- A view with the entries 2 and 2 in its base and a 3 in its diff, and one with 1 and 3. -/
def hidden : List Call :=
  [.op .create, .op (.updateIdx 0 ⟨1, 2⟩), .op (.updateIdx 0 ⟨2, 2⟩), .op (.copy 0),
    .op (.updateIdx 1 ⟨2, 3⟩),
    .op .create, .op (.updateIdx 2 ⟨1, 1⟩), .op (.updateIdx 2 ⟨2, 3⟩)]

/-- `contains` compares the bases and misses the 3 in the diff. -/
theorem hidden_not_contained :
    ¬ ∀ m, Memory.Reaches (fun _ _ => True) m → ∀ i j,
      (m.objs i).isSome → (m.objs j).isSome → (m.containsView i j = true ↔ m.Covers i j) := by
  intro h
  have hrun : (Memory.calls hidden).isSome := by decide
  obtain ⟨m, hm⟩ := Option.isSome_iff_exists.1 hrun
  have hfacts : (Memory.calls hidden).map (fun m => ((m.objs 1).isSome, (m.objs 2).isSome,
      m.containsView 1 2, (m.baseView 1 : List ℕ), m.diffOf 1, (m.baseView 2 : List ℕ),
      m.diffOf 2)) =
      some (true, true, false, ([0, 2, 2] : List ℕ), ⟨2, 3⟩, ([0, 1, 3] : List ℕ), ⟨0, 0⟩) := rfl
  rw [hm, Option.map_some, Option.some.injEq] at hfacts
  simp only [Prod.mk.injEq] at hfacts
  obtain ⟨h₁, h₂, hno, hb₁, hd₁, hb₂, hd₂⟩ := hfacts
  have hcovers : m.Covers 1 2 := by
    intro t
    rw [Memory.getMax_eq, Memory.getMax_eq, hb₁, hd₁, hb₂, hd₂]
    match t with
    | 0 => decide
    | 1 => decide
    | 2 => decide
    | t + 3 => simp [Memory.eventAt]
  rw [(h m (Memory.reaches_of_calls hidden hm) 1 2 h₁ h₂).2 hcovers] at hno
  cases hno

/-- A view with the entries 2 and 2 in its base and a 3 in its diff, and one with 1 and 2 in its
base and a 2 in its diff. -/
def twoBases : List Call :=
  [.op .create, .op (.updateIdx 0 ⟨1, 2⟩), .op (.updateIdx 0 ⟨2, 2⟩), .op (.copy 0),
    .op (.updateIdx 1 ⟨2, 3⟩),
    .op .create, .op (.updateIdx 2 ⟨1, 1⟩), .op (.updateIdx 2 ⟨2, 2⟩), .op (.copy 2),
    .op (.updateIdx 3 ⟨1, 2⟩)]

/-- The bases are covered without a diff. -/
theorem twoBases_contained :
    ∃ m, Memory.calls twoBases = some m ∧
      (m.baseView 1 : List ℕ) = ([0, 2, 2] : List ℕ) ∧ m.diffOf 1 = ⟨2, 3⟩ ∧
      (m.baseView 3 : List ℕ) = ([0, 1, 2] : List ℕ) ∧ m.diffOf 3 = ⟨1, 2⟩ ∧
      m.containsView 1 3 = true ∧
      ((m.containsView 1 3 = true ↔ m.Covers 1 3) ↔ ¬ m.OnlyDiffCovers 1 3) := by
  have hrun : (Memory.calls twoBases).isSome := by decide
  obtain ⟨m, hm⟩ := Option.isSome_iff_exists.1 hrun
  have hfacts : (Memory.calls twoBases).map (fun m => ((m.baseView 1 : List ℕ), m.diffOf 1,
      (m.baseView 3 : List ℕ), m.diffOf 3, m.containsView 1 3)) =
      some (([0, 2, 2] : List ℕ), ⟨2, 3⟩, ([0, 1, 2] : List ℕ), ⟨1, 2⟩, true) := rfl
  rw [hm, Option.map_some, Option.some.injEq] at hfacts
  simp only [Prod.mk.injEq] at hfacts
  obtain ⟨hb₁, hd₁, hb₃, hd₃, hyes⟩ := hfacts
  exact ⟨m, hm, hb₁, hd₁, hb₃, hd₃, hyes,
    Memory.containsView_exact_iff (Memory.reaches_of_calls _ hm) 1 3⟩

end SharedView
end GenMC
