import Mathlib.Data.List.TakeWhile
import Mathlib.Order.Lattice
import Mathlib.Data.List.Basic

/-!
# Maps from intervals

An interval map gives a value to every point of an ordered set.  It is a sorted map from the points
where the value changes: the value of a point is that of the last such point at or below it, and an
identity value below the first one.  `IntervalMap.add` combines a value into all points of a
right-open interval.  It splits the segments at the two ends of the interval, updates the segments
between them, and drops a segment whose value has become equal to that of the segment before it.

* `IntervalMap.valueAt_add`: **what `add` does to every point.**  Any relation between points and
  values that the update establishes inside of the interval, and that the old values have outside
  of it, holds of the values of the new map, provided equal values cannot be told apart.
* `IntervalMap.mem_range`: an iteration from `lower_bound` to `upper_bound` of an interval sees the
  values, other than the identity, of the points of the interval and no others.

Equality of values is whatever the type of the values says it is; it need not be the equality of
Lean.  The update of one segment may look at the other segments, since values can share storage.
-/

set_option autoImplicit false

namespace GenMC

/-- The segments are in order. -/
abbrev Ascending {K V : Type*} [LinearOrder K] (l : List (K × V)) : Prop :=
  l.Pairwise fun a b => a.1 < b.1

theorem Ascending.nil {K V : Type*} [LinearOrder K] : Ascending ([] : List (K × V)) :=
  List.Pairwise.nil

/-- A map from intervals, by the points where its value changes. -/
structure IntervalMap (K V : Type*) [LinearOrder K] where
  map : List (K × V)
  id : V
  sorted : Ascending map

namespace IntervalMap

variable {K V : Type*} [LinearOrder K]

/-- The value of a point, as the last change at or below it says. -/
def valueIn (id : V) : List (K × V) → K → V
  | [], _ => id
  | (k, x) :: rest, p => if k ≤ p then valueIn x rest p else id

def valueAt (m : IntervalMap K V) (p : K) : V := valueIn m.id m.map p

def empty (id : V) : IntervalMap K V := ⟨[], id, .nil⟩

/-! ## Changing a map -/

section Add

variable [BEq V]

/-- Appends a segment, unless its value is that of the segment before it. -/
def canonicalize (id : V) (before : List (K × V)) (seg : K × V) : List (K × V) :=
  match before.getLast? with
  | none => if seg.2 == id then before else before ++ [seg]
  | some prev => if prev.2 == seg.2 then before else before ++ [seg]

/-- The segments before `point`, the value of the segment that starts there after a split, and the
segments after it. -/
def createSplit (id : V) (map : List (K × V)) (point : K) :
    List (K × V) × V × List (K × V) :=
  let before := map.takeWhile (·.1 < point)
  let prevVal := (before.getLast?.map (·.2)).getD id
  match map.dropWhile (·.1 < point) with
  | [] => (before, prevVal, [])
  | (k, x) :: rest => if k = point then (before, x, rest) else (before, prevVal, (k, x) :: rest)

/-- The loop of `add`: the segments that are done, the start and the value of the one at hand, and
the ones after it.  The update of a segment is given the values of all others. -/
def addLoop (id : V) (stop : K) (update : List V → V → V) (before : List (K × V)) (k : K) (x : V) :
    List (K × V) → List (K × V)
  | [] =>
    let x' := update ((before ++ [(stop, x)]).map (·.2)) x
    canonicalize id (canonicalize id before (k, x')) (stop, x)
  | (k', y) :: rest =>
    if stop < k' then
      let x' := update ((before ++ (stop, x) :: (k', y) :: rest).map (·.2)) x
      canonicalize id (canonicalize id before (k, x')) (stop, x) ++ (k', y) :: rest
    else
      let x' := update ((before ++ (k', y) :: rest).map (·.2)) x
      let before' := canonicalize id before (k, x')
      if k' < stop then addLoop id stop update before' k' y rest
      else canonicalize id before' (k', y) ++ rest

/-! ### The order of the segments -/

omit [LinearOrder K] in
theorem canonicalize_eq (id : V) (before : List (K × V)) (seg : K × V) :
    canonicalize id before seg = before ∨ canonicalize id before seg = before ++ [seg] := by
  rw [canonicalize]
  split <;> split <;> simp

omit [LinearOrder K] in
theorem canonicalize_sublist (id : V) (before : List (K × V)) (seg : K × V) :
    (canonicalize id before seg).Sublist (before ++ [seg]) := by
  rcases canonicalize_eq id before seg with h | h <;> rw [h]
  exact List.sublist_append_left _ _

theorem sorted_canonicalize (id : V) {before rest : List (K × V)} {seg : K × V}
    (h : Ascending (before ++ seg :: rest)) :
    Ascending (canonicalize id before seg ++ rest) := by
  refine h.sublist ?_
  have := (canonicalize_sublist id before seg).append_right rest
  rwa [List.append_assoc] at this

omit [BEq V] in
theorem sorted_append_cons_val {before rest : List (K × V)} {k : K} {x : V} (y : V)
    (h : Ascending (before ++ (k, x) :: rest)) :
    Ascending (before ++ (k, y) :: rest) := by
  rw [Ascending, List.pairwise_append, List.pairwise_cons] at h ⊢
  refine ⟨h.1, h.2.1, fun a ha b hb => ?_⟩
  rcases List.mem_cons.1 hb with rfl | hb
  · exact h.2.2 a ha (k, x) (List.mem_cons_self ..)
  · exact h.2.2 a ha b (List.mem_cons_of_mem _ hb)

omit [BEq V] in
/-- A new segment between two others. -/
theorem sorted_insert {before rest : List (K × V)} {k stop : K} {x y : V} (hk : k < stop)
    (h : Ascending (before ++ (k, x) :: rest))
    (hr : ∀ a ∈ rest, stop < a.1) :
    Ascending (before ++ (k, x) :: (stop, y) :: rest) := by
  rw [Ascending, List.pairwise_append, List.pairwise_cons] at h ⊢
  obtain ⟨hb, ⟨hkr, hrest⟩, hbr⟩ := h
  refine ⟨hb, ⟨?_, ?_⟩, ?_⟩
  · rintro a ha
    rcases List.mem_cons.1 ha with rfl | ha
    · exact hk
    · exact hkr a ha
  · exact List.pairwise_cons.2 ⟨hr, hrest⟩
  · rintro a ha b hb'
    have hak := hbr a ha (k, x) (List.mem_cons_self ..)
    rcases List.mem_cons.1 hb' with rfl | hb'
    · exact hak
    rcases List.mem_cons.1 hb' with rfl | hb'
    · exact hak.trans hk
    · exact hbr a ha b (List.mem_cons_of_mem _ hb')

omit [BEq V] in
theorem sorted_tail_lt {before rest : List (K × V)} {seg : K × V}
    (h : Ascending (before ++ seg :: rest)) : ∀ a ∈ rest, seg.1 < a.1 :=
  (List.pairwise_cons.1 (List.pairwise_append.1 h).2.1).1

theorem sorted_addLoop (id : V) (stop : K) (update : List V → V → V) (rest : List (K × V)) :
    ∀ (before : List (K × V)) (k : K) (x : V), k < stop →
      Ascending (before ++ (k, x) :: rest) →
      Ascending (addLoop id stop update before k x rest) := by
  induction rest with
  | nil =>
    intro before k x hk h
    rw [addLoop]
    have h₁ := sorted_insert (y := x) hk (sorted_append_cons_val
      (update ((before ++ [(stop, x)]).map (·.2)) x) h) (by simp)
    have h₂ := sorted_canonicalize id (sorted_canonicalize id h₁)
    rwa [List.append_nil] at h₂
  | cons seg rest ih =>
    obtain ⟨k', y⟩ := seg
    intro before k x hk h
    rw [addLoop]
    split
    · rename_i hlt
      have hr : ∀ a ∈ (k', y) :: rest, stop < a.1 := by
        intro a ha
        rcases List.mem_cons.1 ha with rfl | ha
        · exact hlt
        · have := (List.pairwise_cons.1 (List.pairwise_cons.1 (List.pairwise_append.1 h).2.1).2).1
          exact hlt.trans (this a ha)
      exact sorted_canonicalize _ (sorted_canonicalize _
        (sorted_insert hk (sorted_append_cons_val _ h) hr))
    · have h' := sorted_canonicalize id
        (sorted_append_cons_val (update ((before ++ (k', y) :: rest).map (·.2)) x) h)
      dsimp only
      split
      · rename_i hlt
        exact ih _ _ _ hlt h'
      · exact sorted_canonicalize _ h'

omit [BEq V] in
theorem lt_of_mem_takeWhile {map : List (K × V)} {point : K} {a : K × V}
    (ha : a ∈ map.takeWhile (·.1 < point)) : a.1 < point :=
  of_decide_eq_true (List.mem_takeWhile_imp (p := fun b : K × V => decide (b.1 < point)) ha)

omit [BEq V] in
theorem sorted_createSplit (id : V) {map : List (K × V)} (point : K) (h : Ascending map) :
    Ascending ((createSplit id map point).1 ++
      (point, (createSplit id map point).2.1) :: (createSplit id map point).2.2) := by
  have hbefore : ∀ a ∈ map.takeWhile (·.1 < point), a.1 < point :=
    fun a ha => lt_of_mem_takeWhile ha
  have hsplit := List.takeWhile_append_dropWhile (p := fun a : K × V => decide (a.1 < point))
    (l := map)
  rw [createSplit]
  rw [← hsplit] at h
  obtain ⟨hb, hd, hbd⟩ := List.pairwise_append.1 h
  split
  · refine List.pairwise_append.2 ⟨hb, List.pairwise_singleton _ _, fun a ha b hb' => ?_⟩
    rw [List.mem_singleton] at hb'
    subst hb'
    exact hbefore a ha
  · rename_i k y rest' heq
    rw [heq] at hd hbd
    have hk : ¬ k < point := by
      have := List.head?_dropWhile_not (fun a : K × V => decide (a.1 < point)) map
      rw [heq] at this
      simpa using this
    split
    · rename_i hkp
      subst hkp
      exact List.pairwise_append.2 ⟨hb, hd, hbd⟩
    · rename_i hkp
      have hlt : point < k := lt_of_le_of_ne (not_lt.1 hk) (Ne.symm hkp)
      refine List.pairwise_append.2 ⟨hb, List.pairwise_cons.2 ⟨?_, hd⟩, ?_⟩
      · intro a ha
        rcases List.mem_cons.1 ha with rfl | ha
        · exact hlt
        · exact hlt.trans ((List.pairwise_cons.1 hd).1 a ha)
      · intro a ha b hb'
        rcases List.mem_cons.1 hb' with rfl | hb'
        · exact hbefore a ha
        · exact hbd a ha b hb'

/-- Combines a value into the points of `[start, stop)`.  The identity value and an interval
without points are ignored. -/
def add (m : IntervalMap K V) (start stop : K) (val : V) (update : List V → V → V) :
    IntervalMap K V :=
  if h : stop ≤ start ∨ val == m.id then m
  else
    let split := createSplit m.id m.map start
    { m with
      map := addLoop m.id stop update split.1 start split.2.1 split.2.2
      sorted := sorted_addLoop _ _ _ _ _ _ _ (not_le.1 fun hle => h (.inl hle))
        (sorted_createSplit m.id start m.sorted) }

/-! ### The values of the points -/

omit [BEq V] in
theorem valueIn_of_lt {l : List (K × V)} {p : K} (h : ∀ a ∈ l, p < a.1) (id : V) :
    valueIn id l p = id := by
  cases l with
  | nil => rfl
  | cons a l => rw [valueIn, if_neg (not_le.2 (h a (List.mem_cons_self ..)))]

omit [BEq V] in
theorem valueIn_append {l₂ : List (K × V)} (p : K) (l₁ : List (K × V)) :
    ∀ id : V, Ascending (l₁ ++ l₂) →
      valueIn id (l₁ ++ l₂) p = valueIn (valueIn id l₁ p) l₂ p := by
  induction l₁ with
  | nil => exact fun id _ => rfl
  | cons a l₁ ih =>
    intro id h
    obtain ⟨ha, hl⟩ := List.pairwise_cons.1 h
    rw [List.cons_append, valueIn, valueIn]
    split
    · exact ih _ hl
    · rename_i hlt
      rw [valueIn_of_lt fun b hb => (not_le.1 hlt).trans (ha b (List.mem_append_right _ hb))]

omit [BEq V] in
theorem valueIn_of_le {p : K} (l : List (K × V)) : ∀ id : V, (∀ a ∈ l, a.1 ≤ p) →
    valueIn id l p = (l.getLast?.map (·.2)).getD id := by
  induction l with
  | nil => exact fun _ _ => rfl
  | cons a l ih =>
    intro id h
    rw [valueIn, if_pos (h a (List.mem_cons_self ..)),
      ih _ fun b hb => h b (List.mem_cons_of_mem _ hb), List.getLast?_cons]
    cases l.getLast? <;> rfl

omit [BEq V] in
/-- Two values that a predicate does not tell apart may stand before the same segments. -/
theorem valueIn_congr {P : V → Prop} {x y : V} (h : P x ↔ P y) (l : List (K × V)) (p : K) :
    P (valueIn x l p) ↔ P (valueIn y l p) := by
  cases l with
  | nil => exact h
  | cons a l =>
    rw [valueIn, valueIn]
    split
    · rfl
    · exact h

theorem valueIn_canonicalize (id : V) {before rest : List (K × V)} {seg : K × V}
    {P : V → Prop} (hP : ∀ x y, (x == y) = true → (P x ↔ P y))
    (h : Ascending (before ++ seg :: rest)) (p : K) :
    P (valueIn id (canonicalize id before seg ++ rest) p) ↔
      P (valueIn id (before ++ seg :: rest) p) := by
  rw [valueIn_append p _ _ (sorted_canonicalize _ h), valueIn_append p _ _ h, valueIn]
  have hseg : Ascending (before ++ [seg]) :=
    h.sublist ((List.append_sublist_append_left _).2 (List.singleton_sublist.2 (by simp)))
  have happ : valueIn id (before ++ [seg]) p =
      if seg.1 ≤ p then seg.2 else valueIn id before p := by
    rw [valueIn_append p _ _ hseg, valueIn, valueIn]
  have hsplit : valueIn (valueIn id (before ++ [seg]) p) rest p =
      if seg.1 ≤ p then valueIn seg.2 rest p else valueIn id before p := by
    rw [happ]
    split
    · rfl
    · rename_i hp
      exact valueIn_of_lt (fun a ha => (not_le.1 hp).trans (sorted_tail_lt h a ha)) _
  -- what stays when the segment is dropped
  have hdrop : (seg.1 ≤ p → (P (valueIn id before p) ↔ P seg.2)) →
      (P (valueIn (valueIn id before p) rest p) ↔
        P (if seg.1 ≤ p then valueIn seg.2 rest p else valueIn id before p)) := by
    intro hlast
    rw [← hsplit, happ]
    split
    · rename_i hp
      exact valueIn_congr (hlast hp) rest p
    · rfl
  have hle : seg.1 ≤ p → valueIn id before p = (before.getLast?.map (·.2)).getD id := fun hp =>
    valueIn_of_le before id fun a ha =>
      (((List.pairwise_append.1 h).2.2 a ha seg (List.mem_cons_self ..)).trans_le hp).le
  rw [canonicalize]
  split
  · rename_i hnone
    split
    · rename_i heq
      refine hdrop fun hp => ?_
      rw [hle hp, hnone]
      exact (hP _ _ heq).symm
    · rw [hsplit]
  · rename_i prev hsome
    split
    · rename_i heq
      refine hdrop fun hp => ?_
      rw [hle hp, hsome]
      exact hP _ _ heq
    · rw [hsplit]

omit [BEq V] in
theorem valueIn_createSplit (id : V) {map : List (K × V)} (point : K) (h : Ascending map) (p : K) :
    valueIn id ((createSplit id map point).1 ++
      (point, (createSplit id map point).2.1) :: (createSplit id map point).2.2) p =
      valueIn id map p := by
  have hasc := sorted_createSplit id point h
  have hsplit := List.takeWhile_append_dropWhile (p := fun a : K × V => decide (a.1 < point))
    (l := map)
  have hprev : point ≤ p →
      valueIn id (map.takeWhile (·.1 < point)) p =
        ((map.takeWhile (·.1 < point)).getLast?.map (·.2)).getD id := fun hp =>
    valueIn_of_le _ id fun a ha => ((lt_of_mem_takeWhile ha).trans_le hp).le
  have hold : valueIn id map p = valueIn (valueIn id (map.takeWhile (·.1 < point)) p)
      (map.dropWhile (·.1 < point)) p := by
    rw [← valueIn_append p _ _ (by rwa [hsplit]), hsplit]
  rw [valueIn_append p _ _ hasc, hold]
  rw [createSplit] at hasc ⊢
  split at hasc
  · rename_i heq
    rw [heq, valueIn, valueIn, valueIn]
    split
    · rename_i hp
      exact (hprev hp).symm
    · rfl
  · rename_i k y rest heq
    rw [heq]
    split
    · rename_i hk
      subst hk
      rfl
    · rename_i hk
      rw [if_neg hk] at hasc
      rw [valueIn]
      split
      · rename_i hp
        rw [← hprev hp]
      · rename_i hp
        have hlt := sorted_tail_lt hasc
        rw [valueIn_of_lt fun a ha => (not_le.1 hp).trans (hlt a ha)]

/-- What the loop does to the values of the points: those before the segment at hand have their new
values, those after it the old ones. -/
theorem valueIn_addLoop {id : V} {stop start : K} {update : List V → V → V} {R R' : K → V → Prop}
    (hR' : ∀ p x y, (x == y) = true → (R' p x ↔ R' p y))
    (hin : ∀ p x others, start ≤ p → p < stop → R p x → R' p (update others x))
    (hout : ∀ p x, ¬ (start ≤ p ∧ p < stop) → R p x → R' p x)
    (rest : List (K × V)) :
    ∀ (before : List (K × V)) (k : K) (x : V), start ≤ k → k < stop →
      Ascending (before ++ (k, x) :: rest) →
      (∀ p, p < k → R' p (valueIn id before p)) → (∀ p, k ≤ p → R p (valueIn x rest p)) →
      ∀ p, R' p (valueIn id (addLoop id stop update before k x rest) p) := by
  -- the segment at hand, once it is updated, up to the start of the next one
  have hseg : ∀ (before : List (K × V)) (k n : K) (x : V) (others : List V) (p : K),
      start ≤ k → Ascending (before ++ [(k, update others x)]) → n ≤ stop →
      (∀ p, p < k → R' p (valueIn id before p)) → (∀ p, k ≤ p → p < n → R p x) → p < n →
      R' p (valueIn id (canonicalize id before (k, update others x)) p) := by
    intro before k n x others p hk h hn hbefore hx hp
    have hc := (valueIn_canonicalize id (P := R' p) (hR' p) h p).2
    rw [List.append_nil] at hc
    refine hc ?_
    rw [valueIn_append p _ _ h, valueIn, valueIn]
    split
    · rename_i hkp
      exact hin p x others (hk.trans hkp) (hp.trans_le hn) (hx p hkp hp)
    · rename_i hkp
      exact hbefore p (not_le.1 hkp)
  -- the segment that starts at the end of the interval is not updated
  have hlast : ∀ (before rest : List (K × V)) (x : V),
      Ascending (before ++ (stop, x) :: rest) →
      (∀ p, p < stop → R' p (valueIn id before p)) → (∀ p, stop ≤ p → R p (valueIn x rest p)) →
      ∀ p, R' p (valueIn id (canonicalize id before (stop, x) ++ rest) p) := by
    intro before rest x h hbefore hx p
    refine (valueIn_canonicalize id (P := R' p) (hR' p) h p).2 ?_
    rw [valueIn_append p _ _ h, valueIn]
    split
    · rename_i hp
      exact hout p _ (fun h => (not_lt.2 hp) h.2) (hx p hp)
    · rename_i hp
      exact hbefore p (not_le.1 hp)
  induction rest with
  | nil =>
    intro before k x hsk hk h hbefore hx p
    rw [addLoop]
    have hins := sorted_insert (y := x) hk (sorted_append_cons_val
      (update ((before ++ [(stop, x)]).map (·.2)) x) h) (by simp)
    have hl := hlast _ [] x (sorted_canonicalize id hins)
      (fun p hp => hseg before k stop x _ p hsk (sorted_append_cons_val _ h) le_rfl hbefore
        (fun p hp _ => hx p hp) hp)
      (fun p hp => hx p (hk.le.trans hp)) p
    rwa [List.append_nil] at hl
  | cons seg rest ih =>
    obtain ⟨k', y⟩ := seg
    intro before k x hsk hk h hbefore hx p
    have hkk' : k < k' := sorted_tail_lt h (k', y) (List.mem_cons_self ..)
    have hone : ∀ x', Ascending (before ++ [(k, x')]) := fun x' =>
      (sorted_append_cons_val x' h).sublist
        ((List.append_sublist_append_left _).2 (List.singleton_sublist.2 (by simp)))
    have hx₁ : ∀ p, k ≤ p → p < k' → R p x := by
      intro p hkp hpk'
      have := hx p hkp
      rwa [valueIn, if_neg (not_le.2 hpk')] at this
    have hx₂ : ∀ p, k' ≤ p → R p (valueIn y rest p) := by
      intro p hp
      have := hx p (hkk'.le.trans hp)
      rwa [valueIn, if_pos hp] at this
    rw [addLoop]
    split
    · rename_i hlt
      have hr : ∀ a ∈ (k', y) :: rest, stop < a.1 := by
        intro a ha
        rcases List.mem_cons.1 ha with rfl | ha
        · exact hlt
        · exact hlt.trans ((List.pairwise_cons.1
            (List.pairwise_cons.1 (List.pairwise_append.1 h).2.1).2).1 a ha)
      refine hlast _ _ x (sorted_canonicalize _ (sorted_insert hk (sorted_append_cons_val _ h) hr))
        (fun p hp => ?_) (fun p hp => hx p (hk.le.trans hp)) p
      exact hseg before k stop x _ p hsk (hone _) le_rfl hbefore
        (fun p hkp hps => hx₁ p hkp (hps.trans hlt)) hp
    · rename_i hle
      have hdone : ∀ p, p < k' → R' p (valueIn id (canonicalize id before
          (k, update ((before ++ (k', y) :: rest).map (·.2)) x)) p) := fun p hp =>
        hseg before k k' x _ p hsk (hone _) (not_lt.1 hle) hbefore hx₁ hp
      have hasc := sorted_canonicalize id
        (sorted_append_cons_val (update ((before ++ (k', y) :: rest).map (·.2)) x) h)
      dsimp only
      split
      · rename_i hlt
        exact ih _ k' y (hsk.trans hkk'.le) hlt hasc hdone hx₂ p
      · rename_i hge
        obtain rfl : k' = stop := le_antisymm (not_lt.1 hle) (not_lt.1 hge)
        exact hlast _ _ y hasc hdone hx₂ p

/-- What splitting at `start` and running the loop do to the value of every point. -/
theorem valueIn_addLoop_createSplit {id : V} {map : List (K × V)} (hmap : Ascending map)
    {start stop : K} (hse : start < stop) {update : List V → V → V} {R Q : K → V → Prop}
    (hQ : ∀ p x y, (x == y) = true → (Q p x ↔ Q p y))
    (hin : ∀ p x others, start ≤ p → p < stop → R p x → Q p (update others x))
    (hout : ∀ p x, ¬ (start ≤ p ∧ p < stop) → R p x → Q p x)
    (h : ∀ p, R p (valueIn id map p)) (p : K) :
    Q p (valueIn id (addLoop id stop update (createSplit id map start).1 start
      (createSplit id map start).2.1 (createSplit id map start).2.2) p) := by
  have hasc := sorted_createSplit id start hmap
  have hvals := valueIn_createSplit id start hmap
  refine valueIn_addLoop hQ hin hout _ _ _ _ le_rfl hse hasc ?_ ?_ p
  · intro p hp
    refine hout p _ (fun h => not_le.2 hp h.1) ?_
    have := h p
    rw [← hvals p, valueIn_append p _ _ hasc, valueIn, if_neg (not_le.2 hp)] at this
    exact this
  · intro p hp
    have := h p
    rw [← hvals p, valueIn_append p _ _ hasc, valueIn, if_pos hp] at this
    exact this

/-- **What `add` does to the value of every point.** -/
theorem valueAt_add {m : IntervalMap K V} {start stop : K} {val : V} {update : List V → V → V}
    {R Q : K → V → Prop} (hse : start < stop) (hval : (val == m.id) = false)
    (hQ : ∀ p x y, (x == y) = true → (Q p x ↔ Q p y))
    (hin : ∀ p x others, start ≤ p → p < stop → R p x → Q p (update others x))
    (hout : ∀ p x, ¬ (start ≤ p ∧ p < stop) → R p x → Q p x)
    (h : ∀ p, R p (m.valueAt p)) (p : K) :
    Q p ((m.add start stop val update).valueAt p) := by
  have hnot : ¬ (stop ≤ start ∨ (val == m.id) = true) := by simp [hse, hval]
  rw [add, dif_neg hnot]
  exact valueIn_addLoop_createSplit m.sorted hse hQ hin hout h p

/-! ### The values of the segments -/

/-- What holds of all values, where the update makes it hold of what is in the interval. -/
theorem forall_mem_addLoop {id : V} {stop : K} {update : List V → V → V} {P Q : V → Prop}
    (hP : ∀ others x, Q x → P (update others x)) (rest : List (K × V)) :
    ∀ (before : List (K × V)) (k : K) (x : V), (∀ seg ∈ before, P seg.2) → P x → Q x →
      (∀ seg ∈ rest, P seg.2) → (∀ seg ∈ rest, seg.1 < stop → Q seg.2) →
      ∀ seg ∈ addLoop id stop update before k x rest, P seg.2 := by
  have hcanon : ∀ (before : List (K × V)) (seg : K × V), (∀ s ∈ before, P s.2) → P seg.2 →
      ∀ s ∈ canonicalize id before seg, P s.2 := by
    intro before seg hbefore hseg s hs
    rcases List.mem_append.1 ((canonicalize_sublist id before seg).subset hs) with hs | hs
    · exact hbefore s hs
    · rw [List.mem_singleton.1 hs]
      exact hseg
  induction rest with
  | nil =>
    intro before k x hbefore hx hQ _ _
    rw [addLoop]
    exact hcanon _ _ (hcanon _ _ hbefore (hP _ _ hQ)) hx
  | cons seg rest ih =>
    obtain ⟨k', y⟩ := seg
    intro before k x hbefore hx hQ hrest hin
    have hy : P y := hrest (k', y) (List.mem_cons_self ..)
    have hrest' : ∀ s ∈ rest, P s.2 := fun s hs => hrest s (List.mem_cons_of_mem _ hs)
    have hdone := fun others => hcanon before (k, update others x) hbefore (hP _ _ hQ)
    rw [addLoop]
    simp only
    split_ifs with hlt hk'
    · intro s hs
      rcases List.mem_append.1 hs with hs | hs
      · exact hcanon _ _ (hdone _) hx s hs
      · exact hrest s hs
    · exact ih _ _ _ (hdone _) hy (hin (k', y) (List.mem_cons_self ..) hk') hrest'
        fun s hs => hin s (List.mem_cons_of_mem _ hs)
    · intro s hs
      rcases List.mem_append.1 hs with hs | hs
      · exact hcanon _ _ (hdone _) hy s hs
      · exact hrest' s hs

omit [BEq V] in
/-- What holds of all values holds of those that a split leaves. -/
theorem forall_mem_createSplit {id : V} {map : List (K × V)} {P : V → Prop} (hid : P id)
    (h : ∀ seg ∈ map, P seg.2) (start : K) :
    (∀ seg ∈ (createSplit id map start).1, P seg.2) ∧ P (createSplit id map start).2.1 ∧
      ∀ seg ∈ (createSplit id map start).2.2, P seg.2 := by
  have hbefore : ∀ seg ∈ map.takeWhile (·.1 < start), P seg.2 := fun seg hseg =>
    h seg ((List.takeWhile_sublist _).subset hseg)
  have hrest : ∀ seg ∈ map.dropWhile (·.1 < start), P seg.2 := fun seg hseg =>
    h seg ((List.dropWhile_sublist _).subset hseg)
  have hprev : P (((map.takeWhile (·.1 < start)).getLast?.map (·.2)).getD id) := by
    cases hlast : (map.takeWhile (·.1 < start)).getLast? with
    | none => exact hid
    | some seg => exact hbefore seg (List.mem_of_getLast? hlast)
  rw [createSplit]
  split
  · exact ⟨hbefore, hprev, fun _ hseg => absurd hseg List.not_mem_nil⟩
  · rename_i k x rest heq
    rw [heq] at hrest
    split
    · exact ⟨hbefore, hrest (k, x) (List.mem_cons_self ..), fun seg hseg =>
        hrest seg (List.mem_cons_of_mem _ hseg)⟩
    · exact ⟨hbefore, hprev, hrest⟩

theorem forall_mem_add {m : IntervalMap K V} {start stop : K} {val : V} {update : List V → V → V}
    {P : V → Prop} (hid : P m.id) (hP : ∀ others x, P x → P (update others x))
    (h : ∀ seg ∈ m.map, P seg.2) : ∀ seg ∈ (m.add start stop val update).map, P seg.2 := by
  rw [add]
  split
  · exact h
  · obtain ⟨hbefore, hx, hrest⟩ := forall_mem_createSplit hid h start
    exact forall_mem_addLoop hP _ _ _ _ hbefore hx hx hrest fun seg hseg _ => hrest seg hseg

omit [BEq V] in
/-- The value at the start of a segment. -/
theorem valueIn_of_mem {l : List (K × V)} (h : Ascending l) (id : V) {seg : K × V}
    (hseg : seg ∈ l) : valueIn id l seg.1 = seg.2 := by
  obtain ⟨before, rest, rfl⟩ := List.append_of_mem hseg
  rw [valueIn_append _ _ _ h, valueIn, if_pos le_rfl, valueIn_of_lt (sorted_tail_lt h)]

/-- What holds of all values, where it holds of the updated values of the points of the interval. -/
theorem forall_mem_add_of_valueAt {m : IntervalMap K V} {start stop : K} {val : V}
    {update : List V → V → V} {P : V → Prop} (hid : P m.id)
    (hP : ∀ p others, start ≤ p → p < stop → P (update others (m.valueAt p)))
    (h : ∀ seg ∈ m.map, P seg.2) : ∀ seg ∈ (m.add start stop val update).map, P seg.2 := by
  rw [add]
  split
  · exact h
  · rename_i hskip
    have hse : start < stop := not_le.1 fun hle => hskip (.inl hle)
    obtain ⟨hbefore, hx, hrest⟩ := forall_mem_createSplit hid h start
    have hasc := sorted_createSplit m.id start m.sorted
    have hvalue : ∀ seg ∈ (createSplit m.id m.map start).1 ++
        (start, (createSplit m.id m.map start).2.1) :: (createSplit m.id m.map start).2.2,
        m.valueAt seg.1 = seg.2 := fun seg hseg => by
      rw [valueAt, ← valueIn_createSplit m.id start m.sorted, valueIn_of_mem hasc m.id hseg]
    refine forall_mem_addLoop (Q := fun x => ∀ others, P (update others x))
      (fun others x hx => hx others) _ _ _ _ hbefore hx (fun others => ?_) hrest
      fun seg hseg hlt others => ?_
    · have hstart : m.valueAt start = (createSplit m.id m.map start).2.1 :=
        hvalue (start, (createSplit m.id m.map start).2.1) (by simp)
      rw [← hstart]
      exact hP start others le_rfl hse
    · rw [← hvalue seg (by simp [hseg])]
      exact hP seg.1 others (sorted_tail_lt hasc seg hseg).le hlt

/-! ### The starts of the segments -/

theorem mem_addLoop {id : V} {stop : K} {update : List V → V → V} (rest : List (K × V)) :
    ∀ (before : List (K × V)) (k : K) (x : V), ∀ seg ∈ addLoop id stop update before k x rest,
      seg.1 = k ∨ seg.1 = stop ∨ seg.1 ∈ (before ++ rest).map (·.1) := by
  have hcanon : ∀ (before : List (K × V)) (seg : K × V), ∀ s ∈ canonicalize id before seg,
      s ∈ before ∨ s = seg := fun before seg s hs =>
    (List.mem_append.1 ((canonicalize_sublist id before seg).subset hs)).imp_right
      List.mem_singleton.1
  have hbefore : ∀ (before rest : List (K × V)) (seg : K × V), seg ∈ before →
      seg.1 ∈ (before ++ rest).map (·.1) := fun before rest seg hseg =>
    List.mem_map_of_mem (List.mem_append_left _ hseg)
  induction rest with
  | nil =>
    intro before k x seg hseg
    rw [addLoop] at hseg
    rcases hcanon _ _ seg hseg with hseg | rfl
    · rcases hcanon _ _ seg hseg with hseg | rfl
      · exact .inr (.inr (hbefore _ _ _ hseg))
      · exact .inl rfl
    · exact .inr (.inl rfl)
  | cons next rest ih =>
    obtain ⟨k', y⟩ := next
    intro before k x seg hseg
    have hrest : ∀ seg ∈ (k', y) :: rest, seg.1 ∈ (before ++ (k', y) :: rest).map (·.1) :=
      fun seg hseg => List.mem_map_of_mem (List.mem_append_right _ hseg)
    have hdone : ∀ x', ∀ s ∈ canonicalize id before (k, x'),
        s.1 = k ∨ s.1 ∈ (before ++ (k', y) :: rest).map (·.1) := fun x' s hs =>
      (hcanon before (k, x') s hs).symm.imp (congrArg Prod.fst) (hbefore _ _ _)
    rw [addLoop] at hseg
    dsimp only at hseg
    split_ifs at hseg
    · rcases List.mem_append.1 hseg with hseg | hseg
      · rcases hcanon _ _ seg hseg with hseg | rfl
        · exact (hdone _ seg hseg).imp_right .inr
        · exact .inr (.inl rfl)
      · exact .inr (.inr (hrest seg hseg))
    · rcases ih _ _ _ seg hseg with h | h | h
      · rw [h]
        exact .inr (.inr (hrest (k', y) (List.mem_cons_self ..)))
      · exact .inr (.inl h)
      · obtain ⟨s, hs, hkey⟩ := List.mem_map.1 h
        rw [← hkey]
        rcases List.mem_append.1 hs with hs | hs
        · exact (hdone _ s hs).imp_right .inr
        · exact .inr (.inr (hrest s (List.mem_cons_of_mem _ hs)))
    · rcases List.mem_append.1 hseg with hseg | hseg
      · rcases hcanon _ _ seg hseg with hseg | rfl
        · exact (hdone _ seg hseg).imp_right .inr
        · exact .inr (.inr (hrest (k', y) (List.mem_cons_self ..)))
      · exact .inr (.inr (hrest seg (List.mem_cons_of_mem _ hseg)))

/-- Segments start where they did before, or at the ends of the interval. -/
theorem mem_add {m : IntervalMap K V} {start stop : K} {val : V} {update : List V → V → V} :
    ∀ seg ∈ (m.add start stop val update).map,
      seg.1 = start ∨ seg.1 = stop ∨ seg.1 ∈ m.map.map (·.1) := by
  rw [add]
  split
  · exact fun seg hseg => .inr (.inr (List.mem_map_of_mem hseg))
  · intro seg hseg
    refine (mem_addLoop _ _ _ _ seg hseg).imp_right (Or.imp_right fun h => ?_)
    obtain ⟨s, hs, hkey⟩ := List.mem_map.1 h
    rw [← hkey]
    refine List.mem_map_of_mem ?_
    rw [createSplit] at hs
    have hbefore : ∀ s ∈ m.map.takeWhile (·.1 < start), s ∈ m.map := fun s hs =>
      (List.takeWhile_sublist _).subset hs
    split at hs
    · exact hbefore s (by simpa using hs)
    · rename_i k x rest heq
      have hrest : ∀ s ∈ (k, x) :: rest, s ∈ m.map := fun s hs =>
        (List.dropWhile_sublist _).subset (heq ▸ hs)
      split at hs
      · rcases List.mem_append.1 hs with hs | hs
        · exact hbefore s hs
        · exact hrest s (List.mem_cons_of_mem _ hs)
      · exact (List.mem_append.1 hs).elim (hbefore s) (hrest s)

omit [BEq V] in
/-- Between two points without a start of a segment, the value stays the same. -/
theorem valueIn_eq_of_forall {a p : K} (hap : a ≤ p) (l : List (K × V)) : ∀ id : V,
    (∀ seg ∈ l, ¬ (a < seg.1 ∧ seg.1 ≤ p)) → valueIn id l p = valueIn id l a := by
  induction l with
  | nil => exact fun _ _ => rfl
  | cons seg l ih =>
    intro id h
    have hseg := h seg (List.mem_cons_self ..)
    rw [valueIn, valueIn]
    by_cases hle : seg.1 ≤ a
    · rw [if_pos hle, if_pos (hle.trans hap)]
      exact ih seg.2 fun s hs => h s (List.mem_cons_of_mem _ hs)
    · rw [if_neg hle, if_neg fun hp => hseg ⟨not_le.1 hle, hp⟩]

theorem id_add (m : IntervalMap K V) (start stop : K) (val : V) (update : List V → V → V) :
    (m.add start stop val update).id = m.id := by
  rw [add]
  split <;> rfl

/-! ## Looking at a map -/

/-- The segment that a point is in, unless it has the identity value. -/
def find (m : IntervalMap K V) (point : K) : Option (K × V) :=
  match (m.map.takeWhile (·.1 ≤ point)).getLast? with
  | some seg => if seg.2 == m.id then none else some seg
  | none => none

/-- The segments from the one that `start` is in on, or all of them if it is before the first.  The
last segment goes up to `keyMax`. -/
def lowerBound (keyMax : K) (m : IntervalMap K V) (start stop : K) : List (K × V) :=
  if stop ≤ start then []
  else
    let it := (m.map.takeWhile (·.1 ≤ start)).getLast?.toList ++ m.map.dropWhile (·.1 ≤ start)
    skip it
where
  /-- Skips the segments that end at or before `start`. -/
  skip : List (K × V) → List (K × V)
    | [] => []
    | [seg] => if start < keyMax then [seg] else []
    | seg :: next :: rest => if start < next.1 then seg :: next :: rest else skip (next :: rest)

/-- The segments that start at `stop` or later. -/
def upperBound (m : IntervalMap K V) (start stop : K) : List (K × V) :=
  if stop ≤ start then [] else m.map.dropWhile (·.1 < stop)

/-- The values seen between the two bounds of an interval; the iterator skips the identity. -/
def range (keyMax : K) (m : IntervalMap K V) (start stop : K) : List V :=
  let it := m.lowerBound keyMax start stop
  let ie := m.upperBound start stop
  ((it.take (it.length - ie.length)).map (·.2)).filter fun x => !(x == m.id)

omit [BEq V] in
/-- A value is the first one or that of a segment. -/
theorem valueIn_eq_or (p : K) (l : List (K × V)) :
    ∀ id : V, valueIn id l p = id ∨ ∃ seg ∈ l, valueIn id l p = seg.2 := by
  induction l with
  | nil => exact fun _ => .inl rfl
  | cons a l ih =>
    intro id
    rw [valueIn]
    split
    · rcases ih a.2 with h | ⟨seg, hseg, h⟩
      · exact .inr ⟨a, List.mem_cons_self .., h⟩
      · exact .inr ⟨seg, List.mem_cons_of_mem _ hseg, h⟩
    · exact .inl rfl

omit [BEq V] in
theorem head_dropWhile_le {l : List (K × V)} (hl : Ascending l) (start : K) :
    ∀ a ∈ l.dropWhile (·.1 ≤ start), start < a.1 := by
  have hsub := hl.sublist (List.dropWhile_sublist (·.1 ≤ start))
  have hhead := List.head?_dropWhile_not (fun a : K × V => decide (a.1 ≤ start)) l
  cases hd : l.dropWhile (·.1 ≤ start) with
  | nil => exact fun _ h => absurd h List.not_mem_nil
  | cons b rest =>
    rw [hd] at hsub hhead
    have hb : start < b.1 := by simpa using hhead
    intro a ha
    rcases List.mem_cons.1 ha with rfl | ha
    · exact hb
    · exact hb.trans ((List.pairwise_cons.1 hsub).1 a ha)

omit [BEq V] in
/-- The value of a point is that of the last segment that starts at or below it. -/
theorem valueAt_eq_getLast (m : IntervalMap K V) (point : K) :
    m.valueAt point = ((m.map.takeWhile (·.1 ≤ point)).getLast?.map (·.2)).getD m.id := by
  have hle : ∀ a ∈ m.map.takeWhile (·.1 ≤ point), a.1 ≤ point := fun a ha =>
    of_decide_eq_true (List.mem_takeWhile_imp (p := fun b : K × V => decide (b.1 ≤ point)) ha)
  have hlt := head_dropWhile_le m.sorted point
  have hsplit := List.takeWhile_append_dropWhile (p := fun a : K × V => decide (a.1 ≤ point))
    (l := m.map)
  calc m.valueAt point
      = valueIn m.id (m.map.takeWhile (·.1 ≤ point) ++ m.map.dropWhile (·.1 ≤ point)) point := by
        rw [hsplit, valueAt]
    _ = valueIn m.id (m.map.takeWhile (·.1 ≤ point)) point := by
        rw [valueIn_append point _ _ (by rw [hsplit]; exact m.sorted), valueIn_of_lt hlt]
    _ = _ := valueIn_of_le _ _ hle

/-- **What `find` finds** is the value of the point, unless it is the identity. -/
theorem map_find [ReflBEq V] (m : IntervalMap K V) (point : K) :
    (m.find point).map (·.2) =
      if m.valueAt point == m.id then none else some (m.valueAt point) := by
  rw [valueAt_eq_getLast, find]
  cases (m.map.takeWhile (·.1 ≤ point)).getLast? with
  | none => rw [Option.map_none, Option.getD_none, if_pos BEq.rfl]
  | some seg =>
    rw [Option.map_some, Option.getD_some]
    dsimp only
    split <;> rfl

theorem isSome_find [ReflBEq V] (m : IntervalMap K V) (point : K) :
    (m.find point).isSome = !(m.valueAt point == m.id) := by
  rw [← Option.isSome_map (f := Prod.snd), map_find]
  cases m.valueAt point == m.id <;> rfl

omit [BEq V] in
/-- No segment is skipped when all but the first start after `start`. -/
theorem skip_eq {keyMax start : K} (hmax : start < keyMax) {it : List (K × V)}
    (h : ∀ a ∈ it.tail, start < a.1) : lowerBound.skip keyMax start it = it := by
  match it with
  | [] => rfl
  | [seg] =>
    rw [lowerBound.skip, if_pos hmax]
  | seg :: next :: rest =>
    rw [lowerBound.skip, if_pos (h next (List.mem_cons_self ..))]

/-- The segments that end after `start` and start before `stop`: the last one that starts at or
before `start`, and those that start between `start` and `stop`. -/
def meeting (m : IntervalMap K V) (start stop : K) : List (K × V) :=
  (m.map.takeWhile (·.1 ≤ start)).getLast?.toList ++
    (m.map.dropWhile (·.1 ≤ start)).takeWhile (·.1 < stop)

omit [BEq V] in
theorem upperBound_eq {m : IntervalMap K V} {start stop : K} (hse : start < stop) :
    m.upperBound start stop = (m.map.dropWhile (·.1 ≤ start)).dropWhile (·.1 < stop) := by
  rw [upperBound, if_neg (not_le.2 hse)]
  have hsplit := List.takeWhile_append_dropWhile (p := fun a : K × V => decide (a.1 ≤ start))
    (l := m.map)
  conv_lhs => rw [← hsplit]
  refine List.dropWhile_append_of_pos fun a ha => ?_
  exact decide_eq_true ((of_decide_eq_true (List.mem_takeWhile_imp
    (p := fun b : K × V => decide (b.1 ≤ start)) ha)).trans_lt hse)

omit [BEq V] in
/-- The lower bound is followed by the segments that meet the interval, and these by the upper
bound. -/
theorem lowerBound_eq_append {keyMax : K} {m : IntervalMap K V} {start stop : K}
    (hse : start < stop) (hmax : start < keyMax) :
    m.lowerBound keyMax start stop = m.meeting start stop ++ m.upperBound start stop := by
  have hdrop := head_dropWhile_le m.sorted start
  have hlower : m.lowerBound keyMax start stop =
      (m.map.takeWhile (·.1 ≤ start)).getLast?.toList ++ m.map.dropWhile (·.1 ≤ start) := by
    rw [lowerBound, if_neg (not_le.2 hse)]
    refine skip_eq hmax fun a ha => hdrop a ?_
    cases hlast : (m.map.takeWhile (·.1 ≤ start)).getLast? with
    | none =>
      rw [hlast] at ha
      exact List.mem_of_mem_tail ha
    | some seg =>
      rw [hlast] at ha
      exact ha
  rw [hlower, upperBound_eq hse, meeting, List.append_assoc, List.takeWhile_append_dropWhile]

omit [BEq V] in
theorem between_eq {keyMax : K} {m : IntervalMap K V} {start stop : K} (hse : start < stop)
    (hmax : start < keyMax) :
    (m.lowerBound keyMax start stop).take
        ((m.lowerBound keyMax start stop).length - (m.upperBound start stop).length) =
      m.meeting start stop := by
  rw [lowerBound_eq_append hse hmax, List.length_append, Nat.add_sub_cancel, List.take_left]

/-- **An iteration between the bounds of an interval sees the values of its points**, except for the
identity. -/
theorem mem_range {keyMax : K} {m : IntervalMap K V} {start stop : K} (hse : start < stop)
    (hmax : start < keyMax) (hid : (m.id == m.id) = true) {x : V} :
    x ∈ m.range keyMax start stop ↔
      (x == m.id) = false ∧ ∃ p, start ≤ p ∧ p < stop ∧ m.valueAt p = x := by
  -- the value of a point of the interval, from the segments between the bounds
  have hT : ∀ a ∈ m.map.takeWhile (·.1 ≤ start), a.1 ≤ start := fun a ha =>
    of_decide_eq_true (List.mem_takeWhile_imp (p := fun b : K × V => decide (b.1 ≤ start)) ha)
  have hM : ∀ a ∈ (m.map.dropWhile (·.1 ≤ start)).takeWhile (·.1 < stop), a.1 < stop := fun a ha =>
    of_decide_eq_true (List.mem_takeWhile_imp (p := fun b : K × V => decide (b.1 < stop)) ha)
  have hM' : ∀ a ∈ (m.map.dropWhile (·.1 ≤ start)).takeWhile (·.1 < stop), start < a.1 :=
    fun a ha => head_dropWhile_le m.sorted start a ((List.takeWhile_sublist _).subset ha)
  have hvalue : ∀ p, start ≤ p → p < stop → m.valueAt p =
      valueIn (((m.map.takeWhile (·.1 ≤ start)).getLast?.map (·.2)).getD m.id)
        ((m.map.dropWhile (·.1 ≤ start)).takeWhile (·.1 < stop)) p := by
    intro p hp hps
    have hsplit := List.takeWhile_append_dropWhile (p := fun a : K × V => decide (a.1 ≤ start))
      (l := m.map)
    have hsplit' := List.takeWhile_append_dropWhile (p := fun a : K × V => decide (a.1 < stop))
      (l := m.map.dropWhile (·.1 ≤ start))
    have hD : Ascending (m.map.dropWhile (·.1 ≤ start)) :=
      m.sorted.sublist (List.dropWhile_sublist _)
    have hU : ∀ a ∈ (m.map.dropWhile (·.1 ≤ start)).dropWhile (·.1 < stop), p < a.1 := by
      intro a ha
      have hhead := List.head?_dropWhile_not (fun a : K × V => decide (a.1 < stop))
        (m.map.dropWhile (·.1 ≤ start))
      have hsub := hD.sublist (List.dropWhile_sublist (·.1 < stop))
      cases hd : (m.map.dropWhile (·.1 ≤ start)).dropWhile (·.1 < stop) with
      | nil =>
        rw [hd] at ha
        exact absurd ha List.not_mem_nil
      | cons b rest =>
        rw [hd] at hhead hsub ha
        have hb : stop ≤ b.1 := by simpa using hhead
        rcases List.mem_cons.1 ha with rfl | ha
        · exact hps.trans_le hb
        · exact (hps.trans_le hb).trans ((List.pairwise_cons.1 hsub).1 a ha)
    calc m.valueAt p
        = valueIn m.id (m.map.takeWhile (·.1 ≤ start) ++ m.map.dropWhile (·.1 ≤ start)) p := by
          rw [hsplit, valueAt]
      _ = valueIn (((m.map.takeWhile (·.1 ≤ start)).getLast?.map (·.2)).getD m.id)
            (m.map.dropWhile (·.1 ≤ start)) p := by
          rw [valueIn_append p _ _ (by rw [hsplit]; exact m.sorted),
            valueIn_of_le _ _ fun a ha => (hT a ha).trans hp]
      _ = _ := by
          conv_lhs => rw [← hsplit']
          rw [valueIn_append p _ _ (by rw [hsplit']; exact hD), valueIn_of_lt hU]
  rw [range, between_eq hse hmax, meeting, List.mem_filter, List.map_append, List.mem_append,
    and_comm, Bool.not_eq_true']
  refine and_congr_right fun hne => ?_
  refine ⟨?_, ?_⟩
  · rintro (hx | hx)
    · obtain ⟨seg, hseg, rfl⟩ := List.mem_map.1 hx
      have hlast : (m.map.takeWhile (·.1 ≤ start)).getLast? = some seg :=
        Option.mem_toList.1 hseg
      refine ⟨start, le_rfl, hse, ?_⟩
      rw [hvalue start le_rfl hse, hlast, valueIn_of_lt hM']
      rfl
    · obtain ⟨seg, hseg, rfl⟩ := List.mem_map.1 hx
      refine ⟨seg.1, (hM' seg hseg).le, hM seg hseg, ?_⟩
      rw [hvalue seg.1 (hM' seg hseg).le (hM seg hseg)]
      obtain ⟨A, B, hAB⟩ := List.append_of_mem hseg
      have hasc : Ascending (A ++ seg :: B) := by
        rw [← hAB]
        exact (m.sorted.sublist (List.dropWhile_sublist _)).sublist (List.takeWhile_sublist _)
      rw [hAB, valueIn_append _ _ _ hasc, valueIn, if_pos le_rfl,
        valueIn_of_lt (sorted_tail_lt hasc)]
  · rintro ⟨p, hp, hps, hx⟩
    rw [hvalue p hp hps] at hx
    rcases valueIn_eq_or p ((m.map.dropWhile (·.1 ≤ start)).takeWhile (·.1 < stop))
      (((m.map.takeWhile (·.1 ≤ start)).getLast?.map (·.2)).getD m.id) with h | ⟨seg, hseg, h⟩
    · rw [hx] at h
      cases hlast : (m.map.takeWhile (·.1 ≤ start)).getLast? with
      | none =>
        rw [hlast] at h
        rw [h, Option.map_none, Option.getD_none, hid] at hne
        exact Bool.noConfusion hne
      | some seg =>
        rw [hlast] at h
        exact .inl (List.mem_map.2 ⟨seg, Option.mem_toList.2 rfl, h.symm⟩)
    · exact .inr (List.mem_map.2 ⟨seg, hseg, h.symm.trans hx⟩)

end Add

end IntervalMap

end GenMC
