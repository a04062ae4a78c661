import GenMC.ADT.ReducedMap
import Mathlib.Order.Fin.Basic

/-!
# Iterating over interval maps

An iterator over an interval map stands at a segment whose value is not the identity, or at the end:
it skips the identity when it is made and after every step.  Both bounds of an interval are such
iterators.  The lower one is found by looking back for the segment that `start` is in, the upper one
is the first segment that starts at `stop` or later, and each of them then skips on its own.  A loop
from one to the other ends only if it meets the upper bound exactly.

* `walk_bounds`: the loop ends, after at most as many steps as there are segments.
* `isMaximal_iff`: the segments of a reduced map that are not the identity are **the maximal
  intervals with one value**.
* `walk_exact`: **a loop over an interval sees the maximal segments that meet it**, each of them
  once and in increasing order.

Two values are equal if `==` says so, which has to be an equivalence.
-/

set_option autoImplicit false

namespace GenMC
namespace IntervalMap

variable {K V : Type*}

/-- A right-open interval with its value. -/
structure Entry (K V : Type*) where
  start : K
  stop : K
  value : V
deriving DecidableEq, Repr

variable [LinearOrder K]

/-- The point is in the interval. -/
def Entry.Has (seg : Entry K V) (p : K) : Prop := seg.start ≤ p ∧ p < seg.stop

/-! ## Iterators -/

section Iterators

variable [OrderTop K]

/-- The end of a segment, given those after it.  The last one goes up to the greatest key. -/
def segmentEnd (after : List (K × V)) : K := (after.head?.map (·.1)).getD ⊤

/-- `operator*`: what an iterator stands at, given the segments from there on. -/
def deref : List (K × V) → Option (Entry K V)
  | [] => none
  | (k, x) :: rest => some ⟨k, segmentEnd rest, x⟩

variable [BEq V]

def skipIdentity (m : IntervalMap K V) (it : List (K × V)) : List (K × V) :=
  it.dropWhile (·.2 == m.id)

/-- `operator++`. -/
def next (m : IntervalMap K V) (it : List (K × V)) : List (K × V) := m.skipIdentity it.tail

/-- `begin`. -/
def first (m : IntervalMap K V) : List (K × V) := m.skipIdentity m.map

/-- `lower_bound`. -/
def lowerIterator (m : IntervalMap K V) (start stop : K) : List (K × V) :=
  m.skipIdentity (m.lowerBound ⊤ start stop)

/-- `upper_bound`. -/
def upperIterator (m : IntervalMap K V) (start stop : K) : List (K × V) :=
  m.skipIdentity (m.upperBound start stop)

/-- `find`: the segment that a point is in. -/
def findEntry (m : IntervalMap K V) (point : K) : Option (Entry K V) :=
  (m.find point).map fun seg => ⟨seg.1, segmentEnd (m.map.dropWhile (·.1 ≤ point)), seg.2⟩

/-- `find`, for an interval: a segment with all of it. -/
def findInterval (m : IntervalMap K V) (start stop : K) : Option (Entry K V) :=
  (m.findEntry start).filter (stop ≤ ·.stop)

/-- The loop from one iterator to another, for at most `n` steps.  Iterators into one map are equal
if as many segments are left. -/
def walk (m : IntervalMap K V) (ie : List (K × V)) : ℕ → List (K × V) → Option (List (Entry K V))
  | 0, it => if it.length = ie.length then some [] else none
  | n + 1, it =>
    if it.length = ie.length then some []
    else do
      let seg ← deref it
      let segs ← m.walk ie n (m.next it)
      some (seg :: segs)

/-- What a loop over an interval sees. -/
def entriesIn (m : IntervalMap K V) (start stop : K) : List (Entry K V) :=
  (m.walk (m.upperIterator start stop) m.map.length (m.lowerIterator start stop)).getD []

/-- What a loop over the whole map sees. -/
def entries (m : IntervalMap K V) : List (Entry K V) :=
  (m.walk [] m.map.length m.first).getD []

end Iterators

/-! ### Where a loop leads -/

section Loops

variable [OrderTop K]

/-- The entries of some segments that others come after. -/
def entriesOf (after : List (K × V)) : List (K × V) → List (Entry K V)
  | [] => []
  | (k, x) :: rest => ⟨k, segmentEnd (rest ++ after), x⟩ :: entriesOf after rest

theorem entriesOf_append (after l r : List (K × V)) :
    entriesOf after (l ++ r) = entriesOf (r ++ after) l ++ entriesOf after r := by
  induction l with
  | nil => rfl
  | cons seg l ih => rw [List.cons_append, entriesOf, entriesOf, ih, List.append_assoc]; rfl

theorem mem_entriesOf {after l : List (K × V)} {seg : Entry K V} : seg ∈ entriesOf after l ↔
    ∃ before rest, l = before ++ (seg.start, seg.value) :: rest ∧
      seg.stop = segmentEnd (rest ++ after) := by
  induction l with
  | nil => simp [entriesOf]
  | cons a l ih =>
    obtain ⟨k, x⟩ := a
    rw [entriesOf, List.mem_cons, ih]
    refine ⟨?_, ?_⟩
    · rintro (rfl | ⟨before, rest, rfl, hstop⟩)
      · exact ⟨[], l, rfl, rfl⟩
      · exact ⟨(k, x) :: before, rest, rfl, hstop⟩
    · rintro ⟨before, rest, heq, hstop⟩
      cases before with
      | nil =>
        obtain ⟨hseg, rfl⟩ := List.cons.inj heq
        obtain ⟨rfl, rfl⟩ := Prod.mk.injEq .. ▸ hseg
        exact .inl (by cases seg; simp_all)
      | cons b before => exact .inr ⟨before, rest, (List.cons.inj heq).2, hstop⟩

theorem map_value_entriesOf (after l : List (K × V)) :
    (entriesOf after l).map (·.value) = l.map (·.2) := by
  induction l with
  | nil => rfl
  | cons a l ih => rw [entriesOf, List.map_cons, List.map_cons, ih]

variable [BEq V]

omit [OrderTop K] in
theorem skipIdentity_skipIdentity (m : IntervalMap K V) (it : List (K × V)) :
    m.skipIdentity (m.skipIdentity it) = m.skipIdentity it := by
  induction it with
  | nil => rfl
  | cons a it ih =>
    cases ha : a.2 == m.id with
    | true =>
      have hskip : m.skipIdentity (a :: it) = m.skipIdentity it := by
        rw [skipIdentity, List.dropWhile_cons, if_pos ha]
        rfl
      rw [hskip, ih]
    | false =>
      have hskip : m.skipIdentity (a :: it) = a :: it := by
        rw [skipIdentity, List.dropWhile_cons, if_neg (by simp [ha])]
      rw [hskip, hskip]

/-- A loop meets the iterator that it goes up to, if this one has skipped the identity. -/
theorem walk_append {m : IntervalMap K V} {ie : List (K × V)} (hie : m.skipIdentity ie = ie)
    (l : List (K × V)) : ∀ n, l.length ≤ n → m.walk ie n (m.skipIdentity (l ++ ie)) =
      some ((entriesOf ie l).filter fun seg => !(seg.value == m.id)) := by
  induction l with
  | nil =>
    intro n _
    rw [List.nil_append, hie]
    cases n <;> rw [walk, if_pos rfl] <;> rfl
  | cons a l ih =>
    obtain ⟨k, x⟩ := a
    intro n hn
    rw [List.length_cons] at hn
    cases hx : x == m.id with
    | true =>
      have hskip : m.skipIdentity ((k, x) :: l ++ ie) = m.skipIdentity (l ++ ie) := by
        rw [skipIdentity, List.cons_append, List.dropWhile_cons, if_pos hx]
        rfl
      rw [hskip, ih n (by omega), entriesOf, List.filter_cons, if_neg (by simp [hx])]
    | false =>
      have hskip : m.skipIdentity ((k, x) :: l ++ ie) = (k, x) :: (l ++ ie) := by
        rw [skipIdentity, List.cons_append, List.dropWhile_cons, if_neg (by simp [hx])]
      obtain ⟨n, rfl⟩ : ∃ n', n = n' + 1 := ⟨n - 1, by omega⟩
      have hlen : ¬ ((k, x) :: (l ++ ie)).length = ie.length := by
        rw [List.length_cons, List.length_append]
        omega
      rw [hskip, walk, if_neg hlen, deref, next, List.tail_cons, ih n (by omega), entriesOf,
        List.filter_cons, if_pos (by simp [hx])]
      rfl

omit [OrderTop K] [BEq V] in
/-- The segments before an interval, those that meet it, and those after it. -/
theorem map_eq_append {m : IntervalMap K V} {start stop : K} (hse : start < stop) :
    m.map = (m.map.takeWhile (·.1 ≤ start)).dropLast ++
      (m.meeting start stop ++ m.upperBound start stop) := by
  have hlast : (m.map.takeWhile (·.1 ≤ start)).dropLast ++
      (m.map.takeWhile (·.1 ≤ start)).getLast?.toList = m.map.takeWhile (·.1 ≤ start) := by
    cases hT : (m.map.takeWhile (·.1 ≤ start)).getLast? with
    | none => rw [List.getLast?_eq_none_iff.1 hT]; rfl
    | some seg => exact List.dropLast_append_getLast? seg hT
  rw [upperBound_eq hse, meeting, List.append_assoc, List.takeWhile_append_dropWhile,
    ← List.append_assoc, hlast, List.takeWhile_append_dropWhile]

/-- **The loop over an interval ends**, and sees the segments that meet the interval, except for the
identity. -/
theorem walk_bounds {m : IntervalMap K V} {start stop : K} (hse : start < stop) {n : ℕ}
    (hn : m.map.length ≤ n) :
    m.walk (m.upperIterator start stop) n (m.lowerIterator start stop) =
      some ((entriesOf (m.upperBound start stop) (m.meeting start stop)).filter
        fun seg => !(seg.value == m.id)) := by
  -- what the upper bound skips
  set skipped := (m.upperBound start stop).takeWhile (·.2 == m.id) with hskipped
  have hupper : m.upperBound start stop = skipped ++ m.upperIterator start stop :=
    (List.takeWhile_append_dropWhile).symm
  have hlower : m.lowerIterator start stop =
      m.skipIdentity (m.meeting start stop ++ skipped ++ m.upperIterator start stop) := by
    rw [lowerIterator, lowerBound_eq_append hse (hse.trans_le le_top), List.append_assoc, ← hupper]
  have hlen : (m.meeting start stop ++ skipped).length ≤ n := by
    have := congrArg List.length (map_eq_append (m := m) hse)
    rw [List.length_append, List.length_append, hupper, List.length_append] at this
    rw [List.length_append]
    omega
  have hnone : (entriesOf (m.upperIterator start stop) skipped).filter
      (fun seg => !(seg.value == m.id)) = [] := by
    refine List.filter_eq_nil_iff.2 fun seg hseg => ?_
    have hvalue := List.mem_map_of_mem (f := Entry.value) hseg
    rw [map_value_entriesOf] at hvalue
    obtain ⟨a, ha, hav⟩ := List.mem_map.1 hvalue
    have hid := List.mem_takeWhile_imp (p := fun a : K × V => a.2 == m.id) ha
    rw [← hav]
    simpa using hid
  have hie : m.skipIdentity (m.upperIterator start stop) = m.upperIterator start stop :=
    skipIdentity_skipIdentity m _
  rw [hlower, walk_append hie _ n hlen, entriesOf_append,
    List.filter_append, hnone, List.append_nil, ← hupper]

theorem entriesIn_eq {m : IntervalMap K V} {start stop : K} (hse : start < stop) :
    m.entriesIn start stop = (entriesOf (m.upperBound start stop) (m.meeting start stop)).filter
      fun seg => !(seg.value == m.id) := by
  rw [entriesIn, walk_bounds hse le_rfl]
  rfl

/-- The loop over the whole map ends, too. -/
theorem walk_all {m : IntervalMap K V} {n : ℕ} (hn : m.map.length ≤ n) :
    m.walk [] n m.first = some ((entriesOf [] m.map).filter fun seg => !(seg.value == m.id)) := by
  have hnil : m.skipIdentity [] = [] := rfl
  have := walk_append hnil m.map n hn
  rwa [List.append_nil] at this

theorem entries_eq (m : IntervalMap K V) :
    m.entries = (entriesOf [] m.map).filter fun seg => !(seg.value == m.id) := by
  rw [entries, walk_all le_rfl]
  rfl

/-- An empty interval has no segments. -/
theorem entriesIn_of_le {m : IntervalMap K V} {start stop : K} (h : stop ≤ start) :
    m.entriesIn start stop = [] := by
  have hlower : m.lowerIterator start stop = [] := by
    rw [lowerIterator, lowerBound, if_pos h]
    rfl
  have hupper : m.upperIterator start stop = [] := by
    rw [upperIterator, upperBound, if_pos h]
    rfl
  rw [entriesIn, hlower, hupper]
  cases m.map.length <;> rfl

/-- The values that a loop sees. -/
theorem range_eq_map_value {m : IntervalMap K V} {start stop : K} (hse : start < stop) :
    m.range ⊤ start stop = (m.entriesIn start stop).map (·.value) := by
  rw [range, between_eq hse (hse.trans_le le_top), entriesIn_eq hse]
  conv_lhs => rw [← map_value_entriesOf (m.upperBound start stop) (m.meeting start stop)]
  rw [List.filter_map]
  rfl

/-- The values that a loop sees are those of the points, except for the identity. -/
theorem mem_map_value_entriesIn [ReflBEq V] {m : IntervalMap K V} {start stop : K} {x : V} :
    x ∈ (m.entriesIn start stop).map (·.value) ↔
      (x == m.id) = false ∧ ∃ p, start ≤ p ∧ p < stop ∧ m.valueAt p = x := by
  by_cases hse : start < stop
  · rw [← range_eq_map_value hse, mem_range hse (hse.trans_le le_top) BEq.rfl]
  · rw [entriesIn_of_le (not_lt.1 hse)]
    exact iff_of_false (List.not_mem_nil) fun ⟨_, p, hp, hps, _⟩ => hse (hp.trans_lt hps)

end Loops

/-! ## Maximal intervals -/

section Maximal

variable [BEq V]

/-- An interval on which all values are equal and not the identity, and that cannot be extended.
`value` is the one at its start. -/
structure IsMaximal (m : IntervalMap K V) (seg : Entry K V) : Prop where
  nonempty : seg.start < seg.stop
  value : m.valueAt seg.start = seg.value
  constant : ∀ p, seg.Has p → (m.valueAt p == seg.value) = true
  ne_id : (seg.value == m.id) = false
  maximal : ∀ a b, a ≤ seg.start → seg.stop ≤ b →
    (∀ p, a ≤ p → p < b → (m.valueAt p == seg.value) = true) → a = seg.start ∧ b = seg.stop

omit [BEq V] in
/-- The value of the points of a segment. -/
theorem valueAt_of_split {m : IntervalMap K V} {before rest : List (K × V)} {k : K} {x : V}
    (hmap : m.map = before ++ (k, x) :: rest) {p : K} (hk : k ≤ p) (hp : ∀ a ∈ rest, p < a.1) :
    m.valueAt p = x := by
  have hasc : Ascending (before ++ (k, x) :: rest) := hmap ▸ m.sorted
  rw [valueAt, hmap, valueIn_append p before m.id hasc, valueIn, if_pos hk, valueIn_of_lt hp]

omit [BEq V] in
/-- The value of the points before the first segment. -/
theorem valueAt_of_lt {m : IntervalMap K V} {p : K} (hp : ∀ a ∈ m.map, p < a.1) :
    m.valueAt p = m.id :=
  valueIn_of_lt hp m.id

variable [OrderTop K]

omit [BEq V] in
theorem lt_segmentEnd {before rest : List (K × V)} {k : K} {x : V} (hrest : rest ≠ [])
    (h : Ascending (before ++ (k, x) :: rest)) : k < segmentEnd rest := by
  obtain ⟨a, rest, rfl⟩ := List.exists_cons_of_ne_nil hrest
  exact sorted_tail_lt h a (List.mem_cons_self ..)

omit [BEq V] in
theorem lt_of_lt_segmentEnd {before rest : List (K × V)} {seg : K × V} {p : K}
    (h : Ascending (before ++ seg :: rest)) (hp : p < segmentEnd rest) : ∀ a ∈ rest, p < a.1 := by
  cases rest with
  | nil => exact fun _ h => absurd h List.not_mem_nil
  | cons b rest =>
    have hb : p < b.1 := hp
    intro a ha
    rcases List.mem_cons.1 ha with rfl | ha
    · exact hb
    · have := List.pairwise_cons.1 (List.pairwise_cons.1 (List.pairwise_append.1 h).2.1).2
      exact hb.trans (this.1 a ha)

variable [EquivBEq V] {m : IntervalMap K V} {before rest : List (K × V)} {k : K} {x : V}

omit [OrderTop K] [EquivBEq V] in
/-- A segment that is not the identity is not the last one. -/
theorem Reduced.rest_ne_nil (h : Reduced m) (hmap : m.map = before ++ (k, x) :: rest)
    (hx : (x == m.id) = false) : rest ≠ [] := by
  rintro rfl
  have hlast := h.last
  rw [hmap, lastValue_append] at hlast
  exact absurd (hx.symm.trans hlast) Bool.false_ne_true

/-- **No interval with one value reaches beyond a segment.** -/
theorem Reduced.within (h : Reduced m) (hmap : m.map = before ++ (k, x) :: rest)
    (hx : (x == m.id) = false) {a b q : K} (hk : k ≤ q) (hq : q < segmentEnd rest) (ha : a ≤ q)
    (hb : q < b) (hab : ∀ p, a ≤ p → p < b → (m.valueAt p == x) = true) :
    k ≤ a ∧ b ≤ segmentEnd rest := by
  have hasc : Ascending (before ++ (k, x) :: rest) := hmap ▸ m.sorted
  have hvary := h.varying
  rw [hmap, varying_append, varying_cons] at hvary
  obtain ⟨-, hbefore, hrest⟩ := hvary
  refine ⟨?_, ?_⟩
  · by_contra hak
    rw [not_le] at hak
    have hbelow : ∀ p, p < k → ∀ a ∈ (k, x) :: rest, p < a.1 := by
      intro p hp a ha
      rcases List.mem_cons.1 ha with rfl | ha
      · exact hp
      · exact hp.trans (sorted_tail_lt hasc a ha)
    rcases List.eq_nil_or_concat' before with rfl | ⟨before, ⟨j, y⟩, rfl⟩
    · -- below the first segment there is the identity
      have hvalue := hab a le_rfl (ha.trans_lt hb)
      rw [valueAt_of_lt (by rw [hmap]; exact hbelow a hak), BEq.comm, hx] at hvalue
      exact Bool.noConfusion hvalue
    · -- the segment before this one has another value
      have hjk : j < k := (List.pairwise_append.1 hasc).2.2 (j, y) (by simp) (k, x) (by simp)
      have hlt : max a j < k := max_lt hak hjk
      have hvalue := hab (max a j) (le_max_left ..) ((hlt.trans_le hk).trans hb)
      rw [List.append_assoc] at hmap
      rw [valueAt_of_split hmap (le_max_right ..) (hbelow _ hlt)] at hvalue
      rw [lastValue_append] at hbefore
      exact absurd (hbefore.symm.trans hvalue) Bool.false_ne_true
  · by_contra hbk
    rw [not_le] at hbk
    obtain ⟨⟨j, y⟩, rest', rfl⟩ := List.exists_cons_of_ne_nil (h.rest_ne_nil hmap hx)
    -- the next segment has another value
    have hvalue := hab j (ha.trans hq.le) hbk
    have hmap' : m.map = (before ++ [(k, x)]) ++ (j, y) :: rest' := by
      rw [hmap, List.append_assoc]
      rfl
    rw [valueAt_of_split hmap' le_rfl (sorted_tail_lt (hmap' ▸ m.sorted)), BEq.comm] at hvalue
    exact absurd ((varying_cons.1 hrest).1.symm.trans hvalue) Bool.false_ne_true

omit [OrderTop K] in
/-- A point whose value is not the identity is in a segment. -/
theorem exists_split (m : IntervalMap K V) {q : K} (hq : (m.valueAt q == m.id) = false) :
    ∃ before k x rest, m.map = before ++ (k, x) :: rest ∧ k ≤ q ∧ (∀ a ∈ rest, q < a.1) ∧
      m.valueAt q = x := by
  have hsplit := List.takeWhile_append_dropWhile (p := fun a : K × V => decide (a.1 ≤ q))
    (l := m.map)
  have hrest := head_dropWhile_le m.sorted q
  rcases List.eq_nil_or_concat' (m.map.takeWhile (·.1 ≤ q)) with hnil | ⟨before, ⟨k, x⟩, heq⟩
  · rw [hnil, List.nil_append] at hsplit
    rw [valueAt_of_lt (by rw [← hsplit]; exact hrest), BEq.rfl] at hq
    exact Bool.noConfusion hq
  · rw [heq, List.append_assoc] at hsplit
    have hk : k ≤ q := of_decide_eq_true (List.mem_takeWhile_imp
      (p := fun a : K × V => decide (a.1 ≤ q)) (x := (k, x)) (l := m.map) (by rw [heq]; simp))
    exact ⟨before, k, x, _, hsplit.symm, hk, hrest, valueAt_of_split hsplit.symm hk hrest⟩

/-- **The segments of a reduced map are the maximal intervals with one value.** -/
theorem Reduced.isMaximal_iff (h : Reduced m) {seg : Entry K V} : m.IsMaximal seg ↔
    (seg.value == m.id) = false ∧ ∃ before rest,
      m.map = before ++ (seg.start, seg.value) :: rest ∧ seg.stop = segmentEnd rest := by
  refine ⟨fun hseg => ?_, ?_⟩
  · refine ⟨hseg.ne_id, ?_⟩
    obtain ⟨before, k, x, rest, hmap, hk, hrest, hvalue⟩ := m.exists_split
      (q := seg.start) (by rw [hseg.value]; exact hseg.ne_id)
    rw [hseg.value] at hvalue
    subst hvalue
    have hasc : Ascending (before ++ (k, seg.value) :: rest) := hmap ▸ m.sorted
    obtain ⟨c, rest, rfl⟩ := List.exists_cons_of_ne_nil (h.rest_ne_nil hmap hseg.ne_id)
    have hq : seg.start < segmentEnd (c :: rest) := hrest c (List.mem_cons_self ..)
    obtain ⟨hstart, hstop⟩ := h.within hmap hseg.ne_id hk hq le_rfl hseg.nonempty
      fun p hp hps => hseg.constant p ⟨hp, hps⟩
    obtain ⟨rfl, hend⟩ := hseg.maximal k (segmentEnd (c :: rest)) hk hstop fun p hp hps => by
      rw [valueAt_of_split hmap hp (lt_of_lt_segmentEnd hasc hps)]
      exact BEq.rfl
    exact ⟨before, c :: rest, hmap, hend.symm⟩
  · rintro ⟨hid, before, rest, hmap, hstop⟩
    have hasc : Ascending (before ++ (seg.start, seg.value) :: rest) := hmap ▸ m.sorted
    have hlt : seg.start < segmentEnd rest := lt_segmentEnd (h.rest_ne_nil hmap hid) hasc
    refine ⟨by rw [hstop]; exact hlt, valueAt_of_split hmap le_rfl (sorted_tail_lt hasc),
      fun p hp => ?_, hid, fun a b ha hb hab => ?_⟩
    · rw [valueAt_of_split hmap hp.1 (lt_of_lt_segmentEnd hasc (hstop ▸ hp.2))]
      exact BEq.rfl
    · rw [hstop] at hb ⊢
      obtain ⟨h₁, h₂⟩ := h.within hmap hid le_rfl hlt ha (hlt.trans_le hb) hab
      exact ⟨le_antisymm ha h₁, le_antisymm h₂ hb⟩

theorem Reduced.mem_entries (h : Reduced m) {seg : Entry K V} :
    seg ∈ m.entries ↔ m.IsMaximal seg := by
  rw [entries_eq, List.mem_filter, mem_entriesOf, h.isMaximal_iff, and_comm, Bool.not_eq_true']
  simp only [List.append_nil]

end Maximal

/-! ## What a loop sees -/

section Exact

variable [OrderTop K]

/-- The entries of segments that are in order are in order. -/
theorem pairwise_entriesOf {after : List (K × V)} (l : List (K × V)) (h : Ascending (l ++ after)) :
    (entriesOf after l).Pairwise fun a b => a.stop ≤ b.start := by
  induction l with
  | nil => exact .nil
  | cons a l ih =>
    obtain ⟨k, x⟩ := a
    rw [List.cons_append] at h
    obtain ⟨-, hl⟩ := List.pairwise_cons.1 h
    refine List.pairwise_cons.2 ⟨fun seg hseg => ?_, ih hl⟩
    obtain ⟨before, rest, rfl, -⟩ := mem_entriesOf.1 hseg
    cases before with
    | nil => exact le_rfl
    | cons b before => exact ((List.pairwise_cons.1 hl).1 (seg.start, seg.value) (by simp)).le

/-- The first key of some segments is not above any of them. -/
theorem segmentEnd_le {l : List (K × V)} (h : Ascending l) {a : K × V} (ha : a ∈ l) :
    segmentEnd l ≤ a.1 := by
  cases l with
  | nil => exact absurd ha List.not_mem_nil
  | cons b l =>
    rcases List.mem_cons.1 ha with rfl | ha
    · exact le_rfl
    · exact ((List.pairwise_cons.1 h).1 a ha).le

theorem lt_segmentEnd_of_forall {l : List (K × V)} {p : K} (htop : p < ⊤)
    (h : ∀ a ∈ l, p < a.1) : p < segmentEnd l := by
  cases l with
  | nil => exact htop
  | cons a l => exact h a (List.mem_cons_self ..)

omit [OrderTop K] in
theorem le_of_mem_upperBound {m : IntervalMap K V} {start stop : K} (hse : start < stop)
    {a : K × V} (ha : a ∈ m.upperBound start stop) : stop ≤ a.1 := by
  rw [upperBound, if_neg (not_le.2 hse)] at ha
  have hasc := m.sorted.sublist (List.dropWhile_sublist (·.1 < stop))
  have hhead := List.head?_dropWhile_not (fun a : K × V => decide (a.1 < stop)) m.map
  cases hd : m.map.dropWhile (·.1 < stop) with
  | nil => rw [hd] at ha; exact absurd ha List.not_mem_nil
  | cons b rest =>
    rw [hd] at ha hasc hhead
    have hb : stop ≤ b.1 := by simpa using hhead
    rcases List.mem_cons.1 ha with rfl | ha
    · exact hb
    · exact hb.trans ((List.pairwise_cons.1 hasc).1 a ha).le

variable [BEq V]

/-- **The loop over an interval sees the entries of the map that meet it.** -/
theorem entriesIn_eq_filter {m : IntervalMap K V} {start stop : K} (hse : start < stop) :
    m.entriesIn start stop = m.entries.filter fun seg => seg.start < stop ∧ start < seg.stop := by
  have hmap := map_eq_append (m := m) hse
  have hasc : Ascending ((m.map.takeWhile (·.1 ≤ start)).dropLast ++
      (m.meeting start stop ++ m.upperBound start stop)) := hmap ▸ m.sorted
  have hT : ∀ a ∈ m.map.takeWhile (·.1 ≤ start), a.1 ≤ start := fun a ha =>
    of_decide_eq_true (List.mem_takeWhile_imp (p := fun b : K × V => decide (b.1 ≤ start)) ha)
  have hdrop := head_dropWhile_le m.sorted start
  -- the entries before the interval end there
  have hbefore : ∀ seg ∈ entriesOf (m.meeting start stop ++ m.upperBound start stop)
      (m.map.takeWhile (·.1 ≤ start)).dropLast, seg.stop ≤ start := by
    intro seg hseg
    obtain ⟨before, rest, hD, hstop⟩ := mem_entriesOf.1 hseg
    have hne : m.map.takeWhile (·.1 ≤ start) ≠ [] := by
      rintro hnil
      rw [hnil] at hD
      simp at hD
    obtain ⟨last, hlast⟩ := Option.isSome_iff_exists.1 (List.getLast?_isSome.2 hne)
    rw [hD, List.append_assoc] at hasc
    have hrest := (List.pairwise_cons.1 (List.pairwise_append.1 hasc).2.1).2
    rw [hstop]
    refine (segmentEnd_le hrest (a := last) ?_).trans (hT last (List.mem_of_getLast? hlast))
    refine List.mem_append_right _ (List.mem_append_left _ ?_)
    rw [meeting, hlast]
    simp
  -- those in the interval start before its end and end after its start
  have hbetween : ∀ seg ∈ entriesOf (m.upperBound start stop) (m.meeting start stop),
      seg.start < stop ∧ start < seg.stop := by
    intro seg hseg
    obtain ⟨before, rest, hM, hstop⟩ := mem_entriesOf.1 hseg
    have hmem : (seg.start, seg.value) ∈ m.meeting start stop := by
      rw [hM]
      simp
    refine ⟨?_, ?_⟩
    · rcases List.mem_append.1 hmem with hmem | hmem
      · exact (hT _ (List.mem_of_getLast? (Option.mem_toList.1 hmem))).trans_lt hse
      · exact of_decide_eq_true
          (List.mem_takeWhile_imp (p := fun b : K × V => decide (b.1 < stop)) hmem)
    · rw [hstop]
      refine lt_segmentEnd_of_forall (hse.trans_le le_top) fun a ha => ?_
      rcases List.mem_append.1 ha with ha | ha
      · have htail : a ∈ (m.meeting start stop).tail := by
          rw [hM]
          cases before with
          | nil => exact ha
          | cons b before => exact List.mem_append_right _ (List.mem_cons_of_mem _ ha)
        rw [meeting] at htail
        refine hdrop a ((List.takeWhile_sublist (·.1 < stop)).subset ?_)
        cases hlast : (m.map.takeWhile (·.1 ≤ start)).getLast? with
        | none =>
          rw [hlast] at htail
          exact List.mem_of_mem_tail htail
        | some b =>
          rw [hlast] at htail
          exact htail
      · exact hse.trans_le (le_of_mem_upperBound hse ha)
  have hafter : ∀ seg ∈ entriesOf [] (m.upperBound start stop), stop ≤ seg.start := by
    intro seg hseg
    obtain ⟨before, rest, hU, -⟩ := mem_entriesOf.1 hseg
    exact le_of_mem_upperBound hse (a := (seg.start, seg.value)) (by rw [hU]; simp)
  rw [entriesIn_eq hse, entries_eq, List.filter_filter]
  conv_rhs => rw [hmap]
  rw [entriesOf_append, entriesOf_append, List.append_nil, List.append_nil, List.filter_append,
    List.filter_append]
  have hnone : ∀ l : List (Entry K V), (∀ seg ∈ l, seg.stop ≤ start ∨ stop ≤ seg.start) →
      l.filter (fun seg => decide (seg.start < stop ∧ start < seg.stop) && !seg.value == m.id) =
        [] := by
    intro l hl
    refine List.filter_eq_nil_iff.2 fun seg hseg => ?_
    rcases hl seg hseg with hle | hle
    · simp [not_lt.2 hle]
    · simp [not_lt.2 hle]
  rw [hnone _ fun seg hseg => .inl (hbefore seg hseg), hnone _ fun seg hseg =>
    .inr (hafter seg hseg), List.nil_append, List.append_nil]
  refine List.filter_congr fun seg hseg => ?_
  simp [hbetween seg hseg]

theorem pairwise_entries (m : IntervalMap K V) :
    m.entries.Pairwise fun a b => a.stop ≤ b.start := by
  rw [entries_eq]
  exact (pairwise_entriesOf m.map (by rw [List.append_nil]; exact m.sorted)).filter _

variable [EquivBEq V]

theorem Reduced.mem_entriesIn {m : IntervalMap K V} (h : Reduced m) {start stop : K}
    (hse : start < stop) {seg : Entry K V} : seg ∈ m.entriesIn start stop ↔
      m.IsMaximal seg ∧ ∃ p, seg.Has p ∧ start ≤ p ∧ p < stop := by
  rw [entriesIn_eq_filter hse, List.mem_filter, h.mem_entries, decide_eq_true_eq]
  refine and_congr_right fun hseg => ⟨fun hmeet => ?_, ?_⟩
  · refine ⟨max seg.start start, ⟨le_max_left .., max_lt hseg.nonempty hmeet.2⟩,
      le_max_right .., max_lt hmeet.1 hse⟩
  · rintro ⟨p, hp, hsp, hps⟩
    exact ⟨hp.1.trans_lt hps, hsp.trans_lt hp.2⟩

/-- **A loop over an interval sees the maximal segments that meet it**, in increasing order and each
of them once, and ends after at most as many steps as there are segments. -/
theorem walk_exact {id : V} {m : IntervalMap K V} (hm : Reachable id m) {start stop : K}
    (hse : start < stop) : ∃ segs, (∀ n, m.map.length ≤ n →
      m.walk (m.upperIterator start stop) n (m.lowerIterator start stop) = some segs) ∧
      (segs.Pairwise fun a b => a.start < b.start ∧ a.stop ≤ b.start) ∧
      ∀ seg, seg ∈ segs ↔ m.IsMaximal seg ∧ ∃ p, seg.Has p ∧ start ≤ p ∧ p < stop := by
  refine ⟨m.entriesIn start stop, fun n hn => ?_, ?_, fun seg => hm.reduced.mem_entriesIn hse⟩
  · rw [walk_bounds hse hn, entriesIn_eq hse]
  · have hpair := (pairwise_entries m).filter fun seg =>
      decide (seg.start < stop ∧ start < seg.stop)
    rw [← entriesIn_eq_filter hse] at hpair
    refine hpair.imp_of_mem fun ha _ hab => ⟨?_, hab⟩
    exact ((hm.reduced.mem_entriesIn hse).1 ha).1.nonempty.trans_le hab

/-- The flags of two intervals that overlap. -/
def overlapping : IntervalMap (Fin 16) ℕ :=
  ((empty 0).add 1 5 1 fun _ x => x ||| 1).add 3 8 2 fun _ x => x ||| 2

theorem overlapping_walk_exact :
    ∃ segs, (∀ n, overlapping.map.length ≤ n → overlapping.walk (overlapping.upperIterator 4 6) n
        (overlapping.lowerIterator 4 6) = some segs) ∧
      (segs.Pairwise fun a b => a.start < b.start ∧ a.stop ≤ b.start) ∧
      ∀ seg, seg ∈ segs ↔ overlapping.IsMaximal seg ∧ ∃ p, seg.Has p ∧ 4 ≤ p ∧ p < 6 :=
  walk_exact (.add _ _ _ _ (.add _ _ _ _ .empty)) (by decide)

/-! ### The segment of a point -/

omit [EquivBEq V] in
/-- Above all keys there is the identity. -/
theorem Reduced.valueAt_top {m : IntervalMap K V} (h : Reduced m) :
    (m.valueAt ⊤ == m.id) = true := by
  rw [valueAt, valueIn_of_le m.map m.id fun a _ => le_top]
  exact h.last

/-- A point is in one maximal interval at most. -/
theorem Reduced.eq_of_has {m : IntervalMap K V} (h : Reduced m) {seg seg' : Entry K V}
    (hseg : m.IsMaximal seg) (hseg' : m.IsMaximal seg') {q : K} (hq : seg.Has q)
    (hq' : seg'.Has q) : seg = seg' := by
  obtain ⟨hid, before, rest, hmap, hstop⟩ := h.isMaximal_iff.1 hseg
  obtain ⟨hid', before', rest', hmap', hstop'⟩ := h.isMaximal_iff.1 hseg'
  have hconst : ∀ {s s' : Entry K V}, m.IsMaximal s → m.IsMaximal s' → s.Has q → s'.Has q →
      ∀ p, s'.Has p → (m.valueAt p == s.value) = true := fun hs hs' hsq hsq' p hp =>
    BEq.trans (hs'.constant p hp) (BEq.trans (BEq.symm (hs'.constant q hsq')) (hs.constant q hsq))
  obtain ⟨h₁, h₂⟩ := h.within hmap hid hq.1 (hstop ▸ hq.2) hq'.1 hq'.2 fun p hp hps =>
    hconst hseg hseg' hq hq' p ⟨hp, hps⟩
  obtain ⟨h₃, h₄⟩ := h.within hmap' hid' hq'.1 (hstop' ▸ hq'.2) hq.1 hq.2 fun p hp hps =>
    hconst hseg' hseg hq' hq p ⟨hp, hps⟩
  have hstart := le_antisymm h₁ h₃
  have hend : seg.stop = seg'.stop :=
    le_antisymm (h₄.trans hstop'.ge) (h₂.trans hstop.ge)
  have hvalue : seg.value = seg'.value := by rw [← hseg.value, ← hseg'.value, hstart]
  cases seg
  cases seg'
  simp_all


/-- **What `find` finds**: the maximal interval with the point, if this is not the identity. -/
theorem Reduced.findEntry_eq_some_iff {m : IntervalMap K V} (h : Reduced m) {q : K}
    {seg : Entry K V} : m.findEntry q = some seg ↔ m.IsMaximal seg ∧ seg.Has q := by
  have hsegment : (m.valueAt q == m.id) = false → ∃ seg, m.findEntry q = some seg ∧
      m.IsMaximal seg ∧ seg.Has q := by
    intro hq
    obtain ⟨before, k, x, rest, hmap, hk, hrest, hvalue⟩ := m.exists_split hq
    have hpre : ∀ a ∈ before ++ [(k, x)], a.1 ≤ q := by
      intro a ha
      rcases List.mem_append.1 ha with ha | ha
      · have hasc : Ascending (before ++ (k, x) :: rest) := hmap ▸ m.sorted
        exact ((List.pairwise_append.1 hasc).2.2 a ha (k, x) (List.mem_cons_self ..)).le.trans hk
      · rw [List.mem_singleton.1 ha]
        exact hk
    have happ : m.map = (before ++ [(k, x)]) ++ rest := by rw [hmap, List.append_assoc]; rfl
    have hpost : rest.takeWhile (·.1 ≤ q) = [] ∧ rest.dropWhile (·.1 ≤ q) = rest := by
      cases rest with
      | nil => exact ⟨rfl, rfl⟩
      | cons a rest => simp [hrest a (List.mem_cons_self ..)]
    have htake : m.map.takeWhile (·.1 ≤ q) = before ++ [(k, x)] := by
      rw [happ, List.takeWhile_append_of_pos (by simpa using hpre), hpost.1, List.append_nil]
    have hdrop : m.map.dropWhile (·.1 ≤ q) = rest := by
      rw [happ, List.dropWhile_append_of_pos (by simpa using hpre), hpost.2]
    subst hvalue
    have hmax : m.IsMaximal ⟨k, segmentEnd rest, m.valueAt q⟩ :=
      h.isMaximal_iff.2 ⟨hq, before, rest, hmap, rfl⟩
    have htop : q < ⊤ := lt_top_iff_ne_top.2 fun heq => by
      rw [heq, h.valueAt_top] at hq
      exact Bool.noConfusion hq
    refine ⟨_, ?_, hmax, hk, lt_segmentEnd_of_forall htop hrest⟩
    rw [findEntry, find, htake, hdrop, List.getLast?_concat]
    simp [hq]
  refine ⟨fun hfind => ?_, ?_⟩
  · cases hq : m.valueAt q == m.id with
    | true =>
      have hnone : (m.find q).isSome = true := by
        rw [findEntry, Option.map_eq_some_iff] at hfind
        obtain ⟨a, ha, -⟩ := hfind
        rw [ha]
        rfl
      rw [isSome_find, hq] at hnone
      exact Bool.noConfusion hnone
    | false =>
      obtain ⟨seg', hseg', hmax⟩ := hsegment hq
      rw [hfind] at hseg'
      obtain rfl := Option.some.inj hseg'
      exact hmax
  · rintro ⟨hmax, hhas⟩
    have hq : (m.valueAt q == m.id) = false := by
      rw [BEq.congr_left (hmax.constant q hhas)]
      exact hmax.ne_id
    obtain ⟨seg', hseg', hmax', hhas'⟩ := hsegment hq
    rw [hseg', h.eq_of_has hmax hmax' hhas hhas']

theorem Reduced.findInterval_eq_some_iff {m : IntervalMap K V} (h : Reduced m) {start stop : K}
    {seg : Entry K V} : m.findInterval start stop = some seg ↔
      m.IsMaximal seg ∧ seg.Has start ∧ stop ≤ seg.stop := by
  rw [findInterval, Option.filter_eq_some_iff, h.findEntry_eq_some_iff, decide_eq_true_eq,
    and_assoc]

/-! ### Bounds without an upper end -/

/-- A point whose value is not the identity is in a maximal interval. -/
theorem Reduced.exists_isMaximal {m : IntervalMap K V} (h : Reduced m) {q : K}
    (hq : (m.valueAt q == m.id) = false) : ∃ seg, m.IsMaximal seg ∧ seg.Has q := by
  obtain ⟨before, k, x, rest, hmap, hk, hrest, rfl⟩ := m.exists_split hq
  refine ⟨⟨k, segmentEnd rest, m.valueAt q⟩, h.isMaximal_iff.2 ⟨hq, before, rest, hmap, rfl⟩, hk,
    lt_segmentEnd_of_forall (lt_top_iff_ne_top.2 ?_) hrest⟩
  rintro rfl
  rw [h.valueAt_top] at hq
  exact Bool.noConfusion hq

theorem Reduced.entriesIn_eq_nil_iff {m : IntervalMap K V} (h : Reduced m) {start stop : K}
    (hse : start < stop) : m.entriesIn start stop = [] ↔
      ∀ p, start ≤ p → p < stop → (m.valueAt p == m.id) = true := by
  rw [List.eq_nil_iff_forall_not_mem]
  refine ⟨fun hnil p hp hps => ?_, fun hall seg hseg => ?_⟩
  · by_contra hvalue
    obtain ⟨seg, hseg, hhas⟩ := h.exists_isMaximal (Bool.eq_false_iff.2 hvalue)
    exact hnil seg ((h.mem_entriesIn hse).2 ⟨hseg, p, hhas, hp, hps⟩)
  · obtain ⟨hmax, p, hhas, hp, hps⟩ := (h.mem_entriesIn hse).1 hseg
    have hvalue := BEq.trans (BEq.symm (hmax.constant p hhas)) (hall p hp hps)
    rw [hmax.ne_id] at hvalue
    exact Bool.noConfusion hvalue

/-- **When a lower bound is the end**: nothing but the identity comes from `start` on, whatever the
end of the interval. -/
theorem Reduced.lowerIterator_eq_nil_iff {m : IntervalMap K V} (h : Reduced m) {start stop : K}
    (hse : start < stop) : m.lowerIterator start stop = [] ↔
      ∀ p, start ≤ p → (m.valueAt p == m.id) = true := by
  have htop : start < ⊤ := hse.trans_le le_top
  have hsame : m.lowerIterator start stop = m.lowerIterator start ⊤ := by
    rw [lowerIterator, lowerIterator, lowerBound, lowerBound, if_neg (not_le.2 hse),
      if_neg (not_le.2 htop)]
  -- only the identity can start at the greatest key
  have hupper : m.upperIterator start ⊤ = [] := by
    rw [upperIterator, upperBound, if_neg (not_le.2 htop), skipIdentity,
      List.dropWhile_eq_nil_iff]
    intro a ha
    obtain ⟨l, r, hlr⟩ := List.append_of_mem ((List.dropWhile_sublist _).subset ha)
    by_contra hid
    have hsplit : m.map = l ++ (a.1, a.2) :: r := hlr
    have hrest := h.rest_ne_nil hsplit (Bool.eq_false_iff.2 hid)
    obtain ⟨b, r, rfl⟩ := List.exists_cons_of_ne_nil hrest
    have hab : a.1 < b.1 := sorted_tail_lt (hlr ▸ m.sorted) b (List.mem_cons_self ..)
    have hle : ⊤ ≤ a.1 := le_of_mem_upperBound htop (by
      rw [upperBound, if_neg (not_le.2 htop)]
      exact ha)
    exact absurd le_top (not_le.2 (hle.trans_lt hab))
  have hwalk := walk_bounds (m := m) htop (Nat.le_succ m.map.length)
  rw [← entriesIn_eq htop, hupper, walk] at hwalk
  have hnil : m.lowerIterator start ⊤ = [] ↔ m.entriesIn start ⊤ = [] := by
    by_cases hlower : m.lowerIterator start ⊤ = []
    · rw [hlower, if_pos rfl] at hwalk
      exact iff_of_true hlower (Option.some.inj hwalk).symm
    · rw [if_neg (by simpa using hlower)] at hwalk
      obtain ⟨seg, -, hwalk⟩ := Option.bind_eq_some_iff.1 hwalk
      obtain ⟨segs, -, hwalk⟩ := Option.bind_eq_some_iff.1 hwalk
      refine iff_of_false hlower ?_
      rw [← Option.some.inj hwalk]
      exact List.cons_ne_nil seg segs
  rw [hsame, hnil, h.entriesIn_eq_nil_iff htop]
  refine ⟨fun hall p hp => ?_, fun hall p hp _ => hall p hp⟩
  rcases eq_or_lt_of_le (le_top (a := p)) with rfl | hlt
  · exact h.valueAt_top
  · exact hall p hp hlt

end Exact

end IntervalMap
end GenMC
