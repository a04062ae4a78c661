import GenMC.ADT.ReducedMap

/-!
# Interval maps in canonical form

An interval map stands for a function that changes at finitely many points.  Many lists of segments
stand for one function, but only one of them has no superfluous segment.  This is the one that `add`
and `erase` leave, if values that are equal by `==` are equal.

The operations are given here with the check they end with: that the iterator of the loop has
stopped at the end of the interval.

* `verifyEnd_segmentLoop`: **the check never fails**, and what the loop makes of the segments is
  `addLoop`.
* `Canonical`: the first segment is not the identity, no two neighbours are equal, and the last one
  is the identity.
* `eq_of_valueIn_eq`: segments in this form are determined by the values of the points.
* `exists_run`: **every sequence of operations** succeeds, with a map in canonical form that has at
  every point what the operations there make of the identity, one after the other.
-/

set_option autoImplicit false

namespace GenMC
namespace IntervalMap

variable {K V : Type*} [LinearOrder K] [DecidableEq V]

/-! ## The loops of `add` and `erase` -/

/-- The loop over the segments that start before `stop`: the segments that it leaves behind, and
those from its iterator on. -/
def segmentLoop (id : V) (stop : K) (update : V → V) (before : List (K × V)) (k : K) (x : V) :
    List (K × V) → List (K × V) × List (K × V)
  | [] =>
    if k < stop then (canonicalize id before (k, update x), [(stop, x)]) else (before, [(k, x)])
  | (k', y) :: rest =>
    if k < stop then
      let before' := canonicalize id before (k, update x)
      if stop < k' then (before', (stop, x) :: (k', y) :: rest)
      else segmentLoop id stop update before' k' y rest
    else (before, (k, x) :: (k', y) :: rest)

/-- The check that the iterator is at `stop`, and the last clean-up. -/
def verifyEnd (id : V) (stop : K) : List (K × V) × List (K × V) → Option (List (K × V))
  | (before, (k, x) :: rest) =>
    if k = stop then some (canonicalize id before (k, x) ++ rest) else none
  | (_, []) => none

/-- **The check never fails.** -/
theorem verifyEnd_segmentLoop (id : V) (stop : K) (update : V → V) (rest : List (K × V)) :
    ∀ (before : List (K × V)) (k : K) (x : V), k < stop →
      verifyEnd id stop (segmentLoop id stop update before k x rest) =
        some (addLoop id stop (fun _ => update) before k x rest) := by
  induction rest with
  | nil =>
    intro before k x hk
    rw [segmentLoop, if_pos hk, verifyEnd, if_pos rfl, List.append_nil, addLoop]
  | cons seg rest ih =>
    obtain ⟨k', y⟩ := seg
    intro before k x hk
    rw [segmentLoop, if_pos hk, addLoop]
    dsimp only
    split
    · rw [verifyEnd, if_pos rfl]
    · rename_i hle
      by_cases hlt : k' < stop
      · rw [if_pos hlt]
        exact ih _ _ _ hlt
      · -- the next segment starts at the end of the interval, where the loop stops
        obtain rfl : k' = stop := le_antisymm (not_lt.1 hle) (not_lt.1 hlt)
        rw [if_neg hlt]
        cases rest with
        | nil => rw [segmentLoop, if_neg hlt, verifyEnd, if_pos rfl]
        | cons seg rest => rw [segmentLoop, if_neg hlt, verifyEnd, if_pos rfl]

theorem sorted_verifyEnd {id : V} {stop : K} {update : V → V} {before rest l : List (K × V)} {k : K}
    {x : V} (h : Ascending (before ++ (k, x) :: rest))
    (hl : verifyEnd id stop (segmentLoop id stop update before k x rest) = some l) :
    Ascending l := by
  by_cases hk : k < stop
  · rw [verifyEnd_segmentLoop id stop update rest before k x hk] at hl
    cases hl
    exact sorted_addLoop id stop _ rest before k x hk h
  · have hstop : segmentLoop id stop update before k x rest = (before, (k, x) :: rest) := by
      cases rest with
      | nil => rw [segmentLoop, if_neg hk]
      | cons seg rest => rw [segmentLoop, if_neg hk]
    rw [hstop, verifyEnd] at hl
    split at hl
    · cases hl
      exact sorted_canonicalize id h
    · cases hl

/-- Updates the values of the points of an interval, unless the check fails. -/
def changeRange (m : IntervalMap K V) (start stop : K) (update : V → V) :
    Option (IntervalMap K V) :=
  let split := createSplit m.id m.map start
  match h : verifyEnd m.id stop
    (segmentLoop m.id stop update split.1 start split.2.1 split.2.2) with
  | none => none
  | some map => some { m with map, sorted := sorted_verifyEnd (sorted_createSplit _ _ m.sorted) h }

/-- `add`, with its check.  The aggregation of the values is given. -/
def addVerified (op : V → V → V) (m : IntervalMap K V) (start stop : K) (val : V) :
    Option (IntervalMap K V) :=
  if stop ≤ start ∨ val = m.id then some m else m.changeRange start stop (op · val)

/-- `erase`, with its check. -/
def eraseVerified (m : IntervalMap K V) (start stop : K) : Option (IntervalMap K V) :=
  if stop ≤ start then some m else m.changeRange start stop fun _ => m.id

def clear (m : IntervalMap K V) : IntervalMap K V := { m with map := [], sorted := .nil }

/-- `operator[]`. -/
def get (m : IntervalMap K V) (point : K) : V := ((m.find point).map (·.2)).getD m.id

theorem changeRange_eq (m : IntervalMap K V) {start stop : K} (hse : start < stop)
    (update : V → V) : ∃ m', m.changeRange start stop update = some m' ∧ m'.id = m.id ∧
      m'.map = addLoop m.id stop (fun _ => update) (createSplit m.id m.map start).1 start
        (createSplit m.id m.map start).2.1 (createSplit m.id m.map start).2.2 := by
  have hloop := verifyEnd_segmentLoop m.id stop update (createSplit m.id m.map start).2.2
    (createSplit m.id m.map start).1 start (createSplit m.id m.map start).2.1 hse
  rw [changeRange]
  split
  · rename_i hnone
    rw [hloop] at hnone
    cases hnone
  · rename_i map hsome
    rw [hloop] at hsome
    cases hsome
    exact ⟨_, rfl, rfl, rfl⟩

/-- `add` with its check is `add`. -/
theorem addVerified_eq (op : V → V → V) (m : IntervalMap K V) (start stop : K) (val : V) :
    m.addVerified op start stop val = some (m.add start stop val fun _ x => op x val) := by
  rw [addVerified, add]
  by_cases h : stop ≤ start ∨ val = m.id
  · have h' : stop ≤ start ∨ (val == m.id) = true := by simpa using h
    rw [if_pos h, dif_pos h']
  · have h' : ¬ (stop ≤ start ∨ (val == m.id) = true) := by simpa using h
    rw [if_neg h, dif_neg h']
    obtain ⟨m', hm', hid, hmap⟩ :=
      m.changeRange_eq (not_le.1 fun hle => h (.inl hle)) (op · val)
    rw [hm']
    cases m'
    cases hid
    cases hmap
    rfl

/-- `erase` with its check is `erase`. -/
theorem eraseVerified_eq (m : IntervalMap K V) (start stop : K) :
    m.eraseVerified start stop = some (m.erase start stop) := by
  rw [eraseVerified, erase]
  by_cases h : stop ≤ start
  · rw [if_pos h, dif_pos h]
  · rw [if_neg h, dif_neg h]
    obtain ⟨m', hm', hid, hmap⟩ := m.changeRange_eq (not_le.1 h) fun _ => m.id
    rw [hm']
    cases m'
    cases hid
    cases hmap
    rfl

/-- `operator[]` is the value of a point. -/
theorem get_eq_valueAt (m : IntervalMap K V) (point : K) : m.get point = m.valueAt point := by
  rw [get, map_find]
  by_cases hid : m.valueAt point = m.id
  · simp [hid]
  · simp [hid]

/-! ## Canonical form -/

/-- No segment says anything that is known from those before it. -/
structure Canonical (m : IntervalMap K V) : Prop where
  first : ∀ seg ∈ m.map.head?, seg.2 ≠ m.id
  adjacent : (m.map.map (·.2)).IsChain (· ≠ ·)
  last : ∀ seg ∈ m.map.getLast?, seg.2 = m.id

/-- The value changes with every segment. -/
def Changing (id : V) (l : List (K × V)) : Prop := (id :: l.map (·.2)).IsChain (· ≠ ·)

omit [DecidableEq V] in
theorem canonical_iff (m : IntervalMap K V) :
    Canonical m ↔ Changing m.id m.map ∧ lastValue m.id m.map = m.id := by
  have hfirst : (∀ y ∈ (m.map.map (·.2)).head?, m.id ≠ y) ↔ ∀ seg ∈ m.map.head?, seg.2 ≠ m.id := by
    cases m.map <;> simp [eq_comm]
  have hlast : lastValue m.id m.map = m.id ↔ ∀ seg ∈ m.map.getLast?, seg.2 = m.id := by
    rw [lastValue]
    cases m.map.getLast? <;> simp
  rw [Changing, List.isChain_cons, hfirst, hlast]
  exact ⟨fun h => ⟨⟨h.first, h.adjacent⟩, h.last⟩, fun h => ⟨h.1.1, h.1.2, h.2⟩⟩

omit [LinearOrder K] [DecidableEq V] in
theorem changing_cons {id : V} {seg : K × V} {l : List (K × V)} :
    Changing id (seg :: l) ↔ id ≠ seg.2 ∧ Changing seg.2 l :=
  List.isChain_cons_cons

omit [LinearOrder K] in
theorem changing_iff_varying {id : V} {l : List (K × V)} : Changing id l ↔ Varying id l := by
  rw [Changing, Varying]
  simp only [beq_eq_false_iff_ne]

/-- The canonical form says that the map is reduced. -/
theorem canonical_iff_reduced (m : IntervalMap K V) : Canonical m ↔ Reduced m := by
  rw [canonical_iff, changing_iff_varying]
  exact ⟨fun h => ⟨h.1, beq_iff_eq.2 h.2⟩, fun h => ⟨h.varying, eq_of_beq h.last⟩⟩

/-- **Updating an interval keeps the canonical form.** -/
theorem Canonical.changeRange {m m' : IntervalMap K V} (h : Canonical m) {start stop : K}
    (hse : start < stop) {update : V → V} (hm' : m.changeRange start stop update = some m') :
    Canonical m' := by
  obtain ⟨m'', hm'', hid, hmap⟩ := m.changeRange_eq hse update
  obtain rfl : m'' = m' := Option.some.inj (hm''.symm.trans hm')
  rw [canonical_iff_reduced] at h ⊢
  exact h.addLoop start stop (fun _ => update) hid hmap

/-! ## Canonical maps are functions -/

omit [DecidableEq V] in
/-- **Segments without a superfluous one are determined by the values of the points.** -/
theorem eq_of_valueIn_eq (l : List (K × V)) : ∀ {id : V} {l' : List (K × V)}, Ascending l →
    Ascending l' → Changing id l → Changing id l' →
      (∀ p, valueIn id l p = valueIn id l' p) → l = l' := by
  -- the first segment of one list, before the other list starts
  have hfirst : ∀ {id : V} {l l' : List (K × V)} {k : K} {x : V}, Ascending ((k, x) :: l) →
      Changing id ((k, x) :: l) → (∀ a ∈ l', k < a.1) →
        valueIn id ((k, x) :: l) k ≠ valueIn id l' k := by
    intro id l l' k x hasc hch hl'
    rw [valueIn, if_pos le_rfl, valueIn_of_lt (List.pairwise_cons.1 hasc).1, valueIn_of_lt hl']
    exact (changing_cons.1 hch).1.symm
  induction l with
  | nil =>
    intro id l' _ hasc' _ hch' h
    cases l' with
    | nil => rfl
    | cons seg l' => exact absurd (h seg.1).symm (hfirst hasc' hch' (by simp))
  | cons seg l ih =>
    obtain ⟨k, x⟩ := seg
    intro id l' hasc hasc' hch hch' h
    cases l' with
    | nil => exact absurd (h k) (hfirst hasc hch (by simp))
    | cons seg' l' =>
      obtain ⟨k', y⟩ := seg'
      have hrest := List.pairwise_cons.1 hasc
      have hrest' := List.pairwise_cons.1 hasc'
      rcases lt_trichotomy k k' with hlt | rfl | hlt
      · refine absurd (h k) (hfirst hasc hch fun a ha => ?_)
        rcases List.mem_cons.1 ha with rfl | ha
        · exact hlt
        · exact hlt.trans (hrest'.1 a ha)
      · have hxy : x = y := by
          have := h k
          rwa [valueIn, if_pos le_rfl, valueIn_of_lt hrest.1, valueIn, if_pos le_rfl,
            valueIn_of_lt hrest'.1] at this
        subst hxy
        rw [ih hrest.2 hrest'.2 (changing_cons.1 hch).2 (changing_cons.1 hch').2 fun p => ?_]
        by_cases hp : k ≤ p
        · have := h p
          rwa [valueIn, if_pos hp, valueIn, if_pos hp] at this
        · rw [valueIn_of_lt fun a ha => (not_le.1 hp).trans (hrest.1 a ha),
            valueIn_of_lt fun a ha => (not_le.1 hp).trans (hrest'.1 a ha)]
      · refine absurd (h k').symm (hfirst hasc' hch' fun a ha => ?_)
        rcases List.mem_cons.1 ha with rfl | ha
        · exact hlt
        · exact hlt.trans (hrest.1 a ha)

/-! ## Runs of operations -/

/-- The operations that change a map. -/
inductive Operation (K V : Type*)
  | add (start stop : K) (val : V)
  | erase (start stop : K)
  | clear

namespace Operation

/-- The points that an operation changes. -/
def Covers : Operation K V → K → Prop
  | add start stop _, p => start ≤ p ∧ p < stop
  | erase start stop, p => start ≤ p ∧ p < stop
  | clear, _ => True

instance (o : Operation K V) (p : K) : Decidable (o.Covers p) :=
  match o with
  | add start stop _ => inferInstanceAs (Decidable (start ≤ p ∧ p < stop))
  | erase start stop => inferInstanceAs (Decidable (start ≤ p ∧ p < stop))
  | clear => inferInstanceAs (Decidable True)

/-- What an operation makes of the value of a point that it changes. -/
def onValue (op : V → V → V) (id : V) : Operation K V → V → V
  | add _ _ val, x => op x val
  | erase _ _, _ => id
  | clear, _ => id

/-- Executes an operation. -/
def exec (op : V → V → V) (m : IntervalMap K V) : Operation K V → Option (IntervalMap K V)
  | add start stop val => m.addVerified op start stop val
  | erase start stop => m.eraseVerified start stop
  | clear => some m.clear

end Operation

/-- Executes some operations, starting from an empty map. -/
def run (op : V → V → V) (id : V) (ops : List (Operation K V)) : Option (IntervalMap K V) :=
  ops.foldlM (Operation.exec op) (empty id)

/-- What some operations make of the identity at a point. -/
def valueAfter (op : V → V → V) (id : V) (ops : List (Operation K V)) (p : K) : V :=
  (ops.filter (·.Covers p)).foldl (fun x o => o.onValue op id x) id

omit [DecidableEq V] in
theorem valueAfter_concat (op : V → V → V) (id : V) (ops : List (Operation K V))
    (o : Operation K V) (p : K) : valueAfter op id (ops ++ [o]) p =
      if o.Covers p then o.onValue op id (valueAfter op id ops p) else valueAfter op id ops p := by
  rw [valueAfter, List.filter_append, List.foldl_append]
  by_cases h : o.Covers p
  · simp [h, valueAfter]
  · simp [h, valueAfter]

/-- What updating an interval does to the value of every point. -/
theorem valueAt_changeRange {m m' : IntervalMap K V} {start stop : K} (hse : start < stop)
    {update : V → V} (hm' : m.changeRange start stop update = some m') (p : K) :
    m'.valueAt p = if start ≤ p ∧ p < stop then update (m.valueAt p) else m.valueAt p := by
  obtain ⟨m'', hm'', hid, hmap⟩ := m.changeRange_eq hse update
  obtain rfl : m'' = m' := Option.some.inj (hm''.symm.trans hm')
  rw [valueAt, hid, hmap]
  refine valueIn_addLoop_createSplit m.sorted hse (R := fun p x => x = m.valueAt p)
    (Q := fun p x => x = if start ≤ p ∧ p < stop then update (m.valueAt p) else m.valueAt p)
    (fun p x y hxy => by rw [eq_of_beq hxy]) (fun p x others hp hps hx => ?_)
    (fun p x hp hx => ?_) (fun p => rfl) p
  · rw [if_pos ⟨hp, hps⟩, hx]
  · rw [if_neg hp, hx]

/-- Executing an operation: it succeeds, keeps the canonical form, and does to every point what it
should do. -/
theorem exec_spec {op : V → V → V} {m : IntervalMap K V} (hright : ∀ x, op x m.id = x)
    (h : Canonical m) (o : Operation K V) :
    ∃ m', o.exec op m = some m' ∧ m'.id = m.id ∧ Canonical m' ∧ ∀ p, m'.valueAt p =
      if o.Covers p then o.onValue op m.id (m.valueAt p) else m.valueAt p := by
  have hchange : ∀ {start stop : K}, start < stop → ∀ update : V → V,
      ∃ m', m.changeRange start stop update = some m' ∧ m'.id = m.id ∧ Canonical m' ∧
        ∀ p, m'.valueAt p =
          if start ≤ p ∧ p < stop then update (m.valueAt p) else m.valueAt p := by
    intro start stop hse update
    obtain ⟨m', hm', hid, -⟩ := m.changeRange_eq hse update
    exact ⟨m', hm', hid, h.changeRange hse hm', valueAt_changeRange hse hm'⟩
  cases o with
  | add start stop val =>
    rw [Operation.exec, addVerified]
    split
    · rename_i hskip
      refine ⟨m, rfl, rfl, h, fun p => ?_⟩
      split
      · rename_i hp
        rcases hskip with hle | rfl
        · exact absurd (hp.1.trans_lt hp.2) (not_lt.2 hle)
        · exact (hright _).symm
      · rfl
    · rename_i hskip
      exact hchange (not_le.1 fun hle => hskip (.inl hle)) (op · val)
  | erase start stop =>
    rw [Operation.exec, eraseVerified]
    split
    · rename_i hskip
      refine ⟨m, rfl, rfl, h, fun p => ?_⟩
      split
      · rename_i hp
        exact absurd (hp.1.trans_lt hp.2) (not_lt.2 hskip)
      · rfl
    · rename_i hskip
      exact hchange (not_le.1 hskip) fun _ => m.id
  | clear =>
    exact ⟨m.clear, rfl, rfl, ⟨by simp [IntervalMap.clear], List.isChain_nil,
      by simp [IntervalMap.clear]⟩, fun p => rfl⟩

/-- **Every sequence of operations** succeeds, with a map in canonical form that has the right value
at every point; and two such maps are equal exactly if they have equal values. -/
theorem exists_run (op : V → V → V) (id : V) (hright : ∀ x, op x id = x)
    (ops : List (Operation K V)) :
    ∃ m, run op id ops = some m ∧ Canonical m ∧ (∀ p, m.get p = valueAfter op id ops p) ∧
      ∀ ops' m', run op id ops' = some m' → (m.map = m'.map ↔ ∀ p, m.get p = m'.get p) := by
  have hrun : ∀ ops : List (Operation K V), ∃ m, run op id ops = some m ∧ m.id = id ∧
      Canonical m ∧ ∀ p, m.valueAt p = valueAfter op id ops p := by
    intro ops
    induction ops using List.reverseRecOn with
    | nil =>
      exact ⟨empty id, rfl, rfl, ⟨by simp [empty], List.isChain_nil, by simp [empty]⟩,
        fun p => rfl⟩
    | append_singleton ops o ih =>
      obtain ⟨m, hm, rfl, hcanon, hvalue⟩ := ih
      obtain ⟨m', hm', hid, hcanon', hvalue'⟩ := exec_spec hright hcanon o
      refine ⟨m', ?_, hid, hcanon', fun p => ?_⟩
      · rw [run, List.foldlM_append, ← run, hm]
        simpa using hm'
      · rw [hvalue', valueAfter_concat, hvalue]
  obtain ⟨m, hm, hid, hcanon, hvalue⟩ := hrun ops
  refine ⟨m, hm, hcanon, fun p => (m.get_eq_valueAt p).trans (hvalue p), fun ops' m' hm' => ?_⟩
  obtain ⟨m'', hm'', hid', hcanon', -⟩ := hrun ops'
  obtain rfl : m'' = m' := Option.some.inj (hm''.symm.trans hm')
  refine ⟨fun hmap p => ?_, fun hget => ?_⟩
  · rw [get_eq_valueAt, get_eq_valueAt, valueAt, valueAt, hmap, hid, hid']
  · have hch : Changing id m.map := by
      rw [← hid]
      exact ((canonical_iff m).1 hcanon).1
    have hch' : Changing id m''.map := by
      rw [← hid']
      exact ((canonical_iff m'').1 hcanon').1
    refine eq_of_valueIn_eq m.map m.sorted m''.sorted hch hch' fun p => ?_
    have := hget p
    rwa [get_eq_valueAt, get_eq_valueAt, valueAt, valueAt, hid, hid'] at this

/-- Two overlapping additions, where the values are sets of flags, and an erasure. -/
theorem exists_run_three : ∃ m, run (K := ℕ) (· ||| ·) 0
    [.add 1 5 1, .add 3 8 2, .erase 4 6] = some m ∧ Canonical m ∧ m.get 3 = 3 := by
  obtain ⟨m, hm, hcanon, hget, -⟩ := exists_run (K := ℕ) (· ||| ·) 0 (fun x => Nat.or_zero x)
    [.add 1 5 1, .add 3 8 2, .erase 4 6]
  exact ⟨m, hm, hcanon, (hget 3).trans (by decide)⟩

end IntervalMap
end GenMC
