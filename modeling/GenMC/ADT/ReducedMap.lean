import GenMC.ADT.IntervalMap
import Mathlib.Data.List.Chain

/-!
# Interval maps without superfluous segments

`add` and `erase` look at a segment again whenever what is before it may have changed, and drop it
if it says nothing new.  So no two neighbours of a map that they lead to are equal, the first one is
not the identity, and the last one is.

* `Varying`: the value changes with every segment; `varying_addLoop`: the loop of the two operations
  keeps this, whatever it does to the values.
* `Reachable.reduced`: **every map that `add`, `erase` and `clear` lead to is reduced.**

Equality of values is `==`, which has to be an equivalence.
-/

set_option autoImplicit false

namespace GenMC
namespace IntervalMap

variable {K V : Type*}

/-- The value after the last of some segments. -/
def lastValue (id : V) (l : List (K × V)) : V := (l.getLast?.map (·.2)).getD id

theorem lastValue_append (id : V) (l r : List (K × V)) :
    lastValue id (l ++ r) = lastValue (lastValue id l) r := by
  rw [lastValue, lastValue, lastValue, List.getLast?_append]
  cases r.getLast? <;> rfl

theorem lastValue_cons (id : V) (seg : K × V) (l : List (K × V)) :
    lastValue id (seg :: l) = lastValue seg.2 l :=
  lastValue_append id [seg] l

variable [BEq V]

/-- The value changes with every segment. -/
def Varying (id : V) (l : List (K × V)) : Prop :=
  (id :: l.map (·.2)).IsChain fun x y => (x == y) = false

theorem varying_nil (id : V) : Varying (K := K) id [] := List.isChain_singleton _

theorem varying_cons {id : V} {seg : K × V} {l : List (K × V)} :
    Varying id (seg :: l) ↔ (id == seg.2) = false ∧ Varying seg.2 l :=
  List.isChain_cons_cons

/-- The two parts of a list of segments vary where the whole list does. -/
theorem varying_append {r : List (K × V)} (l : List (K × V)) :
    ∀ id : V, Varying id (l ++ r) ↔ Varying id l ∧ Varying (lastValue id l) r := by
  induction l with
  | nil => exact fun id => (and_iff_right (varying_nil id)).symm
  | cons seg l ih =>
    intro id
    rw [List.cons_append, varying_cons, varying_cons, ih, lastValue_cons, and_assoc]

section Equivalence

variable [EquivBEq V]

theorem beq_eq_false_left {x y z : V} (hxy : (x == y) = true) (hyz : (y == z) = false) :
    (x == z) = false := by
  rw [BEq.congr_left hxy]
  exact hyz

/-- Two equal values may stand before the same segments. -/
theorem Varying.congr {x y : V} {l : List (K × V)} (hxy : (x == y) = true) (h : Varying y l) :
    Varying x l := by
  cases l with
  | nil => exact varying_nil x
  | cons seg l => exact varying_cons.2 ⟨beq_eq_false_left hxy (varying_cons.1 h).1,
      (varying_cons.1 h).2⟩

theorem lastValue_congr {x y : V} (hxy : (x == y) = true) (l : List (K × V)) :
    (lastValue x l == lastValue y l) = true := by
  rw [lastValue, lastValue]
  cases l.getLast? with
  | none => exact hxy
  | some seg => exact BEq.rfl

/-- A segment that is cleaned up is dropped if its value is the one before it. -/
theorem canonicalize_eq_ite_beq (id : V) (before : List (K × V)) (seg : K × V) :
    canonicalize id before seg =
      if lastValue id before == seg.2 then before else before ++ [seg] := by
  rw [canonicalize, lastValue]
  cases before.getLast? with
  | none => rw [BEq.comm]; rfl
  | some prev => rfl

theorem lastValue_canonicalize_beq (id : V) (before : List (K × V)) (seg : K × V) :
    (lastValue id (canonicalize id before seg) == seg.2) = true := by
  rw [canonicalize_eq_ite_beq]
  split
  · assumption
  · rw [lastValue_append]
    exact BEq.rfl

theorem Varying.canonicalize {id : V} {before : List (K × V)} (h : Varying id before)
    (seg : K × V) : Varying id (canonicalize id before seg) := by
  rw [canonicalize_eq_ite_beq]
  split
  · exact h
  · rename_i hne
    exact (varying_append before id).2 ⟨h, varying_cons.2 ⟨Bool.eq_false_iff.2 hne, varying_nil _⟩⟩

/-- A segment that is cleaned up, before segments that vary from its value on. -/
theorem varying_canonicalize_append {id : V} {before rest : List (K × V)} (h : Varying id before)
    {seg : K × V} (hrest : Varying seg.2 rest) :
    Varying id (IntervalMap.canonicalize id before seg ++ rest) :=
  (varying_append _ id).2
    ⟨h.canonicalize seg, hrest.congr (lastValue_canonicalize_beq id before seg)⟩

variable [LinearOrder K]

/-- **The loop leaves no superfluous segment.** -/
theorem varying_addLoop {id : V} (stop : K) (update : List V → V → V) (rest : List (K × V)) :
    ∀ (before : List (K × V)) (k : K) (x : V), Varying id before → Varying x rest →
      Varying id (addLoop id stop update before k x rest) := by
  induction rest with
  | nil =>
    intro before k x hbefore _
    rw [addLoop]
    exact (hbefore.canonicalize _).canonicalize _
  | cons seg rest ih =>
    obtain ⟨k', y⟩ := seg
    intro before k x hbefore hrest
    rw [addLoop]
    dsimp only
    split_ifs
    · exact varying_canonicalize_append (hbefore.canonicalize _) hrest
    · exact ih _ _ _ (hbefore.canonicalize _) (varying_cons.1 hrest).2
    · exact varying_canonicalize_append (hbefore.canonicalize _) (varying_cons.1 hrest).2

/-- The loop keeps the value after the last segment. -/
theorem lastValue_addLoop_beq {id : V} (stop : K) (update : List V → V → V)
    (rest : List (K × V)) : ∀ (before : List (K × V)) (k : K) (x : V),
      (lastValue id (addLoop id stop update before k x rest) == lastValue x rest) = true := by
  induction rest with
  | nil =>
    intro before k x
    rw [addLoop]
    exact lastValue_canonicalize_beq id _ (stop, x)
  | cons seg rest ih =>
    obtain ⟨k', y⟩ := seg
    intro before k x
    rw [addLoop]
    dsimp only
    split_ifs
    · rw [lastValue_append]
      exact lastValue_congr (lastValue_canonicalize_beq id _ (stop, x)) _
    · rw [lastValue_cons]
      exact ih _ _ _
    · rw [lastValue_append, lastValue_cons]
      exact lastValue_congr (lastValue_canonicalize_beq id _ (k', y)) _

end Equivalence

variable [LinearOrder K]

/-- A split only repeats a value. -/
theorem varying_createSplit {id : V} {map : List (K × V)} (h : Varying id map) (point : K) :
    Varying id (createSplit id map point).1 ∧
      Varying (createSplit id map point).2.1 (createSplit id map point).2.2 ∧
      lastValue (createSplit id map point).2.1 (createSplit id map point).2.2 =
        lastValue id map := by
  have hsplit := List.takeWhile_append_dropWhile (p := fun a : K × V => decide (a.1 < point))
    (l := map)
  have hlast : lastValue (lastValue id (map.takeWhile (·.1 < point)))
      (map.dropWhile (·.1 < point)) = lastValue id map := by
    rw [← lastValue_append, hsplit]
  rw [← hsplit, varying_append] at h
  rw [createSplit]
  split
  · rename_i hnil
    rw [hnil] at hlast
    exact ⟨h.1, varying_nil _, hlast⟩
  · rename_i k x rest hcons
    rw [hcons] at h hlast
    split
    · rw [lastValue_cons] at hlast
      exact ⟨h.1, (varying_cons.1 h.2).2, hlast⟩
    · exact ⟨h.1, h.2, hlast⟩

/-! ## Reduced maps -/

/-- No segment says anything that is known from those before it, and the last one is the
identity. -/
structure Reduced (m : IntervalMap K V) : Prop where
  varying : Varying m.id m.map
  last : (lastValue m.id m.map == m.id) = true

/-- `erase`: sets the values of the points of `[start, stop)` to the identity. -/
def erase (m : IntervalMap K V) (start stop : K) : IntervalMap K V :=
  if h : stop ≤ start then m
  else
    let split := createSplit m.id m.map start
    { m with
      map := addLoop m.id stop (fun _ _ => m.id) split.1 start split.2.1 split.2.2
      sorted := sorted_addLoop _ _ _ _ _ _ _ (not_le.1 h) (sorted_createSplit m.id start m.sorted) }

/-- What `erase` does to the value of every point. -/
theorem valueAt_erase {m : IntervalMap K V} {start stop : K} (hse : start < stop)
    {R Q : K → V → Prop} (hQ : ∀ p x y, (x == y) = true → (Q p x ↔ Q p y))
    (hin : ∀ p, start ≤ p → p < stop → Q p m.id)
    (hout : ∀ p x, ¬ (start ≤ p ∧ p < stop) → R p x → Q p x)
    (h : ∀ p, R p (m.valueAt p)) (p : K) : Q p ((m.erase start stop).valueAt p) := by
  rw [erase, dif_neg (not_le.2 hse)]
  exact valueIn_addLoop_createSplit m.sorted hse hQ (fun p x others hp hps _ => hin p hp hps)
    hout h p

/-- The maps with a given identity that `add`, `erase` and `clear` lead to. -/
inductive Reachable (id : V) : IntervalMap K V → Prop
  | empty : Reachable id (.empty id)
  | add {m : IntervalMap K V} (start stop : K) (val : V) (update : List V → V → V)
      (h : Reachable id m) : Reachable id (m.add start stop val update)
  | erase {m : IntervalMap K V} (start stop : K) (h : Reachable id m) :
      Reachable id (m.erase start stop)
  | clear {m : IntervalMap K V} (h : Reachable id m) :
      Reachable id { m with map := [], sorted := .nil }

theorem id_erase (m : IntervalMap K V) (start stop : K) : (m.erase start stop).id = m.id := by
  rw [erase]
  split <;> rfl

theorem Reachable.id_eq {id : V} {m : IntervalMap K V} (h : Reachable id m) : m.id = id := by
  induction h with
  | empty => rfl
  | add start stop val update _ ih => rw [id_add, ih]
  | erase start stop _ ih => rw [id_erase, ih]
  | clear _ ih => exact ih

variable [EquivBEq V]

/-- Updating the segments of an interval keeps a map reduced. -/
theorem Reduced.addLoop {m m' : IntervalMap K V} (h : Reduced m) (start stop : K)
    (update : List V → V → V) (hid : m'.id = m.id)
    (hmap : m'.map = addLoop m.id stop update (createSplit m.id m.map start).1 start
      (createSplit m.id m.map start).2.1 (createSplit m.id m.map start).2.2) : Reduced m' := by
  obtain ⟨hbefore, hrest, hlast⟩ := varying_createSplit h.varying start
  refine ⟨?_, ?_⟩
  · rw [hmap, hid]
    exact varying_addLoop stop _ _ _ _ _ hbefore hrest
  · rw [hmap, hid]
    refine BEq.trans (lastValue_addLoop_beq stop _ _ _ _ _) ?_
    rw [hlast]
    exact h.last

theorem Reduced.add {m : IntervalMap K V} (h : Reduced m) (start stop : K) (val : V)
    (update : List V → V → V) : Reduced (m.add start stop val update) := by
  rw [IntervalMap.add]
  split
  · exact h
  · exact h.addLoop start stop update rfl rfl

theorem Reduced.erase {m : IntervalMap K V} (h : Reduced m) (start stop : K) :
    Reduced (m.erase start stop) := by
  rw [IntervalMap.erase]
  split
  · exact h
  · exact h.addLoop start stop _ rfl rfl

/-- **Every map that `add`, `erase` and `clear` lead to is reduced.** -/
theorem Reachable.reduced {id : V} {m : IntervalMap K V} (h : Reachable id m) : Reduced m := by
  induction h with
  | empty => exact ⟨varying_nil _, BEq.rfl⟩
  | add start stop val update _ ih => exact ih.add start stop val update
  | erase start stop _ ih => exact ih.erase start stop
  | clear _ _ => exact ⟨varying_nil _, BEq.rfl⟩

/-- The values after `add`. -/
theorem valueAt_add_beq {m : IntervalMap K V} {start stop : K} {val : V}
    (hval : (val == m.id) = false) {update : V → V}
    (hup : ∀ x y, (x == y) = true → (update x == update y) = true) (p : K) :
    ((m.add start stop val fun _ => update).valueAt p ==
      if start ≤ p ∧ p < stop then update (m.valueAt p) else m.valueAt p) = true := by
  by_cases hse : start < stop
  · refine valueAt_add hse hval (R := fun p x => (x == m.valueAt p) = true)
      (Q := fun p x => (x == if start ≤ p ∧ p < stop then update (m.valueAt p) else m.valueAt p))
      (fun p x y hxy => by rw [BEq.congr_left hxy]) (fun p x others hp hps hx => ?_)
      (fun p x hp hx => ?_) (fun p => BEq.rfl) p
    · rw [if_pos ⟨hp, hps⟩]
      exact hup x _ hx
    · rw [if_neg hp]
      exact hx
  · rw [IntervalMap.add, dif_pos (.inl (not_lt.1 hse)), if_neg fun hp => hse (hp.1.trans_lt hp.2)]
    exact BEq.rfl

omit [EquivBEq V] in
/-- The values after `add`, where equal values are the same. -/
theorem valueAt_add_eq [LawfulBEq V] {m : IntervalMap K V} {start stop : K} {val : V}
    (hval : (val == m.id) = false) (update : V → V) (p : K) :
    (m.add start stop val fun _ => update).valueAt p =
      if start ≤ p ∧ p < stop then update (m.valueAt p) else m.valueAt p :=
  eq_of_beq (valueAt_add_beq hval (fun x y hxy => by rw [eq_of_beq hxy]; exact BEq.rfl) p)

omit [EquivBEq V] in
/-- The values after `erase`, where equal values are the same. -/
theorem valueAt_erase_eq [LawfulBEq V] (m : IntervalMap K V) (start stop : K) (p : K) :
    (m.erase start stop).valueAt p = if start ≤ p ∧ p < stop then m.id else m.valueAt p := by
  by_cases hse : start < stop
  · refine valueAt_erase hse (R := fun p x => x = m.valueAt p)
      (Q := fun p x => x = if start ≤ p ∧ p < stop then m.id else m.valueAt p)
      (fun p x y hxy => by rw [eq_of_beq hxy]) (fun p hp hps => ?_)
      (fun p x hp hx => ?_) (fun p => rfl) p
    · rw [if_pos ⟨hp, hps⟩]
    · rw [if_neg hp, hx]
  · rw [IntervalMap.erase, dif_pos (not_lt.1 hse), if_neg fun hp => hse (hp.1.trans_lt hp.2)]

end IntervalMap
end GenMC
