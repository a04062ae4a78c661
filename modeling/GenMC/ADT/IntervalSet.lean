import GenMC.ADT.MapIterator
import Mathlib.Order.Interval.Set.Defs

/-!
# Sets of intervals

A set of intervals is an interval map to truth values: adding an interval is a disjunction, and
subtracting one sets its points to the identity, `false`.

* `contains_iff`: the points of a set that was built by additions and subtractions are those that
  were added and not subtracted since.
* `intersects_iff`: `intersects` only asks whether the lower bound of an interval is the end, so it
  finds **any point from the start of the interval on**, also behind its end.
* `intersects_exact_iff`: it decides intersection unless the set has points behind an interval that
  it does not meet.
-/

set_option autoImplicit false

namespace GenMC

/-- A set of right-open intervals. -/
structure IntervalSet (K : Type*) [LinearOrder K] where
  map : IntervalMap K Bool

namespace IntervalSet

variable {K : Type*} [LinearOrder K]

def empty : IntervalSet K := ⟨.empty false⟩

def add (s : IntervalSet K) (start stop : K) : IntervalSet K :=
  ⟨s.map.add start stop true fun _ x => x || true⟩

def subtract (s : IntervalSet K) (start stop : K) : IntervalSet K := ⟨s.map.erase start stop⟩

/-- Whether a point is in the set. -/
def contains (s : IntervalSet K) (point : K) : Bool := (s.map.find point).isSome

section Bounds

variable [OrderTop K]

/-- Whether the set overlaps with `[start, stop)`, as `intersects` answers it. -/
def intersects (s : IntervalSet K) (start stop : K) : Bool :=
  !(s.map.lowerIterator start stop).isEmpty

/-- Whether the set overlaps with an interval, as `overlaps` answers it. -/
def overlaps (s : IntervalSet K) (iv : K × K) : Bool :=
  !(s.map.lowerIterator iv.1 iv.2).isEmpty

/-- The intervals that an iteration over the set sees. -/
def intervals (s : IntervalSet K) : List (K × K) :=
  s.map.entries.map fun seg => (seg.start, seg.stop)

end Bounds

/-! ## The points of a set -/

/-- The operations that change a set. -/
inductive Operation (K : Type*)
  | add (start stop : K)
  | subtract (start stop : K)

namespace Operation

def exec (s : IntervalSet K) : Operation K → IntervalSet K
  | add start stop => s.add start stop
  | subtract start stop => s.subtract start stop

/-- What an operation makes of a set of points. -/
def onPoints (S : Set K) : Operation K → Set K
  | add start stop => S ∪ Set.Ico start stop
  | subtract start stop => S \ Set.Ico start stop

end Operation

/-- The set that some operations make of the empty one. -/
def run (ops : List (Operation K)) : IntervalSet K := ops.foldl Operation.exec empty

/-- The points that some operations leave. -/
def points (ops : List (Operation K)) : Set K := ops.foldl Operation.onPoints ∅

theorem run_concat (ops : List (Operation K)) (o : Operation K) :
    run (ops ++ [o]) = o.exec (run ops) := by
  rw [run, List.foldl_append]
  rfl

theorem points_concat (ops : List (Operation K)) (o : Operation K) :
    points (ops ++ [o]) = o.onPoints (points ops) := by
  rw [points, List.foldl_append]
  rfl

theorem reachable_run (ops : List (Operation K)) :
    IntervalMap.Reachable false (run ops).map := by
  induction ops using List.reverseRecOn with
  | nil => exact .empty
  | append_singleton ops o ih =>
    rw [run_concat]
    cases o with
    | add start stop => exact ih.add start stop true _
    | subtract start stop => exact ih.erase start stop

theorem valueAt_add (s : IntervalSet K) (hid : s.map.id = false) (start stop p : K) :
    (s.add start stop).map.valueAt p = true ↔
      s.map.valueAt p = true ∨ start ≤ p ∧ p < stop := by
  rw [add, IntervalMap.valueAt_add_eq (by rw [hid]; rfl)]
  split
  · rename_i hp
    rw [Bool.or_true]
    exact iff_of_true rfl (.inr hp)
  · rename_i hp
    exact (or_iff_left hp).symm

theorem valueAt_subtract (s : IntervalSet K) (hid : s.map.id = false) (start stop p : K) :
    (s.subtract start stop).map.valueAt p = true ↔
      s.map.valueAt p = true ∧ ¬ (start ≤ p ∧ p < stop) := by
  rw [subtract, IntervalMap.valueAt_erase_eq]
  split
  · rename_i hp
    rw [hid]
    exact iff_of_false Bool.false_ne_true fun h => h.2 hp
  · rename_i hp
    exact (and_iff_left hp).symm

/-- **The points of a set** are those that were added and not subtracted since. -/
theorem valueAt_run_iff (ops : List (Operation K)) (p : K) :
    (run ops).map.valueAt p = true ↔ p ∈ points ops := by
  induction ops using List.reverseRecOn with
  | nil => exact iff_of_false Bool.false_ne_true (Set.notMem_empty p)
  | append_singleton ops o ih =>
    have hid := (reachable_run ops).id_eq
    rw [run_concat, points_concat]
    cases o with
    | add start stop =>
      refine (valueAt_add _ hid start stop p).trans ?_
      rw [ih]
      rfl
    | subtract start stop =>
      refine (valueAt_subtract _ hid start stop p).trans ?_
      rw [ih]
      rfl

theorem contains_iff (ops : List (Operation K)) (p : K) :
    (run ops).contains p = true ↔ p ∈ points ops := by
  rw [contains, IntervalMap.isSome_find, (reachable_run ops).id_eq, ← valueAt_run_iff]
  cases (run ops).map.valueAt p <;> simp

/-! ## Intersections -/

variable [OrderTop K]

/-- **What `intersects` finds**: a point from the start of the interval on. -/
theorem intersects_iff (ops : List (Operation K)) {start stop : K} (hse : start < stop) :
    (run ops).intersects start stop = true ↔ ∃ p ∈ points ops, start ≤ p := by
  have hreach := reachable_run ops
  rw [intersects, Bool.not_eq_true', ← Bool.not_eq_true, List.isEmpty_iff,
    hreach.reduced.lowerIterator_eq_nil_iff hse, hreach.id_eq, not_forall]
  refine exists_congr fun p => ?_
  rw [Classical.not_imp, ← valueAt_run_iff, and_comm]
  cases (run ops).map.valueAt p <;> simp

/-- Whether `intersects` and `overlaps` are right about an interval. -/
def Decides (ops : List (Operation K)) (start stop : K) : Prop :=
  ((run ops).intersects start stop = true ↔ ∃ p ∈ points ops, start ≤ p ∧ p < stop) ∧
    ((run ops).overlaps (start, stop) = true ↔ ∃ p ∈ points ops, start ≤ p ∧ p < stop)

/-- **`intersects` and `overlaps` decide intersection** exactly if the interval meets the set or
nothing of the set is behind it. -/
theorem decides_iff (ops : List (Operation K)) {start stop : K} (hse : start < stop) :
    Decides ops start stop ↔
      ((∃ p ∈ points ops, stop ≤ p) → ∃ p ∈ points ops, start ≤ p ∧ p < stop) := by
  have hsame : (run ops).overlaps (start, stop) = (run ops).intersects start stop := rfl
  rw [Decides, hsame, and_self, intersects_iff ops hse]
  refine ⟨?_, ?_⟩
  · rintro hiff ⟨p, hp, hstop⟩
    exact hiff.1 ⟨p, hp, hse.le.trans hstop⟩
  · refine fun hcond => ⟨?_, fun ⟨p, hp, hstart, _⟩ => ⟨p, hp, hstart⟩⟩
    rintro ⟨p, hp, hstart⟩
    by_cases hstop : p < stop
    · exact ⟨p, hp, hstart, hstop⟩
    · exact hcond ⟨p, hp, not_lt.1 hstop⟩

/-- Two intervals with a gap. -/
def gap : List (Operation (Fin 64)) := [.add 10 20, .add 30 40]

theorem gap_decides_iff : Decides gap 15 25 ↔
    ((∃ p ∈ points gap, 25 ≤ p) → ∃ p ∈ points gap, 15 ≤ p ∧ p < 25) :=
  decides_iff gap (by decide)

/-- The gap is found to intersect. -/
theorem gap_not_decides : ¬ ∀ (ops : List (Operation (Fin 64))) (start stop : Fin 64),
    start < stop → Decides ops start stop := by
  intro h
  obtain ⟨p, hp, hstart, hstop⟩ := (h gap 20 30 (by decide)).1.1 (by decide)
  rw [← valueAt_run_iff] at hp
  revert p
  decide

end IntervalSet
end GenMC
