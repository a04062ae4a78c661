import Mathlib.Data.List.MinMax
import Mathlib.Order.Nat

/-!
# Searching for a minimum, and for something within a bound

Two loops over the same list of choices, each of which has a cost.  `minLoop` keeps the least cost
so far.  `boundLoop` only asks whether a choice is within the bound, and stops at the first one that
is; it keeps track of whether there was any choice.  Both fail when there is none.

* `minLoop_eq_some_iff`: the first loop returns the minimum of the costs.
* `boundLoop_eq_map`: the second loop compares this minimum with the bound.
-/

set_option autoImplicit false

namespace GenMC
namespace BoundedSearch

variable {ι : Type*}

/-- The loop that keeps the least cost. -/
def minLoop (cost : ι → Option ℕ) : List ι → Option ℕ → Option ℕ
  | [], res => res
  | a :: rest, res => do
    let c ← cost a
    minLoop cost rest (some (res.elim c (min · c)))

/-- The loop that stops at the first choice within the bound. -/
def boundLoop (within : ι → Option Bool) : List ι → Bool → Option Bool
  | [], found => if found then some false else none
  | a :: rest, _ => do
    if ← within a then some true
    else boundLoop within rest true

variable {cost : ι → Option ℕ} {within : ι → Option Bool} {bound : ℕ} {l : List ι}

/-! ## The minimum -/

theorem minLoop_cons {a : ι} {c : ℕ} (hc : cost a = some c) (l : List ι) (res : Option ℕ) :
    minLoop cost (a :: l) res = minLoop cost l (some (res.elim c (min · c))) := by
  rw [minLoop, hc]
  rfl

theorem minLoop_some {f : ι → ℕ} (h : ∀ a ∈ l, cost a = some (f a)) :
    ∀ m, minLoop cost l (some m) = some ((l.map f).foldl min m) := by
  induction l with
  | nil => exact fun m => rfl
  | cons a l ih =>
    intro m
    rw [minLoop_cons (h a (List.mem_cons_self ..)),
      ih fun b hb => h b (List.mem_cons_of_mem _ hb)]
    rfl

theorem minLoop_eq {f : ι → ℕ} (h : ∀ a ∈ l, cost a = some (f a)) :
    minLoop cost l none = (l.map f).min? := by
  cases l with
  | nil => rfl
  | cons a l =>
    rw [minLoop_cons (h a (List.mem_cons_self ..)),
      minLoop_some fun b hb => h b (List.mem_cons_of_mem _ hb), List.map_cons, List.min?_cons']
    rfl

/-- Costs that are there, as a function. -/
theorem cost_eq_getD (h : ∀ a ∈ l, (cost a).isSome) :
    ∀ a ∈ l, cost a = some ((cost a).getD 0) := by
  intro a ha
  obtain ⟨c, hc⟩ := Option.isSome_iff_exists.1 (h a ha)
  rw [hc]
  rfl

/-- **The first loop returns the minimum of the costs.** -/
theorem minLoop_eq_some_iff (h : ∀ a ∈ l, (cost a).isSome) {c : ℕ} :
    minLoop cost l none = some c ↔
      (∃ a ∈ l, cost a = some c) ∧ ∀ a ∈ l, ∀ c' ∈ cost a, c ≤ c' := by
  have h' := cost_eq_getD h
  rw [minLoop_eq h', List.min?_eq_some_iff]
  refine ⟨?_, ?_⟩
  · rintro ⟨hmem, hle⟩
    obtain ⟨a, ha, rfl⟩ := List.mem_map.1 hmem
    refine ⟨⟨a, ha, h' a ha⟩, fun b hb c' hc' => ?_⟩
    have := hle _ (List.mem_map_of_mem hb)
    rwa [Option.mem_def.1 hc', Option.getD_some] at this
  · rintro ⟨⟨a, ha, hac⟩, hle⟩
    refine ⟨List.mem_map.2 ⟨a, ha, by rw [hac]; rfl⟩, fun b hb => ?_⟩
    obtain ⟨d, hd, rfl⟩ := List.mem_map.1 hb
    exact hle d hd _ (h' d hd)

/-- A loop with a choice finds a minimum. -/
theorem minLoop_isSome (h : ∀ a ∈ l, (cost a).isSome) (hne : l ≠ []) :
    (minLoop cost l none).isSome := by
  rw [minLoop_eq (cost_eq_getD h), Option.isSome_iff_ne_none, ne_eq, List.min?_eq_none_iff,
    List.map_eq_nil_iff]
  exact hne

/-! ## The bound -/

theorem boundLoop_cons {a : ι} {b : Bool} (hb : within a = some b) (l : List ι) (found : Bool) :
    boundLoop within (a :: l) found = if b = true then some true else boundLoop within l true := by
  rw [boundLoop, hb]
  rfl

/-- What the loop returns, by whether some choice is within the bound and whether there is one. -/
theorem boundLoop_eq {f : ι → ℕ} (h : ∀ a ∈ l, within a = some (decide (f a ≤ bound))) :
    ∀ found, boundLoop within l found =
      if ∃ a ∈ l, f a ≤ bound then some true
      else if found = true ∨ l ≠ [] then some false else none := by
  induction l with
  | nil =>
    intro found
    simp [boundLoop]
  | cons a l ih =>
    intro found
    rw [boundLoop_cons (h a (List.mem_cons_self ..)),
      ih fun b hb => h b (List.mem_cons_of_mem _ hb)]
    by_cases ha : f a ≤ bound
    · simp [ha]
    · simp [ha]

/-- **The second loop compares the minimum of the costs with the bound.** -/
theorem boundLoop_eq_map (h : ∀ a ∈ l, ∃ c, cost a = some c ∧
    within a = some (decide (c ≤ bound))) :
    boundLoop within l false = (minLoop cost l none).map fun c => decide (c ≤ bound) := by
  have hcost : ∀ a ∈ l, (cost a).isSome := by
    intro a ha
    obtain ⟨c, hc, -⟩ := h a ha
    rw [hc]
    rfl
  have hwithin : ∀ a ∈ l, within a = some (decide ((cost a).getD 0 ≤ bound)) := by
    intro a ha
    obtain ⟨c, hc, hb⟩ := h a ha
    rw [hb, hc]
    rfl
  rw [boundLoop_eq hwithin]
  by_cases hne : l = []
  · subst hne
    simp [minLoop]
  · obtain ⟨m, hm⟩ := Option.isSome_iff_exists.1 (minLoop_isSome hcost hne)
    obtain ⟨⟨a, ha, hac⟩, hle⟩ := (minLoop_eq_some_iff hcost).1 hm
    have hiff : (∃ b ∈ l, (cost b).getD 0 ≤ bound) ↔ m ≤ bound := by
      refine ⟨?_, fun hmb => ?_⟩
      · rintro ⟨b, hb, hfb⟩
        exact (hle b hb _ (cost_eq_getD hcost b hb)).trans hfb
      · exact ⟨a, ha, by rwa [hac]⟩
    by_cases hmb : m ≤ bound
    · simp [hm, hiff, hmb]
    · simp [hm, hiff, hmb, hne]

end BoundedSearch
end GenMC
