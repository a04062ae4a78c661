import Mathlib.Data.List.Forall2
import Mathlib.Data.List.Nodup

/-!
# Loops that carry

`do body while (step)`, where `step` moves on to another state and says whether there was one to
move on to.  `Visits step s l e` is a loop that stops: it goes through the states `l` from `s` on,
and the last step leaves `e`.

A step that has nothing to move on to may go back to where it started, so that it can be used as a
digit: the next digit moves when this one is back (`carry` for two digits, `anyStep` for a list of
them, as `any_of` does).  If each digit goes once through the values it can have, the loop goes once
through all choices of a value for each (`Cycles.carry`, `Cycles.anyStep`).
-/

set_option autoImplicit false

namespace GenMC
namespace DoWhile

variable {σ τ υ ρ : Type*}

/-- The loop, for a number of rounds. -/
def run (step : σ → σ × Bool) (body : ρ → σ → ρ) : ℕ → σ → ρ → Option ρ
  | 0, _, _ => none
  | fuel + 1, s, r =>
    match step s with
    | (s', true) => run step body fuel s' (body r s)
    | (_, false) => some (body r s)

/-- The states a loop goes through, and the state that its last step leaves. -/
inductive Visits (step : σ → σ × Bool) : σ → List σ → σ → Prop
  | stop {s e : σ} : step s = (e, false) → Visits step s [s] e
  | next {s s' e : σ} {l : List σ} :
      step s = (s', true) → Visits step s' l e → Visits step s (s :: l) e

section Visits

variable {f : σ → σ × Bool} {g : υ → υ × Bool} {s e : σ} {l : List σ}

/-- A loop that stops does so for every body, and runs it once in each state. -/
theorem Visits.run_eq (h : Visits f s l e) (body : ρ → σ → ρ) (fuel : ℕ) (r : ρ) :
    run f body fuel s r = if fuel < l.length then none else some (l.foldl body r) := by
  induction h generalizing fuel r with
  | stop hs =>
    cases fuel with
    | zero => rfl
    | succ fuel =>
      rw [run, hs]
      simp
  | next hs _ ih =>
    cases fuel with
    | zero => simp [run]
    | succ fuel =>
      rw [run, hs]
      simp only [ih, List.length_cons, Nat.add_lt_add_iff_right, List.foldl_cons]

theorem Visits.unique (h : Visits f s l e) {l' : List σ} {e' : σ} (h' : Visits f s l' e') :
    l = l' := by
  induction h generalizing l' with
  | stop hs =>
    cases h' with
    | stop => rfl
    | next hs' => cases hs.symm.trans hs'
  | next hs _ ih =>
    cases h' with
    | stop hs' => cases hs.symm.trans hs'
    | next hs' h' =>
      cases hs.symm.trans hs'
      rw [ih h']

theorem Visits.ne_nil (h : Visits f s l e) : l ≠ [] := by
  cases h with
  | stop => exact List.cons_ne_nil _ _
  | next => exact List.cons_ne_nil _ _

/-- A loop inside another one, which stops with it. -/
theorem Visits.map {c : σ → υ} {z : υ} (h : Visits f s l e)
    (hnext : ∀ x x', f x = (x', true) → g (c x) = (c x', true))
    (hstop : ∀ x, f x = (e, false) → g (c x) = (z, false)) :
    Visits g (c s) (l.map c) z := by
  induction h with
  | stop hs => exact .stop (hstop _ hs)
  | next hs _ ih => exact .next (hnext _ _ hs) (ih hstop)

/-- A loop inside another one, which goes on after it. -/
theorem Visits.map_append {c : σ → υ} {z y : υ} {m : List υ} (h : Visits f s l e)
    (hnext : ∀ x x', f x = (x', true) → g (c x) = (c x', true))
    (hstop : ∀ x, f x = (e, false) → g (c x) = (z, true)) (hm : Visits g z m y) :
    Visits g (c s) (l.map c ++ m) y := by
  induction h with
  | stop hs => exact .next (hstop _ hs) hm
  | next hs _ ih => exact .next (hnext _ _ hs) (ih hstop)

end Visits

/-- The loop goes once through the states with a property, and is back at the first one when it
stops. -/
structure Cycles (step : σ → σ × Bool) (s : σ) (p : σ → Prop) (l : List σ) : Prop where
  visits : Visits step s l s
  nodup : l.Nodup
  mem_iff : ∀ x, x ∈ l ↔ p x

/-! ## Digits -/

/-- All ways to combine a value of the first list with one of the second, the first of them
changing faster. -/
def combine (c : σ → τ → υ) (l : List σ) (m : List τ) : List υ := m.flatMap fun y => l.map (c · y)

theorem mem_combine {c : σ → τ → υ} {l : List σ} {m : List τ} {z : υ} :
    z ∈ combine c l m ↔ ∃ x ∈ l, ∃ y ∈ m, c x y = z := by
  rw [combine, List.mem_flatMap]
  refine ⟨?_, ?_⟩
  · rintro ⟨y, hy, hz⟩
    obtain ⟨x, hx, rfl⟩ := List.mem_map.1 hz
    exact ⟨x, hx, y, hy, rfl⟩
  · rintro ⟨x, hx, y, hy, rfl⟩
    exact ⟨y, hy, List.mem_map.2 ⟨x, hx, rfl⟩⟩

theorem nodup_combine {c : σ → τ → υ} (hc : Function.Injective2 c) {l : List σ} {m : List τ}
    (hl : l.Nodup) (hm : m.Nodup) : (combine c l m).Nodup := by
  refine List.nodup_flatMap.2 ⟨fun y _ => hl.map fun x x' h => (hc h).1, hm.imp ?_⟩
  intro y y' hne z hz hz'
  obtain ⟨x, -, rfl⟩ := List.mem_map.1 hz
  obtain ⟨x', -, heq⟩ := List.mem_map.1 hz'
  exact hne (hc heq).2.symm

/-- Two digits: the second one moves when the first one is back. -/
theorem Visits.combine {f : σ → σ × Bool} {g : τ → τ × Bool} {step : υ → υ × Bool}
    {c : σ → τ → υ} {s : σ} {t t' : τ} {l : List σ} {m : List τ}
    (hf : ∀ x x' y, f x = (x', true) → step (c x y) = (c x' y, true))
    (hg : ∀ x x' y y' b, f x = (x', false) → g y = (y', b) → step (c x y) = (c x' y', b))
    (h : Visits f s l s) (h' : Visits g t m t') :
    Visits step (c s t) (combine c l m) (c s t') := by
  induction h' with
  | @stop y y' hs =>
    have hcombine : DoWhile.combine c l [y] = l.map (c · y) := List.flatMap_singleton _ _
    rw [hcombine]
    exact h.map (c := (c · y)) (fun x x' => hf x x' y) fun x hx => hg x s y y' false hx hs
  | @next y y' e m hs _ ih =>
    have hcombine : DoWhile.combine c l (y :: m) = l.map (c · y) ++ DoWhile.combine c l m :=
      List.flatMap_cons
    rw [hcombine]
    exact h.map_append (c := (c · y)) (fun x x' => hf x x' y)
      (fun x hx => hg x s y y' true hx hs) ih

/-- `f` or else `g`. -/
def carry (f : σ → σ × Bool) (g : τ → τ × Bool) (s : σ × τ) : (σ × τ) × Bool :=
  match f s.1 with
  | (x, true) => ((x, s.2), true)
  | (x, false) => ((x, (g s.2).1), (g s.2).2)

theorem Cycles.carry {f : σ → σ × Bool} {g : τ → τ × Bool} {s : σ} {t : τ} {p : σ → Prop}
    {q : τ → Prop} {l : List σ} {m : List τ} (h : Cycles f s p l) (h' : Cycles g t q m) :
    Cycles (carry f g) (s, t) (fun z => p z.1 ∧ q z.2) (combine Prod.mk l m) where
  visits := by
    refine h.visits.combine (fun x x' y hx => ?_) (fun x x' y y' b hx hy => ?_) h'.visits
    · simp only [DoWhile.carry, hx]
    · simp only [DoWhile.carry, hx, hy]
  nodup := nodup_combine (fun _ _ _ _ heq => Prod.mk.inj heq) h.nodup h'.nodup
  mem_iff z := by
    rw [mem_combine]
    refine ⟨?_, ?_⟩
    · rintro ⟨x, hx, y, hy, rfl⟩
      exact ⟨(h.mem_iff x).1 hx, (h'.mem_iff y).1 hy⟩
    · rintro ⟨hp, hq⟩
      exact ⟨z.1, (h.mem_iff _).2 hp, z.2, (h'.mem_iff _).2 hq, rfl⟩

/-- Moves the first state that can move; those before it go back. -/
def anyStep (f : σ → σ × Bool) : List σ → List σ × Bool
  | [] => ([], false)
  | s :: v =>
    match f s with
    | (x, true) => (x :: v, true)
    | (x, false) => (x :: (anyStep f v).1, (anyStep f v).2)

theorem Cycles.anyStep {f : σ → σ × Bool} {p : σ → σ → Prop} {v : List σ}
    (h : ∀ s ∈ v, ∃ l, Cycles f s (p · s) l) :
    ∃ m, Cycles (anyStep f) v (List.Forall₂ p · v) m := by
  induction v with
  | nil => exact ⟨[[]], .stop rfl, List.nodup_singleton _, fun x => by simp⟩
  | cons s v ih =>
    obtain ⟨l, hl⟩ := h s List.mem_cons_self
    obtain ⟨m, hm⟩ := ih fun t ht => h t (List.mem_cons_of_mem s ht)
    refine ⟨combine List.cons l m, ?_, ?_, fun x => ?_⟩
    · refine hl.visits.combine (fun x x' y hx => ?_) (fun x x' y y' b hx hy => ?_) hm.visits
      · simp only [DoWhile.anyStep, hx]
      · simp only [DoWhile.anyStep, hx, hy]
    · exact nodup_combine (fun _ _ _ _ heq => List.cons.inj heq) hl.nodup hm.nodup
    · rw [mem_combine, List.forall₂_cons_right_iff]
      refine ⟨?_, ?_⟩
      · rintro ⟨y, hy, w, hw, rfl⟩
        exact ⟨y, w, (hl.mem_iff y).1 hy, (hm.mem_iff w).1 hw, rfl⟩
      · rintro ⟨y, w, hy, hw, rfl⟩
        exact ⟨y, (hl.mem_iff y).2 hy, w, (hm.mem_iff w).2 hw, rfl⟩

end DoWhile
end GenMC
