import Mathlib.Logic.Relation
import Mathlib.Tactic.Common

/-!
# Paths through small elements

The paths of a relation on the natural numbers, sorted by how large the elements are that they go
through.  `PathBelow r k x y` says that there is a path from `x` to `y` on which every element
between the two is below `k`; the definition takes such a path apart at the element `k` itself, as
the algorithms do that compute a closure row by row.

* `pathBelow_self` is what these algorithms rely on at the diagonal: nothing is gained by a path
  that comes back to where it began.
* `pathBelow_iff_transGen` says that all paths have been found when all elements are below `k`.
-/

set_option autoImplicit false

namespace GenMC

open Relation

/-- A path from one element to another one, through elements below the first argument. -/
def PathBelow (r : ℕ → ℕ → Prop) : ℕ → ℕ → ℕ → Prop
  | 0, x, y => r x y
  | k + 1, x, y => PathBelow r k x y ∨ (PathBelow r k x k ∧ PathBelow r k k y)

variable {r : ℕ → ℕ → Prop} {k x y z : ℕ}

@[simp] theorem pathBelow_zero : PathBelow r 0 x y ↔ r x y := Iff.rfl

theorem pathBelow_succ :
    PathBelow r (k + 1) x y ↔ PathBelow r k x y ∨ (PathBelow r k x k ∧ PathBelow r k k y) :=
  Iff.rfl

theorem pathBelow_of_rel (h : r x y) : PathBelow r k x y := by
  induction k with
  | zero => exact h
  | succ k ih => exact .inl ih

/-- A path from `k` need not come back to `k`. -/
theorem pathBelow_self : PathBelow r (k + 1) k y ↔ PathBelow r k k y :=
  pathBelow_succ.trans (or_iff_left_of_imp And.right)

/-- Nor need a path to `k` go through it before. -/
theorem pathBelow_to_self : PathBelow r (k + 1) x k ↔ PathBelow r k x k :=
  pathBelow_succ.trans (or_iff_left_of_imp And.left)

/-- Paths are put together at a small element. -/
theorem PathBelow.trans (h : PathBelow r k x y) (hy : y < k) (h' : PathBelow r k y z) :
    PathBelow r k x z := by
  induction k generalizing x y z with
  | zero => exact absurd hy (Nat.not_lt_zero y)
  | succ k ih =>
    rcases Nat.lt_succ_iff_lt_or_eq.1 hy with hy | rfl
    · rcases pathBelow_succ.1 h with h | ⟨h1, h2⟩
      · rcases pathBelow_succ.1 h' with h' | ⟨h3, h4⟩
        · exact .inl (ih h hy h')
        · exact .inr ⟨ih h hy h3, h4⟩
      · -- the first path goes through `k`, and the second one may
        rcases pathBelow_succ.1 h' with h' | ⟨-, h4⟩
        · exact .inr ⟨h1, ih h2 hy h'⟩
        · exact .inr ⟨h1, h4⟩
    · exact .inr ⟨pathBelow_to_self.1 h, pathBelow_self.1 h'⟩

theorem PathBelow.transGen (h : PathBelow r k x y) : TransGen r x y := by
  induction k generalizing x y with
  | zero => exact .single h
  | succ k ih =>
    rcases pathBelow_succ.1 h with h | ⟨h1, h2⟩
    · exact ih h
    · exact (ih h1).trans (ih h2)

/-- **All paths go through elements that have an edge.** -/
theorem pathBelow_iff_transGen {n : ℕ} (hn : ∀ x y, r x y → x < n) :
    PathBelow r n x y ↔ TransGen r x y := by
  refine ⟨PathBelow.transGen, fun h => ?_⟩
  induction h with
  | single h => exact pathBelow_of_rel h
  | tail _ h ih => exact ih.trans (hn _ _ h) (pathBelow_of_rel h)

end GenMC
