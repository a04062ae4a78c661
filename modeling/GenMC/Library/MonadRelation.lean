import Mathlib.Control.Basic
import Mathlib.Data.List.Forall2

/-!
# Relations between computations

A program that is written for any monad can be run in two of them.  If a relation between the
computations of the two monads is kept by returning a value, by sequencing and by failing, then it
holds of the two runs.  This is stated here once, with the relation as a parameter, together with
the relations between computations with a state and computations without one.

* `MonadRelation.forget`: the result of a computation does not depend on its state.
* `MonadRelation.clean`: if the state is clean after a computation, then it was clean before, and
  the other computation has the same result.
-/

set_option autoImplicit false

namespace GenMC

/-- A relation between the computations of two monads that programs keep. -/
structure MonadRelation (M N : Type → Type) [Monad M] [MonadExcept Unit M] [Monad N]
  [MonadExcept Unit N] where
  Rel : ∀ {α : Type}, M α → N α → Prop
  rel_pure : ∀ {α : Type} (a : α), Rel (pure a) (pure a)
  rel_bind : ∀ {α β : Type} {x : M α} {y : N α} {f : α → M β} {g : α → N β}, Rel x y →
    (∀ a, Rel (f a) (g a)) → Rel (x >>= f) (y >>= g)
  rel_throw : ∀ {α : Type}, Rel (throw () : M α) (throw ())

namespace MonadRelation

section

variable {M N : Type → Type} [Monad M] [MonadExcept Unit M] [Monad N] [MonadExcept Unit N]
  (r : MonadRelation M N)

theorem rel_ite {α : Type} {c : Prop} [Decidable c] {x x' : M α} {y y' : N α} (h : r.Rel x y)
    (h' : r.Rel x' y') : r.Rel (if c then x else x') (if c then y else y') := by
  split
  · exact h
  · exact h'

/-- A value that may be missing. -/
theorem rel_option {α : Type} (o : Option α) :
    r.Rel (o.elim (throw () : M α) pure) (o.elim (throw ()) pure) := by
  cases o with
  | none => exact r.rel_throw
  | some a => exact r.rel_pure a

end

variable {S : Type}

theorem run_bind_eq_some {α β : Type} {x : StateT S Option α} {f : α → StateT S Option β}
    {s s' : S} {b : β} : (x >>= f).run s = some (b, s') ↔
      ∃ a t, x.run s = some (a, t) ∧ (f a).run t = some (b, s') := by
  rw [StateT.run_bind, Option.bind_eq_bind, Option.bind_eq_some_iff]
  refine ⟨?_, ?_⟩
  · rintro ⟨⟨a, t⟩, hx, hf⟩
    exact ⟨a, t, hx, hf⟩
  · rintro ⟨a, t, hx, hf⟩
    exact ⟨⟨a, t⟩, hx, hf⟩

/-- The result does not depend on the state. -/
def forget (S : Type) : MonadRelation (StateT S Option) Option where
  Rel x y := ∀ s, (x.run s).map (·.1) = y
  rel_pure _ _ := rfl
  rel_bind := by
    intro α β x y f g hx hf s
    have hxs := hx s
    rw [StateT.run_bind]
    cases hrun : x.run s with
    | none =>
      rw [hrun] at hxs
      rw [← hxs]
      rfl
    | some p =>
      rw [hrun] at hxs
      rw [← hxs]
      exact hf p.1 p.2
  rel_throw _ := rfl

/-- If the state is clean afterwards, then it was before, and the result is the same. -/
def clean (Clean : S → Prop) : MonadRelation (StateT S Option) Option where
  Rel x y := ∀ s v s', x.run s = some (v, s') → Clean s' → Clean s ∧ y = some v
  rel_pure := by
    intro α a s v s' h hclean
    cases h
    exact ⟨hclean, rfl⟩
  rel_bind := by
    intro α β x y f g hx hf s v s' h hclean
    obtain ⟨a, t, hxa, hfa⟩ := run_bind_eq_some.1 h
    obtain ⟨ht, hg⟩ := hf a t v s' hfa hclean
    obtain ⟨hs, hy⟩ := hx s a t hxa ht
    refine ⟨hs, ?_⟩
    rw [hy]
    exact hg
  rel_throw := by
    intro α s v s' h
    cases h

end MonadRelation
end GenMC
