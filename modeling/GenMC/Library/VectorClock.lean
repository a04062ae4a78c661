import Mathlib.Data.Nat.Notation
import Mathlib.Logic.Relation

/-!
# Vector clocks

The events of a process have indices, and a clock has a number for each process: it knows the events
of the process up to this number.  An event gets its clock from the events that it directly depends
on: it knows them, what they know, and the events of its own process up to itself.

* `Exact` says that a clock knows what an event depends on, and nothing else.
* **`Joins.exact`**: a clock that is made in this way from exact clocks is exact.
* `reflTransGen_iff_of_closed`: what an event depends on stays the same as long as the dependencies
  within its past do.

Events with index zero are known to all clocks, so nothing is said about them.
-/

set_option autoImplicit false

namespace GenMC
namespace VectorClock

open Relation

variable {α ι : Type*} {proc : α → ι} {idx : α → ℕ} {clock : α → ι → ℕ} {c : ι → ℕ}
  {r r' : α → α → Prop} {p : α → Prop} {b x : α}

/-- A clock knows an event. -/
def Knows (proc : α → ι) (idx : α → ℕ) (c : ι → ℕ) (x : α) : Prop := idx x ≤ c (proc x)

/-- An event of the same process that is not later. -/
def UpTo (proc : α → ι) (idx : α → ℕ) (x a : α) : Prop := proc x = proc a ∧ idx x ≤ idx a

/-- A clock is made from the clocks of the events that an event depends on. -/
def Joins (proc : α → ι) (idx : α → ℕ) (clock : α → ι → ℕ) (r : α → α → Prop) (b : α)
    (c : ι → ℕ) : Prop :=
  ∀ x, 0 < idx x → (Knows proc idx c x ↔ UpTo proc idx x b ∨
    ∃ a, r a b ∧ (Knows proc idx (clock a) x ∨ UpTo proc idx x a))

/-- A clock knows what an event depends on, and nothing else. -/
def Exact (proc : α → ι) (idx : α → ℕ) (r : α → α → Prop) (b : α) (c : ι → ℕ) : Prop :=
  ∀ x, 0 < idx x → (Knows proc idx c x ↔ ReflTransGen r x b)

/-- **A clock that is made from exact clocks is exact.**  An event depends on all earlier ones of
its process. -/
theorem Joins.exact (h : Joins proc idx clock r b c) (hproc : ∀ x, UpTo proc idx x b →
    ReflTransGen r x b) (hpred : ∀ a, r a b → ∀ x, UpTo proc idx x a → ReflTransGen r x a)
    (hexact : ∀ a, r a b → Exact proc idx r a (clock a)) : Exact proc idx r b c := by
  intro x hx
  rw [h x hx]
  refine ⟨?_, fun h => ?_⟩
  · rintro (hup | ⟨a, hab, hknows | hup⟩)
    · exact hproc x hup
    · exact ((hexact a hab x hx).1 hknows).tail hab
    · exact (hpred a hab x hup).tail hab
  · rcases ReflTransGen.cases_tail h with rfl | ⟨a, hxa, hab⟩
    · exact .inl ⟨rfl, Nat.le_refl _⟩
    · exact .inr ⟨a, hab, .inl ((hexact a hab x hx).2 hxa)⟩

/-- What an event depends on stays the same if the dependencies within a set of events do, and this
set has what they depend on. -/
theorem reflTransGen_iff_of_closed (hclosed : ∀ a b, p b → r a b → p a)
    (hiff : ∀ a b, p b → (r' a b ↔ r a b)) (hb : p b) :
    ReflTransGen r' x b ↔ ReflTransGen r x b := by
  refine ⟨fun h => (?_ : ReflTransGen r x b ∧ p x).1, fun h => (?_ : ReflTransGen r' x b ∧ p x).1⟩
  · induction h using ReflTransGen.head_induction_on with
    | refl => exact ⟨.refl, hb⟩
    | head hac _ ih =>
      have hac := (hiff _ _ ih.2).1 hac
      exact ⟨ih.1.head hac, hclosed _ _ ih.2 hac⟩
  · induction h using ReflTransGen.head_induction_on with
    | refl => exact ⟨.refl, hb⟩
    | head hac _ ih => exact ⟨ih.1.head ((hiff _ _ ih.2).2 hac), hclosed _ _ ih.2 hac⟩

end VectorClock
end GenMC
