import Mathlib.Logic.Relation
import Mathlib.Order.Defs.PartialOrder

/-!
# One more edge

What the transitive closure of a relation becomes when one edge is added to the relation: a path
either does without the new edge, or gets to its source before the first use and away from its
target after the last one (`transGen_addEdge_iff`).  A relation stays acyclic if there was no path
from the target of the new edge to its source (`acyclic_addEdge`).

A relation that differs from an acyclic one at some elements only has a cycle only if it has one
through one of these (`acyclic_of_changesAt`).  There is none if whatever leads to the element and
whatever it leads to were connected before (`not_transGen_of_shortcut`).

`NoCycleFrom` says that there is no cycle in what can be reached from an element.

`le_of_transGen` bounds paths by a rank that never decreases along an edge.
-/

set_option autoImplicit false

namespace GenMC

open Relation

variable {α : Type*} {r s : α → α → Prop} {a b x y : α}

/-- No element is above itself. -/
def Acyclic (r : α → α → Prop) : Prop := ∀ x, ¬ TransGen r x x

/-- The relation with one more edge. -/
def AddEdge (r : α → α → Prop) (a b : α) (x y : α) : Prop := r x y ∨ (x = a ∧ y = b)

theorem reflTransGen_addEdge (h : ReflTransGen r x y) : ReflTransGen (AddEdge r a b) x y :=
  ReflTransGen.mono (fun _ _ => Or.inl) x y h

/-- A path through the new edge. -/
theorem transGen_addEdge (hx : ReflTransGen r x a) (hy : ReflTransGen r b y) :
    TransGen (AddEdge r a b) x y :=
  TransGen.trans_right (reflTransGen_addEdge hx)
    (TransGen.head' (Or.inr ⟨rfl, rfl⟩) (reflTransGen_addEdge hy))

/-- **Paths of a relation with one more edge.** -/
theorem transGen_addEdge_iff :
    TransGen (AddEdge r a b) x y ↔
      TransGen r x y ∨ (ReflTransGen r x a ∧ ReflTransGen r b y) := by
  refine ⟨fun h => ?_, ?_⟩
  · induction h with
    | single h =>
      rcases h with h | ⟨rfl, rfl⟩
      · exact .inl (.single h)
      · exact .inr ⟨.refl, .refl⟩
    | tail _ h ih =>
      rcases h with h | ⟨rfl, rfl⟩
      · rcases ih with ih | ⟨h1, h2⟩
        · exact .inl (ih.tail h)
        · exact .inr ⟨h1, h2.tail h⟩
      · -- the last edge is the new one
        rcases ih with ih | ⟨h1, -⟩
        · exact .inr ⟨ih.to_reflTransGen, .refl⟩
        · exact .inr ⟨h1, .refl⟩
  · rintro (h | ⟨h1, h2⟩)
    · exact TransGen.mono (fun _ _ => Or.inl) x y h
    · exact transGen_addEdge h1 h2

theorem reflTransGen_addEdge_iff :
    ReflTransGen (AddEdge r a b) x y ↔
      ReflTransGen r x y ∨ (ReflTransGen r x a ∧ ReflTransGen r b y) := by
  rw [reflTransGen_iff_eq_or_transGen, transGen_addEdge_iff, ← or_assoc,
    ← reflTransGen_iff_eq_or_transGen]

theorem acyclic_addEdge (h : Acyclic r) (hab : ¬ ReflTransGen r b a) : Acyclic (AddEdge r a b) := by
  intro x hx
  rcases transGen_addEdge_iff.1 hx with hx | ⟨h1, h2⟩
  · exact h x hx
  · exact hab (h2.trans h1)

/-- A relation is acyclic if every edge goes up. -/
theorem acyclic_of_lt {α : Type*} [Preorder α] {r : α → α → Prop} (h : ∀ a b, r a b → a < b) :
    Acyclic r := by
  intro x hx
  have hlt : ∀ {y}, TransGen r x y → x < y := fun {y} hy => by
    induction hy with
    | single hy => exact h _ _ hy
    | tail _ hyz ih => exact lt_trans ih (h _ _ hyz)
  exact lt_irrefl x (hlt hx)

theorem Acyclic.mono (h : Acyclic s) (hrs : ∀ x y, r x y → s x y) : Acyclic r :=
  fun x hx => h x (TransGen.mono hrs x x hx)

/-- Changing a relation at some elements makes no cycles that avoid all of them. -/
theorem acyclic_of_changesAt (hr : Acyclic r) {p : α → Prop}
    (hrest : ∀ a b, s a b → ¬ p a → ¬ p b → TransGen r a b) (hp : ∀ x, p x → ¬ TransGen s x x) :
    Acyclic s := by
  intro y hy
  have hne : ¬ p y := fun h => hp y h hy
  have hpath : ∀ z, TransGen s y z →
      (¬ p z ∧ TransGen r y z) ∨ ∃ x, p x ∧ TransGen s y x ∧ ReflTransGen s x z := by
    intro z hyz
    induction hyz with
    | @single z h =>
      by_cases hz : p z
      · exact .inr ⟨z, hz, .single h, .refl⟩
      · exact .inl ⟨hz, hrest y z h hne hz⟩
    | @tail z z' hyz h ih =>
      rcases ih with ⟨hz, ih⟩ | ⟨x, hx, h1, h2⟩
      · by_cases hz' : p z'
        · exact .inr ⟨z', hz', hyz.tail h, .refl⟩
        · exact .inl ⟨hz', ih.trans (hrest z z' h hz hz')⟩
      · exact .inr ⟨x, hx, h1, h2.tail h⟩
  rcases hpath y hy with ⟨-, h⟩ | ⟨x, hx, h1, h2⟩
  · exact hr y h
  · exact hp x hx (TransGen.trans_right h2 h1)

/-- There is no cycle through an element if everything before it leads to everything after it
without the element. -/
theorem not_transGen_of_shortcut (hr : Acyclic r)
    (hrest : ∀ a b, s a b → a ≠ x → b ≠ x → TransGen r a b) (hloop : ¬ s x x)
    (hshort : ∀ a b, s a x → s x b → a ≠ x → b ≠ x → TransGen r a b) : ¬ TransGen s x x := by
  intro hx
  obtain ⟨b, hxb, hbx⟩ := TransGen.head'_iff.1 hx
  have hb : b ≠ x := by
    rintro rfl
    exact hloop hxb
  -- up to the first return to `x`
  have hpath : ∀ z, ReflTransGen s b z →
      (z ≠ x ∧ ReflTransGen r b z) ∨ ∃ a, a ≠ x ∧ ReflTransGen r b a ∧ s a x := by
    intro z hbz
    induction hbz with
    | refl => exact .inl ⟨hb, .refl⟩
    | @tail z z' _ h ih =>
      rcases ih with ⟨hz, ih⟩ | h'
      · by_cases hz' : z' = x
        · subst hz'
          exact .inr ⟨z, hz, ih, h⟩
        · exact .inl ⟨hz', ih.trans (hrest z z' h hz hz').to_reflTransGen⟩
      · exact .inr h'
  rcases hpath x hbx with ⟨h, -⟩ | ⟨a, ha, hba, hax⟩
  · exact h rfl
  · exact hr a (TransGen.trans_left (hshort a b hax hxb ha hb) hba)

/-- Elements from which nothing leads on are on no cycle. -/
theorem acyclic_of_sinks (hr : Acyclic r) {p : α → Prop} (hsink : ∀ a b, s a b → ¬ p a)
    (hrest : ∀ a b, s a b → ¬ p b → TransGen r a b) : Acyclic s := by
  refine acyclic_of_changesAt hr (fun a b hab _ hb => hrest a b hab hb) fun x hx hcycle => ?_
  obtain ⟨y, hxy, -⟩ := TransGen.head'_iff.1 hcycle
  exact hsink x y hxy hx

/-- No cycle can be reached from an element. -/
def NoCycleFrom (r : α → α → Prop) (x : α) : Prop := ∀ y, ReflTransGen r x y → ¬ TransGen r y y

/-- No cycle can be reached from an element if none can be reached from its successors. -/
theorem noCycleFrom_of_succ (h : ∀ y, r x y → NoCycleFrom r y) : NoCycleFrom r x := by
  intro y hxy hy
  rcases ReflTransGen.cases_head hxy with rfl | ⟨z, hxz, hzy⟩
  · obtain ⟨z, hxz, hzx⟩ := TransGen.head'_iff.1 hy
    exact h z hxz x hzx hy
  · exact h z hxz y hzy hy

theorem le_of_transGen {β : Type*} [Preorder β] (f : α → β) (h : ∀ x y, r x y → f x ≤ f y)
    (hxy : TransGen r x y) : f x ≤ f y := by
  induction hxy with
  | single hxy => exact h _ _ hxy
  | tail _ hyz ih => exact le_trans ih (h _ _ hyz)

end GenMC
