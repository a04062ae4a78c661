import Mathlib.Algebra.GroupWithZero.Nat
import Mathlib.Algebra.Order.BigOperators.Group.List
import Mathlib.Algebra.Order.Group.Nat
import Mathlib.Logic.Relation

/-!
# Worklists

A loop that takes elements off a stack until it is empty.  An element that was not taken before is
visited: something is emitted for it, and its successors go onto the stack.

* `mem_of_loop`: the loop emits what is emitted for the elements that can be reached.
* `isSome_loop`: it comes to an end if all of this goes on among finitely many elements.
-/

set_option autoImplicit false

namespace GenMC
namespace Worklist

open Relation

variable {α β : Type*} {next : α → List α} {emit : α → List β} {start : α}
  {work visited : List α} {out : List β}

/-- What holds while elements are taken that can be reached from `start`. -/
structure Inv (next : α → List α) (emit : α → List β) (start : α) (work visited : List α)
    (out : List β) : Prop where
  reach : ∀ a, a ∈ work ∨ a ∈ visited → ReflTransGen (fun a b => b ∈ next a) start a
  start : start ∈ work ∨ start ∈ visited
  closed : ∀ a ∈ visited, ∀ b ∈ next a, b ∈ work ∨ b ∈ visited
  out : ∀ b, b ∈ out ↔ ∃ a ∈ visited, b ∈ emit a

theorem inv_init : Inv next emit start [start] [] [] where
  reach a h := by
    rcases h with h | h
    · rw [List.mem_singleton.1 h]
    · cases h
  start := .inl (List.mem_singleton_self start)
  closed _ h := by cases h
  out b := by simp

theorem Inv.skip {a : α} (h : Inv next emit start (a :: work) visited out) (ha : a ∈ visited) :
    Inv next emit start work visited out where
  reach b hb := h.reach b (hb.imp_left (List.mem_cons_of_mem a))
  start := by
    rcases h.start with hs | hs
    · rcases List.mem_cons.1 hs with rfl | hs
      · exact .inr ha
      · exact .inl hs
    · exact .inr hs
  closed b hb c hc := by
    rcases h.closed b hb c hc with hw | hv
    · rcases List.mem_cons.1 hw with rfl | hw
      · exact .inr ha
      · exact .inl hw
    · exact .inr hv
  out := h.out

theorem Inv.visit {a : α} (h : Inv next emit start (a :: work) visited out) :
    Inv next emit start ((next a).reverse ++ work) (a :: visited) (out ++ emit a) where
  reach b hb := by
    have ha := h.reach a (.inl (List.mem_cons_self ..))
    rcases hb with hb | hb
    · rcases List.mem_append.1 hb with hb | hb
      · exact ha.tail (List.mem_reverse.1 hb)
      · exact h.reach b (.inl (List.mem_cons_of_mem a hb))
    · rcases List.mem_cons.1 hb with rfl | hb
      · exact ha
      · exact h.reach b (.inr hb)
  start := by
    rcases h.start with hs | hs
    · rcases List.mem_cons.1 hs with rfl | hs
      · exact .inr (List.mem_cons_self ..)
      · exact .inl (List.mem_append_right _ hs)
    · exact .inr (List.mem_cons_of_mem a hs)
  closed b hb c hc := by
    rcases List.mem_cons.1 hb with rfl | hb
    · exact .inl (List.mem_append_left _ (List.mem_reverse.2 hc))
    · rcases h.closed b hb c hc with hw | hv
      · rcases List.mem_cons.1 hw with rfl | hw
        · exact .inr (List.mem_cons_self ..)
        · exact .inl (List.mem_append_right _ hw)
      · exact .inr (List.mem_cons_of_mem a hv)
  out b := by
    rw [List.mem_append, h.out]
    simp only [List.mem_cons, exists_eq_or_imp]
    exact or_comm

/-! ## The loop -/

variable [DecidableEq α]

/-- The loop, for a number of rounds.  The stack has its top at the front. -/
def loop (next : α → List α) (emit : α → List β) :
    ℕ → List α → List α → List β → Option (List β)
  | 0, _, _, _ => none
  | _ + 1, [], _, out => some out
  | fuel + 1, a :: work, visited, out =>
    if a ∈ visited then loop next emit fuel work visited out
    else loop next emit fuel ((next a).reverse ++ work) (a :: visited) (out ++ emit a)

theorem mem_of_inv {fuel : ℕ} {res : List β} (h : Inv next emit start work visited out)
    (hloop : loop next emit fuel work visited out = some res) (b : β) :
    b ∈ res ↔ ∃ a, ReflTransGen (fun a b => b ∈ next a) start a ∧ b ∈ emit a := by
  induction fuel generalizing work visited out with
  | zero => cases hloop
  | succ fuel ih =>
    cases work with
    | nil =>
      obtain rfl := Option.some.inj hloop
      have hall : ∀ a, ReflTransGen (fun a b => b ∈ next a) start a → a ∈ visited := by
        intro a ha
        induction ha with
        | refl => exact h.start.resolve_left List.not_mem_nil
        | tail _ hbc ih => exact (h.closed _ ih _ hbc).resolve_left List.not_mem_nil
      rw [h.out]
      exact exists_congr fun a => and_congr_left fun _ => ⟨fun ha => h.reach a (.inr ha), hall a⟩
    | cons a work =>
      rw [loop] at hloop
      split at hloop
      · exact ih (h.skip ‹_›) hloop
      · exact ih h.visit hloop

/-- **What the loop emits.** -/
theorem mem_of_loop {fuel : ℕ} {res : List β}
    (hloop : loop next emit fuel [start] [] [] = some res) (b : β) :
    b ∈ res ↔ ∃ a, ReflTransGen (fun a b => b ∈ next a) start a ∧ b ∈ emit a :=
  mem_of_inv inv_init hloop b

/-! ## Rounds -/

/-- How much there may still be to push: the successors of what was not visited. -/
def unvisited (next : α → List α) (nodes visited : List α) : ℕ :=
  (nodes.map fun a => if a ∈ visited then 0 else (next a).length).sum

theorem unvisited_cons_le (nodes : List α) (a : α) :
    unvisited next nodes (a :: visited) ≤ unvisited next nodes visited := by
  refine List.sum_le_sum fun b _ => ?_
  split
  · exact Nat.zero_le _
  · rename_i hb
    rw [if_neg fun h => hb (List.mem_cons_of_mem a h)]

theorem unvisited_add_le {nodes : List α} {a : α} (ha : a ∈ nodes) (hv : a ∉ visited) :
    (next a).length + unvisited next nodes (a :: visited) ≤ unvisited next nodes visited := by
  induction nodes with
  | nil => cases ha
  | cons b nodes ih =>
    rw [unvisited, unvisited, List.map_cons, List.map_cons, List.sum_cons, List.sum_cons,
      ← unvisited, ← unvisited]
    have hle : unvisited next nodes (a :: visited) ≤ unvisited next nodes visited :=
      unvisited_cons_le nodes a
    by_cases hab : a = b
    · rw [hab, if_pos (List.mem_cons_self ..), if_neg (hab ▸ hv)]
      rw [hab] at hle
      omega
    · have hrest := ih ((List.mem_cons.1 ha).resolve_left hab)
      by_cases hb : b ∈ visited
      · rw [if_pos (List.mem_cons_of_mem a hb), if_pos hb]
        omega
      · rw [if_neg fun h => (List.mem_cons.1 h).elim (fun h => hab h.symm) hb, if_neg hb]
        omega

/-- The loop comes to an end. -/
theorem isSome_loop {nodes : List α} (hnext : ∀ a ∈ nodes, ∀ b ∈ next a, b ∈ nodes) {fuel : ℕ}
    (hwork : ∀ a ∈ work, a ∈ nodes)
    (hfuel : work.length + unvisited next nodes visited < fuel) :
    (loop next emit fuel work visited out).isSome := by
  induction fuel generalizing work visited out with
  | zero => cases hfuel
  | succ fuel ih =>
    cases work with
    | nil => rfl
    | cons a work =>
      have hrest : ∀ b ∈ work, b ∈ nodes := fun b hb => hwork b (List.mem_cons_of_mem a hb)
      have ha := hwork a (List.mem_cons_self ..)
      rw [List.length_cons] at hfuel
      rw [loop]
      split
      · exact ih hrest (by omega)
      · rename_i hv
        have hle : (next a).length + unvisited next nodes (a :: visited) ≤
            unvisited next nodes visited := unvisited_add_le ha hv
        refine ih (fun b hb => ?_) ?_
        · rcases List.mem_append.1 hb with hb | hb
          · exact hnext a ha b (List.mem_reverse.1 hb)
          · exact hrest b hb
        · rw [List.length_append, List.length_reverse]
          omega

end Worklist
end GenMC
