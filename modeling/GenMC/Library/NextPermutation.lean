import GenMC.Library.DoWhile
import Mathlib.Data.List.Perm.Basic
import Mathlib.Data.List.TakeWhile
import Mathlib.Order.Lattice

/-!
# The next permutation

`nextPermutation` is `std::next_permutation`: the next list in lexicographic order with the same
elements, or the first one if there is no next.  It works from the back.  As long as what comes
after an element can be permuted, the element stays; after that it is exchanged with the next larger
one of those that follow it, which are put in order.

Started at an ascending list, it goes once through all permutations and is back at that list in the
end (`nextPermutation_cycles`).  The permutations with one first element come in a block; the blocks
follow each other as the first elements do (`exists_visits_heads`).
-/

set_option autoImplicit false

namespace GenMC

open DoWhile

variable {α : Type*} [LinearOrder α]

/-- `std::next_permutation`, and whether there was one. -/
def nextPermutation : List α → List α × Bool
  | [] => ([], false)
  | a :: l =>
    match nextPermutation l with
    | (l', true) => (a :: l', true)
    | (l', false) =>
      -- `l` descends, and `l'` is `l` put in order
      match l'.dropWhile (· ≤ a) with
      | [] => (l' ++ [a], false)
      | b :: larger => (b :: (l'.takeWhile (· ≤ a) ++ a :: larger), true)

theorem nextPermutation_cons_of_true {l l' : List α} (h : nextPermutation l = (l', true)) (a : α) :
    nextPermutation (a :: l) = (a :: l', true) := by
  rw [nextPermutation, h]

/-- The last permutation with a first element that is not the last one. -/
theorem nextPermutation_cons_split {l smaller larger : List α} {a b : α}
    (h : nextPermutation l = (smaller ++ b :: larger, false)) (hle : ∀ x ∈ smaller, x ≤ a)
    (hlt : a < b) :
    nextPermutation (a :: l) = (b :: (smaller ++ a :: larger), true) := by
  have hb : ¬ b ≤ a := not_le_of_gt hlt
  have hdrop : (smaller ++ b :: larger).dropWhile (· ≤ a) = b :: larger := by
    rw [List.dropWhile_append_of_pos (by simpa using hle), List.dropWhile_cons_of_neg (by simpa)]
  have htake : (smaller ++ b :: larger).takeWhile (· ≤ a) = smaller := by
    rw [List.takeWhile_append_of_pos (by simpa using hle), List.takeWhile_cons_of_neg (by simpa),
      List.append_nil]
  rw [nextPermutation, h]
  simp only [hdrop, htake]

/-- The last permutation. -/
theorem nextPermutation_cons_last {l l' : List α} {a : α} (h : nextPermutation l = (l', false))
    (hle : ∀ x ∈ l', x ≤ a) : nextPermutation (a :: l) = (l' ++ [a], false) := by
  have hdrop : l'.dropWhile (· ≤ a) = [] :=
    List.dropWhile_eq_nil_iff.2 (by simpa using hle)
  rw [nextPermutation, h]
  simp only [hdrop]

/-- The permutations with `b` in front. -/
theorem mem_block {l : List α} {block : List (List α)}
    (h : Cycles nextPermutation l (·.Perm l) block) (b : α) (p : List α) :
    p ∈ block.map (b :: ·) ↔ p.Perm (b :: l) ∧ p.head? = some b := by
  rw [List.mem_map]
  refine ⟨?_, ?_⟩
  · rintro ⟨q, hq, rfl⟩
    exact ⟨((h.mem_iff q).1 hq).cons b, rfl⟩
  · rintro ⟨hp, hhead⟩
    obtain ⟨q, rfl⟩ := List.head?_eq_some_iff.1 hhead
    exact ⟨q, (h.mem_iff q).2 hp.cons_inv, rfl⟩

/-- The permutations of `smaller ++ b :: larger` with `b` or a larger element in front. -/
theorem exists_visits_heads {n : ℕ}
    (ih : ∀ l : List α, l.length = n → l.Pairwise (· < ·) →
      ∃ m, Cycles nextPermutation l (·.Perm l) m)
    {smaller larger : List α} {b : α} (hlen : (smaller ++ larger).length = n)
    (hsorted : (smaller ++ b :: larger).Pairwise (· < ·)) :
    ∃ m, Visits nextPermutation (b :: (smaller ++ larger)) m (smaller ++ b :: larger) ∧ m.Nodup ∧
      ∀ p, p ∈ m ↔ p.Perm (smaller ++ b :: larger) ∧ ∃ a ∈ b :: larger, p.head? = some a := by
  induction larger generalizing smaller b with
  | nil =>
    obtain ⟨hsmaller, -, hlt⟩ := List.pairwise_append.1 hsorted
    rw [List.append_nil] at hlen ⊢
    obtain ⟨block, hblock⟩ := ih smaller hlen hsmaller
    refine ⟨block.map (b :: ·), ?_, hblock.nodup.map List.cons_injective, fun p => ?_⟩
    · refine hblock.visits.map (c := (b :: ·)) (fun x x' h => nextPermutation_cons_of_true h b) ?_
      exact fun x hx => nextPermutation_cons_last hx fun y hy => (hlt y hy b (by simp)).le
    · rw [mem_block hblock, (List.perm_append_singleton b smaller).congr_right p]
      simp
  | cons c larger ih' =>
    have hsub : (smaller ++ c :: larger).Pairwise (· < ·) :=
      hsorted.sublist ((List.sublist_cons_self b _).append_left smaller)
    obtain ⟨-, hlarger, hlt⟩ := List.pairwise_append.1 hsorted
    have hbc : b < c := List.rel_of_pairwise_cons hlarger List.mem_cons_self
    obtain ⟨block, hblock⟩ := ih _ hlen hsub
    -- the next blocks, where `b` is among the smaller elements
    have happend : (smaller ++ [b]) ++ c :: larger = smaller ++ b :: c :: larger := by simp
    have happend' : (smaller ++ [b]) ++ larger = smaller ++ b :: larger := by simp
    have hlen' : ((smaller ++ [b]) ++ larger).length = n := by simpa using hlen
    obtain ⟨m, hvisits, hnodup, hmem⟩ := ih' hlen' (happend ▸ hsorted)
    rw [happend, happend'] at hvisits
    refine ⟨block.map (b :: ·) ++ m, ?_, ?_, fun p => ?_⟩
    · refine hblock.visits.map_append (c := (b :: ·))
        (fun x x' h => nextPermutation_cons_of_true h b) (fun x hx => ?_) hvisits
      exact nextPermutation_cons_split hx (fun y hy => (hlt y hy b List.mem_cons_self).le) hbc
    · refine List.nodup_append.2 ⟨hblock.nodup.map List.cons_injective, hnodup, ?_⟩
      rintro p hp q hq rfl
      obtain ⟨-, a, ha, hhead⟩ := (hmem p).1 hq
      rw [((mem_block hblock b p).1 hp).2] at hhead
      rw [← Option.some.inj hhead] at ha
      rcases List.mem_cons.1 ha with rfl | ha
      · exact lt_irrefl b hbc
      · exact lt_irrefl b (List.rel_of_pairwise_cons hlarger (List.mem_cons_of_mem c ha))
    · rw [List.mem_append, mem_block hblock, hmem, happend, List.perm_middle.congr_right p]
      refine ⟨?_, ?_⟩
      · rintro (⟨hp, hhead⟩ | ⟨hp, a, ha, hhead⟩)
        · exact ⟨hp, b, List.mem_cons_self, hhead⟩
        · exact ⟨hp, a, List.mem_cons_of_mem b ha, hhead⟩
      · rintro ⟨hp, a, ha, hhead⟩
        rcases List.mem_cons.1 ha with rfl | ha
        · exact .inl ⟨hp, hhead⟩
        · exact .inr ⟨hp, a, ha, hhead⟩

/-- **Every permutation comes once**, and the ascending one again in the end. -/
theorem nextPermutation_cycles {l : List α} (h : l.Pairwise (· < ·)) :
    ∃ m, Cycles nextPermutation l (·.Perm l) m := by
  induction hn : l.length generalizing l with
  | zero =>
    rw [List.length_eq_zero_iff] at hn
    subst hn
    exact ⟨[[]], .stop rfl, List.nodup_singleton _, fun p => by simp⟩
  | succ n ih =>
    obtain ⟨b, l, rfl⟩ := List.exists_cons_of_length_eq_add_one hn
    have hlen : ([] ++ l).length = n := Nat.succ.inj hn
    obtain ⟨m, hvisits, hnodup, hmem⟩ := exists_visits_heads (fun t ht hs => ih hs ht) hlen h
    refine ⟨m, hvisits, hnodup, fun p => ?_⟩
    rw [hmem, List.nil_append]
    refine and_iff_left_of_imp fun hp => ?_
    cases p with
    | nil => exact absurd hp.nil_eq (List.cons_ne_nil b l).symm
    | cons a q => exact ⟨a, hp.subset List.mem_cons_self, rfl⟩

example : nextPermutation [1, 3, 2] = ([2, 1, 3], true) := by decide

end GenMC
