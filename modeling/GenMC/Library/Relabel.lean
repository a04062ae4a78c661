import Mathlib.Data.Fin.Tuple.Sort
import Mathlib.Data.Prod.Lex
import Mathlib.Logic.Equiv.Fintype
import Mathlib.Logic.Relation
import Mathlib.Tactic

/-!
# Renaming along an acyclic relation

Objects `0, …, n-1` are split into classes, and a relation inside the classes says which objects
should get the smaller name.  If the relation has no cycles, then the objects of each class can be
renamed among themselves so that names increase along the relation (`exists_perm_of_acyclic`).

The renaming lists the objects twice, once by class and name and once by class and rank, and sends
the `k`-th object of one list to the `k`-th of the other.  Both lists go through the classes in
the same order, so that the two objects are in one class.
-/

set_option autoImplicit false

namespace Relabel

open Relation

/-- A finite relation without cycles has a rank. -/
theorem exists_rank_of_acyclic {α : Type*} [Finite α] (r : α → α → Prop)
    (h : ∀ a, ¬ TransGen r a a) : ∃ rank : α → ℕ, ∀ a b, r a b → rank a < rank b := by
  classical
  have := Fintype.ofFinite α
  refine ⟨fun a => (Finset.univ.filter fun s => TransGen r s a).card, fun a b hab => ?_⟩
  refine Finset.card_lt_card (Finset.ssubset_iff_of_subset ?_ |>.2 ⟨a, ?_, ?_⟩)
  · intro s hs
    simp only [Finset.mem_filter, Finset.mem_univ, true_and] at hs ⊢
    exact hs.tail hab
  · simpa using TransGen.single hab
  · simpa using h a

/-- A rank that tells all objects apart. -/
theorem exists_injective_rank {n : ℕ} (r : Fin n → Fin n → Prop) (h : ∀ a, ¬ TransGen r a a) :
    ∃ rank : Fin n → ℕ, Function.Injective rank ∧ ∀ a b, r a b → rank a < rank b := by
  obtain ⟨rank, hrank⟩ := exists_rank_of_acyclic r h
  refine ⟨fun a => rank a * n + a, fun a b hab => ?_, fun a b hab => ?_⟩
  · have hmod := congrArg (· % n) hab
    simp only [Nat.mul_add_mod, Nat.mul_comm _ n, Nat.mod_eq_of_lt a.isLt,
      Nat.mod_eq_of_lt b.isLt] at hmod
    exact Fin.ext hmod
  · have hlt := hrank a b hab
    calc rank a * n + a < rank a * n + n := Nat.add_lt_add_left a.isLt _
      _ = (rank a + 1) * n := by ring
      _ ≤ rank b * n := Nat.mul_le_mul_right n hlt
      _ ≤ rank b * n + b := Nat.le_add_right _ _

/-- **Classes can be renamed along an acyclic relation.** -/
theorem exists_perm_of_acyclic {n : ℕ} (c : Fin n → ℕ) (r : Fin n → Fin n → Prop)
    (hc : ∀ a b, r a b → c a = c b) (h : ∀ a, ¬ TransGen r a a) :
    ∃ σ : Equiv.Perm (Fin n), (∀ t, c (σ t) = c t) ∧ ∀ a b, r a b → σ a < σ b := by
  obtain ⟨rank, hinj, hrank⟩ := exists_injective_rank r h
  set byName : Fin n → ℕ ×ₗ ℕ := fun t => toLex (c t, t) with hname
  set byRank : Fin n → ℕ ×ₗ ℕ := fun t => toLex (c t, rank t) with hrk
  -- both listings go through the classes in the same order
  have hclass : ∀ (f : Fin n → ℕ), Monotone
      (c ∘ Tuple.sort (fun t => (toLex (c t, f t) : ℕ ×ₗ ℕ))) := by
    intro f i j hij
    have := Tuple.monotone_sort (fun t => (toLex (c t, f t) : ℕ ×ₗ ℕ)) hij
    simp only [Function.comp_apply, Prod.Lex.toLex_le_toLex] at this ⊢
    rcases this with h' | ⟨h', -⟩
    · exact h'.le
    · exact h'.le
  have heq : c ∘ Tuple.sort byName = c ∘ Tuple.sort byRank :=
    Tuple.unique_monotone (hclass fun t => t) (hclass rank)
  refine ⟨(Tuple.sort byRank).symm.trans (Tuple.sort byName), fun t => ?_, fun a b hab => ?_⟩
  · have := congrFun heq ((Tuple.sort byRank).symm t)
    simpa using this
  · have hca := hc a b hab
    set k := (Tuple.sort byRank).symm a with hk
    set l := (Tuple.sort byRank).symm b with hl
    have ha : Tuple.sort byRank k = a := by simp [hk]
    have hb : Tuple.sort byRank l = b := by simp [hl]
    have hkl : k < l := by
      by_contra hge
      have hle : byRank (Tuple.sort byRank l) ≤ byRank (Tuple.sort byRank k) :=
        Tuple.monotone_sort byRank (not_lt.1 hge)
      rw [ha, hb, hrk, Prod.Lex.toLex_le_toLex] at hle
      have := hrank a b hab
      simp only at hle
      omega
    have hcl : c (Tuple.sort byName k) = c (Tuple.sort byName l) := by
      have h1 := congrFun heq k
      have h2 := congrFun heq l
      simp only [Function.comp_apply, ha, hb] at h1 h2
      rw [h1, h2, hca]
    have hle : byName (Tuple.sort byName k) ≤ byName (Tuple.sort byName l) :=
      Tuple.monotone_sort byName hkl.le
    have hle' := (Prod.Lex.toLex_le_toLex.1 hle).resolve_left (by simpa using hcl.ge)
    exact lt_of_le_of_ne hle'.2 fun heq' => hkl.ne ((Tuple.sort byName).injective heq')

end Relabel
