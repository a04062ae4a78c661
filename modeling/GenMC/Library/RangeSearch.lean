import Mathlib.Order.Defs.LinearOrder
import Mathlib.Tactic

/-!
# Looking for a range by halving

`lowerBound xs p` halves a vector until a single place is left, at which a test stops to hold.  That
is the first place where the test fails, if it never holds again after it failed
(`getElem?_lowerBound`).

Ranges that follow each other are partitioned by whether they end before a key, so that a key is in
one of them if and only if it is in the range that is found (`Separated.mem_lowerBound_iff`).
-/

set_option autoImplicit false

namespace RangeSearch

section
variable {α : Type*} {xs : List α} {p : α → Bool}

/-- Halves the `len` places from `first` on. -/
def lowerBoundFrom (xs : List α) (p : α → Bool) (first len : ℕ) : ℕ :=
  if len = 0 then first
  else
    let half := len / 2
    if xs[first + half]?.any p then lowerBoundFrom xs p (first + half + 1) (len - half - 1)
    else lowerBoundFrom xs p first half
termination_by len

def lowerBound (xs : List α) (p : α → Bool) : ℕ := lowerBoundFrom xs p 0 xs.length

/-- If the test holds below `n` only, then `n` is found. -/
theorem lowerBoundFrom_eq {n : ℕ} (hp : ∀ i x, xs[i]? = some x → (p x = true ↔ i < n))
    (first len : ℕ) (hfirst : first ≤ n) (hn : n ≤ first + len) (hlen : first + len ≤ xs.length) :
    lowerBoundFrom xs p first len = n := by
  induction first, len using lowerBoundFrom.induct xs p with
  | case1 first =>
    rw [lowerBoundFrom, if_pos rfl]
    omega
  | case2 first len hne half hany ih =>
    rw [Option.any_eq_true] at hany
    obtain ⟨x, hx, hpx⟩ := hany
    have hlt := (hp _ x hx).1 hpx
    rw [lowerBoundFrom, if_neg hne]
    dsimp only
    rw [if_pos (Option.any_eq_true _ _ |>.2 ⟨x, hx, hpx⟩)]
    exact ih (by omega) (by omega) (by omega)
  | case3 first len hne half hany ih =>
    rw [lowerBoundFrom, if_neg hne]
    dsimp only
    rw [if_neg hany]
    have hlt : first + len / 2 < xs.length := by omega
    have hge : ¬ first + len / 2 < n := by
      intro hmid
      refine hany (Option.any_eq_true _ _ |>.2 ⟨_, List.getElem?_eq_getElem hlt, ?_⟩)
      exact (hp _ _ (List.getElem?_eq_getElem hlt)).2 hmid
    exact ih hfirst (by omega) (by omega)

/-- **What is found** is the first place where the test fails. -/
theorem getElem?_lowerBound (h : xs.Pairwise fun x y => p y = true → p x = true) :
    xs[lowerBound xs p]? = xs.find? (!p ·) := by
  have hp : ∀ i x, xs[i]? = some x → (p x = true ↔ i < xs.findIdx (!p ·)) := by
    intro i x hx
    obtain ⟨hi, rfl⟩ := List.getElem?_eq_some_iff.1 hx
    refine ⟨fun hpx => ?_, fun hlt => ?_⟩
    · by_contra hge
      have hn : xs.findIdx (!p ·) < xs.length := (not_lt.1 hge).trans_lt hi
      have hfails := List.findIdx_getElem (w := hn)
      rw [Bool.not_eq_true'] at hfails
      rcases (not_lt.1 hge).lt_or_eq with hlt | heq
      · have := List.pairwise_iff_getElem.1 h _ _ hn hi hlt hpx
        rw [hfails] at this
        cases this
      · simp only [← heq, hfails, Bool.false_eq_true] at hpx
    · have := List.not_of_lt_findIdx hlt
      simpa using this
  rw [List.find?_eq_getElem?_findIdx, lowerBound,
    lowerBoundFrom_eq hp 0 xs.length (Nat.zero_le _) ?_ (Nat.zero_add _).le]
  rw [Nat.zero_add]
  exact List.findIdx_le_length

end

variable {K : Type*} [LinearOrder K] {rs : List (K × K)} {r : K × K} {a : K}

/-- Ranges, with both ends, that follow each other. -/
structure Separated (rs : List (K × K)) : Prop where
  le : ∀ r ∈ rs, r.1 ≤ r.2
  apart : rs.Pairwise fun r s => r.2 < s.1

/-- Ranges in lexicographic order follow each other if no two of them overlap. -/
theorem separated_of_lex {rs : List (K ×ₗ K)} (hsorted : rs.Pairwise (· < ·))
    (hle : ∀ r ∈ rs, (ofLex r).1 ≤ (ofLex r).2)
    (hapart : ∀ r ∈ rs, ∀ s ∈ rs, r ≠ s → (ofLex r).2 < (ofLex s).1 ∨ (ofLex s).2 < (ofLex r).1) :
    Separated (rs.map ofLex) where
  le := fun r hr => by
    obtain ⟨s, hs, rfl⟩ := List.mem_map.1 hr
    exact hle s hs
  apart := by
    rw [List.pairwise_map]
    refine hsorted.imp_of_mem fun {r s} hr hs hlt => ?_
    refine (hapart r hr s hs hlt.ne).resolve_right fun hgt => ?_
    have hfirst : (ofLex r).1 ≤ (ofLex s).1 := by
      rcases Prod.Lex.lt_iff.1 hlt with h | h
      · exact h.le
      · exact h.1.le
    exact absurd (hgt.trans_le hfirst) (not_lt.2 (hle s hs))

/-- **A key is in one of the ranges** if and only if it is in the one that is found: the first one
that does not end before it. -/
theorem Separated.mem_lowerBound_iff (h : Separated rs) :
    (∃ r, rs[lowerBound rs (·.2 < a)]? = some r ∧ r.1 ≤ a ∧ a ≤ r.2) ↔
      ∃ r ∈ rs, r.1 ≤ a ∧ a ≤ r.2 := by
  have hpart : rs.Pairwise fun r s => decide (s.2 < a) = true → decide (r.2 < a) = true := by
    refine h.apart.imp_of_mem fun {r s} _ hs hlt hsa => ?_
    exact decide_eq_true (hlt.trans_le ((h.le s hs).trans (of_decide_eq_true hsa).le))
  rw [getElem?_lowerBound hpart]
  refine ⟨?_, ?_⟩
  · rintro ⟨r, hfind, hr⟩
    exact ⟨r, List.mem_of_find?_eq_some hfind, hr⟩
  · rintro ⟨r, hmem, hr, hra⟩
    obtain ⟨before, after, rfl⟩ := List.append_of_mem hmem
    refine ⟨r, List.find?_eq_some_iff_append.2 ⟨?_, before, after, rfl, fun s hs => ?_⟩, hr, hra⟩
    · simpa using hra
    · -- what comes before the range ends before it starts
      have := (List.pairwise_append.1 h.apart).2.2 s hs r List.mem_cons_self
      simpa using this.trans_le hr

end RangeSearch
