import Mathlib.Data.List.Forall2
import Mathlib.Data.List.Nodup

/-!
# Searching an enumeration

`searchAll` goes over a list and calls a predicate on its members until one satisfies it.  The
predicate may read and change a state.  A search whose predicate is itself a search goes over one
long list (`searchAll_flatMap`), and `tuples` is what a nest of searches goes over.

A predicate that keeps a record of its calls tells what a search has done (`enumerates_searchAll`).
-/

set_option autoImplicit false

namespace GenMC
namespace Enumeration

variable {α β γ σ τ : Type*}

/-- Calls a predicate until it is satisfied. -/
def searchAll (prop : β → σ → Bool × σ) : List β → σ → Bool × σ
  | [], s => (false, s)
  | x :: xs, s =>
    let r := prop x s
    if r.1 then r else searchAll prop xs r.2

/-- One member of each list, in all possible ways. -/
def tuples : List (List α) → List (List α)
  | [] => [[]]
  | xs :: xss => xs.flatMap fun x => (tuples xss).map (x :: ·)

/-- A predicate that keeps a record of its calls. -/
def record (p : β → Bool) (x : β) (log : List β) : Bool × List β := (p x, log ++ [x])

/-- What an exhaustive search without repetitions returns, and the record of its calls. -/
structure Enumerates (valid : β → Prop) (p : β → Bool) (r : Bool × List β) : Prop where
  calls : ∀ x ∈ r.2, valid x
  once : r.2.Nodup
  found : r.1 = true ↔ ∃ x, valid x ∧ p x = true
  all : r.1 = false → ∀ x, valid x → x ∈ r.2

/-! ## Nested searches -/

variable {prop : β → σ → Bool × σ}

theorem searchAll_append (l l' : List β) (s : σ) :
    searchAll prop (l ++ l') s =
      if (searchAll prop l s).1 then searchAll prop l s
      else searchAll prop l' (searchAll prop l s).2 := by
  induction l generalizing s with
  | nil => rfl
  | cons x l ih =>
    rw [List.cons_append, searchAll, searchAll]
    cases hx : (prop x s).1 with
    | true => simp [hx]
    | false => simpa [hx] using ih (prop x s).2

/-- `s'` is the state after a search of `l` in which the predicate works on a part of the state.
If the search does not succeed, the state satisfies what it did before. -/
structure Outcome (prop : γ → σ → Bool × σ) (view : τ → σ) (inv fin : τ → Prop) (l : List γ) (s : τ)
    (r : Bool × τ) : Prop where
  found : r.1 = (searchAll prop l (view s)).1
  view : view r.2 = (searchAll prop l (view s)).2
  inv : r.1 = false → inv r.2
  fin : r.1 = true → fin r.2

/-- What the predicate does not work on may change before and after a search. -/
theorem Outcome.frame {prop : γ → σ → Bool × σ} {view : τ → σ} {inv fin inv' fin' : τ → Prop}
    {l : List γ} {s s' : τ} {r r' : Bool × τ} (h : Outcome prop view inv fin l s r)
    (hs : view s' = view s) (hr : r'.1 = r.1) (hview : view r'.2 = view r.2)
    (hinv : r.1 = false → inv r.2 → inv' r'.2) (hfin : r.1 = true → fin r.2 → fin' r'.2) :
    Outcome prop view inv' fin' l s' r' := by
  refine ⟨?_, ?_, fun h' => ?_, fun h' => ?_⟩
  · rw [hr, hs]
    exact h.found
  · rw [hview, hs]
    exact h.view
  · rw [hr] at h'
    exact hinv h' (h.inv h')
  · rw [hr] at h'
    exact hfin h' (h.fin h')

theorem Outcome.append {prop : γ → σ → Bool × σ} {view : τ → σ} {inv fin : τ → Prop}
    {l l' : List γ} {s : τ} {r r' : Bool × τ} (h : Outcome prop view inv fin l s r)
    (hr : r.1 = false) (h' : Outcome prop view inv fin l' r.2 r') :
    Outcome prop view inv fin (l ++ l') s r' := by
  have hfound : (searchAll prop l (view s)).1 = false := h.found.symm.trans hr
  refine ⟨?_, ?_, h'.inv, h'.fin⟩
  · rw [searchAll_append, hfound, ← h.view]
    exact h'.found
  · rw [searchAll_append, hfound, ← h.view]
    exact h'.view

theorem Outcome.append_of_found {prop : γ → σ → Bool × σ} {view : τ → σ} {inv fin : τ → Prop}
    {l : List γ} {s : τ} {r : Bool × τ} (h : Outcome prop view inv fin l s r) (hr : r.1 = true)
    (l' : List γ) : Outcome prop view inv fin (l ++ l') s r := by
  have hfound : (searchAll prop l (view s)).1 = true := h.found.symm.trans hr
  refine ⟨?_, ?_, h.inv, h.fin⟩
  · rw [searchAll_append, hfound, if_pos rfl]
    exact h.found
  · rw [searchAll_append, hfound, if_pos rfl]
    exact h.view

/-- **A search of searches** is a search of one list. -/
theorem searchAll_flatMap {f : β → τ → Bool × τ} {prop : γ → σ → Bool × σ} {view : τ → σ}
    {inv fin : τ → Prop} {l : β → List γ}
    (hf : ∀ x s, inv s → Outcome prop view inv fin (l x) s (f x s)) (xs : List β) {s : τ}
    (hs : inv s) : Outcome prop view inv fin (xs.flatMap l) s (searchAll f xs s) := by
  induction xs generalizing s with
  | nil => exact ⟨rfl, rfl, fun _ => hs, fun h => absurd h Bool.false_ne_true⟩
  | cons x xs ih =>
    rw [List.flatMap_cons, searchAll]
    have hx := hf x s hs
    cases hfound : (f x s).1 with
    | true =>
      simp only [if_true]
      exact hx.append_of_found hfound _
    | false =>
      simp only [Bool.false_eq_true, if_false]
      exact hx.append hfound (ih (hx.inv hfound))

/-! ## The record of a search -/

theorem searchAll_record (p : β → Bool) (l log : List β) :
    (searchAll (record p) l log).1 = l.any p ∧
      ∃ called, called <+: l ∧ (searchAll (record p) l log).2 = log ++ called ∧
        ((searchAll (record p) l log).1 = false → called = l) := by
  induction l generalizing log with
  | nil => exact ⟨rfl, [], List.nil_prefix, (List.append_nil log).symm, fun _ => rfl⟩
  | cons x l ih =>
    rw [searchAll, List.any_cons]
    cases hx : p x with
    | true =>
      simp only [record, hx, if_true, Bool.true_or, true_and]
      exact ⟨[x], ⟨l, rfl⟩, rfl, fun h => absurd h.symm Bool.false_ne_true⟩
    | false =>
      simp only [record, hx, Bool.false_eq_true, if_false, Bool.false_or]
      obtain ⟨hany, called, hpre, hlog, hall⟩ := ih (log ++ [x])
      refine ⟨hany, x :: called, List.cons_prefix_cons.2 ⟨rfl, hpre⟩, ?_, fun h => ?_⟩
      · rw [← List.append_cons] at hlog
        exact hlog
      · rw [hall h]

/-- **A search of a list without repetitions** enumerates its members. -/
theorem enumerates_searchAll {valid : β → Prop} {l : List β} (hl : l.Nodup)
    (hvalid : ∀ x, x ∈ l ↔ valid x) (p : β → Bool) :
    Enumerates valid p (searchAll (record p) l []) := by
  obtain ⟨hany, called, hpre, hlog, hall⟩ := searchAll_record p l []
  rw [List.nil_append] at hlog
  refine ⟨fun x hx => ?_, ?_, ?_, fun hfound x hx => ?_⟩
  · rw [hlog] at hx
    exact (hvalid x).1 (hpre.subset hx)
  · rw [hlog]
    exact hl.sublist hpre.sublist
  · rw [hany, List.any_eq_true]
    exact exists_congr fun x => and_congr_left fun _ => hvalid x
  · rw [hlog, hall hfound]
    exact (hvalid x).2 hx

/-! ## Tuples -/

theorem mem_tuples {xss : List (List α)} {t : List α} :
    t ∈ tuples xss ↔ List.Forall₂ (fun x xs => x ∈ xs) t xss := by
  induction xss generalizing t with
  | nil =>
    rw [tuples, List.mem_singleton, List.forall₂_nil_right_iff]
  | cons xs xss ih =>
    simp only [tuples, List.mem_flatMap, List.mem_map, ih, List.forall₂_cons_right_iff]
    refine ⟨?_, ?_⟩
    · rintro ⟨x, hx, t', ht', rfl⟩
      exact ⟨x, t', hx, ht', rfl⟩
    · rintro ⟨x, t', hx, ht', rfl⟩
      exact ⟨x, hx, t', ht', rfl⟩

theorem nodup_tuples {xss : List (List α)} (h : ∀ xs ∈ xss, xs.Nodup) : (tuples xss).Nodup := by
  induction xss with
  | nil => exact List.nodup_singleton _
  | cons xs xss ih =>
    obtain ⟨hxs, hxss⟩ := List.forall_mem_cons.1 h
    refine List.nodup_flatMap.2 ⟨fun x _ => ?_, ?_⟩
    · exact (ih hxss).map fun _ _ h => (List.cons.inj h).2
    · refine hxs.imp fun {x y} hxy => ?_
      rintro t hx hy
      obtain ⟨_, -, rfl⟩ := List.mem_map.1 hx
      obtain ⟨_, -, h⟩ := List.mem_map.1 hy
      exact hxy (List.cons.inj h).1.symm

end Enumeration
end GenMC
