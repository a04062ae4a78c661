import GenMC.ADT.VSetOperations

/-!
# The sets that can be built

A set is built from nothing, from an iterator range, an initializer list, a vector that is copied or
a vector that is moved, and is changed by insertions and erasures.  `VSet.Expr` is the syntax of
these, with the arguments of the bulk operations built in the same way.

All constructors but one put their elements in place one by one.  A vector that is moved is only
sorted, and keeps an element twice that it has twice (`VSet.sorted_ofVector_iff`).  Apart from that,
every set is strictly increasing (`VSet.Expr.eval_sorted`), so that two sets are equal if they
have the same elements, and the size of a set is the number of its elements.
-/

set_option autoImplicit false

namespace GenMC
namespace VSet

variable {α : Type*} [LinearOrder α]

/-- A step of the loop over a range: above the maximum the element is appended. -/
def insertStep (s : VSet α) (x : α) : VSet α :=
  match s.vset.getLast? with
  | some max => if max < x then ⟨s.vset ++ [x]⟩ else s.insert x
  | none => s.insert x

def insertRange (s : VSet α) (v : List α) : VSet α := v.foldl insertStep s

def ofRange (v : List α) : VSet α := insertRange empty v

/-- A vector that is copied. -/
def ofLvalue (v : List α) : VSet α := ofRange v

def ofInitializerList (il : List α) : VSet α := il.foldl insertStep empty

/-- How a set comes about. -/
inductive Expr (α : Type*)
  | empty
  | range (v : List α)
  | initializerList (il : List α)
  | lvalue (v : List α)
  | rvalue (v : List α)
  | insert (e : Expr α) (el : α)
  | insertAll (e s : Expr α)
  | insertRange (e : Expr α) (v : List α)
  | erase (e : Expr α) (el : α)
  | eraseAll (e s : Expr α)
  | intersectWith (e s : Expr α)
  | diff (e s : Expr α)
  | clear (e : Expr α)

namespace Expr

/-- The set that is built; nothing if an access on the way is out of range. -/
def eval : Expr α → Option (VSet α)
  | empty => some VSet.empty
  | range v => some (ofRange v)
  | initializerList il => some (ofInitializerList il)
  | lvalue v => some (ofLvalue v)
  | rvalue v => some (ofVector v)
  | insert e el => do some ((← e.eval).insert el)
  | insertAll e s => do some (← (← e.eval).insertAll (← s.eval)).1
  | insertRange e v => do some ((← e.eval).insertRange v)
  | erase e el => do some ((← e.eval).erase el).1
  | eraseAll e s => do some (← (← e.eval).eraseAll (← s.eval)).1
  | intersectWith e s => do some ((← e.eval).intersectWith (← s.eval))
  | diff e s => do some ((← e.eval).diff (← s.eval))
  | clear e => do
    let _ ← e.eval
    some VSet.empty

/-- The vectors that are moved into a set on the way. -/
def moved : Expr α → List (List α)
  | empty | range _ | initializerList _ | lvalue _ => []
  | rvalue v => [v]
  | insert e _ | insertRange e _ | erase e _ | clear e => e.moved
  | insertAll e s | eraseAll e s | intersectWith e s | diff e s => e.moved ++ s.moved

end Expr

/-! ## The constructors -/

/-- **A vector that is moved gives a sorted set if it has no element twice**, and only then. -/
theorem sorted_ofVector_iff {v : List α} : (ofVector v).Sorted ↔ v.Nodup := by
  have hperm : (ofVector v).vset.Perm v := List.mergeSort_perm _ _
  have hle : (ofVector v).vset.Pairwise (· ≤ ·) :=
    (List.pairwise_mergeSort
      (fun a b c hab hbc => by simpa using (of_decide_eq_true hab).trans (of_decide_eq_true hbc))
      (fun a b => by simpa using le_total a b) v).imp fun h => by simpa using h
  rw [← hperm.nodup_iff]
  refine ⟨Sorted.nodup, fun hnodup => ?_⟩
  exact List.Pairwise.imp₂ (fun a b hab hne => lt_of_le_of_ne hab hne) hle hnodup

/-- Appending above the maximum is inserting. -/
theorem Sorted.insertStep_eq {s : VSet α} (hs : s.Sorted) (x : α) :
    s.insertStep x = s.insert x := by
  rw [insertStep]
  split
  · rename_i max hmax
    split
    · rename_i hlt
      refine (insert_of_forall_lt fun y hy => ?_).symm
      obtain ⟨ys, hys⟩ := List.getLast?_eq_some_iff.1 hmax
      have hsorted : (ys ++ [max]).Pairwise (· < ·) := hys ▸ hs
      rw [hys, List.mem_append, List.mem_singleton] at hy
      rcases hy with hy | rfl
      · exact ((List.pairwise_append.1 hsorted).2.2 y hy max (List.mem_singleton.2 rfl)).trans hlt
      · exact hlt
    · rfl
  · rfl

theorem Sorted.insertRange {s : VSet α} (hs : s.Sorted) (v : List α) :
    (s.insertRange v).Sorted := by
  rw [VSet.insertRange]
  induction v generalizing s with
  | nil => exact hs
  | cons x v ih =>
    rw [List.foldl_cons, hs.insertStep_eq]
    exact ih (hs.insert x)

theorem Sorted.mem_insertRange {s : VSet α} (hs : s.Sorted) {v : List α} {x : α} :
    x ∈ s.insertRange v ↔ x ∈ s ∨ x ∈ v := by
  rw [VSet.insertRange]
  induction v generalizing s with
  | nil => simp
  | cons y v ih =>
    rw [List.foldl_cons, hs.insertStep_eq, ih (hs.insert y), mem_insert, List.mem_cons]
    tauto

/-! ## Every set -/

namespace Expr

/-- **Every set is strictly increasing** if no vector with repeated elements was moved into one on
the way. -/
theorem eval_sorted {e : Expr α} (he : ∀ v ∈ e.moved, v.Nodup) :
    ∃ s, e.eval = some s ∧ s.Sorted := by
  induction e with
  | empty => exact ⟨_, rfl, sorted_empty⟩
  | range v => exact ⟨_, rfl, sorted_empty.insertRange v⟩
  | initializerList il => exact ⟨_, rfl, sorted_empty.insertRange il⟩
  | lvalue v => exact ⟨_, rfl, sorted_empty.insertRange v⟩
  | rvalue v => exact ⟨_, rfl, sorted_ofVector_iff.2 (he v List.mem_cons_self)⟩
  | insert e el ih =>
    obtain ⟨s, hs, hsorted⟩ := ih he
    exact ⟨_, by rw [eval, hs]; rfl, hsorted.insert el⟩
  | insertRange e v ih =>
    obtain ⟨s, hs, hsorted⟩ := ih he
    exact ⟨_, by rw [eval, hs]; rfl, hsorted.insertRange v⟩
  | erase e el ih =>
    obtain ⟨s, hs, hsorted⟩ := ih he
    exact ⟨_, by rw [eval, hs]; rfl, hsorted.erase el⟩
  | clear e ih =>
    obtain ⟨s, hs, -⟩ := ih he
    exact ⟨_, by rw [eval, hs]; rfl, sorted_empty⟩
  | insertAll e s ihe ihs =>
    obtain ⟨he, hs⟩ := List.forall_mem_append.1 he
    obtain ⟨t, ht, htsorted⟩ := ihe he
    obtain ⟨u, hu, husorted⟩ := ihs hs
    refine ⟨_, by rw [eval, ht, hu]; simp only [Option.bind_eq_bind, Option.bind_some,
      insertAll_eq husorted htsorted], (insertSet_spec husorted htsorted).1⟩
  | eraseAll e s ihe ihs =>
    obtain ⟨he, hs⟩ := List.forall_mem_append.1 he
    obtain ⟨t, ht, htsorted⟩ := ihe he
    obtain ⟨u, hu, husorted⟩ := ihs hs
    refine ⟨_, by rw [eval, ht, hu]; simp only [Option.bind_eq_bind, Option.bind_some,
      eraseAll_eq husorted htsorted], htsorted.filter (· ∉ u.vset)⟩
  | intersectWith e s ihe ihs =>
    obtain ⟨he, hs⟩ := List.forall_mem_append.1 he
    obtain ⟨t, ht, htsorted⟩ := ihe he
    obtain ⟨u, hu, husorted⟩ := ihs hs
    refine ⟨_, by rw [eval, ht, hu]; rfl, ?_⟩
    rw [intersectWith_eq husorted htsorted]
    exact htsorted.filter _
  | diff e s ihe ihs =>
    obtain ⟨he, hs⟩ := List.forall_mem_append.1 he
    obtain ⟨t, ht, htsorted⟩ := ihe he
    obtain ⟨u, hu, husorted⟩ := ihs hs
    refine ⟨_, by rw [eval, ht, hu]; rfl, ?_⟩
    rw [diff_eq husorted htsorted]
    exact htsorted.filter _

/-- **Sets are equal if they have the same elements**, and the size of one is the number of its
elements. -/
theorem eval_canonical {e e' : Expr α} (he : ∀ v ∈ e.moved, v.Nodup)
    (he' : ∀ v ∈ e'.moved, v.Nodup) :
    ∃ s s', e.eval = some s ∧ e'.eval = some s' ∧ s.Sorted ∧ s'.Sorted ∧
      (s = s' ↔ s.elems = s'.elems) ∧ s.vset.length = s.elems.card := by
  obtain ⟨s, hs, hsorted⟩ := eval_sorted he
  obtain ⟨s', hs', hsorted'⟩ := eval_sorted he'
  exact ⟨s, s', hs, hs', hsorted, hsorted', hsorted.eq_iff hsorted', hsorted.card_elems.symm⟩

theorem eval_canonical_erase :
    ∃ s s', (erase (rvalue [2, 1]) 2).eval = some s ∧ (lvalue [1, 1]).eval = some s' ∧
      s.Sorted ∧ s'.Sorted ∧ (s = s' ↔ s.elems = s'.elems) ∧ s.vset.length = s.elems.card :=
  eval_canonical (by decide) (by decide)

/-- A vector with a repeated element, moved and copied. -/
theorem eval_rvalue_repeated :
    ∃ s s', (rvalue [1, 1]).eval = some s ∧ (lvalue [1, 1]).eval = some s' ∧ ¬ s.Sorted ∧
      s ≠ s' ∧ s.elems = s'.elems ∧ s.vset.length ≠ s.elems.card := by
  have hsort : ofVector [1, 1] = ⟨[1, 1]⟩ :=
    VSet.ext (List.mergeSort_of_pairwise (by decide))
  refine ⟨_, _, rfl, rfl, ?_, ?_, ?_, ?_⟩
  · rw [sorted_ofVector_iff]
    decide
  · rw [hsort]
    decide
  · rw [hsort]
    decide
  · rw [hsort]
    decide

end Expr
end VSet
end GenMC
