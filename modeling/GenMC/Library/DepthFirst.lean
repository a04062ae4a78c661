import GenMC.Library.EdgeClosure
import GenMC.Library.ListOrder

/-!
# Depth-first traversals and closures

A depth-first traversal enters a node, goes over its successors, and leaves it.  `Explores` is the
traversal as a relation: with the nodes of `S` entered and those of `E` left, going over a list of
nodes leaves the nodes of `E'`, in this order.

* `Explored` is what there is to know about the nodes that are left meanwhile.  An edge leads to a
  node that is left earlier, or to one that is still entered, or it goes *back*: to a node from
  which its source was reached along edges, each of which leads to a node that is left earlier
  (`Down`).
* `closeRow` is what an algorithm does that computes reachability when it leaves a node: the node
  reaches its successors and what they reach at that time.  On a graph with cycles this is not the
  closure.  But each edge that goes back makes its target reach itself, so that cycles are found
  all the same (`closes_iff`).
-/

set_option autoImplicit false

namespace GenMC
namespace DepthFirst

open ListOrder Relation

variable {α : Type*} {succ : α → List α}

/-- A traversal from the nodes of a list. -/
inductive Explores (succ : α → List α) : List α → List α → List α → List α → Prop
  | nil {S E : List α} : Explores succ S E [] E
  | seen {S E E' js : List α} {j : α} (h : j ∈ S ∨ j ∈ E) (rest : Explores succ S E js E') :
      Explores succ S E (j :: js) E'
  | visit {S E E₁ E' js : List α} {j : α} (hS : j ∉ S) (hE : j ∉ E)
      (inner : Explores succ (j :: S) E (succ j) E₁) (rest : Explores succ S (E₁ ++ [j]) js E') :
      Explores succ S E (j :: js) E'

/-- An edge to a node that is left earlier. -/
def Down (succ : α → List α) (L : List α) (a b : α) : Prop := b ∈ succ a ∧ Before L b a

/-- The nodes of `new` are left while a traversal goes over `js`. -/
structure Explored (succ : α → List α) (S E js new : List α) : Prop where
  fresh : ∀ u ∈ new, u ∉ S ∧ u ∉ E
  nodup : new.Nodup
  covers : ∀ j ∈ js, j ∈ S ∨ j ∈ E ++ new
  descends : ∀ u ∈ new, ∃ j ∈ js, j ∈ new ∧ ReflTransGen (Down succ (E ++ new)) j u
  edges : ∀ u ∈ new, ∀ v ∈ succ u,
    Before (E ++ new) v u ∨ v ∈ S ∨ ReflTransGen (Down succ (E ++ new)) v u

/-! ## The order in which nodes are left -/

theorem Down.append {L : List α} {a b : α} (h : ReflTransGen (Down succ L) a b) (L' : List α) :
    ReflTransGen (Down succ (L ++ L')) a b :=
  ReflTransGen.mono (fun _ _ h => ⟨h.1, h.2.append L'⟩) a b h

theorem explored_nil (S E : List α) : Explored succ S E [] [] where
  fresh _ h := absurd h List.not_mem_nil
  nodup := List.nodup_nil
  covers _ h := absurd h List.not_mem_nil
  descends _ h := absurd h List.not_mem_nil
  edges _ h := absurd h List.not_mem_nil

theorem explored_seen {S E : List α} {j : α} (h : j ∈ S ∨ j ∈ E) : Explored succ S E [j] [] where
  fresh _ h := absurd h List.not_mem_nil
  nodup := List.nodup_nil
  covers _ hi := by
    obtain rfl := List.mem_singleton.1 hi
    rwa [List.append_nil]
  descends _ h := absurd h List.not_mem_nil
  edges _ h := absurd h List.not_mem_nil

/-- Leaving a node after its successors. -/
theorem Explored.leave {S E new : List α} {j : α} (h : Explored succ (j :: S) E (succ j) new)
    (hS : j ∉ S) (hE : j ∉ E) : Explored succ S E [j] (new ++ [j]) := by
  have hdown : ∀ u ∈ new, ReflTransGen (Down succ (E ++ (new ++ [j]))) j u := by
    intro u hu
    obtain ⟨c, hc, hcnew, hcu⟩ := h.descends u hu
    rw [← List.append_assoc]
    exact .head ⟨hc, before_concat (List.mem_append_right _ hcnew) j⟩ (Down.append hcu [j])
  refine ⟨fun u hu => ?_, ?_, fun i hi => ?_, fun u hu => ?_, fun u hu v hv => ?_⟩
  · rcases List.mem_append.1 hu with hu | hu
    · exact ⟨fun hmem => (h.fresh u hu).1 (List.mem_cons_of_mem _ hmem), (h.fresh u hu).2⟩
    · obtain rfl := List.mem_singleton.1 hu
      exact ⟨hS, hE⟩
  · refine List.nodup_append.2 ⟨h.nodup, List.nodup_singleton j, ?_⟩
    rintro u hu v hv rfl
    obtain rfl := List.mem_singleton.1 hv
    exact (h.fresh u hu).1 List.mem_cons_self
  · obtain rfl := List.mem_singleton.1 hi
    simp
  · refine ⟨j, List.mem_singleton_self j, by simp, ?_⟩
    rcases List.mem_append.1 hu with hu | hu
    · exact hdown u hu
    · rw [List.mem_singleton.1 hu]
  · rcases List.mem_append.1 hu with hnew | hu
    · rcases h.edges u hnew v hv with hb | hmem | hd
      · rw [← List.append_assoc]
        exact .inl (hb.append [j])
      · -- the edge goes back to the node that is left now, or further
        rcases List.mem_cons.1 hmem with rfl | hmem
        · exact .inr (.inr (hdown u hnew))
        · exact .inr (.inl hmem)
      · rw [← List.append_assoc]
        exact .inr (.inr (Down.append hd [j]))
    · obtain rfl := List.mem_singleton.1 hu
      rcases h.covers v hv with hmem | hmem
      · rcases List.mem_cons.1 hmem with rfl | hmem
        · exact .inr (.inr .refl)
        · exact .inr (.inl hmem)
      · rw [← List.append_assoc]
        exact .inl (before_concat hmem u)

/-- Two traversals after each other. -/
theorem Explored.append {S E js₁ js₂ new₁ new₂ : List α} (h₁ : Explored succ S E js₁ new₁)
    (h₂ : Explored succ S (E ++ new₁) js₂ new₂) :
    Explored succ S E (js₁ ++ js₂) (new₁ ++ new₂) := by
  have hassoc : E ++ (new₁ ++ new₂) = E ++ new₁ ++ new₂ := (List.append_assoc ..).symm
  refine ⟨fun u hu => ?_, ?_, fun j hj => ?_, fun u hu => ?_, fun u hu v hv => ?_⟩
  · rcases List.mem_append.1 hu with hu | hu
    · exact h₁.fresh u hu
    · exact ⟨(h₂.fresh u hu).1, fun hE => (h₂.fresh u hu).2 (List.mem_append_left _ hE)⟩
  · refine List.nodup_append.2 ⟨h₁.nodup, h₂.nodup, ?_⟩
    rintro u hu₁ v hv₂ rfl
    exact (h₂.fresh u hv₂).2 (List.mem_append_right _ hu₁)
  · rw [hassoc]
    rcases List.mem_append.1 hj with hj | hj
    · exact (h₁.covers j hj).imp_right (List.mem_append_left _)
    · exact h₂.covers j hj
  · rw [hassoc]
    rcases List.mem_append.1 hu with hu | hu
    · obtain ⟨j, hj, hjnew, hju⟩ := h₁.descends u hu
      exact ⟨j, List.mem_append_left _ hj, List.mem_append_left _ hjnew, Down.append hju new₂⟩
    · obtain ⟨j, hj, hjnew, hju⟩ := h₂.descends u hu
      exact ⟨j, List.mem_append_right _ hj, List.mem_append_right _ hjnew, hju⟩
  · rw [hassoc]
    rcases List.mem_append.1 hu with hu | hu
    · exact (h₁.edges u hu v hv).imp (fun h => h.append new₂) (Or.imp_right (Down.append · new₂))
    · exact h₂.edges u hu v hv

/-- **What a traversal leaves.** -/
theorem Explores.explored {S E js E' : List α} (h : Explores succ S E js E') :
    ∃ new, E' = E ++ new ∧ Explored succ S E js new := by
  induction h with
  | nil => exact ⟨[], (List.append_nil _).symm, explored_nil _ _⟩
  | seen h _ ih =>
    obtain ⟨new, rfl, hnew⟩ := ih
    refine ⟨new, rfl, ?_⟩
    have hseen : Explored succ _ _ _ [] := explored_seen h
    exact hseen.append (by rwa [List.append_nil])
  | @visit S E _ _ _ j hS hE _ _ ihInner ihRest =>
    obtain ⟨new₁, rfl, hnew₁⟩ := ihInner
    obtain ⟨new₂, rfl, hnew₂⟩ := ihRest
    refine ⟨(new₁ ++ [j]) ++ new₂, by simp, ?_⟩
    exact (hnew₁.leave hS hE).append (by rwa [← List.append_assoc])

/-! ## Closing rows -/

/-- A node reaches its successors, and what they reach. -/
def closeRow (succ : α → List α) (T : α → α → Prop) (i : α) (x k : α) : Prop :=
  T x k ∨ (x = i ∧ ∃ j ∈ succ i, T j k ∨ j = k)

variable {T : α → α → Prop} {L : List α} {u v k : α}

theorem le_foldl_closeRow (h : T u k) : L.foldl (closeRow succ) T u k := by
  induction L generalizing T with
  | nil => exact h
  | cons i L ih => exact ih (.inl h)

theorem foldl_closeRow_of_notMem (hu : u ∉ L) : L.foldl (closeRow succ) T u k ↔ T u k := by
  induction L generalizing T with
  | nil => rfl
  | cons i L ih =>
    rw [List.mem_cons, not_or] at hu
    rw [List.foldl_cons, ih hu.2]
    exact or_iff_left fun h => hu.1 h.1

/-- Closing rows follows edges. -/
theorem transGen_of_closeRow (hT : ∀ x k, T x k → TransGen (fun a b => b ∈ succ a) x k)
    (h : L.foldl (closeRow succ) T u k) : TransGen (fun a b => b ∈ succ a) u k := by
  induction L generalizing T with
  | nil => exact hT u k h
  | cons i L ih =>
    refine ih ?_ h
    rintro x k (hxk | ⟨rfl, j, hj, hjk | rfl⟩)
    · exact hT x k hxk
    · exact .head hj (hT j k hjk)
    · exact .single hj

theorem closeRow_edge (hu : u ∈ L) (hv : v ∈ succ u) : L.foldl (closeRow succ) T u v := by
  obtain ⟨L₁, L₂, rfl⟩ := List.append_of_mem hu
  rw [List.foldl_append, List.foldl_cons]
  exact le_foldl_closeRow (.inr ⟨rfl, v, hv, .inr rfl⟩)

/-- A node reaches what a successor reaches that is left earlier. -/
theorem closeRow_of_down (hL : L.Nodup) (h : Down succ L u v)
    (hk : L.foldl (closeRow succ) T v k) : L.foldl (closeRow succ) T u k := by
  obtain ⟨hv, L₁, L₂, rfl, hmem⟩ := h
  have hlast : v ∉ u :: L₂ := fun h => (List.nodup_append.1 hL).2.2 v hmem v h rfl
  rw [List.foldl_append, foldl_closeRow_of_notMem hlast] at hk
  rw [List.foldl_append, List.foldl_cons]
  exact le_foldl_closeRow (.inr ⟨rfl, v, hv, .inl hk⟩)

/-- Where all edges lead to nodes that are left earlier, there are no cycles. -/
theorem acyclic_of_down (hL : L.Nodup) (h : ∀ a b, b ∈ succ a → Down succ L a b) :
    Acyclic fun a b => b ∈ succ a := by
  classical
  intro x hx
  have hlt : ∀ a b, b ∈ succ a → L.idxOf b < L.idxOf a := by
    intro a b hab
    have hbefore := (h a b hab).2
    have ha : a ∈ L := by
      obtain ⟨L₁, L₂, rfl, -⟩ := hbefore
      simp
    exact (before_iff_idxOf_lt hL ha).1 hbefore
  have hpath : ∀ y, TransGen (fun a b => b ∈ succ a) x y → L.idxOf y < L.idxOf x := by
    intro y hxy
    induction hxy with
    | single h => exact hlt _ _ h
    | tail _ h ih => exact (hlt _ _ h).trans ih
  exact lt_irrefl _ (hpath x hx)

section Closes

variable {nodes : List α} (hL : Explored succ [] [] nodes L)
  (hnodes : ∀ a b, b ∈ succ a → a ∈ nodes)
  (hT : ∀ x k, T x k → TransGen (fun a b => b ∈ succ a) x k)
include hL hnodes

/-- If no node reaches itself, all edges lead to nodes that are left earlier. -/
theorem Explored.down_of_irrefl (h : ∀ x ∈ nodes, ¬ L.foldl (closeRow succ) T x x) (a b : α)
    (hab : b ∈ succ a) : Down succ L a b := by
  have hmem : ∀ x ∈ nodes, x ∈ L := fun x hx =>
    (hL.covers x hx).resolve_left List.not_mem_nil
  rcases hL.edges a (hmem a (hnodes a b hab)) b hab with hb | hnil | hback
  · exact ⟨hab, hb⟩
  · exact absurd hnil List.not_mem_nil
  · -- the edge goes back, and its target reaches itself
    have hreach : ∀ x, ReflTransGen (Down succ L) x a → L.foldl (closeRow succ) T x b := by
      intro x hx
      induction hx using ReflTransGen.head_induction_on with
      | refl => exact closeRow_edge (hmem a (hnodes a b hab)) hab
      | head h _ ih => exact closeRow_of_down hL.nodup h ih
    refine absurd (hreach b hback) (h b ?_)
    rcases ReflTransGen.cases_head hback with rfl | ⟨c, hc, -⟩
    · exact hnodes b b hab
    · exact hnodes b c hc.1

include hT

/-- **Cycles are found**: a graph has no cycle exactly when no node reaches itself, and then every
node reaches exactly what can be reached from it. -/
theorem Explored.closes_iff :
    ((∀ x ∈ nodes, ¬ L.foldl (closeRow succ) T x x) ↔ Acyclic fun a b => b ∈ succ a) ∧
      ((Acyclic fun a b => b ∈ succ a) → ∀ x k,
        L.foldl (closeRow succ) T x k ↔ TransGen (fun a b => b ∈ succ a) x k) := by
  have hirr : (∀ x ∈ nodes, ¬ L.foldl (closeRow succ) T x x) ↔ Acyclic fun a b => b ∈ succ a :=
    ⟨fun h => acyclic_of_down hL.nodup (hL.down_of_irrefl hnodes h),
      fun h x _ hx => h x (transGen_of_closeRow hT hx)⟩
  refine ⟨hirr, fun hac x k => ⟨transGen_of_closeRow hT, fun h => ?_⟩⟩
  have hdown := hL.down_of_irrefl hnodes (hirr.2 hac)
  have hmem : ∀ a b, b ∈ succ a → a ∈ L := fun a b hab =>
    (hL.covers a (hnodes a b hab)).resolve_left List.not_mem_nil
  induction h using TransGen.head_induction_on with
  | single h => exact closeRow_edge (hmem _ _ h) h
  | head h _ ih => exact closeRow_of_down hL.nodup (hdown _ _ h) ih

end Closes

end DepthFirst
end GenMC
