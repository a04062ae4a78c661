import GenMC.Library.EdgeClosure
import GenMC.Library.ListOrder
import Mathlib.Data.List.Perm.Subperm
import Mathlib.Data.Fintype.EquivFin
import Mathlib.Order.WellFounded

/-!
# Enumerating linear extensions

The orders in which the nodes of a graph can be visited, each node after its predecessors.
`completions` lists them by backtracking: it tries every node that is *ready*, which is one that
has not been visited while all its predecessors have been.

* `exists_ready`: in a graph without cycles there is a ready node unless all have been visited, so
  that no branch of the backtracking fails.
* `mem_completions_iff` and `nodup_completions`: all completions are listed, and each of them once.
-/

set_option autoImplicit false

namespace GenMC
namespace LinearExtension

open ListOrder Relation

variable {n : ℕ} {succ : ℕ → List ℕ} {visited : ℕ → Bool} {i : ℕ} {q : List ℕ}

/-- The edges from the nodes below `n`. -/
def Edge (n : ℕ) (succ : ℕ → List ℕ) (a b : ℕ) : Prop := a < n ∧ b ∈ succ a

/-- A node can be visited next. -/
def ready (n : ℕ) (succ : ℕ → List ℕ) (visited : ℕ → Bool) (i : ℕ) : Bool :=
  !visited i && (List.range n).all fun a => visited a || decide (i ∉ succ a)

/-- The ways to visit the rest of the nodes.  The fuel bounds their number. -/
def completions (n : ℕ) (succ : ℕ → List ℕ) : ℕ → (ℕ → Bool) → List (List ℕ)
  | 0, _ => []
  | fuel + 1, visited =>
    match (List.range n).filter (ready n succ visited) with
    | [] => [[]]
    | avail => avail.flatMap fun i =>
        (completions n succ fuel (Function.update visited i true)).map (i :: ·)

/-- The rest of the nodes, each after its predecessors. -/
structure IsCompletion (n : ℕ) (succ : ℕ → List ℕ) (visited : ℕ → Bool) (q : List ℕ) : Prop where
  nodup : q.Nodup
  mem_iff : ∀ i, i ∈ q ↔ i < n ∧ visited i = false
  before : ∀ a i, a ∈ q → i ∈ q → i ∈ succ a → Before q a i

/-- The number of nodes that have not been visited. -/
def rest (n : ℕ) (visited : ℕ → Bool) : ℕ := ((List.range n).filter fun i => !visited i).length

theorem ready_iff : ready n succ visited i = true ↔
    visited i = false ∧ ∀ a < n, visited a = false → i ∉ succ a := by
  simp only [ready, Bool.and_eq_true, Bool.not_eq_true', List.all_eq_true, List.mem_range,
    Bool.or_eq_true, decide_eq_true_eq]
  refine and_congr_right fun _ => forall₂_congr fun a _ => ?_
  cases visited a <;> simp

/-! ## Ready nodes -/

/-- **There is a node to visit.** -/
theorem exists_ready (hac : Acyclic (Edge n succ)) (h : ∃ i < n, visited i = false) :
    ∃ i < n, ready n succ visited i = true := by
  -- paths between the nodes below `n` are well founded
  let r : Fin n → Fin n → Prop := fun a b => TransGen (Edge n succ) a b
  have : IsTrans (Fin n) r := ⟨fun _ _ _ => TransGen.trans⟩
  have : Std.Irrefl r := ⟨fun a => hac a⟩
  obtain ⟨i₀, hi₀, hv₀⟩ := h
  obtain ⟨⟨i, hi⟩, hv, hmin⟩ := (Finite.wellFounded_of_trans_of_irrefl r).has_min
    {i : Fin n | visited i = false} ⟨⟨i₀, hi₀⟩, hv₀⟩
  exact ⟨i, hi, ready_iff.2 ⟨hv, fun a ha hva hmem => hmin ⟨a, ha⟩ hva (.single ⟨ha, hmem⟩)⟩⟩

theorem rest_update (hi : i < n) (hv : visited i = false) :
    rest n (Function.update visited i true) < rest n visited := by
  have hfilter : (List.range n).filter (fun j => !Function.update visited i true j) =
      ((List.range n).filter fun j => !visited j).filter (fun j => decide (j ≠ i)) := by
    rw [List.filter_filter]
    refine List.filter_congr fun j _ => ?_
    by_cases hj : j = i
    · subst hj
      simp
    · simp [hj]
  rw [rest, rest, hfilter]
  refine List.length_filter_lt_length_iff_exists.2 ⟨i, ?_, by simp⟩
  exact List.mem_filter.2 ⟨List.mem_range.2 hi, by simp [hv]⟩

/-! ## Completions -/

theorem isCompletion_nil (h : ¬ ∃ i < n, visited i = false) :
    IsCompletion n succ visited q ↔ q = [] := by
  refine ⟨fun hq => ?_, ?_⟩
  · refine List.eq_nil_iff_forall_not_mem.2 fun i hi => h ⟨i, (hq.mem_iff i).1 hi⟩
  · rintro rfl
    exact ⟨List.nodup_nil, fun i => iff_of_false List.not_mem_nil fun hi => h ⟨i, hi⟩,
      fun a _ ha => absurd ha List.not_mem_nil⟩

/-- A completion begins with a ready node. -/
theorem isCompletion_cons : IsCompletion n succ visited (i :: q) ↔
    i < n ∧ ready n succ visited i = true ∧
      IsCompletion n succ (Function.update visited i true) q := by
  refine ⟨fun h => ?_, ?_⟩
  · obtain ⟨hiq, hq⟩ := List.nodup_cons.1 h.nodup
    obtain ⟨hi, hv⟩ := (h.mem_iff i).1 List.mem_cons_self
    refine ⟨hi, ready_iff.2 ⟨hv, fun a ha hva hmem => ?_⟩, hq, fun j => ?_, fun a j ha hj haj => ?_⟩
    · -- nothing comes before the first node
      obtain ⟨l₁, l₂, heq, hmem⟩ := h.before a i ((h.mem_iff a).2 ⟨ha, hva⟩) List.mem_cons_self hmem
      cases l₁ with
      | nil => exact absurd hmem List.not_mem_nil
      | cons x l₁ =>
        obtain ⟨-, rfl⟩ := List.cons.inj heq
        exact hiq (by simp)
    · have hmem := h.mem_iff j
      rw [List.mem_cons] at hmem
      by_cases hj : j = i
      · subst hj
        simp [hiq]
      · rw [Function.update_of_ne hj, ← hmem]
        exact (or_iff_right hj).symm
    · obtain ⟨l₁, l₂, heq, hmem⟩ := h.before a j (List.mem_cons_of_mem _ ha)
        (List.mem_cons_of_mem _ hj) haj
      cases l₁ with
      | nil => exact absurd hmem List.not_mem_nil
      | cons x l₁ =>
        obtain ⟨rfl, rfl⟩ := List.cons.inj heq
        refine ⟨l₁, l₂, rfl, (List.mem_cons.1 hmem).resolve_left ?_⟩
        rintro rfl
        exact hiq ha
  · rintro ⟨hi, hready, h⟩
    obtain ⟨hv, hpred⟩ := ready_iff.1 hready
    have hiq : i ∉ q := fun hmem => by simpa using ((h.mem_iff i).1 hmem).2
    have hmem_iff : ∀ j, j ∈ i :: q ↔ j < n ∧ visited j = false := by
      intro j
      rw [List.mem_cons, h.mem_iff]
      by_cases hj : j = i
      · subst hj
        simp [hi, hv]
      · simp [hj]
    refine ⟨List.nodup_cons.2 ⟨hiq, h.nodup⟩, hmem_iff, fun a j ha hj haj => ?_⟩
    rcases List.mem_cons.1 hj with rfl | hjq
    · obtain ⟨han, hva⟩ := (hmem_iff a).1 ha
      exact absurd haj (hpred a han hva)
    · rcases List.mem_cons.1 ha with rfl | haq
      · obtain ⟨l₁, l₂, rfl⟩ := List.append_of_mem hjq
        exact ⟨a :: l₁, l₂, rfl, List.mem_cons_self⟩
      · exact (h.before a j haq hjq haj).cons i

variable {fuel : ℕ}

/-- One level of the backtracking. -/
theorem mem_completions_succ : q ∈ completions n succ (fuel + 1) visited ↔
    ((∀ i < n, ready n succ visited i = false) ∧ q = []) ∨
      ∃ i < n, ready n succ visited i = true ∧
        ∃ q' ∈ completions n succ fuel (Function.update visited i true), q = i :: q' := by
  have hmem : ∀ i, i ∈ (List.range n).filter (ready n succ visited) ↔
      i < n ∧ ready n succ visited i = true := fun i => by
    rw [List.mem_filter, List.mem_range]
  rw [completions]
  cases havail : (List.range n).filter (ready n succ visited) with
  | nil =>
    simp only [havail, List.not_mem_nil, false_iff, not_and, Bool.not_eq_true] at hmem
    simp only [List.mem_singleton]
    refine ⟨?_, ?_⟩
    · exact fun hq => .inl ⟨hmem, hq⟩
    · rintro (⟨-, hq⟩ | ⟨i, hi, hready, -⟩)
      · exact hq
      · rw [hmem i hi] at hready
        cases hready
  | cons a avail =>
    rw [havail] at hmem
    simp only [List.mem_flatMap, List.mem_map, hmem]
    refine ⟨?_, ?_⟩
    · rintro ⟨i, ⟨hi, hready⟩, q', hq', rfl⟩
      exact .inr ⟨i, hi, hready, q', hq', rfl⟩
    · rintro (⟨hnone, -⟩ | ⟨i, hi, hready, q', hq', rfl⟩)
      · obtain ⟨ha, hready⟩ := (hmem a).1 List.mem_cons_self
        rw [hnone a ha] at hready
        cases hready
      · exact ⟨i, ⟨hi, hready⟩, q', hq', rfl⟩

/-- **All completions are listed**, if there is fuel for the nodes that are left. -/
theorem mem_completions_iff (hac : Acyclic (Edge n succ)) (hfuel : rest n visited < fuel) :
    q ∈ completions n succ fuel visited ↔ IsCompletion n succ visited q := by
  induction fuel generalizing visited q with
  | zero => exact absurd hfuel (Nat.not_lt_zero _)
  | succ fuel ih =>
    rw [mem_completions_succ]
    by_cases h : ∃ i < n, visited i = false
    · obtain ⟨i₀, hi₀, hready₀⟩ := exists_ready hac h
      cases q with
      | nil =>
        refine iff_of_false ?_ fun hq => ?_
        · rintro (⟨hnone, -⟩ | ⟨_, _, _, _, _, hq⟩)
          · rw [hnone i₀ hi₀] at hready₀
            cases hready₀
          · cases hq
        · obtain ⟨i, hi⟩ := h
          exact absurd ((hq.mem_iff i).2 hi) List.not_mem_nil
      | cons i q =>
        rw [isCompletion_cons]
        have hstep : ∀ j < n, ready n succ visited j = true →
            rest n (Function.update visited j true) < fuel := fun j hj hready => by
          have := rest_update hj (ready_iff.1 hready).1
          omega
        refine ⟨?_, ?_⟩
        · rintro (⟨-, hq⟩ | ⟨j, hj, hready, q', hq', heq⟩)
          · cases hq
          · obtain ⟨rfl, rfl⟩ := List.cons.inj heq
            exact ⟨hj, hready, (ih (hstep i hj hready)).1 hq'⟩
        · rintro ⟨hi, hready, hq⟩
          exact .inr ⟨i, hi, hready, q, (ih (hstep i hi hready)).2 hq, rfl⟩
    · rw [isCompletion_nil h]
      refine ⟨?_, ?_⟩
      · rintro (⟨-, hq⟩ | ⟨i, hi, hready, -⟩)
        · exact hq
        · exact absurd ⟨i, hi, (ready_iff.1 hready).1⟩ h
      · refine fun hq => .inl ⟨fun i hi => ?_, hq⟩
        rw [← Bool.not_eq_true]
        exact fun hready => h ⟨i, hi, (ready_iff.1 hready).1⟩

/-- **No completion is listed twice.** -/
theorem nodup_completions : (completions n succ fuel visited).Nodup := by
  induction fuel generalizing visited with
  | zero => exact List.nodup_nil
  | succ fuel ih =>
    have hnd : ((List.range n).filter (ready n succ visited)).Nodup := List.nodup_range.filter _
    rw [completions]
    cases havail : (List.range n).filter (ready n succ visited) with
    | nil => exact List.nodup_singleton _
    | cons a avail =>
      rw [havail] at hnd
      refine List.nodup_flatMap.2 ⟨fun i _ => ih.map fun _ _ h => (List.cons.inj h).2, ?_⟩
      refine hnd.imp fun {i j} hij => ?_
      rintro q hi hj
      obtain ⟨_, -, rfl⟩ := List.mem_map.1 hi
      obtain ⟨_, -, h⟩ := List.mem_map.1 hj
      exact hij (List.cons.inj h).1.symm

end LinearExtension
end GenMC
