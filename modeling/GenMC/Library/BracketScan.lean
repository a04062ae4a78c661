import Mathlib.Combinatorics.Enumerative.DyckWord

/-!
# Matching brackets

A scan for the bracket that closes another one keeps a stack of the brackets that were opened since
(`findClosing`).  It finds the first closing bracket before which the brackets are a Dyck word
(`findClosing_eq_some_iff`).  A scan in the other direction reads the mirror of the word, which is a
Dyck word as well (`isDyck_mirror`).  Both are said of lists with indices in `findClosing_zipIdx`
and `findClosing_reverse_zipIdx`.
-/

set_option autoImplicit false

namespace BracketScan

open DyckStep

/-- A word of brackets that are properly nested. -/
def IsDyck (w : List DyckStep) : Prop := ∃ p : DyckWord, p.toList = w

theorem isDyck_iff {w : List DyckStep} : IsDyck w ↔
    w.count U = w.count D ∧ ∀ i, (w.take i).count D ≤ (w.take i).count U := by
  refine ⟨?_, ?_⟩
  · rintro ⟨p, rfl⟩
    exact ⟨p.count_U_eq_count_D, p.count_D_le_count_U⟩
  · rintro ⟨heq, hle⟩
    exact ⟨⟨w, heq, hle⟩, rfl⟩

/-- How many brackets are open after a word, or `none` if one is closed that is not open. -/
def run : ℕ → List DyckStep → Option ℕ
  | n, [] => some n
  | n, U :: w => run (n + 1) w
  | 0, D :: _ => none
  | n + 1, D :: w => run n w

/-- The prefixes of a list that is not empty. -/
theorem forall_take_cons {α : Type*} {P : List α → Prop} {a : α} {l : List α} :
    (∀ i, P ((a :: l).take i)) ↔ P [] ∧ ∀ i, P (a :: l.take i) := by
  refine ⟨fun h => ⟨h 0, fun i => h (i + 1)⟩, fun h i => ?_⟩
  cases i with
  | zero => exact h.1
  | succ i => exact h.2 i

theorem count_U_cons (s : DyckStep) (w : List DyckStep) :
    (s :: w).count U = w.count U + if s = U then 1 else 0 := by
  rw [List.count_cons]
  cases s <;> rfl

theorem count_D_cons (s : DyckStep) (w : List DyckStep) :
    (s :: w).count D = w.count D + if s = D then 1 else 0 := by
  rw [List.count_cons]
  cases s <;> rfl

/-- The brackets that are open are counted, and there are never fewer than none. -/
theorem run_eq_some_iff {n m : ℕ} {w : List DyckStep} : run n w = some m ↔
    n + w.count U = m + w.count D ∧ ∀ i, (w.take i).count D ≤ n + (w.take i).count U := by
  induction n, w using run.induct with
  | case1 n => simp [run]
  | case2 n w ih =>
    rw [run, ih, forall_take_cons (P := fun v => v.count D ≤ n + v.count U)]
    simp only [count_U_cons, count_D_cons, if_true, reduceCtorEq, if_false, List.count_nil]
    refine and_congr (by omega) ⟨fun h => ⟨by omega, fun i => ?_⟩, fun h i => ?_⟩
    · have := h i
      omega
    · have := h.2 i
      omega
  | case3 w =>
    rw [run, forall_take_cons (P := fun v => v.count D ≤ 0 + v.count U)]
    refine iff_of_false (by simp) fun h => ?_
    have := h.2.2 0
    simp at this
  | case4 n w ih =>
    rw [run, ih, forall_take_cons (P := fun v => v.count D ≤ n + 1 + v.count U)]
    simp only [count_U_cons, count_D_cons, if_true, reduceCtorEq, if_false, List.count_nil]
    refine and_congr (by omega) ⟨fun h => ⟨by omega, fun i => ?_⟩, fun h i => ?_⟩
    · have := h i
      omega
    · have := h.2 i
      omega

theorem run_zero_iff {w : List DyckStep} : run 0 w = some 0 ↔ IsDyck w := by
  rw [run_eq_some_iff, isDyck_iff]
  simp only [Nat.zero_add]

/-! ## The mirror of a word -/

def flip : DyckStep → DyckStep
  | U => D
  | D => U

def mirror (w : List DyckStep) : List DyckStep := (w.map flip).reverse

theorem flip_flip (s : DyckStep) : flip (flip s) = s := by
  cases s <;> rfl

theorem count_map_flip (w : List DyckStep) (s : DyckStep) :
    (w.map flip).count s = w.count (flip s) := by
  rw [← flip_flip s, List.count_map_of_injective w flip ?_, flip_flip]
  exact fun a b h => by rw [← flip_flip a, h, flip_flip]

theorem mirror_mirror (w : List DyckStep) : mirror (mirror w) = w := by
  rw [mirror, mirror, List.map_reverse, List.reverse_reverse, List.map_map]
  exact List.map_id'' flip_flip w

theorem IsDyck.mirror {w : List DyckStep} (h : IsDyck w) : IsDyck (mirror w) := by
  rw [isDyck_iff] at h ⊢
  obtain ⟨heq, hle⟩ := h
  refine ⟨?_, fun i => ?_⟩
  · rw [BracketScan.mirror, List.count_reverse, List.count_reverse, count_map_flip, count_map_flip]
    exact heq.symm
  · -- what the mirror starts with is what the word ends with
    rw [BracketScan.mirror, List.take_reverse, List.count_reverse, List.count_reverse,
      ← List.map_drop,
      count_map_flip, count_map_flip, List.length_map]
    have hsplit : ∀ s, (w.take (w.length - i)).count s + (w.drop (w.length - i)).count s =
        w.count s := fun s => by rw [← List.count_append, List.take_append_drop]
    have hU := hsplit U
    have hD := hsplit D
    have := hle (w.length - i)
    change (w.drop (w.length - i)).count U ≤ (w.drop (w.length - i)).count D
    omega

theorem isDyck_mirror {w : List DyckStep} : IsDyck (mirror w) ↔ IsDyck w :=
  ⟨fun h => mirror_mirror w ▸ h.mirror, IsDyck.mirror⟩

/-! ## Looking for the bracket that closes -/

section
variable {α : Type*} {step : α → Option DyckStep} {l stack : List α} {a : α}

/-- The first element that closes none of those that were opened, with a stack of these. -/
def findClosing (step : α → Option DyckStep) : List α → List α → Option α
  | [], _ => none
  | a :: l, stack =>
    match step a with
    | none => findClosing step l stack
    | some U => findClosing step l (a :: stack)
    | some D =>
      match stack with
      | [] => some a
      | _ :: stack => findClosing step l stack

theorem findClosing_of_none (h : step a = none) :
    findClosing step (a :: l) stack = findClosing step l stack := by
  rw [findClosing.eq_def]
  simp only [h]

theorem findClosing_of_opening (h : step a = some U) :
    findClosing step (a :: l) stack = findClosing step l (a :: stack) := by
  rw [findClosing.eq_def]
  simp only [h]

theorem findClosing_of_closing (h : step a = some D) : findClosing step (a :: l) stack =
    match stack with
    | [] => some a
    | _ :: stack => findClosing step l stack := by
  rw [findClosing.eq_def]
  simp only [h]

/-- Before a closing bracket the word is a Dyck word, if the stack is empty. -/
def Closes (step : α → Option DyckStep) (l stack : List α) (a : α) : Prop :=
  ∃ before after, l = before ++ a :: after ∧ step a = some D ∧
    run stack.length (before.filterMap step) = some 0

/-- The element that closes is the first one, or it comes after that. -/
theorem closes_cons {b : α} : Closes step (b :: l) stack a ↔
    (b = a ∧ step a = some D ∧ stack = []) ∨
      ∃ before after, l = before ++ a :: after ∧ step a = some D ∧
        run stack.length ((b :: before).filterMap step) = some 0 := by
  refine ⟨?_, ?_⟩
  · rintro ⟨_ | ⟨c, before⟩, after, heq, hstep, hrun⟩
    · exact .inl ⟨(List.cons.inj heq).1, hstep, List.length_eq_zero_iff.1 (Option.some.inj hrun)⟩
    · obtain ⟨rfl, rfl⟩ := List.cons.inj heq
      exact .inr ⟨before, after, rfl, hstep, hrun⟩
  · rintro (⟨rfl, hstep, rfl⟩ | ⟨before, after, rfl, hstep, hrun⟩)
    · exact ⟨[], l, rfl, hstep, rfl⟩
    · exact ⟨b :: before, after, rfl, hstep, hrun⟩

/-- **What is found** is the bracket before which the others are properly nested. -/
theorem findClosing_eq_some_iff : findClosing step l stack = some a ↔ Closes step l stack a := by
  induction l generalizing stack with
  | nil =>
    refine iff_of_false (fun h => (by cases h)) ?_
    rintro ⟨before, after, heq, -⟩
    simp at heq
  | cons b l ih =>
    rw [closes_cons]
    cases hb : step b with
    | none =>
      have hne : ¬ (b = a ∧ step a = some D ∧ stack = []) := by
        rintro ⟨rfl, hstep, -⟩
        rw [hb] at hstep
        cases hstep
      simp only [List.filterMap_cons_none hb]
      rw [or_iff_right hne, findClosing_of_none hb]
      exact ih
    | some s =>
      simp only [List.filterMap_cons_some hb]
      cases s with
      | U =>
        have hne : ¬ (b = a ∧ step a = some D ∧ stack = []) := by
          rintro ⟨rfl, hstep, -⟩
          rw [hb] at hstep
          cases hstep
        rw [or_iff_right hne, findClosing_of_opening hb]
        exact ih
      | D =>
        rw [findClosing_of_closing hb]
        cases stack with
        | nil =>
          simp only [Option.some.injEq, List.length_nil, run, reduceCtorEq, and_false, exists_false,
            or_false, and_true]
          exact ⟨fun h => ⟨h, h ▸ hb⟩, fun h => h.1⟩
        | cons c stack =>
          rw [or_iff_right fun h => List.cons_ne_nil _ _ h.2.2]
          exact ih

end

/-! ## Lists with indices -/

section
variable {α : Type*}

/-- A place in a list with indices. -/
theorem zipIdx_eq_append_cons {labs : List α} {n : ℕ} {as bs : List (α × ℕ)} {s : α × ℕ} :
    labs.zipIdx n = as ++ s :: bs ↔ ∃ k, s.2 = n + k ∧ labs[k]? = some s.1 ∧
      as = (labs.take k).zipIdx n ∧ bs = (labs.drop (k + 1)).zipIdx (n + k + 1) := by
  refine ⟨fun h => ?_, ?_⟩
  · obtain ⟨labs₁, labs₂, rfl, rfl, h₂⟩ := List.zipIdx_eq_append_iff.1 h
    cases labs₂ with
    | nil => cases h₂
    | cons lab labs₂ =>
      rw [List.zipIdx_cons, List.cons.injEq] at h₂
      obtain ⟨rfl, rfl⟩ := h₂
      refine ⟨labs₁.length, rfl, ?_, ?_, ?_⟩
      · rw [List.getElem?_append_right le_rfl, Nat.sub_self]
        rfl
      · rw [List.take_left]
      · rw [← List.drop_drop, List.drop_left]
        rfl
  · rintro ⟨k, hs, hk, rfl, rfl⟩
    obtain ⟨lab, i⟩ := s
    obtain ⟨hlt, rfl⟩ := List.getElem?_eq_some_iff.1 hk
    obtain rfl : i = n + k := hs
    conv_lhs => rw [← List.take_append_drop k labs, List.drop_eq_getElem_cons hlt]
    rw [List.zipIdx_append, List.length_take_of_le hlt.le, List.zipIdx_cons]

theorem filterMap_zipIdx {β : Type*} (f : α → Option β) (labs : List α) (n : ℕ) :
    (labs.zipIdx n).filterMap (fun s => f s.1) = labs.filterMap f := by
  conv_rhs => rw [← List.zipIdx_map_fst n labs, List.filterMap_map]
  rfl

variable {step : α → Option DyckStep} {labs : List α} {n m : ℕ}

/-- The index of the bracket that a scan forwards finds. -/
theorem findClosing_zipIdx :
    (findClosing (fun s : α × ℕ => step s.1) (labs.zipIdx n) []).map (·.2) = some m ↔
      ∃ k lab, m = n + k ∧ labs[k]? = some lab ∧ step lab = some D ∧
        IsDyck ((labs.take k).filterMap step) := by
  rw [Option.map_eq_some_iff]
  refine ⟨?_, ?_⟩
  · rintro ⟨s, hfind, rfl⟩
    obtain ⟨before, after, heq, hstep, hrun⟩ := findClosing_eq_some_iff.1 hfind
    obtain ⟨k, hs, hk, rfl, -⟩ := zipIdx_eq_append_cons.1 heq
    rw [filterMap_zipIdx] at hrun
    exact ⟨k, s.1, hs, hk, hstep, run_zero_iff.1 hrun⟩
  · rintro ⟨k, lab, rfl, hk, hstep, hdyck⟩
    refine ⟨(lab, n + k), findClosing_eq_some_iff.2 ⟨_, _, zipIdx_eq_append_cons.2
      ⟨k, rfl, hk, rfl, rfl⟩, hstep, ?_⟩, rfl⟩
    rw [filterMap_zipIdx]
    exact run_zero_iff.2 hdyck

/-- The index of the bracket that a scan backwards finds, with the brackets the other way round. -/
theorem findClosing_reverse_zipIdx :
    (findClosing (fun s : α × ℕ => (step s.1).map flip) (labs.zipIdx n).reverse []).map (·.2) =
        some m ↔
      ∃ k lab, m = n + k ∧ labs[k]? = some lab ∧ step lab = some U ∧
        IsDyck ((labs.drop (k + 1)).filterMap step) := by
  have hword : ∀ l : List (α × ℕ), run 0 (l.filterMap fun s => (step s.1).map flip) = some 0 ↔
      IsDyck (l.reverse.filterMap fun s => step s.1) := by
    intro l
    rw [run_zero_iff, ← isDyck_mirror (w := l.reverse.filterMap _), mirror, List.filterMap_reverse,
      List.map_reverse, List.reverse_reverse, List.map_filterMap]
  rw [Option.map_eq_some_iff]
  refine ⟨?_, ?_⟩
  · rintro ⟨s, hfind, rfl⟩
    obtain ⟨before, after, heq, hstep, hrun⟩ := findClosing_eq_some_iff.1 hfind
    rw [List.reverse_eq_iff, List.reverse_append, List.reverse_cons, List.append_assoc] at heq
    obtain ⟨k, hs, hk, -, hbefore⟩ := zipIdx_eq_append_cons.1 heq
    have hdyck := (hword before).1 hrun
    have hbefore : before.reverse = (labs.drop (k + 1)).zipIdx (n + k + 1) := hbefore
    rw [hbefore, filterMap_zipIdx] at hdyck
    obtain ⟨d, hd, hflip⟩ := Option.map_eq_some_iff.1 hstep
    obtain rfl : d = U := by
      rw [← flip_flip d, hflip]
      rfl
    exact ⟨k, s.1, hs, hk, hd, hdyck⟩
  · rintro ⟨k, lab, rfl, hk, hstep, hdyck⟩
    have hsplit : labs.zipIdx n = _ ++ (lab, n + k) :: _ :=
      zipIdx_eq_append_cons.2 ⟨k, rfl, hk, rfl, rfl⟩
    refine ⟨(lab, n + k), findClosing_eq_some_iff.2
      ⟨((labs.drop (k + 1)).zipIdx (n + k + 1)).reverse, ((labs.take k).zipIdx n).reverse,
        ?_, ?_, ?_⟩,
      rfl⟩
    · rw [hsplit, List.reverse_append, List.reverse_cons, List.append_assoc]
      rfl
    · exact congrArg (Option.map flip) hstep
    · refine (hword _).2 ?_
      rwa [List.reverse_reverse, filterMap_zipIdx]

end

end BracketScan
