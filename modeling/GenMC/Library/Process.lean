import Mathlib.Data.List.Induction
import Mathlib.Data.Nat.Basic

/-!
# Deterministic processes

A process performs one action after another.  Some actions return a value to it, and what it does
next is determined by the values it has been given so far: `At p j l` says that `l` may be its
`j`-th action when `p` are the values before it.  Actions that the process cannot tell apart may
still differ, so `At` is a relation; only whether a value is returned is a function of `p` and `j`.

* `Follows`: a list of actions is the beginning of a run of the process.
* `Starts p s`: after the values `p`, and right after the action that returned the last of them, the
  process is at its `s`-th action.  **There is only one such `s`** (`Starts.unique`).
* `Segment p s b`: the actions `b` are those from the `s`-th one on, under the values `p`, and only
  the last of them may return a value.
* `Segment.values_eq`: a run that is at `s` with the values `p` stays at these values along a
  segment, so that segments recorded in one run describe all runs with these values.
-/

set_option autoImplicit false

namespace GenMC

/-- A process whose actions are determined by the values they return. -/
structure Process (V L : Type*) where
  /-- The actions that may come at some place after some values. -/
  At : List V → ℕ → L → Prop
  /-- Whether an action returns a value. -/
  returns : L → Bool
  det : ∀ {p : List V} {j : ℕ} {l l' : L}, At p j l → At p j l' → returns l = returns l'

namespace Process

variable {V L : Type*} (P : Process V L) (val : L → V)

/-- The values that actions return. -/
def values (ls : List L) : List V := (ls.filter P.returns).map val

theorem values_concat (ls : List L) (l : L) :
    P.values val (ls ++ [l]) =
      if P.returns l then P.values val ls ++ [val l] else P.values val ls := by
  rw [values, List.filter_append, List.map_append, ← values]
  by_cases h : P.returns l = true
  · rw [if_pos h, List.filter_cons_of_pos h]
    rfl
  · rw [if_neg h, List.filter_cons_of_neg h, List.filter_nil, List.map_nil, List.append_nil]

theorem values_take_succ {ls : List L} {j : ℕ} {l : L} (hl : ls[j]? = some l) :
    P.values val (ls.take (j + 1)) =
      if P.returns l then P.values val (ls.take j) ++ [val l] else P.values val (ls.take j) := by
  rw [List.take_add_one, hl]
  exact P.values_concat val (ls.take j) l

theorem values_take_append (ls : List L) {i j : ℕ} (hij : i ≤ j) :
    ∃ vs, P.values val (ls.take j) = P.values val (ls.take i) ++ vs := by
  refine ⟨P.values val ((ls.take j).drop i), ?_⟩
  rw [values, values, values, ← List.map_append, ← List.filter_append]
  congr 2
  have htake : ls.take i = (ls.take j).take i := by rw [List.take_take, Nat.min_eq_left hij]
  rw [htake, List.take_append_drop]

/-- The actions are the beginning of a run. -/
def Follows (ls : List L) : Prop :=
  ∀ j l, ls[j]? = some l → P.At (P.values val (ls.take j)) j l

variable {P val}

theorem Follows.take {ls : List L} (h : P.Follows val ls) (k : ℕ) : P.Follows val (ls.take k) := by
  intro j l hl
  have hjk : j < k := by
    have := (List.getElem?_eq_some_iff.1 hl).1
    rw [List.length_take] at this
    omega
  rw [List.getElem?_take_of_lt hjk] at hl
  rw [List.take_take, Nat.min_eq_left (Nat.le_of_lt hjk)]
  exact h j l hl

theorem follows_concat {ls : List L} {l : L} :
    P.Follows val (ls ++ [l]) ↔ P.Follows val ls ∧ P.At (P.values val ls) ls.length l := by
  refine ⟨fun h => ?_, ?_⟩
  · have htake := h.take ls.length
    have hlast := h ls.length l (by rw [List.getElem?_append_right (Nat.le_refl _)]; simp)
    rw [List.take_left] at htake hlast
    exact ⟨htake, hlast⟩
  · rintro ⟨h, hl⟩ j l' hl'
    by_cases hj : j < ls.length
    · rw [List.getElem?_append_left hj] at hl'
      rw [List.take_append_of_le_length (Nat.le_of_lt hj)]
      exact h j l' hl'
    · have hlen := (List.getElem?_eq_some_iff.1 hl').1
      have hj' : j = ls.length := by
        rw [List.length_append, List.length_singleton] at hlen
        omega
      subst hj'
      rw [List.getElem?_append_right (Nat.le_refl _)] at hl'
      simp only [Nat.sub_self, List.getElem?_cons_zero, Option.some.injEq] at hl'
      rw [List.take_left, ← hl']
      exact hl

/-! ## Where the actions under some values start -/

variable (P) in
/-- The action that returns the last of the values `p` is the one before the `s`-th. -/
inductive Starts : List V → ℕ → Prop
  | nil : Starts [] 0
  | snoc {p : List V} {s m : ℕ} {l : L} (v : V) (start : Starts p s) (le : s ≤ m)
      (between : ∀ j, s ≤ j → j < m → ∃ l, P.At p j l ∧ P.returns l = false)
      (last : P.At p m l) (ret : P.returns l = true) : Starts (p ++ [v]) (m + 1)

/-- **The place is determined by the values.** -/
theorem Starts.unique {p : List V} {s s' : ℕ} (h : P.Starts p s) (h' : P.Starts p s') :
    s = s' := by
  induction h generalizing s' with
  | nil =>
    generalize hp : ([] : List V) = p at h'
    cases h' with
    | nil => rfl
    | snoc => exact absurd hp (by simp)
  | @snoc p s m l v _ le between last ret ih =>
    generalize hq : p ++ [v] = q at h'
    cases h' with
    | nil => exact absurd hq (by simp)
    | @snoc p' s' m' l' v' start' le' between' last' ret' =>
      obtain ⟨rfl, -⟩ := List.append_inj' hq rfl
      obtain rfl : s = s' := ih start'
      rcases lt_trichotomy m m' with hlt | rfl | hlt
      · obtain ⟨k, hk, hkret⟩ := between' m le hlt
        rw [P.det last hk, hkret] at ret
        exact Bool.noConfusion ret
      · rfl
      · obtain ⟨k, hk, hkret⟩ := between m' le' hlt
        rw [P.det last' hk, hkret] at ret'
        exact Bool.noConfusion ret'

/-- In a run, the last value was returned somewhere, and none since. -/
theorem Follows.exists_starts {ls : List L} (h : P.Follows val ls) :
    ∃ s, s ≤ ls.length ∧ P.Starts (P.values val ls) s ∧
      ∀ j l, s ≤ j → ls[j]? = some l → P.At (P.values val ls) j l ∧ P.returns l = false := by
  induction ls using List.reverseRecOn with
  | nil => exact ⟨0, Nat.le_refl _, .nil, fun j l _ hl => by simp at hl⟩
  | append_singleton ls k ih =>
    obtain ⟨hls, hk⟩ := follows_concat.1 h
    obtain ⟨s, hs, hstart, hafter⟩ := ih hls
    rw [values_concat, List.length_append, List.length_singleton]
    by_cases hret : P.returns k = true
    · rw [if_pos hret]
      refine ⟨ls.length + 1, Nat.le_refl _, .snoc (val k) hstart hs (fun j hj hlt => ?_) hk hret,
        fun j l hj hl => ?_⟩
      · exact ⟨ls[j], hafter j _ hj (List.getElem?_eq_getElem hlt)⟩
      · have := (List.getElem?_eq_some_iff.1 hl).1
        rw [List.length_append, List.length_singleton] at this
        omega
    · rw [if_neg hret]
      refine ⟨s, Nat.le_succ_of_le hs, hstart, fun j l hj hl => ?_⟩
      by_cases hlt : j < ls.length
      · rw [List.getElem?_append_left hlt] at hl
        exact hafter j l hj hl
      · have hlen := (List.getElem?_eq_some_iff.1 hl).1
        rw [List.length_append, List.length_singleton] at hlen
        obtain rfl : j = ls.length := by omega
        rw [List.getElem?_append_right (Nat.le_refl _)] at hl
        simp only [Nat.sub_self, List.getElem?_cons_zero, Option.some.injEq] at hl
        subst hl
        exact ⟨hk, by simpa using hret⟩

/-- All values of a run were returned by where it starts with them. -/
theorem Follows.values_take_of_starts {ls : List L} (h : P.Follows val ls) {s : ℕ}
    (hs : P.Starts (P.values val ls) s) : P.values val (ls.take s) = P.values val ls := by
  obtain ⟨s', -, hstart, hafter⟩ := h.exists_starts
  obtain rfl : s' = s := hstart.unique hs
  have hdrop : (ls.drop s').filter P.returns = [] := by
    refine List.filter_eq_nil_iff.2 fun l hl hret => ?_
    obtain ⟨i, hi⟩ := List.mem_iff_getElem?.1 hl
    rw [List.getElem?_drop] at hi
    rw [(hafter _ l (Nat.le_add_right s' i) hi).2] at hret
    exact Bool.noConfusion hret
  calc P.values val (ls.take s')
      = ((ls.take s').filter P.returns ++ (ls.drop s').filter P.returns).map val := by
        rw [hdrop, List.append_nil, values]
    _ = P.values val ls := by rw [← List.filter_append, List.take_append_drop, values]

/-- Right after an action that returns a value. -/
theorem Follows.starts_of_returns {ls : List L} (h : P.Follows val ls) {j : ℕ} {l : L}
    (hl : ls[j]? = some l) (hret : P.returns l = true) :
    P.Starts (P.values val (ls.take (j + 1))) (j + 1) := by
  obtain ⟨s, hs, hstart, hafter⟩ := (h.take j).exists_starts
  have hj : (ls.take j).length = j := by
    rw [List.length_take]
    have := (List.getElem?_eq_some_iff.1 hl).1
    omega
  rw [hj] at hs
  rw [values_take_succ P val hl, if_pos hret]
  refine .snoc (val l) hstart hs (fun i hi hij => ?_) (h j l hl) hret
  have hi' : i < (ls.take j).length := by rwa [hj]
  exact ⟨(ls.take j)[i], hafter i _ hi (List.getElem?_eq_getElem hi')⟩

/-- An element that a filter keeps, and what the filter keeps up to there. -/
theorem exists_getElem?_filter (p : L → Bool) : ∀ (ls : List L) {r : ℕ} {l : L},
    (ls.filter p)[r]? = some l →
      ∃ k, ls[k]? = some l ∧ (ls.take (k + 1)).filter p = (ls.filter p).take (r + 1)
  | [], _, _, h => by simp at h
  | a :: ls, r, l, h => by
    by_cases ha : p a = true
    · rw [List.filter_cons_of_pos ha] at h
      cases r with
      | zero =>
        refine ⟨0, h, ?_⟩
        rw [List.filter_cons_of_pos ha, List.take_succ_cons, List.take_succ_cons,
          List.take_zero, List.take_zero, List.filter_cons_of_pos ha, List.filter_nil]
      | succ r =>
        obtain ⟨k, hk, htake⟩ := exists_getElem?_filter p ls h
        refine ⟨k + 1, hk, ?_⟩
        rw [List.take_succ_cons, List.filter_cons_of_pos ha, List.filter_cons_of_pos ha, htake,
          List.take_succ_cons]
    · rw [List.filter_cons_of_neg ha] at h
      obtain ⟨k, hk, htake⟩ := exists_getElem?_filter p ls h
      refine ⟨k + 1, hk, ?_⟩
      rw [List.take_succ_cons, List.filter_cons_of_neg ha, List.filter_cons_of_neg ha, htake]

/-- Where the first values of a run end: right after the action that returned the last of them. -/
theorem Follows.starts_take {ls : List L} (h : P.Follows val ls) {r : ℕ} {l : L}
    (hl : (ls.filter P.returns)[r]? = some l) :
    ∃ k, ls[k]? = some l ∧ P.values val (ls.take (k + 1)) = (P.values val ls).take (r + 1) ∧
      P.Starts ((P.values val ls).take (r + 1)) (k + 1) := by
  obtain ⟨k, hk, htake⟩ := exists_getElem?_filter P.returns ls hl
  have hvalues : P.values val (ls.take (k + 1)) = (P.values val ls).take (r + 1) := by
    rw [values, htake, List.map_take, ← values]
  have hret : P.returns l = true :=
    (List.mem_filter.1 (List.mem_of_getElem? hl)).2
  refine ⟨k, hk, hvalues, ?_⟩
  rw [← hvalues]
  exact h.starts_of_returns hk hret

/-! ## Segments -/

variable (P) in
/-- Consecutive actions under the values `p`, of which only the last may return a value. -/
structure Segment (p : List V) (s : ℕ) (b : List L) : Prop where
  start : P.Starts p s
  at_index : ∀ j l, b[j]? = some l → P.At p (s + j) l
  only_last : ∀ j l, j + 1 < b.length → b[j]? = some l → P.returns l = false

theorem Segment.nil {p : List V} {s : ℕ} (h : P.Starts p s) : P.Segment p s [] :=
  ⟨h, fun _ _ hl => by simp at hl, fun _ _ hj => absurd hj (Nat.not_lt_zero _)⟩

theorem Segment.concat {p : List V} {s : ℕ} {b : List L} (hb : P.Segment p s b)
    (hlast : ∀ l, b.getLast? = some l → P.returns l = false) {l : L}
    (hl : P.At p (s + b.length) l) : P.Segment p s (b ++ [l]) := by
  refine ⟨hb.start, fun j l' hl' => ?_, fun j l' hj hl' => ?_⟩
  · by_cases hj : j < b.length
    · rw [List.getElem?_append_left hj] at hl'
      exact hb.at_index j l' hl'
    · have hlen := (List.getElem?_eq_some_iff.1 hl').1
      rw [List.length_append, List.length_singleton] at hlen
      obtain rfl : j = b.length := by omega
      rw [List.getElem?_append_right (Nat.le_refl _)] at hl'
      simp only [Nat.sub_self, List.getElem?_cons_zero, Option.some.injEq] at hl'
      rwa [← hl']
  · rw [List.length_append, List.length_singleton] at hj
    have hjb : j < b.length := by omega
    rw [List.getElem?_append_left hjb] at hl'
    by_cases hend : j + 1 < b.length
    · exact hb.only_last j l' hend hl'
    · refine hlast l' ?_
      rw [List.getLast?_eq_getElem?, ← hl']
      congr 1
      omega

/-- **A run that is at the values of a segment stays there along it.** -/
theorem Segment.values_eq {p : List V} {s : ℕ} {b : List L} (hb : P.Segment p s b) {ls : List L}
    (h : P.Follows val ls) (hp : P.values val (ls.take s) = p) {j : ℕ} (hj : s + j ≤ ls.length)
    (hret : ∀ i l, i < j → b[i]? = some l → P.returns l = false) (hlen : j ≤ b.length) :
    P.values val (ls.take (s + j)) = p := by
  induction j with
  | zero => exact hp
  | succ j ih =>
    have hprev : P.values val (ls.take (s + j)) = p :=
      ih (by omega) (fun i l hi => hret i l (Nat.lt_succ_of_lt hi)) (by omega)
    have hl : ls[s + j]? = some ls[s + j] := List.getElem?_eq_getElem (by omega)
    have hlb : b[j]? = some b[j] := List.getElem?_eq_getElem (by omega)
    have hat := h (s + j) _ hl
    rw [hprev] at hat
    have hno : P.returns ls[s + j] = false := by
      rw [P.det hat (hb.at_index j _ hlb)]
      exact hret j _ (Nat.lt_succ_self j) hlb
    rw [← Nat.add_assoc, values_take_succ P val hl, hno, hprev]
    rfl

/-- Where the next segment starts. -/
theorem Segment.starts_concat {p : List V} {s : ℕ} {b : List L} (hb : P.Segment p s b) {l : L}
    (hl : b.getLast? = some l) (hret : P.returns l = true) (v : V) :
    P.Starts (p ++ [v]) (s + b.length) := by
  rw [List.getLast?_eq_getElem?] at hl
  have hpos : 0 < b.length := by
    have := (List.getElem?_eq_some_iff.1 hl).1
    omega
  have hat := hb.at_index _ l hl
  have hlen : s + b.length = s + (b.length - 1) + 1 := by omega
  rw [hlen]
  refine .snoc v hb.start (Nat.le_add_right _ _) (fun j hj hlt => ?_) hat hret
  have hj' : j - s < b.length := by omega
  have hk := hb.at_index (j - s) _ (List.getElem?_eq_getElem hj')
  rw [Nat.add_sub_cancel' hj] at hk
  exact ⟨_, hk, hb.only_last (j - s) _ (by omega) (List.getElem?_eq_getElem hj')⟩

/-- A run that is past all of a segment has the value that its last action returned. -/
theorem Segment.values_eq_concat {p : List V} {s : ℕ} {b : List L} (hb : P.Segment p s b)
    {ls : List L} (h : P.Follows val ls) (hp : P.values val (ls.take s) = p)
    (hlen : s + b.length ≤ ls.length) {l : L} (hl : b.getLast? = some l)
    (hret : P.returns l = true) :
    ∃ v, P.values val (ls.take (s + b.length)) = p ++ [v] := by
  rw [List.getLast?_eq_getElem?] at hl
  have hpos : 0 < b.length := by
    have := (List.getElem?_eq_some_iff.1 hl).1
    omega
  have hprev : P.values val (ls.take (s + (b.length - 1))) = p :=
    hb.values_eq h hp (by omega) (fun i k hi hk => hb.only_last i k (by omega) hk) (by omega)
  have hls : ls[s + (b.length - 1)]? = some ls[s + (b.length - 1)] :=
    List.getElem?_eq_getElem (by omega)
  have hat := h _ _ hls
  rw [hprev] at hat
  have hret' : P.returns ls[s + (b.length - 1)] = true := by
    rw [P.det hat (hb.at_index _ l hl)]
    exact hret
  have hsucc := values_take_succ P val hls
  rw [if_pos hret', hprev, Nat.add_assoc, Nat.sub_add_cancel hpos] at hsucc
  exact ⟨_, hsucc⟩

end Process

end GenMC
