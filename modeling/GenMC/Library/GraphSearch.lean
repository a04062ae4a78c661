import Mathlib.Logic.Function.Basic
import Mathlib.Logic.Relation
import Mathlib.Data.List.Count
import Mathlib.Tactic

/-!
# Depth-first search with node statuses

A depth-first search that keeps a status for each node: it has not been seen, it has been entered,
or it has been left after all its successors.  The statuses are kept in a vector, under a key of the
node.  The search stops at the first failure.  What fails is a successor that is `none`, and, if the
search looks for cycles, also an edge to a node that has been entered and not left.

* `visit_spec`: a visit with enough fuel either fails, and then something wrong can be reached, or
  it leaves the node, and then nothing wrong can be reached from the nodes that have been left.
* `searchFrom_eq_some_true_iff`: a search from some roots succeeds exactly when nothing wrong can be
  reached from them, where wrong is a failing successor or, if it looks for cycles, a cycle.

`allWhile` is a loop that stops at the first failure, and `allWhile_cases` its induction rule.
-/

set_option autoImplicit false

namespace GenMC
namespace GraphSearch

open Relation

/-- How far a search is with a node. -/
inductive NodeStatus where
  | unseen | entered | left
deriving DecidableEq, Repr, Inhabited

/-! ## Loops that stop at a failure -/

section Loop

variable {α σ : Type*}

/-- Goes over a list up to the first element that fails.  The result is `none` if the fuel is used
up. -/
def allWhile (f : α → σ → Option (Bool × σ)) : List α → σ → Option (Bool × σ)
  | [], st => some (true, st)
  | a :: as, st =>
    match f a st with
    | some (true, st') => allWhile f as st'
    | r => r

/-- **The rule for such loops.**  `P` is what holds with a part of the list behind, and `Q` is what
a failure shows. -/
theorem allWhile_cases {f : α → σ → Option (Bool × σ)} {l : List α} {st : σ}
    {P : List α → σ → Prop} {Q : Prop} (h0 : P [] st)
    (hstep : ∀ pre a s, a ∈ l → P pre s → (∃ s', f a s = some (true, s') ∧ P (pre ++ [a]) s') ∨
      ∃ s', f a s = some (false, s') ∧ Q) :
    (∃ st', allWhile f l st = some (true, st') ∧ P l st') ∨
      ∃ st', allWhile f l st = some (false, st') ∧ Q := by
  suffices h : ∀ (l' pre : List α) (s : σ), (∀ a ∈ l', a ∈ l) → P pre s →
      (∃ st', allWhile f l' s = some (true, st') ∧ P (pre ++ l') st') ∨
        ∃ st', allWhile f l' s = some (false, st') ∧ Q from
    h l [] st (fun _ ha => ha) h0
  intro l'
  induction l' with
  | nil =>
    intro pre s _ hP
    exact .inl ⟨s, rfl, by rwa [List.append_nil]⟩
  | cons a l' ih =>
    intro pre s hl hP
    rcases hstep pre a s (hl a List.mem_cons_self) hP with ⟨s', hs', hP'⟩ | ⟨s', hs', hQ⟩
    · have hunfold : allWhile f (a :: l') s = allWhile f l' s' := by
        rw [allWhile, hs']
      rw [hunfold, ← List.singleton_append, ← List.append_assoc]
      exact ih (pre ++ [a]) s' (fun b hb => hl b (List.mem_cons_of_mem _ hb)) hP'
    · exact .inr ⟨s', by rw [allWhile, hs'], hQ⟩

end Loop

/-! ## The search -/

variable {α κ : Type*} [DecidableEq κ]

/-- Follows an edge.  A successor that is `none` fails, and if `cyc` is set so does one that has
been entered. -/
def follow (key : α → κ) (cyc : Bool)
    (visit : α → (κ → NodeStatus) → Option (Bool × (κ → NodeStatus))) (o : Option α)
    (st : κ → NodeStatus) : Option (Bool × (κ → NodeStatus)) :=
  match o with
  | none => some (false, st)
  | some b =>
    match st (key b) with
    | .unseen => visit b st
    | .entered => some (!cyc, st)
    | .left => some (true, st)

/-- Visits a node: enters it, follows the edges to its successors and leaves it. -/
def visit (key : α → κ) (succ : α → List (Option α)) (cyc : Bool) :
    ℕ → α → (κ → NodeStatus) → Option (Bool × (κ → NodeStatus))
  | 0, _, _ => none
  | fuel + 1, a, st =>
    match allWhile (follow key cyc (visit key succ cyc fuel)) (succ a)
        (Function.update st (key a) .entered) with
    | some (true, st') => some (true, Function.update st' (key a) .left)
    | r => r

/-- Visits a node if it has not been seen. -/
def visitRoot (key : α → κ) (succ : α → List (Option α)) (cyc : Bool) (fuel : ℕ) (a : α)
    (st : κ → NodeStatus) : Option (Bool × (κ → NodeStatus)) :=
  if st (key a) = .unseen then visit key succ cyc fuel a st else some (true, st)

/-- A search from some roots, with no node seen at first. -/
def searchFrom (key : α → κ) (succ : α → List (Option α)) (cyc : Bool) (fuel : ℕ)
    (roots : List α) : Option Bool :=
  (allWhile (visitRoot key succ cyc fuel) roots fun _ => .unseen).map Prod.fst

/-- The edges of the graph. -/
def Edge (succ : α → List (Option α)) (a b : α) : Prop := some b ∈ succ a

/-- A node has a failing successor, or it is on a cycle if the search looks for cycles. -/
def Wrong (succ : α → List (Option α)) (cyc : Bool) (a : α) : Prop :=
  none ∈ succ a ∨ (cyc = true ∧ TransGen (Edge succ) a a)

/-- What is known about the nodes that have been left: nothing is wrong with them, and their
successors have been seen.  If the search looks for cycles they have even been left. -/
structure Settled (key : α → κ) (succ : α → List (Option α)) (cyc : Bool) (nodes : List α)
    (st : κ → NodeStatus) : Prop where
  fine : ∀ x ∈ nodes, st (key x) = .left → ¬ Wrong succ cyc x
  seen : ∀ x ∈ nodes, st (key x) = .left → ∀ y, Edge succ x y → st (key y) ≠ .unseen
  left : cyc = true → ∀ x ∈ nodes, st (key x) = .left → ∀ y, Edge succ x y → st (key y) = .left

/-- Statuses that a successful visit can lead to: what has been seen stays as it is, and nothing
stays entered. -/
structure Progress (st st' : κ → NodeStatus) : Prop where
  kept : ∀ k, st k ≠ .unseen → st' k = st k
  entered : ∀ k, st' k = .entered → st k = .entered

omit [DecidableEq κ] in
theorem Progress.refl (st : κ → NodeStatus) : Progress st st := ⟨fun _ _ => rfl, fun _ => id⟩

omit [DecidableEq κ] in
theorem Progress.trans {st st' st'' : κ → NodeStatus} (h : Progress st st')
    (h' : Progress st' st'') : Progress st st'' where
  kept k hk := by rw [h'.kept k (by rwa [h.kept k hk]), h.kept k hk]
  entered k hk := h.entered k (h'.entered k hk)

/-- The number of nodes that have not been seen. -/
def unseenCount (key : α → κ) (nodes : List α) (st : κ → NodeStatus) : ℕ :=
  nodes.countP fun x => st (key x) = .unseen

variable {key : α → κ} {succ : α → List (Option α)} {cyc : Bool} {nodes : List α}
  {st st' : κ → NodeStatus}

omit [DecidableEq κ] in
theorem Progress.unseenCount_le (h : Progress st st') :
    unseenCount key nodes st' ≤ unseenCount key nodes st := by
  refine List.countP_mono_left fun x _ hx => ?_
  rw [decide_eq_true_eq] at hx ⊢
  by_contra hne
  rw [h.kept _ hne] at hx
  exact hne hx

theorem unseenCount_update_lt {a : α} (ha : a ∈ nodes) (hst : st (key a) = .unseen) :
    unseenCount key nodes (Function.update st (key a) .entered) < unseenCount key nodes st := by
  have hle : ∀ l : List α, unseenCount key l (Function.update st (key a) .entered) ≤
      unseenCount key l st := by
    refine fun l => List.countP_mono_left fun x _ hx => ?_
    rw [decide_eq_true_eq] at hx ⊢
    by_cases hxa : key x = key a
    · rwa [hxa]
    · rwa [Function.update_of_ne hxa] at hx
  obtain ⟨l₁, l₂, rfl⟩ := List.append_of_mem ha
  have h₁ := hle l₁
  have h₂ := hle l₂
  simp only [unseenCount, List.countP_append, List.countP_cons, Function.update_self,
    hst] at h₁ h₂ ⊢
  simp only [reduceCtorEq, decide_false, decide_true, if_true, Bool.false_eq_true, if_false]
  omega

/-- Entering a node keeps what is known about the nodes that have been left. -/
theorem Settled.enter (h : Settled key succ cyc nodes st) {a : α} (hst : st (key a) = .unseen) :
    Settled key succ cyc nodes (Function.update st (key a) .entered) := by
  have hleft : ∀ x, Function.update st (key a) .entered (key x) = .left → st (key x) = .left := by
    intro x hx
    by_cases hxa : key x = key a
    · rw [hxa, Function.update_self] at hx
      exact absurd hx (by decide)
    · rwa [Function.update_of_ne hxa] at hx
  refine ⟨fun x hx hl => h.fine x hx (hleft x hl), fun x hx hl y hxy => ?_,
    fun hc x hx hl y hxy => ?_⟩
  · by_cases hya : key y = key a
    · rw [hya, Function.update_self]
      decide
    · rw [Function.update_of_ne hya]
      exact h.seen x hx (hleft x hl) y hxy
  · have hy := h.left hc x hx (hleft x hl) y hxy
    have hya : key y ≠ key a := fun hya => by
      rw [hya, hst] at hy
      exact absurd hy (by decide)
    rwa [Function.update_of_ne hya]

section Correct

variable (hclosed : ∀ x ∈ nodes, ∀ y, Edge succ x y → y ∈ nodes)
  (hkey : ∀ x ∈ nodes, ∀ y ∈ nodes, key x = key y → x = y)

include hclosed

omit [DecidableEq κ] in
/-- What has been left is closed under edges, if the search looks for cycles. -/
theorem Settled.left_of_transGen (h : Settled key succ cyc nodes st) (hcyc : cyc = true) {x y : α}
    (hx : x ∈ nodes) (hl : st (key x) = .left) (hxy : TransGen (Edge succ) x y) :
    y ∈ nodes ∧ st (key y) = .left := by
  induction hxy with
  | single hxy => exact ⟨hclosed x hx _ hxy, h.left hcyc x hx hl _ hxy⟩
  | tail _ hyz ih => exact ⟨hclosed _ ih.1 _ hyz, h.left hcyc _ ih.1 ih.2 _ hyz⟩

omit [DecidableEq κ] in
/-- **What following an edge of an entered node does**, given what visiting a node does. -/
theorem follow_cases {visit : α → (κ → NodeStatus) → Option (Bool × (κ → NodeStatus))} {a : α}
    {o : Option α} (ha : a ∈ nodes) (ho : o ∈ succ a) (hset : Settled key succ cyc nodes st)
    (hway : ∀ y ∈ nodes, st (key y) = .entered → ReflTransGen (Edge succ) y a)
    (hvisit : ∀ b, o = some b → st (key b) = .unseen →
      (∃ st', visit b st = some (true, st') ∧ Progress st st' ∧ Settled key succ cyc nodes st' ∧
        st' (key b) = .left) ∨
      ∃ st', visit b st = some (false, st') ∧
        ∃ x, ReflTransGen (Edge succ) b x ∧ Wrong succ cyc x) :
    (∃ st', follow key cyc visit o st = some (true, st') ∧ Progress st st' ∧
      Settled key succ cyc nodes st' ∧
      ∃ b, o = some b ∧ st' (key b) ≠ .unseen ∧ (cyc = true → st' (key b) = .left)) ∨
    ∃ st', follow key cyc visit o st = some (false, st') ∧
      ∃ x, ReflTransGen (Edge succ) a x ∧ Wrong succ cyc x := by
  cases o with
  | none => exact .inr ⟨st, rfl, a, .refl, .inl ho⟩
  | some b =>
    cases hb : st (key b) with
    | unseen =>
      have hfollow : follow key cyc visit (some b) st = visit b st := by
        simp only [follow, hb]
      rw [hfollow]
      rcases hvisit b rfl hb with ⟨st', hst', hprog, hset', hl⟩ | ⟨st', hst', x, hbx, hx⟩
      · exact .inl ⟨st', hst', hprog, hset', b, rfl, by rw [hl]; decide, fun _ => hl⟩
      · exact .inr ⟨st', hst', x, .head ho hbx, hx⟩
    | entered =>
      have hfollow : follow key cyc visit (some b) st = some (!cyc, st) := by
        simp only [follow, hb]
      rw [hfollow]
      cases cyc with
      | false =>
        exact .inl ⟨st, rfl, .refl st, hset, b, rfl, by rw [hb]; decide,
          fun h => absurd h (by decide)⟩
      | true =>
        -- the edge closes a cycle
        have hba := hway b (hclosed a ha b ho) hb
        exact .inr ⟨st, rfl, a, .refl, .inr ⟨rfl, .head' ho hba⟩⟩
    | left =>
      have hfollow : follow key cyc visit (some b) st = some (true, st) := by
        simp only [follow, hb]
      rw [hfollow]
      exact .inl ⟨st, rfl, .refl st, hset, b, rfl, by rw [hb]; decide, fun _ => hb⟩

include hkey

/-- Leaving a node all of whose successors have been seen without a failure. -/
theorem Settled.leave (h : Settled key succ cyc nodes st) {a : α} (ha : a ∈ nodes)
    (hst : st (key a) = .entered) (hfine : none ∉ succ a)
    (hseen : ∀ y, Edge succ a y → st (key y) ≠ .unseen)
    (hleft : cyc = true → ∀ y, Edge succ a y → st (key y) = .left) :
    Settled key succ cyc nodes (Function.update st (key a) .left) := by
  have hcases : ∀ x ∈ nodes, Function.update st (key a) .left (key x) = .left →
      x = a ∨ st (key x) = .left := by
    intro x hx hl
    by_cases hxa : key x = key a
    · exact .inl (hkey x hx a ha hxa)
    · rw [Function.update_of_ne hxa] at hl
      exact .inr hl
  have hup : ∀ y, st (key y) ≠ .unseen → Function.update st (key a) .left (key y) ≠ .unseen := by
    intro y hy
    by_cases hya : key y = key a
    · rw [hya, Function.update_self]
      decide
    · rwa [Function.update_of_ne hya]
  have hupLeft : ∀ y, st (key y) = .left → Function.update st (key a) .left (key y) = .left := by
    intro y hy
    by_cases hya : key y = key a
    · rw [hya, Function.update_self]
    · rwa [Function.update_of_ne hya]
  refine ⟨fun x hx hl => ?_, fun x hx hl y hxy => ?_, fun hc x hx hl y hxy => ?_⟩
  · rcases hcases x hx hl with rfl | hl
    · rintro (hnone | ⟨hc, hcycle⟩)
      · exact hfine hnone
      · -- a cycle leads through a successor that has been left, and so back to a left node
        obtain ⟨y, hxy, hyx⟩ := TransGen.head'_iff.1 hcycle
        have hy := hleft hc y hxy
        rcases reflTransGen_iff_eq_or_transGen.1 hyx with rfl | hyx
        · rw [hst] at hy
          exact absurd hy (by decide)
        · have := (h.left_of_transGen hclosed hc (hclosed _ hx y hxy) hy hyx).2
          rw [hst] at this
          exact absurd this (by decide)
    · exact h.fine x hx hl
  · rcases hcases x hx hl with rfl | hl
    · exact hup y (hseen y hxy)
    · exact hup y (h.seen x hx hl y hxy)
  · rcases hcases x hx hl with rfl | hl
    · exact hupLeft y (hleft hc y hxy)
    · exact hupLeft y (h.left hc x hx hl y hxy)

/-- **What a visit does**, with enough fuel and with the entered nodes on the way to its node. -/
theorem visit_spec (fuel : ℕ) (a : α) (st : κ → NodeStatus) (ha : a ∈ nodes)
    (hst : st (key a) = .unseen) (hset : Settled key succ cyc nodes st)
    (hway : ∀ y ∈ nodes, st (key y) = .entered → ReflTransGen (Edge succ) y a)
    (hfuel : unseenCount key nodes st ≤ fuel) :
    (∃ st', visit key succ cyc fuel a st = some (true, st') ∧ Progress st st' ∧
        Settled key succ cyc nodes st' ∧ st' (key a) = .left) ∨
      ∃ st', visit key succ cyc fuel a st = some (false, st') ∧
        ∃ x, ReflTransGen (Edge succ) a x ∧ Wrong succ cyc x := by
  induction fuel generalizing a st with
  | zero =>
    have hpos := unseenCount_update_lt ha hst
    omega
  | succ fuel ih =>
    have hlt := unseenCount_update_lt ha hst
    -- what holds when some of the successors are behind
    let P : List (Option α) → (κ → NodeStatus) → Prop := fun pre s =>
      Progress (Function.update st (key a) .entered) s ∧ Settled key succ cyc nodes s ∧
        ∀ o ∈ pre, ∃ y, o = some y ∧ s (key y) ≠ .unseen ∧ (cyc = true → s (key y) = .left)
    have hempty : P [] (Function.update st (key a) .entered) :=
      ⟨.refl _, hset.enter hst, fun o ho => absurd ho List.not_mem_nil⟩
    have hstep : ∀ pre o s, o ∈ succ a → P pre s →
        (∃ s', follow key cyc (visit key succ cyc fuel) o s = some (true, s') ∧
          P (pre ++ [o]) s') ∨
        ∃ s', follow key cyc (visit key succ cyc fuel) o s = some (false, s') ∧
          ∃ x, ReflTransGen (Edge succ) a x ∧ Wrong succ cyc x := by
      rintro pre o s ho ⟨hprog, hsett, hpre⟩
      have hwaya : ∀ y ∈ nodes, s (key y) = .entered → ReflTransGen (Edge succ) y a := by
        intro y hy hye
        have hye' := hprog.entered _ hye
        by_cases hya : key y = key a
        · rw [hkey y hy a ha hya]
        · rw [Function.update_of_ne hya] at hye'
          exact hway y hy hye'
      refine (follow_cases hclosed ha ho hsett hwaya fun b hob hb => ?_).imp_left ?_
      · have hab : Edge succ a b := by
          rw [Edge, ← hob]
          exact ho
        have hcount : unseenCount key nodes s ≤ _ := hprog.unseenCount_le
        exact ih b s (hclosed a ha b hab) hb hsett (fun y hy hye => (hwaya y hy hye).tail hab)
          (by omega)
      · rintro ⟨s', hs', hp, hsett', hlast⟩
        refine ⟨s', hs', hprog.trans hp, hsett', fun o' ho' => ?_⟩
        rcases List.mem_append.1 ho' with ho' | ho'
        · obtain ⟨y, rfl, hy, hyl⟩ := hpre o' ho'
          exact ⟨y, rfl, by rwa [hp.kept _ hy], fun hc => by rw [hp.kept _ hy, hyl hc]⟩
        · rwa [List.mem_singleton.1 ho']
    refine (allWhile_cases hempty hstep).imp ?_ ?_
    · rintro ⟨s, hs, hprog, hsett, hsucc⟩
      have hall : ∀ y, Edge succ a y → s (key y) ≠ .unseen ∧ (cyc = true → s (key y) = .left) := by
        intro y hy
        obtain ⟨y', heq, hy'⟩ := hsucc _ hy
        obtain rfl := Option.some.inj heq
        exact hy'
      have hentered : s (key a) = .entered := by
        rw [hprog.kept (key a) (by rw [Function.update_self]; decide), Function.update_self]
      refine ⟨Function.update s (key a) .left, ?_, ⟨fun k hk => ?_, fun k hk => ?_⟩, ?_, ?_⟩
      · rw [visit, hs]
      · have hka : k ≠ key a := fun h => hk (by rw [h, hst])
        rw [Function.update_of_ne hka, hprog.kept k (by rwa [Function.update_of_ne hka]),
          Function.update_of_ne hka]
      · have hka : k ≠ key a := fun h => by
          rw [h, Function.update_self] at hk
          exact absurd hk (by decide)
        rw [Function.update_of_ne hka] at hk
        have := hprog.entered k hk
        rwa [Function.update_of_ne hka] at this
      · refine hsett.leave hclosed hkey ha hentered (fun hnone => ?_) (fun y hy => (hall y hy).1)
          (fun hc y hy => (hall y hy).2 hc)
        obtain ⟨y, hy, -⟩ := hsucc none hnone
        exact absurd hy (by simp)
      · exact Function.update_self ..
    · rintro ⟨s, hs, hwrong⟩
      exact ⟨s, by rw [visit, hs], hwrong⟩

/-- **What a search from some roots does.** -/
theorem searchFrom_cases (cyc : Bool) {fuel : ℕ} {roots : List α} (hroots : ∀ a ∈ roots, a ∈ nodes)
    (hfuel : nodes.length ≤ fuel) :
    (searchFrom key succ cyc fuel roots = some true ∧
        ∀ a ∈ roots, ∀ x, ReflTransGen (Edge succ) a x → ¬ Wrong succ cyc x) ∨
      (searchFrom key succ cyc fuel roots = some false ∧
        ∃ a ∈ roots, ∃ x, ReflTransGen (Edge succ) a x ∧ Wrong succ cyc x) := by
  have hcount : ∀ s : κ → NodeStatus, unseenCount key nodes s ≤ fuel := fun s =>
    List.countP_le_length.trans hfuel
  -- between two roots nothing is entered
  let P : List α → (κ → NodeStatus) → Prop := fun pre s =>
    (∀ k, s k ≠ .entered) ∧ Settled key succ cyc nodes s ∧ ∀ a ∈ pre, s (key a) = .left
  have hempty : P [] fun _ => .unseen := by
    refine ⟨fun k h => NodeStatus.noConfusion h, ⟨fun x _ h => ?_, fun x _ h => ?_,
      fun _ x _ h => ?_⟩, fun a ha => absurd ha List.not_mem_nil⟩ <;> exact absurd h (by decide)
  have hstep : ∀ pre a s, a ∈ roots → P pre s →
      (∃ s', visitRoot key succ cyc fuel a s = some (true, s') ∧ P (pre ++ [a]) s') ∨
      ∃ s', visitRoot key succ cyc fuel a s = some (false, s') ∧
        ∃ a ∈ roots, ∃ x, ReflTransGen (Edge succ) a x ∧ Wrong succ cyc x := by
    rintro pre a s ha ⟨hent, hsett, hleft⟩
    have hconcat : ∀ {s'}, Progress s s' → Settled key succ cyc nodes s' → s' (key a) = .left →
        P (pre ++ [a]) s' := by
      intro s' hs' hsett' hl
      refine ⟨fun k hk => hent k (hs'.entered k hk), hsett', fun b hb => ?_⟩
      rcases List.mem_append.1 hb with hb | hb
      · rw [hs'.kept _ (by rw [hleft b hb]; decide), hleft b hb]
      · rwa [List.mem_singleton.1 hb]
    rw [visitRoot]
    split
    · rename_i hs
      rcases visit_spec hclosed hkey fuel a s (hroots a ha) hs hsett
        (fun y _ hye => absurd hye (hent _)) (hcount s) with
        ⟨s', hs', hp, hsett', hl⟩ | ⟨s', hs', x, hax, hx⟩
      · exact .inl ⟨s', hs', hconcat hp hsett' hl⟩
      · exact .inr ⟨s', hs', a, ha, x, hax, hx⟩
    · rename_i hs
      refine .inl ⟨s, rfl, hconcat (.refl s) hsett ?_⟩
      cases hsa : s (key a) with
      | unseen => exact absurd hsa hs
      | entered => exact absurd hsa (hent _)
      | left => rfl
  refine (allWhile_cases hempty hstep).imp ?_ ?_
  · rintro ⟨s, hs, hent, hsett, hleft⟩
    refine ⟨by rw [searchFrom, hs]; rfl, fun a ha x hax => ?_⟩
    have hx : x ∈ nodes ∧ s (key x) = .left := by
      induction hax with
      | refl => exact ⟨hroots a ha, hleft a ha⟩
      | @tail y z _ hyz ih =>
        refine ⟨hclosed y ih.1 z hyz, ?_⟩
        have hz := hsett.seen y ih.1 ih.2 z hyz
        cases hsz : s (key z) with
        | unseen => exact absurd hsz hz
        | entered => exact absurd hsz (hent _)
        | left => rfl
    exact hsett.fine x hx.1 hx.2
  · rintro ⟨s, hs, hwrong⟩
    exact ⟨by rw [searchFrom, hs]; rfl, hwrong⟩

/-- **A search succeeds exactly when nothing wrong can be reached.** -/
theorem searchFrom_eq_some_true_iff {fuel : ℕ} {roots : List α} (hroots : ∀ a ∈ roots, a ∈ nodes)
    (hfuel : nodes.length ≤ fuel) :
    searchFrom key succ cyc fuel roots = some true ↔
      ∀ a ∈ roots, ∀ x, ReflTransGen (Edge succ) a x → ¬ Wrong succ cyc x := by
  rcases searchFrom_cases hclosed hkey cyc hroots hfuel with
    ⟨h, hall⟩ | ⟨h, a, ha, x, hax, hx⟩
  · exact iff_of_true h hall
  · rw [h]
    exact iff_of_false (by decide) fun hall => hall a ha x hax hx

end Correct

end GraphSearch
end GenMC
