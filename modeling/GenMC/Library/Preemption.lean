import Mathlib.Data.List.Basic
import Mathlib.Logic.Function.Basic
import Mathlib.Logic.Relation
import Mathlib.Order.Bounds.Basic
import Mathlib.Order.Nat

/-!
# Schedules and their preemptions

A prefix of a concurrent execution is given by the number of events that each thread has in it.  A
schedule of a prefix is found from its end: take away an event that is maximal among those left,
until none is left.  Going on with another thread is a preemption when the thread that is left
could have gone on.

* `System.Sched` and `System.cost`: the schedules of a prefix, last event first, and the number of
  preemptions in them.
* `System.Sched.exchange`: an event that is maximal can be moved to the end of a schedule.
* `System.exists_front`: **this costs no preemption**, when the thread is free to go on after that
  event and no other thread has to wait because of it.
* `System.Greedy`: the schedules in which a thread is never left while it may be followed, and the
  rules `System.isLeast_of_takes` and `System.isLeast_of_leaves` by which a search finds the least
  number of preemptions among them.
* `System.exists_greedy`: **no schedule is better than the greedy ones**, when only events are
  followed that stand in nobody's way.

Nothing is said about what the events are.  Which ones are maximal and which threads could go on
may depend on the prefix in any way, as long as fewer events leave a maximal event maximal.
-/

set_option autoImplicit false

namespace GenMC

/-- What a schedule may end with. -/
structure System (ι : Type*) [DecidableEq ι] where
  /-- The last event of a thread is maximal in the prefix. -/
  maximal : (ι → ℕ) → ι → Bool
  /-- Taking events of other threads away keeps an event maximal. -/
  mono : ∀ v t u, t ≠ u → maximal v t = true →
    maximal (Function.update v u (v u - 1)) t = true

namespace System

variable {ι : Type*} [DecidableEq ι] {S : System ι}

/-- A prefix without the last event of a thread. -/
def shrink (v : ι → ℕ) (t : ι) : ι → ℕ := Function.update v t (v t - 1)

theorem shrink_self (v : ι → ℕ) (t : ι) : shrink v t t = v t - 1 := Function.update_self ..

theorem shrink_of_ne (v : ι → ℕ) {t u : ι} (h : u ≠ t) : shrink v t u = v u :=
  Function.update_of_ne h ..

theorem shrink_comm (v : ι → ℕ) {t u : ι} (h : t ≠ u) :
    shrink (shrink v t) u = shrink (shrink v u) t := by
  rw [shrink, shrink_of_ne v h.symm, shrink, shrink, shrink_of_ne v h]
  exact Function.update_comm h ..

/-- The schedules of a prefix, from the last event to the first. -/
inductive Sched (S : System ι) : (ι → ℕ) → List ι → Prop
  | nil {v : ι → ℕ} (h : ∀ t, v t = 0) : Sched S v []
  | cons {v : ι → ℕ} {t : ι} {σ : List ι} (hpos : v t ≠ 0) (hmax : S.maximal v t = true)
      (h : Sched S (shrink v t) σ) : Sched S v (t :: σ)

/-- A thread that is left counts when it is not the one that goes on, and could have gone on. -/
def switch (enabled : (ι → ℕ) → ι → Bool) (v : ι → ℕ) (t a : ι) : ℕ :=
  if a ≠ t ∧ enabled v a = true then 1 else 0

/-- The preemptions of a schedule of `v` after which thread `t` goes on. -/
def cost (enabled : (ι → ℕ) → ι → Bool) : (ι → ℕ) → ι → List ι → ℕ
  | _, _, [] => 0
  | v, t, a :: σ => switch enabled v t a + cost enabled (shrink v a) a σ

variable {enabled : (ι → ℕ) → ι → Bool}

theorem switch_self (v : ι → ℕ) (t : ι) : switch enabled v t t = 0 := if_neg fun h => h.1 rfl

theorem switch_le_one (v : ι → ℕ) (t a : ι) : switch enabled v t a ≤ 1 := by
  rw [switch]
  split <;> omega

/-- Who goes on next makes a difference of at most one. -/
theorem cost_le_succ (v : ι → ℕ) (t u : ι) (σ : List ι) :
    cost enabled v t σ ≤ cost enabled v u σ + 1 := by
  cases σ with
  | nil => exact Nat.zero_le _
  | cons a σ =>
    have : switch enabled v t a ≤ 1 := switch_le_one v t a
    rw [cost, cost]
    omega

/-- Every event of a prefix is in each of its schedules. -/
theorem Sched.mem {v : ι → ℕ} {σ : List ι} (h : S.Sched v σ) {t : ι} (ht : v t ≠ 0) : t ∈ σ := by
  induction h with
  | nil hzero => exact absurd (hzero t) ht
  | @cons v a σ hpos hmax h ih =>
    by_cases hta : t = a
    · subst hta
      exact List.mem_cons_self ..
    · exact List.mem_cons_of_mem _ (ih (by rwa [shrink_of_ne v hta]))

/-! ## Moving an event to the end -/

/-- The maximal event of a thread can be taken out of a schedule. -/
theorem Sched.exchange {t : ι} {α : List ι} (β : List ι) : ∀ {v : ι → ℕ},
    S.Sched v (β ++ t :: α) → t ∉ β → S.maximal v t = true → S.Sched (shrink v t) (β ++ α) := by
  induction β with
  | nil =>
    intro v h _ _
    cases h with
    | cons _ _ h => exact h
  | cons b β ih =>
    intro v h ht hmax
    obtain ⟨htb, htβ⟩ := not_or.1 (List.mem_cons.not.1 ht)
    cases h with
    | cons hpos hb h =>
      refine .cons ?_ (S.mono v b t (Ne.symm htb) hb) ?_
      · rwa [shrink_of_ne v (Ne.symm htb)]
      · have := ih h htβ (S.mono v t b htb hmax)
        rwa [shrink_comm v htb]

/-- A prefix is found from another one by taking away maximal events of threads other than `t`. -/
def Below (S : System ι) (t : ι) : (ι → ℕ) → (ι → ℕ) → Prop :=
  Relation.ReflTransGen fun v w => ∃ u, u ≠ t ∧ v u ≠ 0 ∧ S.maximal v u = true ∧ w = shrink v u

theorem Below.eq {v w : ι → ℕ} {t : ι} (h : S.Below t v w) : w t = v t := by
  induction h with
  | refl => rfl
  | tail _ hstep ih =>
    obtain ⟨u, hut, -, -, rfl⟩ := hstep
    rw [shrink_of_ne _ (Ne.symm hut), ih]

theorem Below.maximal {v w : ι → ℕ} {t : ι} (h : S.Below t v w) (hmax : S.maximal v t = true) :
    S.maximal w t = true := by
  induction h with
  | refl => exact hmax
  | tail _ hstep ih =>
    obtain ⟨u, hut, -, -, rfl⟩ := hstep
    exact S.mono _ t u (Ne.symm hut) ih

/-- The last event of thread `t` stands in nobody's way: the thread is free to go on after it, and a
thread that could go on without it can go on with it, in all prefixes of `v` that end with it. -/
structure Harmless (S : System ι) (enabled : (ι → ℕ) → ι → Bool) (v : ι → ℕ) (t : ι) :
    Prop where
  free : ∀ w : ι → ℕ, S.Below t v w → enabled w t = true
  opens : ∀ (w : ι → ℕ) (u : ι), S.Below t v w → u ≠ t → w u ≠ 0 → S.maximal w u = true →
    enabled (shrink w t) u = true → enabled w u = true

theorem Harmless.shrink {v : ι → ℕ} {t b : ι} (h : S.Harmless enabled v t) (hbt : b ≠ t)
    (hb : v b ≠ 0) (hmax : S.maximal v b = true) : S.Harmless enabled (shrink v b) t := by
  have hbelow : ∀ w, S.Below t (System.shrink v b) w → S.Below t v w := fun w hw =>
    .head ⟨b, hbt, hb, hmax, rfl⟩ hw
  exact ⟨fun w hw => h.free w (hbelow w hw), fun w u hw => h.opens w u (hbelow w hw)⟩

/-- Taking a harmless event out of the middle of a schedule costs nothing. -/
theorem cost_exchange_le {t : ι} {α : List ι} (β : List ι) : ∀ {v : ι → ℕ} (u : ι), β ≠ [] →
    S.Sched v (β ++ t :: α) → t ∉ β → S.maximal v t = true → S.Harmless enabled v t →
    cost enabled (shrink v t) u (β ++ α) ≤ cost enabled v u (β ++ t :: α) := by
  induction β with
  | nil => exact fun _ h => absurd rfl h
  | cons b β ih =>
    intro v u _ h ht hmax hharm
    obtain ⟨htb, htβ⟩ := not_or.1 (List.mem_cons.not.1 ht)
    cases h with
    | cons hpos hb h =>
      have hfirst : switch enabled (shrink v t) u b ≤ switch enabled v u b := by
        rw [switch, switch]
        split
        · rename_i hc
          rw [if_pos ⟨hc.1, hharm.opens v b .refl (Ne.symm htb) hpos hb hc.2⟩]
        · exact Nat.zero_le _
      have hmax' := S.mono v t b htb hmax
      rw [List.cons_append, List.cons_append, cost, cost, shrink_comm v htb]
      refine Nat.add_le_add hfirst ?_
      by_cases hβ : β = []
      · subst hβ
        -- the thread was left although it could go on, so there is a preemption to spare
        have hfree : enabled (shrink v b) t = true :=
          (hharm.shrink (Ne.symm htb) hpos hb).free _ .refl
        rw [List.nil_append, List.nil_append, cost, switch, if_pos ⟨htb, hfree⟩, Nat.add_comm]
        exact cost_le_succ _ _ _ _
      · exact ih b hβ h htβ hmax' (hharm.shrink (Ne.symm htb) hpos hb)

/-- **A harmless event may come last.**  Every schedule can be rearranged so that it ends with that
event, without more preemptions, when its thread goes on. -/
theorem exists_front {v : ι → ℕ} {t : ι} (hpos : v t ≠ 0) (hmax : S.maximal v t = true)
    (hharm : S.Harmless enabled v t) {σ : List ι} (h : S.Sched v σ) :
    ∃ σ', S.Sched (shrink v t) σ' ∧ σ'.length + 1 = σ.length ∧
      cost enabled (shrink v t) t σ' ≤ cost enabled v t σ := by
  obtain ⟨β, α, rfl, hβ⟩ := List.eq_append_cons_of_mem (h.mem hpos)
  refine ⟨β ++ α, h.exchange β hβ hmax, ?_, ?_⟩
  · rw [List.length_append, List.length_append, List.length_cons, Nat.add_assoc]
  · by_cases hnil : β = []
    · subst hnil
      rw [List.nil_append, List.nil_append, cost, switch_self, Nat.zero_add]
    · exact cost_exchange_le β t hnil h hβ hmax hharm

/-! ## Greedy schedules -/

variable {follow : (ι → ℕ) → ι → Bool}

/-- The thread has a last event in the prefix that is maximal, and it may be followed. -/
def Takes (S : System ι) (follow : (ι → ℕ) → ι → Bool) (v : ι → ℕ) (t : ι) : Prop :=
  v t ≠ 0 ∧ S.maximal v t = true ∧ follow v t = true

/-- A schedule of `v` after which `t` goes on, and in which no thread is left that can be taken. -/
def Greedy (S : System ι) (follow : (ι → ℕ) → ι → Bool) : (ι → ℕ) → ι → List ι → Prop
  | _, _, [] => True
  | v, t, a :: σ => (a ≠ t → ¬ S.Takes follow v t) ∧ S.Greedy follow (shrink v a) a σ

/-- The preemptions of the greedy schedules. -/
def greedyCosts (S : System ι) (follow enabled : (ι → ℕ) → ι → Bool) (v : ι → ℕ) (t : ι) :
    Set ℕ :=
  {c | ∃ σ, S.Sched v σ ∧ S.Greedy follow v t σ ∧ cost enabled v t σ = c}

theorem isLeast_zero {v : ι → ℕ} (h : ∀ t, v t = 0) (t : ι) :
    IsLeast (S.greedyCosts follow enabled v t) 0 :=
  ⟨⟨[], .nil h, trivial, rfl⟩, fun _ _ => Nat.zero_le _⟩

/-- Taking the thread that goes on is the only way to start a greedy schedule. -/
theorem greedyCosts_of_takes {v : ι → ℕ} {t : ι} (h : S.Takes follow v t) :
    S.greedyCosts follow enabled v t = S.greedyCosts follow enabled (shrink v t) t := by
  ext c
  refine ⟨?_, ?_⟩
  · rintro ⟨σ, hσ, hgreedy, rfl⟩
    cases hσ with
    | nil hzero => exact absurd (hzero t) h.1
    | @cons _ a σ _ _ hσ =>
      obtain ⟨hleave, hgreedy⟩ := hgreedy
      have hat : a = t := not_not.1 fun hat => hleave hat h
      subst hat
      refine ⟨σ, hσ, hgreedy, ?_⟩
      rw [cost, switch_self, Nat.zero_add]
  · rintro ⟨σ, hσ, hgreedy, rfl⟩
    refine ⟨t :: σ, .cons h.1 h.2.1 hσ, ⟨fun hne => absurd rfl hne, hgreedy⟩, ?_⟩
    rw [cost, switch_self, Nat.zero_add]

theorem isLeast_of_takes {v : ι → ℕ} {t : ι} {c : ℕ} (h : S.Takes follow v t)
    (hc : IsLeast (S.greedyCosts follow enabled (shrink v t) t) c) :
    IsLeast (S.greedyCosts follow enabled v t) c := by
  rwa [greedyCosts_of_takes h]

/-- When the thread that goes on cannot be taken, the least cost is found by trying all threads that
the prefix may end with. -/
theorem isLeast_of_leaves {v : ι → ℕ} {t : ι} {c : ℕ} (h : ¬ S.Takes follow v t)
    (hpos : ∃ a, v a ≠ 0) (f : ι → ℕ)
    (hf : ∀ a, v a ≠ 0 → S.maximal v a = true →
      IsLeast (S.greedyCosts follow enabled (shrink v a) a) (f a))
    (hc : ∃ a, v a ≠ 0 ∧ S.maximal v a = true ∧ switch enabled v t a + f a = c)
    (hle : ∀ a, v a ≠ 0 → S.maximal v a = true → c ≤ switch enabled v t a + f a) :
    IsLeast (S.greedyCosts follow enabled v t) c := by
  refine ⟨?_, ?_⟩
  · obtain ⟨a, ha, hmax, rfl⟩ := hc
    obtain ⟨σ, hσ, hgreedy, hcost⟩ := (hf a ha hmax).1
    refine ⟨a :: σ, .cons ha hmax hσ, ⟨fun _ => h, hgreedy⟩, ?_⟩
    rw [cost, hcost]
  · rintro _ ⟨σ, hσ, hgreedy, rfl⟩
    cases hσ with
    | nil hzero =>
      obtain ⟨b, hb⟩ := hpos
      exact absurd (hzero b) hb
    | @cons _ b σ hb hbmax hrest =>
      rw [cost]
      exact (hle b hb hbmax).trans
        (Nat.add_le_add_left ((hf b hb hbmax).2 ⟨σ, hrest, hgreedy.2, rfl⟩) _)

/-- **No schedule is better than the greedy ones**, when the events that can be taken are harmless.
The prefixes are below `full`, and a thread that goes on has events left. -/
theorem exists_greedy {full : ι → ℕ}
    (hharm : ∀ v ≤ full, ∀ t, v t < full t → S.Takes follow v t → S.Harmless enabled v t) :
    ∀ (n : ℕ) (v : ι → ℕ) (t : ι) (σ : List ι), σ.length = n → v ≤ full → v t < full t →
      S.Sched v σ →
        ∃ σ', S.Sched v σ' ∧ S.Greedy follow v t σ' ∧ cost enabled v t σ' ≤ cost enabled v t σ := by
  have hshrink : ∀ (v : ι → ℕ) (a : ι), v ≤ full → shrink v a ≤ full := by
    intro v a hv u
    by_cases hua : u = a
    · subst hua
      rw [shrink_self]
      exact (Nat.sub_le _ _).trans (hv u)
    · rw [shrink_of_ne v hua]
      exact hv u
  have hlt : ∀ (v : ι → ℕ) (a : ι), v ≤ full → v a ≠ 0 → shrink v a a < full a := by
    intro v a hv ha
    rw [shrink_self]
    have : v a ≤ full a := hv a
    omega
  intro n
  induction n with
  | zero =>
    intro v t σ hlen _ _ hσ
    rw [List.length_eq_zero_iff.1 hlen] at hσ ⊢
    exact ⟨[], hσ, trivial, le_rfl⟩
  | succ n ih =>
    intro v t σ hlen hv ht hσ
    by_cases htake : S.Takes follow v t
    · obtain ⟨σ₁, hσ₁, hlen₁, hle₁⟩ :=
        exists_front htake.1 htake.2.1 (hharm v hv t ht htake) hσ
      obtain ⟨σ₂, hσ₂, hgreedy, hle₂⟩ :=
        ih (shrink v t) t σ₁ (by omega) (hshrink v t hv) (hlt v t hv htake.1) hσ₁
      refine ⟨t :: σ₂, .cons htake.1 htake.2.1 hσ₂, ⟨fun hne => absurd rfl hne, hgreedy⟩, ?_⟩
      rw [cost, switch_self, Nat.zero_add]
      exact hle₂.trans hle₁
    · cases hσ with
      | nil _ => exact absurd hlen (by simp)
      | @cons _ a σ hpos hmax hσ =>
        rw [List.length_cons] at hlen
        obtain ⟨σ₂, hσ₂, hgreedy, hle₂⟩ :=
          ih (shrink v a) a σ (by omega) (hshrink v a hv) (hlt v a hv hpos) hσ
        refine ⟨a :: σ₂, .cons hpos hmax hσ₂, ⟨fun _ => htake, hgreedy⟩, ?_⟩
        rw [cost, cost]
        exact Nat.add_le_add_left hle₂ _

end System

end GenMC
