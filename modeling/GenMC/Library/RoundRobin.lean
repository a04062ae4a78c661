import Mathlib.Data.Set.Card
import Mathlib.Logic.Relation
import Mathlib.Order.WellFoundedSet

/-!
# Round-robin exploration

Events of finitely many threads wait for each other.  A round goes over the threads once, from the
first to the last, and performs as many events of each thread as it can.  How many rounds it takes
until all events have been performed can be read off the chains of events that wait for each other:
an event that waits for one of a later thread is performed in a later round, and an event that waits
for one of an earlier thread need not be.

* `Descends`: the number of times that a chain goes to an earlier thread.
* `Turn`: what the turn of one thread performs, as a relation between the sets of events that have
  been performed before and after it.
* `Turn.partway_succ`: **the turns of a round lead from the events on one level to those on the
  next**, where an event is on a level if no chain to it has that many descents.
* `exists_mem_level_succ` and `subset_level_ncard`: no round is in vain, and so all events are on
  some level.

Nothing is said about what the events are, nor in which order a thread performs its own.
-/

set_option autoImplicit false

namespace GenMC
namespace RoundRobin

variable {α : Type*} (waits : α → α → Prop) (thread : α → ℕ)

/-- A chain of events that ends with an event goes to an earlier thread so many times.  Here
`waits p e` means that `e` has to wait for `p`. -/
inductive Descends : ℕ → α → Prop
  | start (e : α) : Descends 0 e
  | step {d : ℕ} {p e : α} (h : Descends d p) (hw : waits p e) :
      Descends (d + if thread e < thread p then 1 else 0) e

/-- The events no chain to which has `k` descents. -/
def level (E : Set α) (k : ℕ) : Set α := {e ∈ E | ∀ d, Descends waits thread d e → d < k}

/-- What has been performed in the middle of a round, when it is the turn of `t`. -/
def partway (E : Set α) (k t : ℕ) : Set α :=
  {e ∈ E | ∀ d, Descends waits thread d e → d < if thread e < t then k + 1 else k}

/-- Some chain has more than `b` descents. -/
def Exceeds (E : Set α) (b : ℕ) : Prop := ∃ e ∈ E, ∃ d, Descends waits thread d e ∧ b < d

/-- A turn of `t` performs events of `t`, none before those it waits for, and it only stops at
events that have to wait. -/
structure Turn (E : Set α) (t : ℕ) (D D' : Set α) : Prop where
  subset : D ⊆ D'
  events : D' ⊆ E
  mine : ∀ e ∈ D', e ∈ D ∨ thread e = t
  waited : ∀ e ∈ D', e ∈ D ∨ ∀ p, waits p e → p ∈ D'
  stopped : ∀ e ∈ E, thread e = t → e ∉ D' → ∃ p, waits p e ∧ p ∉ D'

variable {waits thread} {E : Set α}

theorem level_mono {k n : ℕ} (hkn : k ≤ n) : level waits thread E k ⊆ level waits thread E n :=
  fun _ he => ⟨he.1, fun d hd => (he.2 d hd).trans_le hkn⟩

theorem level_zero : level waits thread E 0 = ∅ := by
  refine Set.eq_empty_of_forall_notMem fun e he => ?_
  exact absurd (he.2 0 (.start e)) (Nat.lt_irrefl 0)

theorem partway_zero (k : ℕ) : partway waits thread E k 0 = level waits thread E k := by
  simp [partway, level]

/-- After the turn of the last thread the round is over. -/
theorem partway_of_forall_lt {n : ℕ} (h : ∀ e ∈ E, thread e < n) (k : ℕ) :
    partway waits thread E k n = level waits thread E (k + 1) := by
  ext e
  refine and_congr_right fun he => ?_
  rw [if_pos (h e he)]

theorem Exceeds.mono {a b : ℕ} (hab : a ≤ b) (h : Exceeds waits thread E b) :
    Exceeds waits thread E a := by
  obtain ⟨e, he, d, hd, hlt⟩ := h
  exact ⟨e, he, d, hd, hab.trans_lt hlt⟩

theorem subset_level_iff {k : ℕ} :
    E ⊆ level waits thread E (k + 1) ↔ ¬ Exceeds waits thread E k := by
  refine ⟨?_, fun hnot e he => ⟨he, fun d hd => ?_⟩⟩
  · rintro hsub ⟨e, he, d, hd, hlt⟩
    exact absurd ((hsub he).2 d hd) (by omega)
  · by_contra hge
    exact hnot ⟨e, he, d, hd, by omega⟩

theorem nonempty_iff_not_subset_level : E.Nonempty ↔ ¬ E ⊆ level waits thread E 0 := by
  rw [level_zero, Set.subset_empty_iff, Set.nonempty_iff_ne_empty]

/-- More waiting makes more chains. -/
theorem Descends.mono {waits' : α → α → Prop} (h : ∀ p e, waits p e → waits' p e) {d : ℕ} {e : α}
    (hd : Descends waits thread d e) : Descends waits' thread d e := by
  induction hd with
  | start e => exact .start e
  | step _ hw ih => exact ih.step (h _ _ hw)

theorem partway_mono {k t : ℕ} :
    partway waits thread E k t ⊆ partway waits thread E k (t + 1) := by
  refine fun e he => ⟨he.1, fun d hd => (he.2 d hd).trans_le ?_⟩
  split_ifs <;> omega

/-- An event of another thread is not affected by a turn. -/
theorem mem_partway_of_ne {k t : ℕ} {e : α} (he : e ∈ partway waits thread E k (t + 1))
    (ht : thread e ≠ t) : e ∈ partway waits thread E k t := by
  refine ⟨he.1, fun d hd => (he.2 d hd).trans_le ?_⟩
  split_ifs <;> omega

theorem mem_partway_of_lt {k t : ℕ} {e : α} (ht : thread e < t) :
    e ∈ partway waits thread E k t ↔ e ∈ level waits thread E (k + 1) := by
  refine and_congr_right fun _ => ?_
  rw [if_pos ht]

theorem mem_partway_of_le {k t : ℕ} {e : α} (ht : t ≤ thread e) :
    e ∈ partway waits thread E k t ↔ e ∈ level waits thread E k := by
  refine and_congr_right fun _ => ?_
  rw [if_neg (not_lt.2 ht)]

/-- Finitely many events that do not wait for themselves have a first one. -/
theorem wellFounded_of_acyclic (hfin : E.Finite) (hE : ∀ p e, waits p e → p ∈ E ∧ e ∈ E)
    (hac : ∀ e, ¬ Relation.TransGen waits e e) : WellFounded waits := by
  have horder : IsStrictOrder α (Relation.TransGen waits) :=
    { irrefl := hac, trans := fun _ _ _ => Relation.TransGen.trans }
  have hwf := Set.wellFoundedOn_iff.1 (hfin.wellFoundedOn (r := Relation.TransGen waits))
  exact Subrelation.wf (fun {p e} h => ⟨.single h, hE p e h⟩) hwf

section Waits

variable (hwf : WellFounded waits) (hE : ∀ p e, waits p e → p ∈ E)
include hwf

/-- What a turn performs has not too many descents. -/
theorem Turn.subset_partway {k t : ℕ} {D' : Set α}
    (h : Turn waits thread E t (partway waits thread E k t) D') :
    D' ⊆ partway waits thread E k (t + 1) := by
  intro e
  induction e using hwf.induction with
  | _ e ih =>
    intro he
    rcases h.mine e he with hD | ht
    · exact partway_mono hD
    · rcases h.waited e he with hD | hall
      · exact partway_mono hD
      · refine ⟨h.events he, fun d hd => ?_⟩
        rw [if_pos (by omega)]
        cases hd with
        | start => exact Nat.succ_pos k
        | @step d p _ hd hw =>
          -- an event of a later thread was performed in an earlier round
          have hlt := (ih p hw (hall p hw)).2 d hd
          split_ifs at hlt ⊢ <;> omega

include hE

/-- A turn performs what has not too many descents. -/
theorem Turn.partway_subset {k t : ℕ} {D' : Set α}
    (h : Turn waits thread E t (partway waits thread E k t) D') :
    partway waits thread E k (t + 1) ⊆ D' := by
  intro e
  induction e using hwf.induction with
  | _ e ih =>
    intro he
    by_cases ht : thread e = t
    · by_contra hnot
      obtain ⟨p, hw, hp⟩ := h.stopped e he.1 ht hnot
      refine hp (ih p hw ⟨hE p e hw, fun d hd => ?_⟩)
      have hlt := he.2 _ (hd.step hw)
      rw [if_pos (by omega : thread e < t + 1)] at hlt
      split_ifs at hlt ⊢ <;> omega
    · exact h.subset (mem_partway_of_ne he ht)

/-- **What the turns of a round perform.** -/
theorem Turn.partway_succ {k t : ℕ} {D' : Set α}
    (h : Turn waits thread E t (partway waits thread E k t) D') :
    D' = partway waits thread E k (t + 1) :=
  Set.Subset.antisymm (h.subset_partway hwf) (h.partway_subset hwf hE)

/-- **No round is in vain.** -/
theorem exists_mem_level_succ {k : ℕ} (hk : ¬ E ⊆ level waits thread E k) :
    ∃ e ∈ level waits thread E (k + 1), e ∉ level waits thread E k := by
  obtain ⟨e, he, hnot⟩ := Set.not_subset.1 hk
  -- an event that is left, but waits for nothing that is left
  obtain ⟨m, ⟨hm, hmnot⟩, hmin⟩ :=
    hwf.has_min {e ∈ E | e ∉ level waits thread E k} ⟨e, he, hnot⟩
  refine ⟨m, ⟨hm, fun d hd => ?_⟩, hmnot⟩
  cases hd with
  | start => exact Nat.succ_pos k
  | @step d p _ hd hw =>
    have hp : p ∈ level waits thread E k := by
      by_contra hp
      exact hmin p ⟨hE p m hw, hp⟩ hw
    have hlt := hp.2 d hd
    split_ifs <;> omega

/-- All events are on the level that is as high as there are events. -/
theorem subset_level_ncard (hfin : E.Finite) : E ⊆ level waits thread E E.ncard := by
  have hgrow : ∀ k, ¬ E ⊆ level waits thread E k → k < (level waits thread E (k + 1)).ncard := by
    intro k
    induction k with
    | zero =>
      intro hk
      obtain ⟨e, he, -⟩ := exists_mem_level_succ hwf hE hk
      exact (Set.ncard_pos (hfin.subset fun _ h => h.1)).2 ⟨e, he⟩
    | succ k ih =>
      intro hk
      have hlt := ih fun hsub => hk (hsub.trans (level_mono (Nat.le_succ k)))
      obtain ⟨e, he, hnot⟩ := exists_mem_level_succ hwf hE hk
      have hss : level waits thread E (k + 1) ⊂ level waits thread E (k + 1 + 1) :=
        (Set.ssubset_iff_of_subset (level_mono (Nat.le_succ _))).2 ⟨e, he, hnot⟩
      have := Set.ncard_lt_ncard hss (hfin.subset fun _ h => h.1)
      omega
  by_contra hnot
  have hlt := hgrow _ hnot
  have hle := Set.ncard_le_ncard (fun _ h => h.1 : level waits thread E (E.ncard + 1) ⊆ E) hfin
  omega

end Waits

end RoundRobin
end GenMC
