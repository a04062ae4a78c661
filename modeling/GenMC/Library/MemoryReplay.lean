import GenMC.Library.EdgeClosure
import GenMC.Library.ListOrder
import Mathlib.Data.List.Sort
import Mathlib.Order.Extension.Linear

/-!
# Replaying accesses through a memory

An order of events is *replayed* through a memory that knows the writes that have been performed,
for each location: a write is added to the writes of its location, and a read must read from the
last one of them.  Nothing else is known about the events but which locations they read and write,
and where a read reads from.

* `replayFrom_eq_some_iff`: what a replay does, without the memory.
* `replay_eq_some_iff`: a replay performs the writes to each location in some given order exactly
  when that is the order they have among the events, each read comes after what it reads from, and
  it comes before all later writes.
* `exists_ordering`: a relation without cycles can be extended to an order of finitely many events.
-/

set_option autoImplicit false

/-! ## Orders of finitely many elements -/

namespace ListOrder

open GenMC Relation

variable {α : Type*} {l : List α}

/-- **A relation without cycles can be extended to an order.** -/
theorem exists_ordering {r : α → α → Prop} (hr : Acyclic r) (hl : l.Nodup) :
    ∃ l', l'.Perm l ∧ ∀ a ∈ l, ∀ b ∈ l, r a b → Before l' a b := by
  classical
  have hpartial : IsPartialOrder α (ReflTransGen r) := {
    refl := fun _ => .refl
    trans := fun _ _ _ => .trans
    antisymm := fun a b hab hba => by
      rcases reflTransGen_iff_eq_or_transGen.1 hab with rfl | hab
      · rfl
      · exact absurd (TransGen.trans_left hab hba) (hr a) }
  obtain ⟨s, hs, hle⟩ := extend_partialOrder (ReflTransGen r)
  have hperm := List.perm_insertionSort s l
  have hnodup : (l.insertionSort s).Nodup := hperm.nodup_iff.2 hl
  refine ⟨l.insertionSort s, hperm, fun a ha b hb hab => ?_⟩
  have hne : a ≠ b := by
    rintro rfl
    exact hr a (.single hab)
  refine (before_of_mem hnodup (hperm.mem_iff.2 ha) (hperm.mem_iff.2 hb) hne).resolve_right
    fun hba => hne ?_
  exact antisymm_of s (hle a b (.single hab)) (rel_of_before (List.pairwise_insertionSort s l) hba)

end ListOrder

/-! ## Replays -/

namespace GenMC
namespace MemoryReplay

open ListOrder

/-- What events read and write, and where reads read from: a write, or else the initial value. -/
structure Accesses (ε ι : Type*) where
  reads : ε → Option ι
  writes : ε → Option ι
  source : ε → Option ε

variable {ε ι : Type*} [DecidableEq ε] [DecidableEq ι]

namespace Accesses

/-- Performs an event.  The memory has the writes to each location so far. -/
def step (A : Accesses ε ι) (m : ι → List ε) (e : ε) : Option (ι → List ε) :=
  match A.reads e with
  | some a => if (m a).getLast? = A.source e then some m else none
  | none =>
    match A.writes e with
    | some a => some (Function.update m a (m a ++ [e]))
    | none => some m

/-- Performs events one after the other. -/
def replayFrom (A : Accesses ε ι) (m : ι → List ε) (l : List ε) : Option (ι → List ε) :=
  l.foldlM A.step m

/-- Performs events from the initial memory on. -/
def replay (A : Accesses ε ι) (l : List ε) : Option (ι → List ε) := A.replayFrom (fun _ => []) l

/-- The writes to a location among some events. -/
def writesTo (A : Accesses ε ι) (a : ι) (l : List ε) : List ε :=
  l.filter fun e => A.writes e = some a

variable {A : Accesses ε ι} {l : List ε} {m m' : ι → List ε} {a : ι} {e : ε}

/-- An event that is a read is no write. -/
def Disjoint (A : Accesses ε ι) : Prop := ∀ e a, A.reads e = some a → A.writes e = none

omit [DecidableEq ε] in
theorem mem_writesTo : e ∈ A.writesTo a l ↔ e ∈ l ∧ A.writes e = some a := by
  rw [writesTo, List.mem_filter, decide_eq_true_eq]

omit [DecidableEq ε] in
theorem writesTo_cons_of_ne (h : A.writes e ≠ some a) : A.writesTo a (e :: l) = A.writesTo a l :=
  List.filter_cons_of_neg (by simpa using h)

omit [DecidableEq ε] in
theorem writesTo_cons_self (h : A.writes e = some a) :
    A.writesTo a (e :: l) = e :: A.writesTo a l :=
  List.filter_cons_of_pos (by simpa using h)

/-- **What a replay does**, without the memory: each read reads from the last write before it. -/
theorem replayFrom_eq_some_iff (hA : A.Disjoint) : A.replayFrom m l = some m' ↔
    (∀ a, m' a = m a ++ A.writesTo a l) ∧ ∀ l₁ e l₂ a, l = l₁ ++ e :: l₂ → A.reads e = some a →
      (m a ++ A.writesTo a l₁).getLast? = A.source e := by
  induction l generalizing m with
  | nil =>
    have hnil : A.replayFrom m [] = some m := rfl
    rw [hnil, Option.some.injEq]
    refine ⟨?_, fun h => ?_⟩
    · rintro rfl
      refine ⟨fun a => (List.append_nil _).symm, fun l₁ e l₂ a h => ?_⟩
      exact absurd h (by simp)
    · funext a
      rw [h.1 a, writesTo, List.filter_nil, List.append_nil]
  | cons e l ih =>
    have hcons : A.replayFrom m (e :: l) = (A.step m e).bind fun m₁ => A.replayFrom m₁ l :=
      List.foldlM_cons ..
    rw [hcons, step]
    cases hr : A.reads e with
    | some a =>
      have hw := hA e a hr
      have hskip : ∀ b k, A.writesTo b (e :: k) = A.writesTo b k := fun b k =>
        writesTo_cons_of_ne (by rw [hw]; simp)
      simp only [hskip]
      by_cases hlast : (m a).getLast? = A.source e
      · rw [if_pos hlast, Option.bind_some, ih]
        refine and_congr_right fun _ => ⟨fun h l₁ x l₂ b heq hb => ?_, fun h l₁ x l₂ b heq hb => ?_⟩
        · rcases List.cons_eq_append_iff.1 heq with ⟨rfl, hx⟩ | ⟨k, rfl, hk⟩
          · obtain ⟨rfl, -⟩ := List.cons.inj hx
            obtain rfl := Option.some.inj (hr.symm.trans hb)
            rw [writesTo, List.filter_nil, List.append_nil, hlast]
          · rw [hskip]
            exact h k x l₂ b hk hb
        · rw [← hskip, h (e :: l₁) x l₂ b (by rw [heq]; rfl) hb]
      · rw [if_neg hlast, Option.bind_none]
        refine iff_of_false (by simp) fun h => hlast ?_
        have := h.2 [] e l a rfl hr
        rwa [writesTo, List.filter_nil, List.append_nil] at this
    | none =>
      cases hw : A.writes e with
      | none =>
        have hskip : ∀ b k, A.writesTo b (e :: k) = A.writesTo b k := fun b k =>
          writesTo_cons_of_ne (by rw [hw]; simp)
        simp only [hskip, Option.bind_some, ih]
        refine and_congr_right fun _ => ⟨fun h l₁ x l₂ b heq hb => ?_, fun h l₁ x l₂ b heq hb => ?_⟩
        · rcases List.cons_eq_append_iff.1 heq with ⟨rfl, hx⟩ | ⟨k, rfl, hk⟩
          · obtain ⟨rfl, -⟩ := List.cons.inj hx
            rw [hr] at hb
            exact absurd hb (by simp)
          · rw [hskip]
            exact h k x l₂ b hk hb
        · rw [← hskip, h (e :: l₁) x l₂ b (by rw [heq]; rfl) hb]
      | some a =>
        have hadd : ∀ b k, Function.update m a (m a ++ [e]) b ++ A.writesTo b k =
            m b ++ A.writesTo b (e :: k) := by
          intro b k
          by_cases hb : b = a
          · subst hb
            rw [Function.update_self, writesTo_cons_self hw, List.append_assoc]
            rfl
          · rw [Function.update_of_ne hb, writesTo_cons_of_ne]
            rw [hw]
            exact fun h => hb (Option.some.inj h).symm
        simp only [Option.bind_some, ih, hadd]
        refine and_congr_right fun _ => ⟨fun h l₁ x l₂ b heq hb => ?_, fun h l₁ x l₂ b heq hb => ?_⟩
        · rcases List.cons_eq_append_iff.1 heq with ⟨rfl, hx⟩ | ⟨k, rfl, hk⟩
          · obtain ⟨rfl, -⟩ := List.cons.inj hx
            rw [hr] at hb
            exact absurd hb (by simp)
          · exact h k x l₂ b hk hb
        · exact h (e :: l₁) x l₂ b (by rw [heq]; rfl) hb

/-- A read reads from the right write of an order. -/
def ReadsRight (A : Accesses ε ι) (co : ι → List ε) (l : List ε) (e : ε) (a : ι) : Prop :=
  match A.source e with
  | none => ∀ w ∈ co a, Before l e w
  | some w => w ∈ co a ∧ Before l w e ∧ ∀ w', Before (co a) w w' → Before l e w'

omit [DecidableEq ε] in
/-- The last of the writes before a read is where the read reads from. -/
theorem getLast?_writesTo_iff {co : ι → List ε} (hl : l.Nodup)
    (hco : ∀ a, A.writesTo a l = co a) (hA : A.Disjoint) {l₁ l₂ : List ε} (heq : l = l₁ ++ e :: l₂)
    (hr : A.reads e = some a) :
    (A.writesTo a l₁).getLast? = A.source e ↔ A.ReadsRight co l e a := by
  subst heq
  have hnodup : (co a).Nodup := by
    rw [← hco a]
    exact hl.filter _
  have hw := hA e a hr
  have hsplit : co a = A.writesTo a l₁ ++ A.writesTo a l₂ := by
    rw [← hco a, writesTo, List.filter_append, List.filter_cons_of_neg (by simp [hw])]
    rfl
  have hafter : ∀ w ∈ co a, w ∉ A.writesTo a l₁ → Before (l₁ ++ e :: l₂) e w := by
    intro w hwmem hw₁
    have hwl : w ∈ l₁ ++ e :: l₂ ∧ A.writes w = some a := by
      rw [← hco a] at hwmem
      exact mem_writesTo.1 hwmem
    have hne : e ≠ w := by
      rintro rfl
      rw [hw] at hwl
      exact absurd hwl.2 (by simp)
    refine (before_of_mem hl (by simp) hwl.1 hne).resolve_right fun h => hw₁ ?_
    exact mem_writesTo.2 ⟨(before_append_cons_iff hl).1 h, hwl.2⟩
  have hbefore : ∀ w ∈ A.writesTo a l₁, Before (l₁ ++ e :: l₂) w e := fun w hw =>
    (before_append_cons_iff hl).2 (mem_writesTo.1 hw).1
  rw [ReadsRight]
  cases hsrc : A.source e with
  | none =>
    simp only [List.getLast?_eq_none_iff]
    refine ⟨fun h w hw => hafter w hw (by rw [h]; exact List.not_mem_nil), fun h => ?_⟩
    refine List.eq_nil_iff_forall_not_mem.2 fun w hw => ?_
    have hwco : w ∈ co a := by
      rw [hsplit]
      exact List.mem_append_left _ hw
    exact not_before_symm hl (h w hwco) (hbefore w hw)
  | some w =>
    simp only [List.getLast?_eq_some_iff]
    refine ⟨?_, fun ⟨hwco, hwe, hlater⟩ => ?_⟩
    · rintro ⟨ys, hys⟩
      have hwmem : w ∈ A.writesTo a l₁ := by
        rw [hys]
        simp
      refine ⟨?_, hbefore w hwmem, fun w' hww' => ?_⟩
      · rw [hsplit]
        exact List.mem_append_left _ hwmem
      · refine hafter w' (hww'.mem_right) fun hw' => ?_
        -- `w` is the last one, so that nothing comes after it
        rw [hsplit] at hnodup hww'
        rw [hys] at hw' hnodup hww'
        rcases List.mem_append.1 hw' with hw' | hw'
        · refine not_before_symm hnodup hww' (Before.append ?_ _)
          exact before_concat hw' w
        · rw [List.mem_singleton.1 hw'] at hww'
          exact not_before_symm hnodup hww' hww'
    · have hwmem : w ∈ A.writesTo a l₁ := by
        refine mem_writesTo.2 ⟨(before_append_cons_iff hl).1 hwe, ?_⟩
        rw [← hco a] at hwco
        exact (mem_writesTo.1 hwco).2
      have hne : A.writesTo a l₁ ≠ [] := List.ne_nil_of_mem hwmem
      obtain ⟨ys, y, hys⟩ := (List.eq_nil_or_concat (A.writesTo a l₁)).resolve_left hne
      rw [List.concat_eq_append] at hys
      refine ⟨ys, ?_⟩
      rw [hys]
      rw [hys] at hwmem
      rcases List.mem_append.1 hwmem with hw' | hw'
      · -- a later write would come after the read
        have hwy : Before (co a) w y := by
          rw [hsplit, hys]
          exact (before_concat hw' y).append _
        have hy : y ∈ A.writesTo a l₁ := by
          rw [hys]
          simp
        exact absurd (hbefore y hy) (not_before_symm hl (hlater y hwy))
      · rw [List.mem_singleton.1 hw']

/-- **When a replay performs the writes in a given order.** -/
theorem replay_eq_some_iff {co : ι → List ε} (hA : A.Disjoint) (hl : l.Nodup) :
    A.replay l = some co ↔
      (∀ a, A.writesTo a l = co a) ∧
        ∀ e ∈ l, ∀ a, A.reads e = some a → A.ReadsRight co l e a := by
  rw [replay, replayFrom_eq_some_iff hA]
  have hnil : ∀ (a : ι) (k : List ε), [] ++ A.writesTo a k = A.writesTo a k := fun a k => rfl
  simp only [hnil]
  refine ⟨fun ⟨hco, h⟩ => ⟨fun a => (hco a).symm, fun e he a hr => ?_⟩,
    fun ⟨hco, h⟩ => ⟨fun a => (hco a).symm, fun l₁ e l₂ a heq hr => ?_⟩⟩
  · obtain ⟨l₁, l₂, heq⟩ := List.append_of_mem he
    exact (getLast?_writesTo_iff hl (fun b => (hco b).symm) hA heq hr).1 (h l₁ e l₂ a heq hr)
  · refine (getLast?_writesTo_iff hl hco hA heq hr).2 (h e ?_ a hr)
    rw [heq]
    simp

omit [DecidableEq ε] in
/-- The writes among the events are in a given order as soon as this is the order of the events. -/
theorem writesTo_eq (hl : l.Nodup) {k : List ε} (hk : k.Nodup)
    (hmem : ∀ e, e ∈ k ↔ e ∈ l ∧ A.writes e = some a) (hord : k.Pairwise (Before l)) :
    A.writesTo a l = k := by
  have hperm : (A.writesTo a l).Perm k := by
    refine (List.perm_ext_iff_of_nodup (hl.filter _) hk).2 fun e => ?_
    rw [hmem]
    exact mem_writesTo
  refine hperm.eq_of_pairwise (fun x y _ _ hxy hyx => absurd hyx (not_before_symm hl hxy)) ?_ hord
  rw [writesTo]
  have hself : l.Pairwise (Before l) := by
    refine List.pairwise_iff_forall_sublist.2 fun {x y} hsub => ?_
    have hne : x ≠ y := by
      rintro rfl
      exact absurd (hsub.nodup hl) (by simp)
    refine (before_of_mem hl (hsub.subset (by simp)) (hsub.subset (by simp)) hne).resolve_right
      fun hyx => ?_
    obtain ⟨l₁, l₂, rfl, hy⟩ := hyx
    -- `x` stands once, and `y` is on the other side of it
    have hx₁ : x ∉ l₁ := fun h => (List.nodup_append.1 hl).2.2 x h x (by simp) rfl
    have hy₂ : y ∉ x :: l₂ := fun h => (List.nodup_append.1 hl).2.2 y hy y h rfl
    obtain ⟨s₁, s₂, hs, h₁, h₂⟩ := List.sublist_append_iff.1 hsub
    cases s₁ with
    | nil =>
      rw [List.nil_append] at hs
      subst hs
      exact hy₂ (h₂.subset (by simp))
    | cons z s₁ =>
      obtain ⟨rfl, -⟩ := List.cons.inj hs
      exact hx₁ (h₁.subset List.mem_cons_self)
  exact hself.filter _

end Accesses

end MemoryReplay
end GenMC
