import GenMC.Execution.ExecutionGraph
import Mathlib.Logic.Relation

/-!
# Well-formed execution graphs

What every user of a graph takes for granted: labels sit in the slots they were created for, and
the pointers of a label lead to labels of the graph.  `CausalEdge` collects the edges along which
an event depends on another one: program order, reads-from, the creation of a thread and the end
of a thread that is joined.
-/

set_option autoImplicit false

namespace GenMC
namespace ExecutionGraph

variable {g : ExecutionGraph}

/-! ## Positions -/

theorem getEventLabel_eq_some {e : Event} {lab : EventLabel} :
    g.getEventLabel e = some lab ↔
      ∃ thr, g.events[e.thread]? = some thr ∧ thr[e.index]? = some lab := by
  rw [getEventLabel]
  rw [List.getD_eq_getElem?_getD]
  cases g.events[e.thread]? <;> simp

theorem mem_labels {lab : EventLabel} :
    lab ∈ g.labels ↔ ∃ e, g.getEventLabel e = some lab := by
  simp only [labels, List.mem_flatten, getEventLabel_eq_some]
  refine ⟨?_, ?_⟩
  · rintro ⟨thr, hthr, hlab⟩
    obtain ⟨t, ht⟩ := List.mem_iff_getElem?.1 hthr
    obtain ⟨i, hi⟩ := List.mem_iff_getElem?.1 hlab
    exact ⟨⟨t, i⟩, thr, ht, hi⟩
  · rintro ⟨e, thr, ht, hi⟩
    exact ⟨thr, List.mem_of_getElem? ht, List.mem_of_getElem? hi⟩

/-- What is below a label in its thread is a label. -/
theorem getEventLabel_isSome_of_le {a b : Event} (h : (g.getEventLabel b).isSome)
    (ht : a.thread = b.thread) (hi : a.index ≤ b.index) : (g.getEventLabel a).isSome := by
  rw [getEventLabel] at h ⊢
  rw [ht]
  simp only [isSome_getElem?] at h ⊢
  omega

theorem containsPos_eq_isSome (e : Event) : g.containsPos e = (g.getEventLabel e).isSome := by
  rw [containsPos, getEventLabel, getThreadSize, getNumThreads]
  rw [Bool.eq_iff_iff]
  simp only [Bool.and_eq_true, decide_eq_true_eq, isSome_getElem?, and_iff_right_iff_imp]
  intro h
  by_contra hlt
  rw [List.getD_eq_getElem?_getD, List.getElem?_eq_none (not_lt.1 hlt)] at h
  simp at h

/-- The last label of a thread is at the end of the thread. -/
theorem getLastThreadLabel_eq_some {t : ℕ} {lab : EventLabel} :
    g.getLastThreadLabel t = some lab ↔
      0 < g.getThreadSize t ∧ g.getEventLabel ⟨t, g.getThreadSize t - 1⟩ = some lab := by
  rw [getLastThreadLabel, getThreadSize, getEventLabel]
  rw [List.getLast?_eq_getElem?]
  refine ⟨fun h => ?_, ?_⟩
  · refine ⟨?_, h⟩
    by_contra h0
    have hnil : g.events.getD t [] = [] := List.length_eq_zero_iff.1 (by omega)
    rw [hnil] at h
    simp at h
  · exact And.right

/-- Labels sit in the slots they were created for. -/
def Slots (g : ExecutionGraph) : Prop :=
  ∀ e lab, g.getEventLabel e = some lab → lab.pos = e

theorem Slots.getEventLabel_pos (h : g.Slots) {lab : EventLabel} (hlab : lab ∈ g.labels) :
    g.getEventLabel lab.pos = some lab := by
  obtain ⟨e, he⟩ := mem_labels.1 hlab
  rwa [h e lab he]

/-! ## Causality -/

/-- An event `b` depends directly on an event `a`. -/
inductive CausalEdge (g : ExecutionGraph) : Event → Event → Prop
  | po {t i : ℕ} (h : (g.getEventLabel ⟨t, i + 1⟩).isSome) : CausalEdge g ⟨t, i⟩ ⟨t, i + 1⟩
  | rf {e w : Event} {lab : EventLabel} (h : g.getEventLabel e = some lab)
      (hr : lab.isRead = true) (hw : lab.rf = some w) : CausalEdge g w e
  | create {e c : Event} {lab : EventLabel} (h : g.getEventLabel e = some lab)
      (hs : lab.isThreadStart = true) (hc : lab.create = some c) : CausalEdge g c e
  | join {e : Event} {lab lastLab : EventLabel} (h : g.getEventLabel e = some lab)
      (hj : lab.kind = .ThreadJoin) (hl : g.getLastThreadLabel lab.childId = some lastLab) :
      CausalEdge g lastLab.pos e

/-- No event depends on itself. -/
def CausallyAcyclic (g : ExecutionGraph) : Prop :=
  ∀ e, ¬ Relation.TransGen (CausalEdge g) e e

/-- The pointers along which events depend on each other lead to labels of the graph, and nothing
comes after a block. -/
structure Linked (g : ExecutionGraph) : Prop where
  rf : ∀ e lab w, g.getEventLabel e = some lab → lab.isRead = true → lab.rf = some w →
    (g.getEventLabel w).isSome
  create : ∀ e lab c, g.getEventLabel e = some lab → lab.isThreadStart = true →
    lab.create = some c → (g.getEventLabel c).isSome
  block : ∀ e lab, g.getEventLabel e = some lab → lab.isBlock = true →
    g.getEventLabel e.next = none

/-- The event at the tail of a causal edge is in the graph. -/
theorem CausalEdge.isSome (hl : g.Linked) (hs : g.Slots) {a b : Event} (h : CausalEdge g a b) :
    (g.getEventLabel a).isSome := by
  cases h with
  | po h => exact getEventLabel_isSome_of_le h rfl (Nat.le_succ _)
  | rf h hr hw => exact hl.rf _ _ _ h hr hw
  | create h ht hc => exact hl.create _ _ _ h ht hc
  | join h hj hlast =>
    obtain ⟨-, hlab⟩ := getLastThreadLabel_eq_some.1 hlast
    rw [hs _ _ hlab, hlab]
    rfl

/-! ## Checking a given graph -/

/-- The positions of a graph. -/
def positions (g : ExecutionGraph) : List Event :=
  (List.range g.getNumThreads).flatMap fun t => (List.range (g.getThreadSize t)).map (Event.mk t)

theorem mem_positions {e : Event} : e ∈ g.positions ↔ (g.getEventLabel e).isSome := by
  rw [← containsPos_eq_isSome]
  obtain ⟨t, i⟩ := e
  simp [positions, containsPos]

/-- To prove something of all labels of a graph it is enough to go through its positions. -/
theorem forall_label_iff {p : Event → EventLabel → Prop} :
    (∀ e lab, g.getEventLabel e = some lab → p e lab) ↔
      ∀ e ∈ g.positions, ∀ lab ∈ g.getEventLabel e, p e lab := by
  refine ⟨fun h e _ lab hlab => ?_, fun h e lab hlab => ?_⟩
  · exact h e lab hlab
  · exact h e (mem_positions.2 (by simp [hlab])) lab hlab

instance : Decidable g.Slots := decidable_of_iff _ forall_label_iff.symm

/-- A rank that increases along program order and along the pointers of every label. -/
def IncreasesAt (g : ExecutionGraph) (rank : Event → ℕ) (e : Event) (lab : EventLabel) : Prop :=
  (0 < e.index → rank ⟨e.thread, e.index - 1⟩ < rank e) ∧
    (lab.isRead = true → ∀ w ∈ lab.rf, rank w < rank e) ∧
    (lab.isThreadStart = true → ∀ c ∈ lab.create, rank c < rank e) ∧
    (lab.kind = .ThreadJoin → ∀ l ∈ g.getLastThreadLabel lab.childId, rank l.pos < rank e)

instance (rank : Event → ℕ) (e : Event) (lab : EventLabel) : Decidable (g.IncreasesAt rank e lab) :=
  inferInstanceAs (Decidable (_ ∧ _ ∧ _ ∧ _))

/-- A graph with a rank is causally acyclic. -/
theorem causallyAcyclic_of_rank (rank : Event → ℕ)
    (h : ∀ e ∈ g.positions, ∀ lab ∈ g.getEventLabel e, g.IncreasesAt rank e lab) :
    g.CausallyAcyclic := by
  have hedge : ∀ a b, CausalEdge g a b → rank a < rank b := by
    intro a b hab
    have h' := forall_label_iff.2 h
    cases hab with
    | @po t i hsome =>
      obtain ⟨lab, hlab⟩ := Option.isSome_iff_exists.1 hsome
      exact (h' _ _ hlab).1 (Nat.succ_pos i)
    | rf hlab hr hw => exact (h' _ _ hlab).2.1 hr _ hw
    | create hlab hst hc => exact (h' _ _ hlab).2.2.1 hst _ hc
    | join hlab hj hlast => exact (h' _ _ hlab).2.2.2 hj _ hlast
  have hpath : ∀ a b, Relation.TransGen (CausalEdge g) a b → rank a < rank b := by
    intro a b hab
    induction hab with
    | single h => exact hedge _ _ h
    | tail _ h ih => exact ih.trans (hedge _ _ h)
  exact fun e he => lt_irrefl _ (hpath e e he)

/-- The pointers of one label are fine. -/
def LinkedAt (g : ExecutionGraph) (e : Event) (lab : EventLabel) : Prop :=
  (lab.isRead = true → ∀ w ∈ lab.rf, (g.getEventLabel w).isSome) ∧
    (lab.isThreadStart = true → ∀ c ∈ lab.create, (g.getEventLabel c).isSome) ∧
    (lab.isBlock = true → (g.getEventLabel e.next).isNone)

instance (e : Event) (lab : EventLabel) : Decidable (g.LinkedAt e lab) :=
  inferInstanceAs (Decidable (_ ∧ _ ∧ _))

theorem linked_iff : g.Linked ↔ ∀ e lab, g.getEventLabel e = some lab → g.LinkedAt e lab := by
  refine ⟨fun h e lab hlab => ?_, fun h => ?_⟩
  · exact ⟨fun hr w hw => h.rf e lab w hlab hr hw, fun hst c hc => h.create e lab c hlab hst hc,
      fun hb => by rw [h.block e lab hlab hb]; rfl⟩
  · exact ⟨fun e lab w hlab hr hw => (h e lab hlab).1 hr w hw,
      fun e lab c hlab hst hc => (h e lab hlab).2.1 hst c hc,
      fun e lab hlab hb => Option.isNone_iff_eq_none.1 ((h e lab hlab).2.2 hb)⟩

instance : Decidable g.Linked :=
  decidable_of_iff _ (linked_iff.trans forall_label_iff).symm

end ExecutionGraph
end GenMC
