import GenMC.Execution.WellFormed

/-!
# Sequentially consistent execution graphs

A graph is sequentially consistent when its events have a linearization: one order of all events in
which every read reads from the last write before it.  Such an order exists as soon as program
order, reads-from, coherence, from-read and the edges between a thread and its parent have no cycle
together.

* `ScEdge` collects these edges.
* `SeqConsistent` is a graph without such a cycle, in which pointers lead in both directions: a read
  is in the list of the write it reads from, and a join is known to the thread that it waits for.
* `seqConsistent_of_rank` checks a given graph.
-/

set_option autoImplicit false

namespace GenMC
namespace ExecutionGraph

open Relation (TransGen)

variable {g : ExecutionGraph}

/-- The end of the thread that a join waits for. -/
def tjPred (g : ExecutionGraph) (lab : EventLabel) : Option EventLabel :=
  if lab.kind = .ThreadJoin then
    (g.getLastThreadLabel lab.childId).filter (·.kind = .ThreadFinish)
  else none

/-- An event comes before another one in every linearization.  The begin of a thread is not an event
of its own: what the creation comes before is the first event of the child. -/
inductive ScEdge (g : ExecutionGraph) : Event → Event → Prop
  | po {t i : ℕ} (h : (g.getEventLabel ⟨t, i + 1⟩).isSome) : ScEdge g ⟨t, i⟩ ⟨t, i + 1⟩
  | rf {e w : Event} {lab : EventLabel} (h : g.getEventLabel e = some lab)
      (hr : lab.isRead = true) (hw : lab.rf = some w) : ScEdge g w e
  | co {e w : Event} {lab : EventLabel} (h : g.getEventLabel e = some lab)
      (hw : w ∈ g.coSuccs lab) : ScEdge g e w
  | fr {e w : Event} {lab : EventLabel} (h : g.getEventLabel e = some lab)
      (hw : w ∈ g.frSuccs lab) : ScEdge g e w
  | create {e : Event} {lab : EventLabel} (h : g.getEventLabel e = some lab)
      (hc : lab.kind = .ThreadCreate) (hs : (g.getEventLabel ⟨lab.childId, 1⟩).isSome) :
      ScEdge g e ⟨lab.childId, 1⟩
  | join {e : Event} {lab fLab : EventLabel} (h : g.getEventLabel e = some lab)
      (hf : g.tjPred lab = some fLab) : ScEdge g fLab.pos e

/-- A sequentially consistent graph. -/
structure SeqConsistent (g : ExecutionGraph) : Prop where
  slots : g.Slots
  stamped : ∀ e lab, g.getEventLabel e = some lab → 0 < e.index →
    ∃ s ∈ lab.stamp, s ≤ g.timestamp
  /-- A thread starts with its begin. -/
  begins : ∀ t lab, g.getEventLabel ⟨t, 0⟩ = some lab → lab.isThreadStart = true
  rf : ∀ r rLab, g.getEventLabel r = some rLab → rLab.isRead = true → ∃ w ∈ rLab.rf,
    (w = Event.getInit ∧ r ∈ g.initReaders rLab.addr) ∨ ∃ wLab, g.getEventLabel w = some wLab ∧
      wLab.isWrite = true ∧ wLab.addr = rLab.addr ∧ r ∈ wLab.readers
  readers : ∀ w wLab, g.getEventLabel w = some wLab → wLab.isWrite = true →
    ∀ r ∈ wLab.readers, ∃ rLab, g.getEventLabel r = some rLab ∧ rLab.isRead = true ∧
      rLab.rf = some w
  initReaders : ∀ a, ∀ r ∈ g.initReaders a, ∃ rLab, g.getEventLabel r = some rLab ∧
    rLab.isRead = true ∧ rLab.addr = a ∧ rLab.rf = some Event.getInit
  coNodup : ∀ a, (g.co a).Nodup
  write : ∀ w wLab, g.getEventLabel w = some wLab → wLab.isWrite = true → w ∈ g.co wLab.addr
  co : ∀ a, ∀ w ∈ g.co a, ∃ wLab, g.getEventLabel w = some wLab ∧ wLab.isWrite = true ∧
    wLab.addr = a
  join : ∀ j jLab, g.getEventLabel j = some jLab → jLab.kind = .ThreadJoin →
    ∃ fLab ∈ g.tjPred jLab, fLab.parentJoin = some j
  parentJoin : ∀ f fLab, g.getEventLabel f = some fLab → fLab.kind = .ThreadFinish →
    ∀ j ∈ fLab.parentJoin, ∃ jLab, g.getEventLabel j = some jLab ∧ jLab.kind = .ThreadJoin ∧
      jLab.childId = f.thread
  /-- Nothing comes after the end of a thread, or after a block. -/
  terminator : ∀ e lab, g.getEventLabel e = some lab → lab.isTerminator = true →
    g.getEventLabel e.next = none
  /-- A thread waits at a barrier after its own write to the barrier. -/
  barrier : ∀ t i lab, g.getEventLabel ⟨t, i⟩ = some lab → lab.kind = .BWaitRead →
    ∃ wLab, g.getEventLabel ⟨t, i - 1⟩ = some wLab ∧ wLab.kind = .BIncFaiWrite ∧
      wLab.addr = lab.addr
  acyclic : ∀ e, ¬ TransGen (ScEdge g) e e

/-- A label that is no begin is not the first one of its thread. -/
theorem SeqConsistent.index_pos (hg : g.SeqConsistent) {e : Event} {lab : EventLabel}
    (h : g.getEventLabel e = some lab) (hs : lab.isThreadStart = false) : 0 < e.index := by
  rw [Nat.pos_iff_ne_zero]
  intro h0
  have he : e = ⟨e.thread, 0⟩ := Event.ext_iff'.2 ⟨rfl, h0⟩
  rw [he] at h
  rw [hg.begins _ _ h] at hs
  exact Bool.noConfusion hs

theorem not_isThreadStart_of_isMemAccess {lab : EventLabel} (h : lab.isMemAccess = true) :
    lab.isThreadStart = false := by
  rw [EventLabel.isMemAccess] at h
  rw [EventLabel.isThreadStart]
  revert h
  generalize lab.kind = k
  cases k <;> decide

theorem mem_co_of_mem_coSuccs {lab : EventLabel} {w : Event} (h : w ∈ g.coSuccs lab) :
    w ∈ g.co lab.addr := by
  rw [coSuccs] at h
  split at h
  · exact List.mem_of_mem_drop h
  · exact absurd h List.not_mem_nil

theorem mem_co_of_mem_frSuccs {lab : EventLabel} {w : Event} (h : w ∈ g.frSuccs lab) :
    w ∈ g.co lab.addr := by
  rw [frSuccs] at h
  split at h
  · split at h
    · exact List.mem_of_mem_drop h
    · exact h
  · exact absurd h List.not_mem_nil

theorem SeqConsistent.index_pos_of_mem_co (hg : g.SeqConsistent) {a : SAddr} {w : Event}
    (h : w ∈ g.co a) : 0 < w.index := by
  obtain ⟨wLab, hw, hwrite, -⟩ := hg.co a w h
  exact hg.index_pos hw
    (not_isThreadStart_of_isMemAccess (EventLabel.isMemAccess_of_isWrite hwrite))

/-- A label without a label after it is the last one of its thread. -/
theorem getLastThreadLabel_of_next_eq_none {t i : ℕ} {lab : EventLabel}
    (h : g.getEventLabel ⟨t, i⟩ = some lab) (hn : g.getEventLabel ⟨t, i + 1⟩ = none) :
    g.getLastThreadLabel t = some lab := by
  rw [getLastThreadLabel_eq_some, getThreadSize]
  rw [getEventLabel] at h hn ⊢
  have hi := (List.getElem?_eq_some_iff.1 h).1
  have hlast := List.getElem?_eq_none_iff.1 hn
  have hlen : (g.events.getD t []).length - 1 = i := by
    simp only at hi hlast
    omega
  refine ⟨by simp only at hi; omega, ?_⟩
  simp only [hlen]
  exact h

/-- The end of a thread comes before the join that waits for the thread. -/
theorem SeqConsistent.scEdge_parentJoin (hg : g.SeqConsistent) {f j : Event} {fLab : EventLabel}
    (h : g.getEventLabel f = some fLab) (hk : fLab.kind = .ThreadFinish)
    (hj : fLab.parentJoin = some j) : 0 < j.index ∧ ScEdge g f j := by
  obtain ⟨jLab, hjLab, hjk, hc⟩ := hg.parentJoin f fLab h hk j hj
  have hlast : g.getLastThreadLabel f.thread = some fLab :=
    getLastThreadLabel_of_next_eq_none h
      (hg.terminator f fLab h (by rw [EventLabel.isTerminator, hk]; rfl))
  have hpred : g.tjPred jLab = some fLab := by
    rw [tjPred, if_pos hjk, hc, hlast, Option.filter_some, if_pos (by simpa using hk)]
  refine ⟨hg.index_pos hjLab (by rw [EventLabel.isThreadStart, hjk]; rfl), ?_⟩
  have := ScEdge.join hjLab hpred
  rwa [hg.slots f fLab h] at this

/-- What comes after an element of a list without repetitions. -/
theorem drop_idxOf_succ {α : Type*} [DecidableEq α] {l rest : List α} {k : ℕ} {a : α}
    (hl : l.Nodup) (h : l.drop k = a :: rest) : l.drop (l.idxOf a + 1) = rest := by
  have hk : k < l.length := by
    by_contra hk
    rw [List.drop_eq_nil_of_le (not_lt.1 hk)] at h
    exact absurd h (List.cons_ne_nil _ _).symm
  rw [List.drop_eq_getElem_cons hk] at h
  obtain ⟨ha, hrest⟩ := List.cons.inj h
  rw [← ha, hl.idxOf_getElem, hrest]

/-- A later write comes after the next one. -/
theorem SeqConsistent.scEdge_of_drop (hg : g.SeqConsistent) {a : SAddr} {k : ℕ} {w u : Event}
    {rest : List Event} (h : (g.co a).drop k = w :: rest) (hu : u ∈ rest) : ScEdge g w u := by
  have hw : w ∈ g.co a := List.mem_of_mem_drop (h ▸ List.mem_cons_self ..)
  obtain ⟨wLab, hwLab, hwrite, ha⟩ := hg.co a w hw
  refine .co hwLab ?_
  rw [coSuccs, if_pos hwrite, hg.slots w wLab hwLab, ha, drop_idxOf_succ (hg.coNodup a) h]
  exact hu

theorem exists_coSuccs_eq_drop {lab : EventLabel} (h : lab.isWrite = true) :
    ∃ k, g.coSuccs lab = (g.co lab.addr).drop k := ⟨_, by rw [coSuccs, if_pos h]⟩

theorem exists_frSuccs_eq_drop {lab : EventLabel} (h : lab.isRead = true) :
    ∃ k, g.frSuccs lab = (g.co lab.addr).drop k := by
  rw [frSuccs, if_pos h]
  split
  · exact ⟨_, rfl⟩
  · exact ⟨0, rfl⟩

theorem isWrite_of_mem_coSuccs {lab : EventLabel} {w : Event} (h : w ∈ g.coSuccs lab) :
    lab.isWrite = true := by
  by_contra hw
  rw [coSuccs, if_neg hw] at h
  exact absurd h List.not_mem_nil

theorem isRead_of_mem_frSuccs {lab : EventLabel} {w : Event} (h : w ∈ g.frSuccs lab) :
    lab.isRead = true := by
  by_contra hr
  rw [frSuccs, if_neg hr] at h
  exact absurd h List.not_mem_nil

theorem tjPred_eq_some {lab fLab : EventLabel} (h : g.tjPred lab = some fLab) :
    lab.kind = .ThreadJoin ∧ g.getLastThreadLabel lab.childId = some fLab ∧
      fLab.kind = .ThreadFinish := by
  rw [tjPred] at h
  split_ifs at h with hj
  obtain ⟨hlast, hk⟩ := Option.filter_eq_some_iff.1 h
  exact ⟨hj, hlast, by simpa using hk⟩

/-- The label of the end of a joined thread. -/
theorem SeqConsistent.getEventLabel_of_tjPred (hg : g.SeqConsistent) {lab fLab : EventLabel}
    (h : g.tjPred lab = some fLab) : g.getEventLabel fLab.pos = some fLab := by
  have hlab := (getLastThreadLabel_eq_some.1 (tjPred_eq_some h).2.1).2
  rwa [hg.slots _ _ hlab]

/-- Both ends of an edge are in the graph, and the later one is not a begin. -/
theorem SeqConsistent.scEdge_isSome (hg : g.SeqConsistent) {a b : Event} (h : ScEdge g a b) :
    (a.index = 0 ∨ (g.getEventLabel a).isSome) ∧ 0 < b.index ∧ (g.getEventLabel b).isSome := by
  have hpos : ∀ {e : Event} {lab : EventLabel}, g.getEventLabel e = some lab →
      lab.isMemAccess = true → 0 < e.index := fun h hm =>
    hg.index_pos h (not_isThreadStart_of_isMemAccess hm)
  have hsome : ∀ {e : Event} {lab : EventLabel}, g.getEventLabel e = some lab →
      (g.getEventLabel e).isSome := fun h => by rw [h]; rfl
  cases h with
  | po h =>
    exact ⟨Or.inr (getEventLabel_isSome_of_le h rfl (Nat.le_succ _)), Nat.succ_pos _, h⟩
  | rf h hr hw =>
    refine ⟨?_, hpos h (EventLabel.isMemAccess_of_isRead hr), hsome h⟩
    obtain ⟨w, hrf, hcases⟩ := hg.rf _ _ h hr
    obtain rfl : w = _ := Option.some.inj ((Option.mem_def.1 hrf).symm.trans hw)
    rcases hcases with ⟨rfl, -⟩ | ⟨wLab, hwLab, -⟩
    · exact Or.inl rfl
    · exact Or.inr (hsome hwLab)
  | co h hw =>
    obtain ⟨wLab, hwLab, hwrite, -⟩ := hg.co _ _ (mem_co_of_mem_coSuccs hw)
    exact ⟨Or.inr (hsome h), hpos hwLab (EventLabel.isMemAccess_of_isWrite hwrite), hsome hwLab⟩
  | fr h hw =>
    obtain ⟨wLab, hwLab, hwrite, -⟩ := hg.co _ _ (mem_co_of_mem_frSuccs hw)
    exact ⟨Or.inr (hsome h), hpos hwLab (EventLabel.isMemAccess_of_isWrite hwrite), hsome hwLab⟩
  | create h _ hs => exact ⟨Or.inr (hsome h), Nat.one_pos, hs⟩
  | join h hf =>
    refine ⟨Or.inr (hsome (hg.getEventLabel_of_tjPred hf)), ?_, hsome h⟩
    refine hg.index_pos h ?_
    rw [EventLabel.isThreadStart, (tjPred_eq_some hf).1]
    rfl

/-! ## Checking a given graph -/

/-- The pointers of one label lead in both directions. -/
def CrossLinkedAt (g : ExecutionGraph) (e : Event) (lab : EventLabel) : Prop :=
  (lab.isRead = true → ∃ w ∈ lab.rf, (w = Event.getInit ∧ e ∈ g.initReaders lab.addr) ∨
    ∃ wLab ∈ g.getEventLabel w, wLab.isWrite = true ∧ wLab.addr = lab.addr ∧ e ∈ wLab.readers) ∧
  (lab.isWrite = true → e ∈ g.co lab.addr ∧ ∀ r ∈ lab.readers, ∃ rLab ∈ g.getEventLabel r,
    rLab.isRead = true ∧ rLab.rf = some e) ∧
  (lab.kind = .ThreadJoin → ∃ fLab ∈ g.tjPred lab, fLab.parentJoin = some e) ∧
  (lab.kind = .ThreadFinish → ∀ j ∈ lab.parentJoin, ∃ jLab ∈ g.getEventLabel j,
    jLab.kind = .ThreadJoin ∧ jLab.childId = e.thread)

instance (e : Event) (lab : EventLabel) : Decidable (g.CrossLinkedAt e lab) :=
  inferInstanceAs (Decidable (_ ∧ _ ∧ _ ∧ _))

/-- One label is stamped and where it may be. -/
def PlacedAt (g : ExecutionGraph) (e : Event) (lab : EventLabel) : Prop :=
  (0 < e.index → ∃ s ∈ lab.stamp, s ≤ g.timestamp) ∧
  (e.index = 0 → lab.isThreadStart = true) ∧
  (lab.isTerminator = true → g.getEventLabel e.next = none) ∧
  (lab.kind = .BWaitRead → ∃ wLab ∈ g.getEventLabel ⟨e.thread, e.index - 1⟩,
    wLab.kind = .BIncFaiWrite ∧ wLab.addr = lab.addr)

instance (e : Event) (lab : EventLabel) : Decidable (g.PlacedAt e lab) :=
  inferInstanceAs (Decidable (_ ∧ _ ∧ _ ∧ _))

/-- A rank that increases along the edges at one label. -/
def ScIncreasesAt (g : ExecutionGraph) (rank : Event → ℕ) (e : Event) (lab : EventLabel) : Prop :=
  (0 < e.index → rank ⟨e.thread, e.index - 1⟩ < rank e) ∧
  (lab.isRead = true → ∀ w ∈ lab.rf, rank w < rank e) ∧
  (∀ w ∈ g.coSuccs lab, rank e < rank w) ∧
  (∀ w ∈ g.frSuccs lab, rank e < rank w) ∧
  (lab.kind = .ThreadCreate → rank e < rank ⟨lab.childId, 1⟩) ∧
  ∀ fLab ∈ g.tjPred lab, rank fLab.pos < rank e

instance (rank : Event → ℕ) (e : Event) (lab : EventLabel) :
    Decidable (g.ScIncreasesAt rank e lab) :=
  inferInstanceAs (Decidable (_ ∧ _ ∧ _ ∧ _ ∧ _ ∧ _))

/-- The lists of one location hold the writes and the first reads of that location. -/
def TrackedAt (g : ExecutionGraph) (a : SAddr) : Prop :=
  (g.co a).Nodup ∧
  (∀ w ∈ g.co a, ∃ wLab ∈ g.getEventLabel w, wLab.isWrite = true ∧ wLab.addr = a) ∧
  ∀ r ∈ g.initReaders a, ∃ rLab ∈ g.getEventLabel r, rLab.isRead = true ∧ rLab.addr = a ∧
    rLab.rf = some Event.getInit

instance (a : SAddr) : Decidable (g.TrackedAt a) := inferInstanceAs (Decidable (_ ∧ _ ∧ _))

theorem trackedAt_of_nil {a : SAddr} (hco : g.co a = []) (hinit : g.initReaders a = []) :
    g.TrackedAt a := by
  refine ⟨hco ▸ List.nodup_nil, ?_, ?_⟩
  · rw [hco]
    exact fun w hw => absurd hw List.not_mem_nil
  · rw [hinit]
    exact fun r hr => absurd hr List.not_mem_nil

/-- A rank increases along all edges. -/
theorem lt_of_scEdge {rank : Event → ℕ}
    (h : ∀ e lab, g.getEventLabel e = some lab → g.ScIncreasesAt rank e lab) {a b : Event}
    (hab : ScEdge g a b) : rank a < rank b := by
  cases hab with
  | @po t i hsome =>
    obtain ⟨lab, hlab⟩ := Option.isSome_iff_exists.1 hsome
    exact (h _ _ hlab).1 (Nat.succ_pos i)
  | rf hlab hr hw => exact (h _ _ hlab).2.1 hr _ hw
  | co hlab hw => exact (h _ _ hlab).2.2.1 _ hw
  | fr hlab hw => exact (h _ _ hlab).2.2.2.1 _ hw
  | create hlab hc _ => exact (h _ _ hlab).2.2.2.2.1 hc
  | join hlab hf => exact (h _ _ hlab).2.2.2.2.2 _ hf

/-- A graph is sequentially consistent when its labels and locations pass their checks and a rank
increases along all edges.  Only the locations in `as` are used. -/
theorem seqConsistent_of_rank (rank : Event → ℕ) (as : List SAddr) (hslots : g.Slots)
    (hlab : ∀ e ∈ g.positions, ∀ lab ∈ g.getEventLabel e,
      g.PlacedAt e lab ∧ g.CrossLinkedAt e lab ∧ g.ScIncreasesAt rank e lab)
    (has : ∀ a ∈ as, g.TrackedAt a)
    (hnone : ∀ a, a ∉ as → g.co a = [] ∧ g.initReaders a = []) : g.SeqConsistent := by
  have hl := forall_label_iff.2 hlab
  have ht : ∀ a, g.TrackedAt a := fun a => by
    by_cases ha : a ∈ as
    · exact has a ha
    · exact trackedAt_of_nil (hnone a ha).1 (hnone a ha).2
  have hpath : ∀ a b, TransGen (ScEdge g) a b → rank a < rank b := by
    intro a b hab
    induction hab with
    | single h => exact lt_of_scEdge (fun e lab h => (hl e lab h).2.2) h
    | tail _ h ih => exact ih.trans (lt_of_scEdge (fun e lab h => (hl e lab h).2.2) h)
  exact {
    slots := hslots
    stamped := fun e lab h => (hl e lab h).1.1
    begins := fun t lab h => (hl _ lab h).1.2.1 rfl
    rf := fun r rLab h => (hl r rLab h).2.1.1
    readers := fun w wLab h hw => ((hl w wLab h).2.1.2.1 hw).2
    initReaders := fun a => (ht a).2.2
    coNodup := fun a => (ht a).1
    write := fun w wLab h hw => ((hl w wLab h).2.1.2.1 hw).1
    co := fun a => (ht a).2.1
    join := fun j jLab h => (hl j jLab h).2.1.2.2.1
    parentJoin := fun f fLab h => (hl f fLab h).2.1.2.2.2
    terminator := fun e lab h => (hl e lab h).1.2.2.1
    barrier := fun t i lab h => (hl ⟨t, i⟩ lab h).1.2.2.2
    acyclic := fun e he => lt_irrefl _ (hpath e e he) }

end ExecutionGraph
end GenMC
