import GenMC.Verification.ThreadCreation

/-!
# Stamps with gaps

When a label is removed, its stamp is not used again, so that the stamps of a graph have gaps until
the next cut.  All that matters is that they agree with the insertion order: cutting gives the same
graph as if the labels had been stamped anew before (`cutToStamp_eq`).

* `SameThreads` relates two graphs with the same threads, which may differ in stamps, in reads-from
  and in coherence.
* `Threaded` is `ThreadInv` without its part about stamps, which `StampsUp` replaces.
* `threadInv_cutToStamp`: cutting restores `ThreadInv`.
-/

set_option autoImplicit false

namespace GenMC
namespace ExecutionGraph

open ListOrder

variable {g g' : ExecutionGraph}

/-! ## Graphs with the same threads -/

/-- Two labels that say the same about threads. -/
structure SameThread (lab lab' : EventLabel) : Prop where
  pos : lab'.pos = lab.pos
  kind : lab'.kind = lab.kind
  createId : lab'.createId = lab.createId
  create : lab'.create = lab.create
  childId : lab'.childId = lab.childId

theorem SameThread.refl (lab : EventLabel) : SameThread lab lab := ⟨rfl, rfl, rfl, rfl, rfl⟩

theorem SameThread.symm {lab lab' : EventLabel} (h : SameThread lab lab') : SameThread lab' lab :=
  ⟨h.pos.symm, h.kind.symm, h.createId.symm, h.create.symm, h.childId.symm⟩

theorem SameThread.trans {lab lab' lab'' : EventLabel} (h : SameThread lab lab')
    (h' : SameThread lab' lab'') : SameThread lab lab'' :=
  ⟨h'.pos.trans h.pos, h'.kind.trans h.kind, h'.createId.trans h.createId,
    h'.create.trans h.create, h'.childId.trans h.childId⟩

/-- Two graphs with the same threads. -/
structure SameThreads (g g' : ExecutionGraph) : Prop where
  insertionOrder : g'.insertionOrder = g.insertionOrder
  numThreads : g'.getNumThreads = g.getNumThreads
  isSome : ∀ e, (g'.getEventLabel e).isSome = (g.getEventLabel e).isSome
  label : ∀ e lab', g'.getEventLabel e = some lab' → ∃ lab, g.getEventLabel e = some lab ∧
    SameThread lab lab'

theorem SameThreads.of_map {f : EventLabel → EventLabel} (hf : ∀ lab, SameThread lab (f lab))
    (hio : g'.insertionOrder = g.insertionOrder) (hnum : g'.getNumThreads = g.getNumThreads)
    (hget : ∀ e, g'.getEventLabel e = (g.getEventLabel e).map f) : SameThreads g g' := by
  refine ⟨hio, hnum, fun e => by rw [hget, Option.isSome_map], fun e lab' h' => ?_⟩
  rw [hget] at h'
  obtain ⟨lab, hlab, rfl⟩ := Option.map_eq_some_iff.1 h'
  exact ⟨lab, hlab, hf lab⟩

theorem SameThreads.refl (g : ExecutionGraph) : SameThreads g g :=
  ⟨rfl, rfl, fun _ => rfl, fun _ lab h => ⟨lab, h, SameThread.refl lab⟩⟩

theorem SameThreads.forth (h : SameThreads g g') {e : Event} {lab : EventLabel}
    (hlab : g.getEventLabel e = some lab) :
    ∃ lab', g'.getEventLabel e = some lab' ∧ SameThread lab lab' := by
  obtain ⟨lab', hlab'⟩ := Option.isSome_iff_exists.1 (by rw [h.isSome, hlab]; rfl)
  obtain ⟨lab₀, hlab₀, hsame⟩ := h.label e lab' hlab'
  obtain rfl := Option.some.inj (hlab₀.symm.trans hlab)
  exact ⟨lab', hlab', hsame⟩

theorem SameThreads.symm (h : SameThreads g g') : SameThreads g' g :=
  ⟨h.insertionOrder.symm, h.numThreads.symm, fun e => (h.isSome e).symm, fun e lab hlab => by
    obtain ⟨lab', hlab', hsame⟩ := h.forth hlab
    exact ⟨lab', hlab', hsame.symm⟩⟩

theorem SameThreads.trans {g'' : ExecutionGraph} (h : SameThreads g g') (h' : SameThreads g' g'') :
    SameThreads g g'' := by
  refine ⟨h'.insertionOrder.trans h.insertionOrder, h'.numThreads.trans h.numThreads,
    fun e => (h'.isSome e).trans (h.isSome e), fun e lab'' hlab'' => ?_⟩
  obtain ⟨lab', hlab', hsame'⟩ := h'.label e lab'' hlab''
  obtain ⟨lab, hlab, hsame⟩ := h.label e lab' hlab'
  exact ⟨lab, hlab, hsame.trans hsame'⟩

theorem getNumThreads_resetStamps : g.resetStamps.getNumThreads = g.getNumThreads := by
  rw [resetStamps_eq]
  exact getNumThreads_mapLabels _

theorem insertionOrder_resetStamps : g.resetStamps.insertionOrder = g.insertionOrder := by
  rw [resetStamps_eq]
  rfl

theorem sameThread_restampLabel (io : List Event) (n : ℕ) (lab : EventLabel) :
    SameThread lab (restampLabel io n lab) := ⟨rfl, rfl, rfl, rfl, rfl⟩

theorem sameThreads_resetStamps (g : ExecutionGraph) : SameThreads g g.resetStamps :=
  .of_map (sameThread_restampLabel g.insertionOrder 0) insertionOrder_resetStamps
    getNumThreads_resetStamps getEventLabel_resetStamps

/-! ## Threads in order -/

/-- The threads of a graph are in order, whatever the stamps of its labels are. -/
def Threaded (g : ExecutionGraph) : Prop := ThreadInv g.resetStamps

/-- The invariant is about threads and stamps only. -/
theorem ThreadInv.of_same (h : ThreadInv g) (hs : SameThreads g g')
    (hst : ∀ e lab lab', g.getEventLabel e = some lab → g'.getEventLabel e = some lab' →
      lab'.stamp = lab.stamp) (htime : g'.timestamp = g.timestamp) : ThreadInv g' := by
  have hmem : ∀ e, e ∈ g.insertionOrder ↔ (g'.getEventLabel e).isSome := by
    intro e
    rw [hs.isSome, h.inserted]
  refine ⟨fun e lab' h' => ?_, ?_, fun t ht => ?_, fun lab' h' => ?_, ?_, fun e => ?_,
    fun e lab' h' => ?_, ?_, fun t i h' => ?_, fun t bLab' ht h' => ?_,
    fun t t' bLab₁ bLab₂ ht htt' h1 h2 => ?_⟩
  · obtain ⟨lab, hlab, hsame⟩ := hs.label e lab' h'
    rw [hsame.pos, h.slots e lab hlab]
  · rw [hs.numThreads]
    exact h.threads
  · rw [hs.isSome]
    exact h.begun t (hs.numThreads ▸ ht)
  · obtain ⟨lab, hlab, hsame⟩ := hs.label _ lab' h'
    rw [hsame.kind, hsame.createId]
    exact h.main lab hlab
  · rw [hs.insertionOrder]
    exact h.order
  · rw [hs.insertionOrder]
    exact hmem e
  · obtain ⟨lab, hlab, -⟩ := hs.label e lab' h'
    rw [hst e lab lab' hlab h', h.stamp e lab hlab, hs.insertionOrder]
  · rw [htime, h.timestamp, hs.insertionOrder]
  · rw [hs.insertionOrder]
    exact h.po t i (by rwa [← hs.isSome])
  · obtain ⟨bLab, hb, hsame⟩ := hs.label _ bLab' h'
    obtain ⟨h1, cLab, h2, h3, h4, h5, h6⟩ := h.created t bLab ht hb
    obtain ⟨cLab', hc', hsame'⟩ := hs.forth h3
    rw [hsame.kind, hsame.createId, hsame.create, hs.insertionOrder]
    exact ⟨h1, cLab', h2, hc', hsame'.kind.trans h4, hsame'.childId.trans h5, h6⟩
  · obtain ⟨bLab, hb, hsame⟩ := hs.label _ bLab₁ h1
    obtain ⟨bLab', hb', hsame'⟩ := hs.label _ bLab₂ h2
    rw [hsame.createId, hsame'.createId, hs.insertionOrder]
    exact h.ordered t t' bLab bLab' ht htt' hb hb'

/-- **Being in order is about threads only.** -/
theorem ThreadInv.threaded (h : ThreadInv g) (hs : SameThreads g g') : Threaded g' := by
  have hs := hs.trans (sameThreads_resetStamps g')
  refine h.of_same hs (fun e lab lab' hlab hlab' => ?_) ?_
  · -- the stamps are new
    obtain ⟨lab₀, hlab₀, hsame⟩ := hs.label e lab' hlab'
    have hnodup : g'.insertionOrder.Nodup := by
      rw [← insertionOrder_resetStamps, hs.insertionOrder]
      exact h.order
    have he : e ∈ g'.insertionOrder := by
      rw [← insertionOrder_resetStamps, hs.insertionOrder, h.inserted, hlab]
      rfl
    rw [h.stamp e lab hlab, ← hs.insertionOrder]
    rw [getEventLabel_resetStamps] at hlab'
    obtain ⟨l, -, rfl⟩ := Option.map_eq_some_iff.1 hlab'
    have hpos : l.pos = e := hsame.pos.trans (h.slots e lab₀ hlab₀)
    show restamp g'.insertionOrder 0 l.pos l.stamp = _
    rw [hpos, restamp_of_mem hnodup he, Nat.zero_add, insertionOrder_resetStamps]
  · rw [h.timestamp, ← hs.insertionOrder, resetStamps_eq]
    rfl

theorem Threaded.of_same (h : Threaded g) (hs : SameThreads g g') : Threaded g' :=
  ThreadInv.threaded h ((sameThreads_resetStamps g).symm.trans hs)

section Threaded

variable (h : Threaded g)
include h

theorem Threaded.slots : g.Slots := by
  intro e lab hlab
  obtain ⟨lab', hlab', hsame⟩ := (sameThreads_resetStamps g).forth hlab
  rw [← hsame.pos]
  exact ThreadInv.slots h e lab' hlab'

theorem Threaded.order : g.insertionOrder.Nodup := by
  rw [← insertionOrder_resetStamps]
  exact ThreadInv.order h

theorem Threaded.inserted (e : Event) : e ∈ g.insertionOrder ↔ (g.getEventLabel e).isSome := by
  rw [← (sameThreads_resetStamps g).isSome, ← insertionOrder_resetStamps]
  exact ThreadInv.inserted h e

theorem Threaded.po {t i : ℕ} (hi : (g.getEventLabel ⟨t, i + 1⟩).isSome) :
    Before g.insertionOrder ⟨t, i⟩ ⟨t, i + 1⟩ := by
  rw [← insertionOrder_resetStamps]
  exact ThreadInv.po h t i (by rwa [(sameThreads_resetStamps g).isSome])

theorem Threaded.main : ∃ lab, g.getEventLabel Event.getInit = some lab ∧ lab.kind = .Init := by
  obtain ⟨lab, hlab⟩ := Option.isSome_iff_exists.1 (ThreadInv.begun h 0 (ThreadInv.threads h))
  obtain ⟨lab', hlab', hsame⟩ := (sameThreads_resetStamps g).label _ _ hlab
  exact ⟨lab', hlab', hsame.kind.symm.trans (ThreadInv.main h lab hlab).1⟩

end Threaded

/-! ## Stamps that agree with the insertion order -/

/-- All labels are stamped, and the stamps increase along the insertion order. -/
structure StampsUp (g : ExecutionGraph) : Prop where
  stamped : g.Stamped
  up : ∀ a b aLab bLab s s', Before g.insertionOrder a b → g.getEventLabel a = some aLab →
    g.getEventLabel b = some bLab → aLab.stamp = some s → bLab.stamp = some s' → s < s'
  below : ∀ e lab s, g.getEventLabel e = some lab → lab.stamp = some s → s < g.timestamp

theorem ThreadInv.stampsUp (h : ThreadInv g) : StampsUp g := by
  refine ⟨h.stamped, fun a b aLab bLab s s' hab ha hb hs hs' => ?_, fun e lab s hlab hs => ?_⟩
  · obtain rfl := Option.some.inj ((h.stamp a aLab ha).symm.trans hs)
    obtain rfl := Option.some.inj ((h.stamp b bLab hb).symm.trans hs')
    exact (before_iff_idxOf_lt h.order ((h.inserted b).2 (by rw [hb]; rfl))).1 hab
  · obtain rfl := Option.some.inj ((h.stamp e lab hlab).symm.trans hs)
    rw [h.timestamp]
    exact List.idxOf_lt_length_iff.2 ((h.inserted e).2 (by rw [hlab]; rfl))

/-- Whether an event is in the view of a stamp. -/
def StampedBy (g : ExecutionGraph) (stamp : ℕ) (e : Event) : Prop :=
  ∃ lab, g.getEventLabel e = some lab ∧ ∃ s, lab.stamp = some s ∧ s ≤ stamp

theorem any_stamp_iff {stamp : ℕ} {e : Event} :
    ((g.getEventLabel e).any fun lab => lab.stamp.any (· ≤ stamp)) = true ↔
      StampedBy g stamp e := by
  simp [StampedBy, Option.any_eq_true]

/-- The events up to a stamp are those up to some place in the insertion order, begins apart. -/
theorem StampsUp.exists_place (hs : StampsUp g) (h : Threaded g) (stamp : ℕ) :
    ∃ n, ∀ e, 0 < e.index → (g.getEventLabel e).isSome →
      (StampedBy g stamp e ↔ g.insertionOrder.idxOf e ≤ n) := by
  classical
  by_cases hex : ∃ e, StampedBy g stamp e
  · -- the last one of them
    have hne : (g.insertionOrder.toFinset.filter (StampedBy g stamp)).Nonempty := by
      obtain ⟨e, he⟩ := hex
      have hsome : (g.getEventLabel e).isSome := by
        obtain ⟨lab, hlab, -⟩ := he
        rw [hlab]
        rfl
      exact ⟨e, Finset.mem_filter.2 ⟨List.mem_toFinset.2 ((h.inserted e).2 hsome), he⟩⟩
    obtain ⟨x, hx, hmax⟩ := Finset.exists_max_image _ g.insertionOrder.idxOf hne
    obtain ⟨hxio, xLab, hxLab, s, hxs, hle⟩ := Finset.mem_filter.1 hx
    rw [List.mem_toFinset] at hxio
    refine ⟨g.insertionOrder.idxOf x, fun e _ he => ⟨fun hst => ?_, fun hidx => ?_⟩⟩
    · exact hmax e (Finset.mem_filter.2 ⟨List.mem_toFinset.2 ((h.inserted e).2 he), hst⟩)
    · obtain ⟨lab, hlab⟩ := Option.isSome_iff_exists.1 he
      obtain ⟨s', hs'⟩ := Option.isSome_iff_exists.1 (hs.stamped e lab hlab)
      refine ⟨lab, hlab, s', hs', ?_⟩
      rcases hidx.eq_or_lt with heq | hlt
      · obtain rfl := (List.idxOf_inj ((h.inserted e).2 he)).1 heq
        obtain rfl := Option.some.inj (hlab.symm.trans hxLab)
        obtain rfl := Option.some.inj (hs'.symm.trans hxs)
        exact hle
      · have hb := (before_iff_idxOf_lt h.order hxio).2 hlt
        exact (hs.up e x lab xLab s' s hb hlab hxLab hs' hxs).le.trans hle
  · refine ⟨0, fun e hi he => ⟨fun hst => absurd ⟨e, hst⟩ hex, fun hidx => ?_⟩⟩
    -- only a begin can come first
    obtain ⟨t, i⟩ := e
    obtain ⟨i, rfl⟩ := Nat.exists_eq_succ_of_ne_zero (Nat.pos_iff_ne_zero.1 hi)
    have hlt := (before_iff_idxOf_lt h.order ((h.inserted _).2 he)).1 (h.po he)
    exact absurd (hlt.trans_le hidx) (Nat.not_lt_zero _)

/-- The view of a stamp does not change when the labels are stamped anew. -/
theorem StampsUp.exists_view (hs : StampsUp g) (h : Threaded g) (stamp : ℕ) :
    ∃ n, g.resetStamps.getViewFromStamp n = g.getViewFromStamp stamp ∧
      ∀ e, 0 < e.index → (g.getEventLabel e).isSome →
        (StampedBy g stamp e ↔ g.insertionOrder.idxOf e ≤ n) := by
  obtain ⟨n, hn⟩ := hs.exists_place h stamp
  have hsize : ∀ t, g.resetStamps.getThreadSize t = g.getThreadSize t := by
    intro t
    rw [resetStamps_eq]
    exact getThreadSize_mapLabels _ t
  have hiff : ∀ {t j : ℕ}, 0 < j →
      (StampedBy g.resetStamps n ⟨t, j⟩ ↔ StampedBy g stamp ⟨t, j⟩) := by
    intro t j hj
    by_cases hsome : (g.getEventLabel ⟨t, j⟩).isSome
    · rw [hn _ hj hsome, ← any_stamp_iff, ThreadInv.any_stamp_le h, insertionOrder_resetStamps,
        (sameThreads_resetStamps g).isSome]
      exact and_iff_right hsome
    · refine iff_of_false ?_ ?_
      · rintro ⟨lab, hlab, -⟩
        rw [← (sameThreads_resetStamps g).isSome, hlab] at hsome
        exact hsome rfl
      · rintro ⟨lab, hlab, -⟩
        rw [hlab] at hsome
        exact hsome rfl
  have hle : ∀ {o o' : ExecutionGraph} {n n' : ℕ},
      (∀ t, o.getThreadSize t = o'.getThreadSize t) →
      (∀ {t j : ℕ}, 0 < j → StampedBy o n ⟨t, j⟩ → StampedBy o' n' ⟨t, j⟩) →
      ∀ t, (o.getViewFromStamp n).getMax t ≤ (o'.getViewFromStamp n').getMax t := by
    intro o o' n n' hsize hto t
    rcases Nat.eq_zero_or_pos ((o.getViewFromStamp n).getMax t) with h0 | hpos
    · rw [h0]
      exact Nat.zero_le _
    · have hst : StampedBy o n ⟨t, (o.getViewFromStamp n).getMax t⟩ :=
        any_stamp_iff.1 ((getD_find?_reverse_range _ (o.getThreadSize t)).2 hpos)
      refine (getD_find?_reverse_range _ (o'.getThreadSize t)).1 _ ?_
        (any_stamp_iff.2 (hto hpos hst))
      obtain ⟨lab, hlab, -⟩ := hst
      rw [← hsize]
      exact lt_getThreadSize_of_getEventLabel hlab
  refine ⟨n, View.ext (funext fun t => le_antisymm ?_ ?_), hn⟩
  · exact hle hsize (fun hj => (hiff hj).1) t
  · exact hle (fun t => (hsize t).symm) (fun hj => (hiff hj).2) t

/-- Above the begins, the view of a stamp has the labels up to that stamp. -/
theorem StampsUp.contains_iff (hs : StampsUp g) (h : Threaded g) (stamp : ℕ) {e : Event}
    (he : (g.getEventLabel e).isSome) (hi : 0 < e.index) :
    (g.getViewFromStamp stamp).contains e = true ↔ StampedBy g stamp e := by
  obtain ⟨n, hview, hn⟩ := hs.exists_view h stamp
  rw [← hview, ThreadInv.contains_getViewFromStamp h n
    (by rwa [(sameThreads_resetStamps g).isSome]) hi, insertionOrder_resetStamps, hn e hi he]

/-! ## Adding labels and creating threads -/

section Add

variable {lab : EventLabel}

theorem SameThreads.getThreadSize_eq (hs : SameThreads g g') (t : ℕ) :
    g'.getThreadSize t = g.getThreadSize t := getThreadSize_congr hs.isSome t

/-- Adding a label to two graphs with the same threads. -/
theorem SameThreads.addLabelToGraph (hs : SameThreads g g') (hg : g.Seated) (hg' : g'.Seated)
    (ht : lab.pos.thread < g.getNumThreads)
    (hi : lab.pos.index = g.getThreadSize lab.pos.thread) :
    SameThreads (g.addLabelToGraph lab) (g'.addLabelToGraph lab) := by
  have hi' : lab.pos.index = g'.getThreadSize lab.pos.thread := by rwa [hs.getThreadSize_eq]
  have hget := getEventLabel_addLabelToGraph hg ht hi
  have hget' := getEventLabel_addLabelToGraph hg' (by rwa [hs.numThreads]) hi'
  have hstamp : ∀ o : ExecutionGraph, SameThread lab (o.stampLabel lab).1 := by
    intro o
    rw [stampLabel]
    split
    · exact SameThread.refl lab
    · exact ⟨rfl, rfl, rfl, rfl, rfl⟩
  refine ⟨?_, ?_, fun e => ?_, fun e lab' h' => ?_⟩
  · rw [insertionOrder_addLabelToGraph hg hi, insertionOrder_addLabelToGraph hg' hi',
      hs.insertionOrder]
  · rw [getNumThreads_addLabelToGraph hg hi, getNumThreads_addLabelToGraph hg' hi', hs.numThreads]
  · rw [hget, hget']
    split
    · rfl
    · exact hs.isSome e
  · rw [hget'] at h'
    rw [hget]
    split at h'
    · rename_i he
      obtain rfl := Option.some.inj h'
      exact ⟨_, if_pos he, (hstamp g).symm.trans (hstamp g')⟩
    · rename_i he
      rw [if_neg he]
      exact hs.label e lab' h'

theorem Added.of_same (ha : Added g lab) (hs : SameThreads g g') : Added g' lab :=
  ⟨by rw [hs.numThreads]; exact ha.thread, by rw [hs.getThreadSize_eq]; exact ha.index, ha.begun,
    ha.stamp⟩

theorem Threaded.addLabelToGraph (h : Threaded g) (ha : Added g lab) :
    Threaded (g.addLabelToGraph lab) := by
  have hs := sameThreads_resetStamps g
  refine (ThreadInv.addLabelToGraph h (ha.of_same hs)).threaded (SameThreads.symm ?_)
  exact hs.addLabelToGraph h.slots.seated (ThreadInv.slots h).seated ha.thread ha.index

theorem sameThreads_setSymmSuccTid (symm : Option ℕ) (cid : ℕ) (g : ExecutionGraph) :
    SameThreads g (g.setSymmSuccTid symm cid) := by
  obtain ⟨hio, -, hnum⟩ := setSymmSuccTid_frame (g := g) symm cid
  refine ⟨hio, hnum, fun e => ?_, fun e lab' h' => ?_⟩
  · obtain ⟨f, -, hf⟩ := getEventLabel_setSymmSuccTid (g := g) symm cid e
    rw [hf, Option.isSome_map]
  · obtain ⟨f, hsame, hf⟩ := getEventLabel_setSymmSuccTid (g := g) symm cid e
    rw [hf] at h'
    obtain ⟨lab, hlab, rfl⟩ := Option.map_eq_some_iff.1 h'
    obtain ⟨s, hs⟩ := hsame lab
    exact ⟨lab, hlab, by rw [hs]; exact ⟨rfl, rfl, rfl, rfl, rfl⟩⟩

theorem SameThreads.addNewThread (hs : SameThreads g g') :
    SameThreads g.addNewThread g'.addNewThread := by
  refine ⟨hs.insertionOrder, ?_, fun e => ?_, fun e lab' h' => ?_⟩
  · have := hs.numThreads
    simp only [getNumThreads] at this
    simp [getNumThreads, ExecutionGraph.addNewThread, this]
  · rw [getEventLabel_addNewThread, getEventLabel_addNewThread]
    exact hs.isSome e
  · rw [getEventLabel_addNewThread] at h' ⊢
    exact hs.label e lab' h'

theorem getThreadSize_addNewThread (t : ℕ) : g.addNewThread.getThreadSize t = g.getThreadSize t :=
  getThreadSize_congr (fun e => by rw [getEventLabel_addNewThread]) t

theorem getNumThreads_addNewThread : g.addNewThread.getNumThreads = g.getNumThreads + 1 := by
  simp [getNumThreads, addNewThread]

/-- The label of a new thread's begin. -/
def beginOf (tcLab : EventLabel) (symm : Option ℕ) (cid : ℕ) : EventLabel :=
  { kind := .ThreadStart
    pos := ⟨cid, 0⟩
    ordering := .Acquire
    createId := tcLab.pos
    create := some tcLab.pos
    symmPredTid := symm }

/-- What creating a thread does, as the check on the id of the new thread passes. -/
theorem Threaded.handleThreadCreate_eq (h : Threaded g) {tcLab : EventLabel} (ha : Added g tcLab)
    (symm : Option ℕ) : g.handleThreadCreate tcLab symm =
      some (((g.addLabelToGraph
        { tcLab with childId := g.getNumThreads }).addNewThread.addLabelToGraph
        (beginOf tcLab symm g.getNumThreads)).setSymmSuccTid symm g.getNumThreads) := by
  have hs := sameThreads_resetStamps g
  have hchild : g.findChild tcLab.pos = g.getNumThreads := by
    have hfind := ThreadInv.findChild_eq h (ha.of_same hs)
    have hany : ∀ cid, (g.resetStamps.getFirstThreadLabel cid).any (·.createId = tcLab.pos) =
        (g.getFirstThreadLabel cid).any (·.createId = tcLab.pos) := by
      intro cid
      rw [getFirstThreadLabel, getFirstThreadLabel, getEventLabel_resetStamps]
      cases g.getEventLabel ⟨cid, 0⟩ with
      | none => rfl
      | some lab =>
        rw [Option.map_some, Option.filter_some, Option.filter_some]
        have hst : (restampLabel g.insertionOrder 0 lab).isThreadStart = lab.isThreadStart := rfl
        rw [hst]
        split_ifs with hl
        · rfl
        · rfl
    rw [findChild] at hfind ⊢
    simp only [hany, getNumThreads_resetStamps] at hfind
    exact hfind
  have hnum : (g.addLabelToGraph { tcLab with childId := g.getNumThreads }).getNumThreads =
      g.getNumThreads := getNumThreads_addLabelToGraph h.slots.seated ha.index
  rw [ExecutionGraph.handleThreadCreate, hchild]
  exact if_pos hnum.symm

theorem Threaded.handleThreadCreate (h : Threaded g) {tcLab : EventLabel} (ha : Added g tcLab)
    (hk : tcLab.kind = .ThreadCreate) {symm : Option ℕ}
    (hstep : g.handleThreadCreate tcLab symm = some g') : Threaded g' := by
  have hs := sameThreads_resetStamps g
  have hreset : Threaded g.resetStamps := ThreadInv.threaded h (.refl _)
  have ha' := ha.of_same hs
  obtain ⟨o, ho, hinv⟩ := ThreadInv.handleThreadCreate h ha' symm
  rw [hreset.handleThreadCreate_eq ha' symm] at ho
  rw [h.handleThreadCreate_eq ha symm] at hstep
  obtain rfl := Option.some.inj hstep
  obtain rfl := Option.some.inj ho
  refine (hinv hk).threaded (SameThreads.symm ?_)
  rw [getNumThreads_resetStamps]
  set tc : EventLabel := { tcLab with childId := g.getNumThreads } with htc
  have hseat : ∀ {o : ExecutionGraph}, o.Seated → o.addNewThread.Seated := by
    intro o ho e lab hlab
    rw [getEventLabel_addNewThread] at hlab
    exact ho e lab hlab
  have h₁ : SameThreads (g.addLabelToGraph tc) (g.resetStamps.addLabelToGraph tc) :=
    hs.addLabelToGraph h.slots.seated (ThreadInv.slots h).seated ha.thread ha.index
  have hnum : (g.addLabelToGraph tc).getNumThreads = g.getNumThreads :=
    getNumThreads_addLabelToGraph h.slots.seated ha.index
  have h₂ : SameThreads ((g.addLabelToGraph tc).addNewThread.addLabelToGraph
      (beginOf tcLab symm g.getNumThreads))
        ((g.resetStamps.addLabelToGraph tc).addNewThread.addLabelToGraph
        (beginOf tcLab symm g.getNumThreads)) := by
    refine h₁.addNewThread.addLabelToGraph
      (hseat (h.slots.seated.addLabelToGraph ha.thread ha.index))
      (hseat ((ThreadInv.slots h).seated.addLabelToGraph ha'.thread ha'.index)) ?_ ?_
    · rw [getNumThreads_addNewThread, hnum]
      exact Nat.lt_succ_self _
    · rw [getThreadSize_addNewThread]
      exact (getThreadSize_eq_zero hnum.le).symm
  exact ((sameThreads_setSymmSuccTid symm _ _).symm.trans h₂).trans
    (sameThreads_setSymmSuccTid symm _ _)

/-- A new label has the largest stamp. -/
theorem StampsUp.concat (hs : StampsUp g) (h : Threaded g) {pos : Event}
    (hpos : g.getEventLabel pos = none) (hio : g'.insertionOrder = g.insertionOrder ++ [pos])
    (htime : g'.timestamp = g.timestamp + 1)
    (hnew : ∀ lab, g'.getEventLabel pos = some lab → lab.stamp = some g.timestamp)
    (hold : ∀ e lab', e ≠ pos → g'.getEventLabel e = some lab' →
      ∃ lab, g.getEventLabel e = some lab ∧ lab'.stamp = lab.stamp) : StampsUp g' := by
  have hnotin : pos ∉ g.insertionOrder := by
    rw [h.inserted, hpos]
    exact Bool.false_ne_true
  have hnodup : (g.insertionOrder ++ [pos]).Nodup :=
    List.nodup_append.2 ⟨h.order, List.nodup_singleton _, fun a ha b hb hab =>
      hnotin (List.mem_singleton.1 hb ▸ hab ▸ ha)⟩
  have hbelow : ∀ e lab s, e ≠ pos → g'.getEventLabel e = some lab → lab.stamp = some s →
      s < g.timestamp := by
    intro e lab s he hlab hst
    obtain ⟨lab₀, hlab₀, heq⟩ := hold e lab he hlab
    exact hs.below e lab₀ s hlab₀ (heq.symm.trans hst)
  refine ⟨fun e lab hlab => ?_, fun a b aLab bLab s s' hab ha hb hst hst' => ?_,
    fun e lab s hlab hst => ?_⟩
  · by_cases he : e = pos
    · rw [he] at hlab
      rw [hnew lab hlab]
      rfl
    · obtain ⟨lab₀, hlab₀, heq⟩ := hold e lab he hlab
      rw [heq]
      exact hs.stamped e lab₀ hlab₀
  · rw [hio] at hab
    rcases (before_concat_iff hnodup).1 hab with hab | ⟨hamem, rfl⟩
    · have hane : a ≠ pos := fun h' => hnotin (h' ▸ hab.mem_left)
      have hbne : b ≠ pos := fun h' => hnotin (h' ▸ hab.mem_right)
      obtain ⟨aLab₀, ha₀, heq⟩ := hold a aLab hane ha
      obtain ⟨bLab₀, hb₀, heq'⟩ := hold b bLab hbne hb
      exact hs.up a b aLab₀ bLab₀ s s' hab ha₀ hb₀ (heq.symm.trans hst) (heq'.symm.trans hst')
    · rw [hnew bLab hb] at hst'
      obtain rfl := Option.some.inj hst'
      exact hbelow a aLab s (fun h' => hnotin (h' ▸ hamem)) ha hst
  · rw [htime]
    by_cases he : e = pos
    · rw [he] at hlab
      rw [hnew lab hlab] at hst
      obtain rfl := Option.some.inj hst
      exact Nat.lt_succ_self _
    · exact (hbelow e lab s he hlab hst).trans (Nat.lt_succ_self _)

theorem StampsUp.addLabelToGraph (hs : StampsUp g) (h : Threaded g) (ha : Added g lab) :
    StampsUp (g.addLabelToGraph lab) := by
  have hseat := h.slots.seated
  have hget := getEventLabel_addLabelToGraph hseat ha.thread ha.index
  rw [stamp_stampLabel ha.stamp] at hget
  refine hs.concat h (getEventLabel_of_index_ge ha.index.ge)
    (insertionOrder_addLabelToGraph hseat ha.index)
    (timestamp_addLabelToGraph hseat ha.index ha.stamp) (fun lab' h' => ?_) fun e lab' he h' => ?_
  · rw [hget, if_pos rfl] at h'
    rw [← Option.some.inj h']
  · rw [hget, if_neg he] at h'
    exact ⟨lab', h', rfl⟩

end Add

/-! ## Cutting -/

/-- Stamping labels anew does not get in the way of a restriction. -/
theorem restrictTo_resetStamps (v : View) : g.resetStamps.restrictTo v =
    { (g.restrictTo v).mapLabels (restampLabel g.insertionOrder 0) with
      timestamp := g.insertionOrder.length } := by
  have hkept : g.resetStamps.keptEvents v =
      (g.keptEvents v).map (·.map (restampLabel g.insertionOrder 0)) := by
    rw [resetStamps_eq]
    refine List.ext_getElem? fun i => ?_
    simp only [keptEvents, mapLabels, List.getElem?_mapIdx, List.getElem?_map, Option.map_map]
    cases g.events[i]? with
    | none => rfl
    | some thr => simp [List.map_take]
  have hkeep : ∀ a, ((g.resetStamps.keptEvents v).flatten.any fun lab =>
      lab.isMemAccess && lab.addr = a) =
        (g.keptEvents v).flatten.any fun lab => lab.isMemAccess && lab.addr = a := by
    intro a
    rw [hkept, ← List.map_flatten, List.any_map]
    rfl
  have hmaps : g.resetStamps.coherence = g.coherence ∧ g.resetStamps.initRfs = g.initRfs ∧
      g.resetStamps.accessMap = g.accessMap ∧ g.resetStamps.initVals = g.initVals := by
    rw [resetStamps_eq]
    exact ⟨rfl, rfl, rfl, rfl⟩
  obtain ⟨hco, hinit, hacc, hvals⟩ := hmaps
  refine ExecutionGraph.ext ?_ ?_ ?_ ?_ ?_ ?_ hvals
  · show (g.resetStamps.keptEvents v).map _ = ((g.keptEvents v).map _).map _
    rw [hkept, List.map_map, List.map_map]
    refine List.map_congr_left fun thr _ => ?_
    simp only [Function.comp_apply, List.map_map]
    rfl
  · show g.resetStamps.insertionOrder.filter _ = _
    rw [insertionOrder_resetStamps]
    rfl
  · show g.resetStamps.timestamp = _
    rw [resetStamps_eq]
  · funext a
    simp only [restrictTo, removeAfter, hkeep, hco]
    rfl
  · funext a
    simp only [restrictTo, removeAfter, hkeep, hco, hinit]
    rfl
  · funext a
    simp only [restrictTo, removeAfter, hkeep, hco, hacc]
    rfl

theorem eraseBegin_mapLabels (o : ExecutionGraph) (io : List Event) (n i : ℕ) (bLab : EventLabel) :
    ({ o.mapLabels (restampLabel io 0) with timestamp := n }.eraseBegin i
      (restampLabel io 0 bLab)) =
        { (o.eraseBegin i bLab).mapLabels (restampLabel io 0) with timestamp := n } := by
  have hmap : ∀ evs : List (List EventLabel), (evs.map (·.map (restampLabel io 0))).eraseIdx i =
      (evs.eraseIdx i).map (·.map (restampLabel io 0)) := fun evs => (List.eraseIdx_map ..)
  cases hp : bLab.symmPredTid with
  | none =>
    have hp' : (restampLabel io 0 bLab).symmPredTid = none := hp
    rw [eraseBegin, eraseBegin, hp, hp']
    refine ExecutionGraph.ext ?_ rfl rfl rfl rfl rfl rfl
    exact hmap o.events
  | some p =>
    have hp' : (restampLabel io 0 bLab).symmPredTid = some p := hp
    rw [eraseBegin, eraseBegin, hp, hp']
    refine ExecutionGraph.ext ?_ rfl rfl rfl rfl rfl rfl
    show ((o.events.map _).modify p _).eraseIdx i = ((o.events.modify p _).eraseIdx i).map _
    rw [← hmap]
    congr 1
    refine List.ext_getElem? fun k => ?_
    simp only [List.getElem?_modify, List.getElem?_map]
    cases o.events[k]? with
    | none => rfl
    | some thr =>
      by_cases hk : p = k
      · cases thr <;> simp [hk, restampLabel]
      · simp [hk]

theorem cleanupBegins_mapLabels (io : List Event) (n : ℕ) : ∀ (i : ℕ) (o : ExecutionGraph),
    { o.mapLabels (restampLabel io 0) with timestamp := n }.cleanupBegins
      (fun _ bLab => bLab.create.isNone) i =
        { (o.cleanupBegins (fun _ bLab => bLab.create.isNone) i).mapLabels
          (restampLabel io 0) with timestamp := n }
  | 0, _ => rfl
  | i + 1, o => by
    have hget : ({ o.mapLabels (restampLabel io 0) with timestamp := n }).events.getD i [] =
        (o.events.getD i []).map (restampLabel io 0) := by
      show (o.events.map _).getD i [] = _
      rw [List.getD_eq_getElem?_getD, List.getD_eq_getElem?_getD, List.getElem?_map]
      cases o.events[i]? <;> rfl
    rw [cleanupBegins, cleanupBegins, hget]
    cases o.events.getD i [] with
    | nil => rfl
    | cons bLab rest =>
      cases rest with
      | cons lab rest => rfl
      | nil =>
        have ih := cleanupBegins_mapLabels io n i
        show (if bLab.kind = .Init then _ else if bLab.create.isNone = true then _ else _) = _
        simp only
        by_cases hk : bLab.kind = .Init
        · simp [hk]
        · by_cases hc : bLab.create.isNone = true
          · rw [if_neg hk, if_pos hc, if_neg hk, if_pos hc, eraseBegin_mapLabels, ih]
          · rw [if_neg hk, if_neg hc, if_neg hk, if_neg hc, ih]

/-- Stamping labels anew twice. -/
theorem resetStamps_mapLabels {o : ExecutionGraph} {io : List Event} {n : ℕ}
    (hnodup : o.insertionOrder.Nodup) (hin : ∀ lab ∈ o.labels, lab.pos ∈ o.insertionOrder) :
    ({ o.mapLabels (restampLabel io 0) with timestamp := n }).resetStamps = o.resetStamps := by
  rw [resetStamps_eq, resetStamps_eq]
  refine ExecutionGraph.ext ?_ rfl rfl rfl rfl rfl rfl
  show (o.events.map _).map _ = o.events.map _
  rw [List.map_map]
  refine List.map_congr_left fun thr hthr => ?_
  simp only [Function.comp_apply, List.map_map]
  refine List.map_congr_left fun lab hlab => ?_
  have hmem := hin lab (List.mem_flatten.2 ⟨thr, hthr, hlab⟩)
  have hst : ∀ s, restamp o.insertionOrder 0 lab.pos s =
      some (0 + o.insertionOrder.idxOf lab.pos) := fun s => restamp_of_mem hnodup hmem
  show { lab with stamp := restamp o.insertionOrder 0 lab.pos _ } = _
  rw [hst, ← hst lab.stamp]
  rfl

/-- **Cutting gives the same graph as if the labels had been stamped anew before.** -/
theorem StampsUp.cutToStamp_eq (hs : StampsUp g) (h : Threaded g) (stamp : ℕ) :
    ∃ n, g.cutToStamp stamp = g.resetStamps.cutToStamp n := by
  obtain ⟨n, hn, -⟩ := hs.exists_view h stamp
  refine ⟨n, ?_⟩
  have hinv := ThreadInv.cutToStamp h n
  set g₁ := g.restrictTo (g.getViewFromStamp stamp) with hg₁
  set g₂ := g₁.cleanupBegins (fun _ bLab => bLab.create.isNone) g₁.getNumThreads with hg₂
  have hnum : (g.resetStamps.restrictTo (g.getViewFromStamp stamp)).getNumThreads =
      g₁.getNumThreads := by
    rw [getNumThreads_restrictTo, getNumThreads_resetStamps, hg₁, getNumThreads_restrictTo]
  have hcut : g.resetStamps.cutToStamp n =
      ({ g₂.mapLabels (restampLabel g.insertionOrder 0) with
        timestamp := g.insertionOrder.length }).resetStamps := by
    rw [ExecutionGraph.cutToStamp, hn, hnum, restrictTo_resetStamps, cleanupBegins_mapLabels]
  have hio : (g.resetStamps.cutToStamp n).insertionOrder = g₂.insertionOrder := by
    rw [hcut, insertionOrder_resetStamps]
    rfl
  have hsame : SameThreads g₂ (g.resetStamps.cutToStamp n) := by
    rw [hcut]
    have hmap : SameThreads g₂ { g₂.mapLabels (restampLabel g.insertionOrder 0) with
        timestamp := g.insertionOrder.length } :=
      .of_map (sameThread_restampLabel g.insertionOrder 0) rfl (getNumThreads_mapLabels _)
        fun e => getEventLabel_mapLabels _ e
    exact hmap.trans (sameThreads_resetStamps _)
  rw [hcut, resetStamps_mapLabels]
  · rfl
  · rw [← hio]
    exact hinv.order
  · intro lab hlab
    obtain ⟨e, he⟩ := mem_labels.1 hlab
    obtain ⟨lab', hlab', hsame'⟩ := hsame.forth he
    rw [← hsame'.pos, hinv.slots e lab' hlab', ← hio, hinv.inserted, hlab']
    rfl

/-- **Cutting restores the invariant.** -/
theorem StampsUp.threadInv_cutToStamp (hs : StampsUp g) (h : Threaded g) (stamp : ℕ) :
    ThreadInv (g.cutToStamp stamp) := by
  obtain ⟨n, hn⟩ := hs.cutToStamp_eq h stamp
  rw [hn]
  exact ThreadInv.cutToStamp h n

end ExecutionGraph
end GenMC
