import GenMC.Consistency.GraphChanges

/-!
# Threads of a graph under construction

The operations that create a thread, join it, block it and unblock it.  None of them makes a cycle:
a new label comes last, and a label that is taken out takes its edges with it.

* `Relabels` is an operation that touches nothing about a label but what the order of events does
  not depend on, and perhaps the join that waits for the end of a thread.
* `Sound` is what all operations of the driver keep together.
* `Sound.handleThreadCreate`, `Sound.handleThreadJoin`, `Sound.removeLast` and `Sound.blockThread`
  are the results about the operations.
-/

set_option autoImplicit false

namespace GenMC

open ListOrder Relation ExecutionGraph

namespace SCChecker

variable {g g' : ExecutionGraph} {a b e r w x : Event} {lab lab' : EventLabel}

/-! ## Changing labels -/

/-- Two labels that agree on all that the order of events depends on, joins apart. -/
structure SameOrder (lab lab' : EventLabel) : Prop extends SameThread lab lab' where
  stamp : lab'.stamp = lab.stamp
  addr : lab'.addr = lab.addr
  rf : lab'.rf = lab.rf
  readers : lab'.readers = lab.readers
  linSuccs : lab'.linSuccs = lab.linSuccs
  ordering : lab'.ordering = lab.ordering
  linPreds : lab'.linPreds = lab.linPreds

theorem SameOrder.refl (lab : EventLabel) : SameOrder lab lab :=
  ⟨.refl lab, rfl, rfl, rfl, rfl, rfl, rfl, rfl⟩

theorem SameOrder.isRead (h : SameOrder lab lab') : lab'.isRead = lab.isRead := by
  rw [EventLabel.isRead, h.kind, EventLabel.isRead]

theorem SameOrder.isWrite (h : SameOrder lab lab') : lab'.isWrite = lab.isWrite := by
  rw [EventLabel.isWrite, h.kind, EventLabel.isWrite]

/-- An operation that changes nothing else about labels. -/
structure Relabels (g g' : ExecutionGraph) : Prop where
  insertionOrder : g'.insertionOrder = g.insertionOrder
  timestamp : g'.timestamp = g.timestamp
  numThreads : g'.getNumThreads = g.getNumThreads
  coherence : g'.coherence = g.coherence
  initRfs : g'.initRfs = g.initRfs
  label : ∀ e, ∃ f : EventLabel → EventLabel, (∀ lab, SameOrder lab (f lab)) ∧
    g'.getEventLabel e = (g.getEventLabel e).map f

namespace Relabels

variable (hr : Relabels g g')
include hr

theorem co (y : SAddr) : g'.co y = g.co y := by
  rw [ExecutionGraph.co, hr.coherence, ExecutionGraph.co]

theorem isSome (e : Event) : (g'.getEventLabel e).isSome = (g.getEventLabel e).isSome := by
  obtain ⟨f, -, hf⟩ := hr.label e
  rw [hf, Option.isSome_map]

theorem back (h : g'.getEventLabel e = some lab') :
    ∃ lab, g.getEventLabel e = some lab ∧ SameOrder lab lab' := by
  obtain ⟨f, hsame, hf⟩ := hr.label e
  rw [hf] at h
  obtain ⟨lab, hlab, rfl⟩ := Option.map_eq_some_iff.1 h
  exact ⟨lab, hlab, hsame lab⟩

theorem forth (h : g.getEventLabel e = some lab) :
    ∃ lab', g'.getEventLabel e = some lab' ∧ SameOrder lab lab' := by
  obtain ⟨f, hsame, hf⟩ := hr.label e
  exact ⟨f lab, by rw [hf, h, Option.map_some], hsame lab⟩

theorem sameThreads : SameThreads g g' := by
  refine ⟨hr.insertionOrder, hr.numThreads, hr.isSome, fun e lab' h => ?_⟩
  obtain ⟨lab, hlab, hsame⟩ := hr.back h
  exact ⟨lab, hlab, hsame.toSameThread⟩

/-- One function for all labels, as the slot of a label is known from its position. -/
theorem readerInv (hs : g.Slots) (h : g.ReaderInv) : g'.ReaderInv := by
  choose f hsame hf using hr.label
  refine h.congr (f := fun lab => f lab.pos lab) (fun lab => ?_) (fun e => ?_) (fun y => ?_)
    (fun e he => ?_) fun y hy => ?_
  · have := hsame lab.pos lab
    exact ⟨this.kind, this.pos, this.addr, this.rf, this.readers,
      fun h => by rw [this.stamp]; exact h⟩
  · rw [hf]
    refine Option.map_congr fun lab hlab => ?_
    rw [hs e lab hlab]
  · rw [initReaders, hr.initRfs, initReaders]
  · rw [hr.insertionOrder]
    exact he
  · rw [hr.coherence]
    exact hy

theorem stampsUp (h : g.StampsUp) : g'.StampsUp := by
  refine ⟨fun e lab' h' => ?_, fun a b aLab' bLab' s s' hab ha hb hs hs' => ?_,
    fun e lab' s h' hs => ?_⟩
  · obtain ⟨lab, hlab, hsame⟩ := hr.back h'
    rw [hsame.stamp]
    exact h.stamped e lab hlab
  · obtain ⟨aLab, ha₀, hsame⟩ := hr.back ha
    obtain ⟨bLab, hb₀, hsame'⟩ := hr.back hb
    rw [hr.insertionOrder] at hab
    exact h.up a b aLab bLab s s' hab ha₀ hb₀ (hsame.stamp.symm.trans hs)
      (hsame'.stamp.symm.trans hs')
  · obtain ⟨lab, hlab, hsame⟩ := hr.back h'
    rw [hr.timestamp]
    exact h.below e lab s hlab (hsame.stamp.symm.trans hs)

/-- **Changing labels keeps the invariant**, if joins stay joins. -/
theorem graphInv (hg : GraphInv g) (hj : ∀ e eLab j, g'.getEventLabel e = some eLab →
    tjSucc eLab = some j → ∃ jLab, g'.getEventLabel j = some jLab ∧ jLab.kind = .ThreadJoin) :
    GraphInv g' := by
  have hwrite : ∀ {v y}, (∃ vLab, g.getEventLabel v = some vLab ∧ vLab.isWrite = true ∧
      vLab.addr = y) → ∃ vLab, g'.getEventLabel v = some vLab ∧ vLab.isWrite = true ∧
        vLab.addr = y := by
    rintro v y ⟨vLab, hv, hvw, hva⟩
    obtain ⟨vLab', hv', hsame⟩ := hr.forth hv
    exact ⟨vLab', hv', hsame.isWrite.trans hvw, hsame.addr.trans hva⟩
  refine ⟨hg.threaded.of_same hr.sameThreads, hr.stampsUp hg.stampsUp,
    hr.readerInv hg.threaded.slots hg.readerInv, fun y => ?_, fun y v hv => ?_,
    fun e eLab' v h hread hv => ?_, fun e eLab' h hread hv => ?_,
    fun e eLab' v h hread hv hnext => ?_, hj, fun e eLab' h => ?_⟩
  · rw [hr.co]
    exact hg.coNodup y
  · rw [hr.co] at hv
    exact hwrite (hg.co y v hv)
  · obtain ⟨eLab, he, hsame⟩ := hr.back h
    rw [hsame.isRead] at hread
    rw [hsame.rf] at hv
    rw [hsame.addr]
    exact (hg.source e eLab v he hread hv).imp_right hwrite
  · obtain ⟨eLab, he, hsame⟩ := hr.back h
    rw [hsame.isRead] at hread
    rw [hsame.rf] at hv
    rw [← Option.not_isSome_iff_eq_none, hr.isSome, hg.waiting e eLab he hread hv]
    exact Bool.false_ne_true
  · obtain ⟨eLab, he, hsame⟩ := hr.back h
    rw [hsame.isRead] at hread
    rw [hsame.rf] at hv
    rw [hr.isSome] at hnext
    rw [hr.insertionOrder]
    exact hg.settled e eLab v he hread hv hnext
  · obtain ⟨eLab, he, hsame⟩ := hr.back h
    rw [← hg.linSuccs e eLab he, ExecutionGraph.linSuccsOf, ExecutionGraph.linSuccsOf, hsame.kind,
      hsame.linSuccs]

/-- An edge is an old one, or one to a join. -/
theorem orderEdge (h : OrderEdge g' a b) :
    OrderEdge g a b ∨ ∃ lab', g'.getEventLabel a = some lab' ∧ tjSucc lab' = some b := by
  cases h with
  | po h =>
    rw [hr.isSome] at h
    exact .inl (.po h)
  | tc h hk hb =>
    obtain ⟨lab, hlab, hsame⟩ := hr.back h
    rw [hr.isSome, hsame.childId] at hb
    rw [hsame.childId]
    exact .inl (.tc hlab (hsame.kind.symm.trans hk) hb)
  | tj h hb => exact .inr ⟨_, h, hb⟩
  | rf h hread hw hne =>
    obtain ⟨lab, hlab, hsame⟩ := hr.back h
    exact .inl (.rf hlab (hsame.isRead.symm.trans hread) (hsame.rf.symm.trans hw) hne)
  | co h =>
    rw [hr.co] at h
    exact .inl (.co h)
  | fr h hread hw hb h' =>
    obtain ⟨lab, hlab, hsame⟩ := hr.back h
    rw [hr.co, hsame.addr] at hb h'
    exact .inl (.fr hlab (hsame.isRead.symm.trans hread) (hsame.rf.symm.trans hw) hb h')

theorem complete (hc : Complete g) : Complete g' := by
  refine ⟨fun e eLab' h hread => ?_, fun v vLab' h hw => ?_⟩
  · obtain ⟨eLab, he, hsame⟩ := hr.back h
    rw [hsame.rf]
    exact hc.rf e eLab he (hsame.isRead.symm.trans hread)
  · obtain ⟨vLab, hv, hsame⟩ := hr.back h
    rw [hr.co, hsame.addr]
    exact hc.write v vLab hv (hsame.isWrite.symm.trans hw)

section SameJoins

variable (hj : ∀ e lab lab', g.getEventLabel e = some lab → g'.getEventLabel e = some lab' →
  lab'.parentJoin = lab.parentJoin)
include hj

theorem tjSucc_eq {j : Event} (h : g'.getEventLabel e = some lab') (hb : tjSucc lab' = some j) :
    ∃ lab, g.getEventLabel e = some lab ∧ tjSucc lab = some j := by
  obtain ⟨lab, hlab, hsame⟩ := hr.back h
  rw [tjSucc, hsame.kind, hj e lab lab' hlab h] at hb
  exact ⟨lab, hlab, hb⟩

theorem orderEdge_of (h : OrderEdge g' a b) : OrderEdge g a b := by
  rcases hr.orderEdge h with h | ⟨lab', hlab', hb⟩
  · exact h
  · obtain ⟨lab, hlab, hb'⟩ := hr.tjSucc_eq hj hlab' hb
    exact .tj hlab hb'

theorem graphInv_of (hg : GraphInv g) : GraphInv g' := by
  refine hr.graphInv hg fun e eLab' j h hb => ?_
  obtain ⟨eLab, he, hb'⟩ := hr.tjSucc_eq hj h hb
  obtain ⟨jLab, hjLab, hk⟩ := hg.parentJoin e eLab j he hb'
  obtain ⟨jLab', hjLab', hsame⟩ := hr.forth hjLab
  exact ⟨jLab', hjLab', hsame.kind.trans hk⟩

end SameJoins

end Relabels

/-! ## Sound graphs -/

/-- What all operations of the driver keep: the graph is in order, nothing is left unfinished, and
the events can be performed one after the other. -/
structure Sound (g : ExecutionGraph) : Prop where
  graphInv : GraphInv g
  complete : Complete g
  acyclic : Acyclic (OrderEdge g)

theorem Relabels.sound (hr : Relabels g g') (h : Sound g)
    (hj : ∀ e lab lab', g.getEventLabel e = some lab → g'.getEventLabel e = some lab' →
      lab'.parentJoin = lab.parentJoin) : Sound g' :=
  ⟨hr.graphInv_of hj h.graphInv, hr.complete h.complete,
    h.acyclic.mono fun _ _ => hr.orderEdge_of hj⟩

/-- Changing one label. -/
theorem relabels_modify {f : EventLabel → EventLabel} (x : Event)
    (hf : ∀ lab, SameOrder lab (f lab)) : Relabels g (g.modify x f) := by
  refine ⟨rfl, rfl, getNumThreads_mapLabels _, rfl, rfl, fun e => ⟨_, fun lab => ?_,
    getEventLabel_modify x f e⟩⟩
  split
  · exact hf lab
  · exact .refl lab

/-! ## Adding labels -/

theorem Extends.complete (hx : Extends lab g g') (hc : Complete g)
    (hm : lab.isMemAccess = false) : Complete g' := by
  refine ⟨fun e eLab h hread => ?_, fun v vLab h hw => ?_⟩
  · rcases hx.cases h with ⟨-, rfl⟩ | ⟨-, h⟩
    · rw [EventLabel.isMemAccess_of_isRead hread] at hm
      cases hm
    · exact hc.rf e eLab h hread
  · rcases hx.cases h with ⟨-, rfl⟩ | ⟨-, h⟩
    · rw [EventLabel.isMemAccess_of_isWrite hw] at hm
      cases hm
    · rw [hx.co]
      exact hc.write v vLab h hw

/-- **Adding a label that is no memory access** makes no cycle, unless it creates a thread. -/
theorem Sound.addLabelToGraph (h : Sound g) (hn : NewLabel g lab)
    (hm : lab.isMemAccess = false) (hk : lab.kind ≠ .ThreadCreate) :
    Sound (g.addLabelToGraph lab) :=
  ⟨h.graphInv.addLabelToGraph hn h.complete,
    (hn.extends h.graphInv).complete h.complete hm,
    hn.acyclic h.graphInv hk h.acyclic⟩

theorem relabels_setSymmSuccTid (symm : Option ℕ) (cid : ℕ) (g : ExecutionGraph) :
    Relabels g (g.setSymmSuccTid symm cid) := by
  obtain ⟨hio, htime, hnum⟩ := setSymmSuccTid_frame (g := g) symm cid
  have hframe : (g.setSymmSuccTid symm cid).coherence = g.coherence ∧
      (g.setSymmSuccTid symm cid).initRfs = g.initRfs := by
    cases symm with
    | none => exact ⟨rfl, rfl⟩
    | some p => exact ⟨rfl, rfl⟩
  refine ⟨hio, htime, hnum, hframe.1, hframe.2, fun e => ?_⟩
  obtain ⟨f, hsame, hf⟩ := getEventLabel_setSymmSuccTid (g := g) symm cid e
  refine ⟨f, fun lab => ?_, hf⟩
  obtain ⟨s, hs⟩ := hsame lab
  rw [hs]
  exact ⟨⟨rfl, rfl, rfl, rfl, rfl⟩, rfl, rfl, rfl, rfl, rfl, rfl, rfl⟩

section Create

variable {symm : Option ℕ}

theorem NewLabel.setChildId (hn : NewLabel g lab) (cid : ℕ) :
    NewLabel g { lab with childId := cid } :=
  ⟨⟨hn.thread, hn.index, hn.begun, hn.stamp⟩, hn.rf, hn.readers, hn.parentJoin, hn.linSuccs⟩

section Begin

variable (hg : GraphInv g) (hc : Complete g) (hn : NewLabel g lab)
include hg hc hn

/-- The begin of the new thread goes into the empty thread that is added for it. -/
theorem GraphInv.begin_seat (symm : Option ℕ) :
    let g₁ := g.addLabelToGraph { lab with childId := g.getNumThreads }
    let pos := (beginOf lab symm g.getNumThreads).pos
    g₁.getThreadSize pos.thread = 0 ∧ g₁.addNewThread.Seated ∧
      pos.thread < g₁.addNewThread.getNumThreads ∧
      pos.index = g₁.addNewThread.getThreadSize pos.thread := by
  intro g₁ pos
  have hg₁ : GraphInv g₁ := hg.addLabelToGraph (hn.setChildId g.getNumThreads) hc
  have hnum : g₁.getNumThreads = g.getNumThreads :=
    getNumThreads_addLabelToGraph hg.threaded.slots.seated hn.index
  have hempty : g₁.getThreadSize pos.thread = 0 := getThreadSize_eq_zero hnum.le
  refine ⟨hempty, hg₁.readerInv.addNewThread.seated, ?_, ?_⟩
  · rw [getNumThreads_addNewThread, hnum]
    exact Nat.lt_succ_self _
  · rw [getThreadSize_addNewThread, hempty]
    rfl

/-- The begin of the new thread comes last. -/
theorem GraphInv.extends_begin (symm : Option ℕ) :
    Extends (stamped (g.addLabelToGraph { lab with childId := g.getNumThreads })
        (beginOf lab symm g.getNumThreads))
      (g.addLabelToGraph { lab with childId := g.getNumThreads })
      ((g.addLabelToGraph { lab with childId := g.getNumThreads }).addNewThread.addLabelToGraph
        (beginOf lab symm g.getNumThreads)) := by
  have hg₁ := hg.addLabelToGraph (hn.setChildId g.getNumThreads) hc
  set g₁ := g.addLabelToGraph { lab with childId := g.getNumThreads } with hg₁'
  set bLab := beginOf lab symm g.getNumThreads with hbLab
  obtain ⟨hempty, hseat, hthread, hindex⟩ := hg.begin_seat hc hn symm
  have hnone : ∀ e, e.thread = bLab.pos.thread → g₁.getEventLabel e = none := by
    intro e he
    rw [getEventLabel_of_index_ge]
    rw [he]
    exact hempty.le.trans (Nat.zero_le _)
  refine ⟨fun e => ?_, hnone _ rfl, hnone _ rfl, fun y => ?_,
    insertionOrder_addLabelToGraph hseat hindex, rfl, rfl, rfl⟩
  · rw [getEventLabel_addLabelToGraph hseat hthread hindex, stamp_stampLabel rfl,
      getEventLabel_addNewThread]
    rfl
  · rw [co_addLabelToGraph hseat hindex]
    rfl

/-- Creating a thread keeps the invariant. -/
theorem GraphInv.addBegin (hk : lab.kind = .ThreadCreate) (symm : Option ℕ) :
    Complete (g.addLabelToGraph { lab with childId := g.getNumThreads }) ∧
      GraphInv ((g.addLabelToGraph
        { lab with childId := g.getNumThreads }).addNewThread.addLabelToGraph
        (beginOf lab symm g.getNumThreads)) := by
  have hn' := hn.setChildId g.getNumThreads
  have hg₁ := hg.addLabelToGraph hn' hc
  have hc₁ := (hn'.extends hg).complete hc (by
    show lab.kind.isMemAccess = false
    rw [hk]
    rfl)
  have hx := hg.extends_begin hc hn symm
  have hthr := hg.threaded.handleThreadCreate hn.toAdded hk
    (hg.threaded.handleThreadCreate_eq hn.toAdded symm)
  set g₁ := g.addLabelToGraph { lab with childId := g.getNumThreads } with hg₁'
  set bLab := beginOf lab symm g.getNumThreads with hbLab
  obtain ⟨-, hseat, hthread, hindex⟩ := hg.begin_seat hc hn symm
  have hrel := relabels_setSymmSuccTid symm g.getNumThreads (g₁.addNewThread.addLabelToGraph bLab)
  have hst : (g₁.addNewThread.addLabelToGraph bLab).StampsUp := by
    refine hg₁.stampsUp.concat hg₁.threaded hx.new hx.insertionOrder
      (timestamp_addLabelToGraph hseat hindex rfl) (fun lab' h' => ?_) fun e lab' he h' => ?_
    · have hself := hx.self.symm.trans h'
      rw [← Option.some.inj hself]
      rfl
    · exact ⟨lab', ((hx.cases h').resolve_left fun h'' => he h''.1).2, rfl⟩
  have hri : (g₁.addNewThread.addLabelToGraph bLab).ReaderInv :=
    hg₁.readerInv.addNewThread.addLabelToGraph
      ⟨hthread, hindex, rfl, rfl, fun hm => absurd hm Bool.false_ne_true⟩
  exact ⟨hc₁, hx.graphInv hg₁ hc₁ (hthr.of_same hrel.sameThreads.symm) hst hri⟩

end Begin

variable (h : Sound g) (hn : NewLabel g lab) (hk : lab.kind = .ThreadCreate)
include h hn hk

/-- The creation itself comes last. -/
theorem Sound.addCreation :
    Sound (g.addLabelToGraph { lab with childId := g.getNumThreads }) := by
  set tc : EventLabel := { lab with childId := g.getNumThreads } with htc
  have hn' : NewLabel g tc := hn.setChildId g.getNumThreads
  have hx := hn'.extends h.graphInv
  have hkind : (stamped g tc).kind = .ThreadCreate := hk
  refine ⟨h.graphInv.addLabelToGraph hn' h.complete, hx.complete h.complete ?_,
    hx.acyclic h.graphInv (fun _ => ?_) h.acyclic⟩
  · rw [EventLabel.isMemAccess, hkind]
    rfl
  · -- the new thread has not begun yet
    have hne : (⟨(stamped g tc).childId, 0⟩ : Event) ≠ (stamped g tc).pos := by
      intro heq
      have hpos : (stamped g tc).pos = lab.pos := rfl
      have hbegun := hn.begun
      rw [hpos] at heq
      rw [← heq] at hbegun
      exact lt_irrefl _ hbegun
    rw [hx.label, if_neg hne]
    have hchild : (stamped g tc).childId = g.getNumThreads := rfl
    rw [hchild, getEventLabel_of_index_ge]
    exact (getThreadSize_eq_zero le_rfl).le

/-- **Creating a thread makes no cycle.** -/
theorem Sound.handleThreadCreate (hstep : g.handleThreadCreate lab symm = some g') : Sound g' := by
  rw [h.graphInv.threaded.handleThreadCreate_eq hn.toAdded] at hstep
  obtain rfl := Option.some.inj hstep
  have h₁ := h.addCreation hn hk
  have hx := h.graphInv.extends_begin h.complete hn symm
  obtain ⟨-, hg₂⟩ := h.graphInv.addBegin h.complete hn hk symm
  set g₁ := g.addLabelToGraph { lab with childId := g.getNumThreads } with hg₁
  set bLab := beginOf lab symm g.getNumThreads with hbLab
  have hrel := relabels_setSymmSuccTid symm g.getNumThreads (g₁.addNewThread.addLabelToGraph bLab)
  have h₂ : Sound (g₁.addNewThread.addLabelToGraph bLab) :=
    ⟨hg₂, hx.complete h₁.complete rfl,
      hx.acyclic h₁.graphInv (fun hkind => EventLabelKind.noConfusion hkind) h₁.acyclic⟩
  refine hrel.sound h₂ fun e eLab eLab' he he' => ?_
  obtain ⟨f, hsame, hf⟩ := getEventLabel_setSymmSuccTid
    (g := g₁.addNewThread.addLabelToGraph bLab) symm g.getNumThreads e
  rw [hf, he, Option.map_some] at he'
  obtain ⟨s, hs⟩ := hsame eLab
  rw [← Option.some.inj he', hs]

end Create

/-! ## Removing and blocking -/

section Remove

variable {t : ℕ} (hg : GraphInv g) (hlast : g.getLastThreadLabel t = some lab)
  (hrem : Removable lab)
include hg hlast hrem

/-- Nothing else becomes unfinished. -/
theorem complete_removeLast
    (hrf : ∀ r rLab, g.getEventLabel r = some rLab → rLab.isRead = true → r ≠ lab.pos →
      rLab.rf.isSome)
    (hw : ∀ w wLab, g.getEventLabel w = some wLab → wLab.isWrite = true → w ∈ g.co wLab.addr) :
    Complete (g.removeLast t) := by
  have hr := restricts_removeLast hg hlast hrem
  refine ⟨fun e eLab' h hread => ?_, fun v vLab' h hwrite => hr.mem_co hw h hwrite⟩
  obtain ⟨-, hkeep, eLab, he, hread', -, heq⟩ := hr.read h hread
  obtain ⟨v, hv⟩ := Option.isSome_iff_exists.1 (hrf e eLab he hread' (by simpa using hkeep))
  rw [heq, hv, Option.filter_some, if_pos]
  · rfl
  · rcases hg.source e eLab v he hread' hv with hi | ⟨vLab, hvLab, hvw, -⟩
    · simp [hi]
    · -- the label that is removed is no write
      have hne : v ≠ lab.pos := by
        rintro rfl
        obtain rfl := Option.some.inj ((getEventLabel_of_last hg hlast).1.symm.trans hvLab)
        rw [hrem.1] at hvw
        cases hvw
      simp [hne]

theorem GraphInv.removeLast : GraphInv (g.removeLast t) :=
  hg.restrict (restricts_removeLast hg hlast hrem) (settles_removeLast hg hlast hrem)

/-- The end of the thread after a removal. -/
theorem added_removeLast {bLab : EventLabel} (hpos : bLab.pos = lab.pos)
    (hst : bLab.stamp = none) : Added (g.removeLast t) bLab := by
  obtain ⟨hlab, heq⟩ := getEventLabel_of_last hg hlast
  have hsize := getThreadSize_removeLast hlast
  refine ⟨?_, ?_, by rw [hpos]; exact hrem.2.2.2, hst⟩
  · rw [getNumThreads_removeLast, hpos]
    exact lt_getNumThreads_of_getEventLabel hlab
  · rw [hpos, heq]
    show g.getThreadSize t - 1 = (g.removeLast t).getThreadSize t
    omega

end Remove

theorem Sound.removeLast {t : ℕ} (h : Sound g) (hlast : g.getLastThreadLabel t = some lab)
    (hrem : Removable lab) : Sound (g.removeLast t) :=
  ⟨h.graphInv.removeLast hlast hrem,
    complete_removeLast h.graphInv hlast hrem
      (fun r rLab hr hread _ => h.complete.rf r rLab hr hread)
      h.complete.write,
    h.acyclic.mono fun _ _ => (restricts_removeLast h.graphInv hlast hrem).orderEdge h.graphInv⟩

/-- A block that has just been created. -/
structure FreshBlock (bLab : EventLabel) : Prop where
  block : bLab.isBlock = true
  stamp : bLab.stamp = none
  rf : bLab.rf = none
  readers : bLab.readers = []
  parentJoin : bLab.parentJoin = none
  linSuccs : bLab.linSuccs = []

namespace FreshBlock

variable {bLab : EventLabel} (hb : FreshBlock bLab)
include hb

theorem newLabel (ha : Added g bLab) : NewLabel g bLab :=
  ⟨ha, hb.rf, hb.readers, hb.parentJoin, hb.linSuccs⟩

omit hb in
theorem kind_ne_of_isBlock {k : EventLabelKind} (hb : bLab.isBlock = true)
    (hk : k.isBlock = false) : bLab.kind ≠ k := by
  rintro rfl
  rw [EventLabel.isBlock, hk] at hb
  cases hb

omit hb in
theorem not_isMemAccess_of_isBlock (hb : bLab.isBlock = true) : bLab.isMemAccess = false := by
  revert hb
  rw [EventLabel.isBlock, EventLabel.isMemAccess]
  cases bLab.kind <;> decide

omit hb in
/-- Blocks can be removed. -/
theorem removable (hg : GraphInv g) (hlab : g.getEventLabel bLab.pos = some bLab)
    (hb : bLab.isBlock = true) : Removable bLab := by
  have hm := not_isMemAccess_of_isBlock hb
  refine ⟨?_, kind_ne_of_isBlock hb rfl, kind_ne_of_isBlock hb rfl,
    index_pos_of_kind hg.threaded hlab (kind_ne_of_isBlock hb rfl) (kind_ne_of_isBlock hb rfl)⟩
  rw [EventLabel.isMemAccess, EventLabelKind.isMemAccess_eq, Bool.or_eq_false_iff] at hm
  exact hm.2

theorem sound (h : Sound g) (ha : Added g bLab) : Sound (g.addLabelToGraph bLab) :=
  h.addLabelToGraph (hb.newLabel ha) (not_isMemAccess_of_isBlock hb.block)
    (kind_ne_of_isBlock hb.block rfl)

end FreshBlock

/-- **Blocking a thread makes no cycle**, whether the block comes after the last label or takes its
place. -/
theorem Sound.blockThread {bLab : EventLabel} (h : Sound g) (hb : FreshBlock bLab)
    (hpos : Added g bLab ∨ ∃ l, g.getLastThreadLabel bLab.pos.thread = some l ∧ l.pos = bLab.pos ∧
      Removable l) : Sound (g.blockThread bLab) := by
  rcases hpos with ha | ⟨l, hlast, hl, hrem⟩
  · rw [blockThread_eq_add h.graphInv.threaded.slots.seated ha.index]
    exact hb.sound h ha
  · rw [ExecutionGraph.blockThread, if_pos (by rw [hlast]; simpa using hl)]
    exact hb.sound (h.removeLast hlast hrem)
      (added_removeLast h.graphInv hlast hrem hl.symm hb.stamp)

/-- Reads can be removed. -/
theorem NewLabel.removable (hn : NewLabel g lab) (hread : lab.isRead = true) :
    Removable (stamped g lab) := by
  have hne : ∀ k : EventLabelKind, k.isRead = false → lab.kind ≠ k := by
    rintro k hk rfl
    rw [EventLabel.isRead, hk] at hread
    cases hread
  exact ⟨EventLabelKind.not_isWrite_of_isRead hread, hne _ rfl, hne _ rfl, hn.begun⟩

/-- Taking out a read that has just been added leaves nothing unfinished. -/
theorem NewLabel.complete_removeLast {t : ℕ} (hn : NewLabel g lab) (hg : GraphInv g)
    (hc : Complete g) (hread : lab.isRead = true)
    (hlast : (g.addLabelToGraph lab).getLastThreadLabel t = some (stamped g lab)) :
    Complete ((g.addLabelToGraph lab).removeLast t) := by
  have hx := hn.extends hg
  refine SCChecker.complete_removeLast (hg.addLabelToGraph hn hc) hlast (hn.removable hread)
    (fun r rLab hr hr' hne => ?_) fun w wLab hw hwrite => ?_
  · obtain ⟨-, hr⟩ := (hx.cases hr).resolve_left fun h' => hne h'.1
    exact hc.rf r rLab hr hr'
  · rw [hx.co]
    rcases hx.cases hw with ⟨-, rfl⟩ | ⟨-, hw⟩
    · have hnotWrite : lab.isWrite = false := EventLabelKind.not_isWrite_of_isRead hread
      exact absurd (hnotWrite.symm.trans hwrite) Bool.false_ne_true
    · exact hc.write w wLab hw hwrite

/-- **Blocking a thread in place of a read that is being added.** -/
theorem Sound.blockLoad {bLab : EventLabel} (h : Sound g) (hn : NewLabel g lab)
    (hread : lab.isRead = true) (hb : FreshBlock bLab) (hpos : bLab.pos = lab.pos) :
    Sound ((g.addLabelToGraph lab).blockThread bLab) := by
  have hx := hn.extends h.graphInv
  have hg := h.graphInv.addLabelToGraph hn h.complete
  have hlast : (g.addLabelToGraph lab).getLastThreadLabel bLab.pos.thread =
      some (stamped g lab) := by
    rw [hpos]
    exact getLastThreadLabel_of_next hx.self hx.next_eq_none
  have hrem := hn.removable hread
  have hsound : Sound ((g.addLabelToGraph lab).removeLast bLab.pos.thread) :=
    ⟨hg.removeLast hlast hrem, hn.complete_removeLast h.graphInv h.complete hread hlast,
      (hn.acyclic h.graphInv hrem.2.1 h.acyclic).mono fun _ _ =>
        (restricts_removeLast hg hlast hrem).orderEdge hg⟩
  have hany : ((g.addLabelToGraph lab).getLastThreadLabel bLab.pos.thread).any
      (·.pos = bLab.pos) = true := by
    rw [hlast]
    exact decide_eq_true hpos.symm
  rw [ExecutionGraph.blockThread, if_pos hany]
  exact hb.sound hsound (added_removeLast hg hlast hrem hpos hb.stamp)

/-- **Unblocking a thread makes no cycle.** -/
theorem Sound.unblockThread (h : Sound g) (hstep : g.unblockThread e = some g') : Sound g' := by
  rw [ExecutionGraph.unblockThread] at hstep
  split at hstep
  · rename_i hany
    obtain ⟨bLab, hlast, hb⟩ := (Option.any_eq_true _ _).1 hany
    obtain rfl := Option.some.inj hstep
    exact h.removeLast hlast
      (FreshBlock.removable h.graphInv (getEventLabel_of_last h.graphInv hlast).1 hb)
  · cases hstep

/-! ## Joining -/

theorem relabels_setParentJoin (e j : Event) : Relabels g (g.setParentJoin e j) :=
  relabels_modify _ fun _ => ⟨⟨rfl, rfl, rfl, rfl, rfl⟩, rfl, rfl, rfl, rfl, rfl, rfl, rfl⟩

/-- An edge to a join is an old one, or leads to the new join. -/
theorem tjSucc_setParentJoin {e j : Event} (h : (g.setParentJoin e j).getEventLabel a = some lab')
    (hb : tjSucc lab' = some b) :
    b = j ∨ ∃ l, g.getEventLabel a = some l ∧ tjSucc l = some b := by
  rw [ExecutionGraph.setParentJoin, getEventLabel_modify] at h
  obtain ⟨l, hl, rfl⟩ := Option.map_eq_some_iff.1 h
  by_cases hpos : l.pos = e
  · rw [if_pos hpos, tjSucc] at hb
    split_ifs at hb
    exact .inl (Option.some.inj hb).symm
  · rw [if_neg hpos] at hb
    exact .inr ⟨l, hl, hb⟩

/-- Joining keeps the invariant. -/
theorem GraphInv.setParentJoin {j : Event} {jLab : EventLabel} (hg : GraphInv g)
    (hj : g.getEventLabel j = some jLab) (hk : jLab.kind = .ThreadJoin) (e : Event) :
    GraphInv (g.setParentJoin e j) := by
  refine (relabels_setParentJoin e j).graphInv hg fun a l' b h' hb => ?_
  have hjoin : ∀ {b bLab}, g.getEventLabel b = some bLab → bLab.kind = .ThreadJoin →
      ∃ bLab', (g.setParentJoin e j).getEventLabel b = some bLab' ∧ bLab'.kind = .ThreadJoin := by
    intro b bLab hb hbk
    obtain ⟨bLab', hb', hsame⟩ := (relabels_setParentJoin e j).forth hb
    exact ⟨bLab', hb', hsame.kind.trans hbk⟩
  rcases tjSucc_setParentJoin h' hb with rfl | ⟨l, hl, hb⟩
  · exact hjoin hj hk
  · obtain ⟨bLab, hbLab, hbk⟩ := hg.parentJoin a l b hl hb
    exact hjoin hbLab hbk

/-- The join that waits for the end of a thread comes last. -/
theorem Sound.setParentJoin (h : Sound g) (hn : NewLabel g lab) (hk : lab.kind = .ThreadJoin)
    (e : Event) : Sound ((g.addLabelToGraph lab).setParentJoin e lab.pos) := by
  have hx := hn.extends h.graphInv
  have hm : lab.isMemAccess = false := by
    rw [EventLabel.isMemAccess, hk]
    rfl
  have h₁ : Sound (g.addLabelToGraph lab) := h.addLabelToGraph hn hm (by rw [hk]; decide)
  have hrel : Relabels (g.addLabelToGraph lab)
      ((g.addLabelToGraph lab).setParentJoin e lab.pos) := relabels_setParentJoin e lab.pos
  refine ⟨h₁.graphInv.setParentJoin hx.self hk e, hrel.complete h₁.complete,
    acyclic_of_last (x := lab.pos) h₁.acyclic (fun a b hab ha hb => ?_) fun b hb => ?_⟩
  · rcases hrel.orderEdge hab with hab | ⟨l', hl', hb'⟩
    · exact hab
    · rcases tjSucc_setParentJoin hl' hb' with rfl | ⟨l, hl, hb'⟩
      · exact absurd rfl hb
      · exact .tj hl hb'
  · rcases hrel.orderEdge hb with hb | ⟨l', hl', hb⟩
    · exact hx.last h.graphInv (fun hkind => absurd (hkind.symm.trans hk) (by decide)) b hb
    · obtain ⟨jLab, hj, hsame⟩ := hrel.forth hx.self
      obtain rfl := Option.some.inj (hl'.symm.trans hj)
      exact absurd ((hsame.kind.trans hk).symm.trans (kind_of_tjSucc hb)) (by decide)

/-- **Joining a thread makes no cycle.** -/
theorem Sound.handleThreadJoin {exceedsBound : ExecutionGraph → Bool} {r : JoinResult}
    (h : Sound g) (hn : NewLabel g lab) (hk : lab.kind = .ThreadJoin)
    (hstep : g.handleThreadJoin exceedsBound lab = some (r, g')) : Sound g' := by
  rw [ExecutionGraph.handleThreadJoin] at hstep
  split at hstep
  · cases hstep
  · split at hstep
    · obtain ⟨-, rfl⟩ := Prod.mk.inj (Option.some.inj hstep)
      exact h.blockThread ⟨rfl, rfl, rfl, rfl, rfl, rfl⟩
        (.inl ⟨hn.thread, hn.index, hn.begun, rfl⟩)
    · simp only at hstep
      split at hstep
      · cases hstep
      · rename_i eLab heq
        have hsound := h.setParentJoin hn hk eLab.pos
        split at hstep
        · obtain ⟨-, rfl⟩ := Prod.mk.inj (Option.some.inj hstep)
          exact hsound
        · split at hstep
          · obtain ⟨-, rfl⟩ := Prod.mk.inj (Option.some.inj hstep)
            exact hsound
          · obtain ⟨-, rfl⟩ := Prod.mk.inj (Option.some.inj hstep)
            exact hsound

end SCChecker
end GenMC
