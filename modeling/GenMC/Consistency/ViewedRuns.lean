import GenMC.Consistency.Coherence
import GenMC.Consistency.ViewChanges
import GenMC.Consistency.Exploration

/-!
# Views over whole runs

The driver works on a stack of graphs.  With each operation it computes the views of the labels that
the operation is about, and no others.

* `ViewedStep` are the operations on a graph and its views, and `Drives` are those on the stack:
  going back to an earlier label, copying for a revisit, and dropping a graph that is done.
* **`exactAt_of_drives`**: in every graph that the driver ever works on, the views of all labels are
  right.
* `canRevisit_of_drives`: so the view of a write that revisits is a prefix of the graph, as the copy
  for the revisit requires.
* `mem_getCoherentStores_of_drives` and `mem_getCoherentPlacings_of_drives`: so the candidates for a
  new label, which are found with its views, have everything that is consistent.
* `mem_filterCoherentRevisits_of_drives`: likewise a read that `filterCoherentRevisits` leaves out
  would close a cycle if it read from the new write.
-/

set_option autoImplicit false

namespace GenMC

open ListOrder Relation ExecutionGraph

namespace SCChecker

variable {conf : ViewConfig} {g g' : ExecutionGraph} {vs vs' : Event → LabelViews}
  {a b e r w x : Event} {lab bLab rLab sLab : EventLabel} {s s' : GraphViews}
  {l l' : List GraphViews}

namespace GraphViews

/-- Adds a label, and computes its views. -/
def addLabelToGraph (conf : ViewConfig) (lab : EventLabel) (s : GraphViews) : GraphViews :=
  ⟨s.graph.addLabelToGraph lab,
    updateLabelViews conf (s.graph.addLabelToGraph lab) lab.pos s.views⟩

/-- Adds a label to a new thread, and computes its views. -/
def addBegin (conf : ViewConfig) (lab : EventLabel) (s : GraphViews) : GraphViews :=
  ⟨s.graph.addNewThread.addLabelToGraph lab,
    updateLabelViews conf (s.graph.addNewThread.addLabelToGraph lab) lab.pos s.views⟩

/-- Adds a thread creation and the begin of the new thread.  Symmetries are not considered. -/
def handleThreadCreate (conf : ViewConfig) (tcLab : EventLabel) (s : GraphViews) : GraphViews :=
  (s.addLabelToGraph conf { tcLab with childId := s.graph.getNumThreads }).addBegin conf
    (beginOf tcLab none s.graph.getNumThreads)

/-- Tries the candidates for a read, and computes its views for the one that is taken. -/
def findConsistentRf (conf : ViewConfig) (r w : Event) (rfs : List Event) (s : GraphViews) :
    GraphViews :=
  ⟨(s.graph.findConsistentRf r w rfs).1,
    updateLabelViews conf (s.graph.findConsistentRf r w rfs).1 r s.views⟩

/-- Goes back to where the label with a stamp was added. -/
def restrict (conf : ViewConfig) (stamp : ℕ) (s : GraphViews) : GraphViews :=
  repairDanglingReads conf ⟨s.graph.cutToStamp stamp, s.views⟩

/-- What is left of a graph when a write revisits a read. -/
def revisitCopy (conf : ViewConfig) (r : Event) (sLab : EventLabel) (s : GraphViews) : GraphViews :=
  repairDanglingReads conf
    ⟨s.graph.copyGraph sLab.prefixView (s.graph.getRevisitView r sLab), s.views⟩

/-- The views of the initializer are empty. -/
def init : GraphViews :=
  ⟨ExecutionGraph.init, fun _ => ⟨[View.empty, View.empty, View.empty], View.empty⟩⟩

end GraphViews

theorem graph_restrict (s : GraphViews) (stamp : ℕ) :
    (s.restrict conf stamp).graph = s.graph.restrict stamp :=
  graph_repairDanglingReads _

theorem graph_revisitCopy (s : GraphViews) (r : Event) (sLab : EventLabel) :
    (s.revisitCopy conf r sLab).graph = s.graph.revisitCopy r sLab :=
  graph_repairDanglingReads _

theorem graph_setRf_revisitCopy (s : GraphViews) (r w : Event) (sLab : EventLabel) :
    ((s.revisitCopy conf r sLab).setRf conf r w).graph =
      (s.graph.revisitCopy r sLab).setRf r (some w) := by
  rw [GraphViews.setRf, graph_revisitCopy]

/-! ## Operations of the driver -/

/-- An operation on a graph, and what it does to the views. -/
inductive ViewedStep (conf : ViewConfig) (s : GraphViews) : GraphViews → Prop
  | addLabel {lab : EventLabel} (hn : NewLabel s.graph lab) (hi : Issues s.graph lab)
      (hm : lab.isMemAccess = false) : ViewedStep conf s (s.addLabelToGraph conf lab)
  | createThread {lab : EventLabel} (hn : NewLabel s.graph lab) (hi : Issues s.graph lab)
      (hk : lab.kind = .ThreadCreate) : ViewedStep conf s (s.handleThreadCreate conf lab)
  /-- The thread that is joined has ended. -/
  | join {lab fLab : EventLabel} (hn : NewLabel s.graph lab) (hi : Issues s.graph lab)
      (hk : lab.kind = .ThreadJoin) (hf : (s.graph.addLabelToGraph lab).tjPred lab = some fLab) :
      ViewedStep conf s ⟨(s.graph.addLabelToGraph lab).setParentJoin fLab.pos lab.pos,
        (s.addLabelToGraph conf lab).views⟩
  /-- Blocks have no views. -/
  | block {bLab : EventLabel} (hb : FreshBlock bLab) (ha : Added s.graph bLab)
      (hi : Issues s.graph bLab) : ViewedStep conf s ⟨s.graph.addLabelToGraph bLab, s.views⟩
  | removeLast {t : ℕ} {lab : EventLabel} (hlast : s.graph.getLastThreadLabel t = some lab)
      (hrem : Removable lab) (hk : lab.kind ≠ .ThreadFinish) :
      ViewedStep conf s ⟨s.graph.removeLast t, s.views⟩
  | load {lab : EventLabel} {w : Event} {rfs : List Event} (hn : NewLabel s.graph lab)
      (hi : Issues s.graph lab) (hread : lab.isRead = true)
      (hsrc : ∀ v ∈ w :: rfs, Source s.graph lab v) :
      ViewedStep conf s ((s.addLabelToGraph conf lab).findConsistentRf conf lab.pos w rfs)
  /-- A read that is taken out again because its thread blocks. -/
  | blockLoad {lab : EventLabel} (hn : NewLabel s.graph lab) (hi : Issues s.graph lab)
      (hread : lab.isRead = true) :
      ViewedStep conf s ⟨(s.graph.addLabelToGraph lab).removeLast lab.pos.thread,
        (s.addLabelToGraph conf lab).views⟩
  | store {lab : EventLabel} {pred : Event} (hn : NewLabel s.graph lab) (hi : Issues s.graph lab)
      (hw : lab.isWrite = true) (hpre : lab.prefixView =
        ((s.addLabelToGraph conf lab).views lab.pos).prefixView) :
      ViewedStep conf s ⟨(s.graph.addLabelToGraph lab).addCo lab.pos pred lab.addr,
        (s.addLabelToGraph conf lab).views⟩
  /-- A read that comes last in its thread gets another source. -/
  | setRf {r w : Event} {rLab : EventLabel} (hr : s.graph.getEventLabel r = some rLab)
      (hread : rLab.isRead = true) (hsrc : Source s.graph rLab w)
      (hnext : s.graph.getEventLabel r.next = none) : ViewedStep conf s (s.setRf conf r w)
  | moveCo {w pred : Event} {wLab : EventLabel} (hw : s.graph.getEventLabel w = some wLab)
      (hwrite : wLab.isWrite = true) :
      ViewedStep conf s ⟨s.graph.moveCo w pred wLab.addr, s.views⟩
  /-- Optional blocks are expanded, and reads are marked. -/
  | modify {x : Event} {f : EventLabel → EventLabel} (hf : ∀ lab, SameOrder lab (f lab) ∧
      (f lab).parentJoin = lab.parentJoin ∧
        (lab.isWrite = true → (f lab).prefixView = lab.prefixView)) :
      ViewedStep conf s ⟨s.graph.modify x f, s.views⟩

/-- The graph is in order, nothing is left unfinished, and all views are right. -/
structure ViewedGraph (conf : ViewConfig) (s : GraphViews) : Prop where
  graphInv : GraphInv s.graph
  complete : Complete s.graph
  viewInv : ViewInv conf (fun _ => False) s.graph s.views

/-- A complete graph has no reads without a source. -/
theorem not_dangling (hc : Complete g) (e : Event) : ¬ Dangling g e := by
  rintro ⟨rLab, hr, hread, hrf⟩
  have hsome := hc.rf e rLab hr hread
  rw [hrf] at hsome
  cases hsome

theorem ViewInv.of_complete (h : ViewInv conf (Dangling g) g vs) (hc : Complete g) :
    ViewInv conf (fun _ => False) g vs :=
  h.mono fun e _ => not_dangling hc e

/-- Placing a write leaves all views right. -/
theorem ViewInv.places (h : ViewInv conf (fun _ => False) g vs) (hg : GraphInv g)
    (hp : Places w g g') : ViewInv conf (fun _ => False) g' vs := by
  refine h.relabel hg (hp.graphInv hg) hp.insertionOrder hp.isSome fun e lab lab' he he' => ?_
  obtain ⟨l, m, hl, rfl⟩ := hp.back he'
  rw [Option.some.inj (he.symm.trans hl)]
  exact ⟨⟨⟨rfl, rfl, rfl, rfl, rfl⟩, rfl, rfl, rfl, rfl, rfl, rfl, rfl⟩, fun _ => rfl⟩

theorem not_isWrite_of_not_isMemAccess (hm : lab.isMemAccess = false) : lab.isWrite = false := by
  rw [EventLabel.isMemAccess, EventLabelKind.isMemAccess_eq, Bool.or_eq_false_iff] at hm
  exact hm.2

/-- The label gets its stamp when it is added. -/
theorem Issues.stamped (h : Issues g lab) : Issues g (stamped g lab) :=
  ⟨h.running, h.begins, h.linPreds, h.joined⟩

namespace Loading

variable {g₀ : ExecutionGraph}

theorem lastRead (h : Loading r rLab g₀ g) : LastRead g r := by
  obtain ⟨l, hl, hread, -⟩ := h.read
  exact ⟨l, hl, hread, h.next⟩

/-- Trying candidates for a read leaves the views of the other labels right. -/
theorem viewInv {rfs : List Event} (h : Loading r rLab g₀ g) (hv : ViewInv conf (· = r) g vs)
    (hsrc : ∀ v ∈ w :: rfs, Source g₀ rLab v) :
    Loading r rLab g₀ (g.findConsistentRf r w rfs).1 ∧ Complete (g.findConsistentRf r w rfs).1 ∧
      ViewInv conf (· = r) (g.findConsistentRf r w rfs).1 vs := by
  have htry : ∀ {g w}, Loading r rLab g₀ g → ViewInv conf (· = r) g vs → Source g₀ rLab w →
      ViewInv conf (· = r) (g.setRf r (some w)) vs := by
    intro g w h hv hsrc
    obtain ⟨l, hl, hread, haddr⟩ := h.read
    exact (hv.retarget h.graphInv hl hread (h.source hsrc haddr) h.next
      fun e he => he ▸ h.lastRead).1.mono fun _ _ he => he.elim id id
  induction rfs generalizing w g with
  | nil =>
    obtain ⟨h', hc⟩ := h.setRf (hsrc w List.mem_cons_self)
    exact ⟨h', hc, htry h hv (hsrc w List.mem_cons_self)⟩
  | cons w' rfs ih =>
    obtain ⟨h', hc⟩ := h.setRf (hsrc w List.mem_cons_self)
    have hv' := htry h hv (hsrc w List.mem_cons_self)
    rw [ExecutionGraph.findConsistentRf]
    by_cases hval : isExecutionValid (g.setRf r (some w)) r = true
    · rw [if_pos hval]
      exact ⟨h', hc, hv'⟩
    · rw [if_neg hval]
      exact ih h' hv' fun v hv => hsrc v (List.mem_cons_of_mem _ hv)

end Loading

/-! ### What a repaired restriction retains -/

theorem Relinks.refl (g : ExecutionGraph) : Relinks g g :=
  ⟨id, fun _ => Option.map_id_apply.symm, fun lab => ⟨lab.rf, lab.readers, lab.maximal, rfl⟩⟩

theorem relinks_repairThread (hg : GraphInv g) (i : ℕ) : Relinks g (g.repairThread i) := by
  rw [ExecutionGraph.repairThread]
  cases hi : g.getLastThreadLabel i with
  | none => exact .refl g
  | some lab =>
    simp only
    split
    · exact relinks_setRf (getEventLabel_of_last hg hi).1 _
    · exact .refl g

theorem relinks_foldl_repairThread (l : List ℕ) (hg : GraphInv g) :
    Relinks g (l.foldl ExecutionGraph.repairThread g) := by
  induction l generalizing g with
  | nil => exact .refl g
  | cons i l ih =>
    exact (relinks_repairThread hg i).trans (ih ((Repairs.refl hg).repairThread i).1.graphInv)

/-- What is left keeps its joins, and its sources unless they are taken away. -/
theorem Restricts.retains {keep : Event → Bool} (hr : Restricts keep g g') (hg : GraphInv g)
    (hg' : GraphInv g') (hc : Causal g)
    (hjoin : ∀ j jLab fLab, (g'.getEventLabel j).isSome → g.getEventLabel j = some jLab →
      g.tjPred jLab = some fLab → (g'.getEventLabel fLab.pos).isSome) :
    Retains (fun e => (g'.getEventLabel e).isSome ∧ ¬ Dangling g' e) g g'.repairDanglingReads := by
  obtain ⟨hrep, -⟩ := repairs_repairDanglingReads hg'
  obtain ⟨f, hf, hfl⟩ := relinks_foldl_repairThread (List.range g'.getNumThreads) hg'
  have hcauses := hr.sameCauses hg hg' hc hjoin
  refine ⟨fun e he _ => (hrep.sameThreads.isSome e).trans he.1,
    fun e lab lab' hi he hlab hlab' => ?_⟩
  obtain ⟨l, l₀, hl, hl₀, hsame⟩ := hcauses.label e he
  obtain rfl := Option.some.inj (hlab.symm.trans hl)
  have hlab₁ : (g'.getEventLabel e).map f = some lab' := (hf e).symm.trans hlab'
  rw [hl₀, Option.map_some, Option.some.injEq] at hlab₁
  obtain ⟨rf, rs, m, hfl₀⟩ := hfl l₀
  have hlabel : lab' = { l₀ with rf := rf, readers := rs, maximal := m } := hlab₁.symm.trans hfl₀
  obtain ⟨hchild, htj, -⟩ := hr.label e lab l₀ hi hlab hl₀
  refine ⟨?_, ?_, fun j hj hsj => ?_, fun hread u hu _ => ?_⟩
  · rw [hlabel]
    exact hsame.kind
  · rw [hlabel]
    exact hchild
  · obtain ⟨jLab, hjLab, hjk⟩ := hg.parentJoin e lab j hlab hj
    have hij := index_pos_of_kind hg.threaded hjLab (by rw [hjk]; decide) (by rw [hjk]; decide)
    obtain ⟨jLab', hj'⟩ := Option.isSome_iff_exists.1 hsj.1
    have htj' : tjSucc l₀ = some j := by
      rw [htj, hj, Option.filter_some, if_pos (hr.back hij hj').1]
    rw [hlabel]
    exact htj'
  · obtain ⟨l₁, hl₁, -, -, hrf⟩ := hrep.label e lab' hlab'
    obtain rfl := Option.some.inj (hl₀.symm.trans hl₁)
    have hu₀ : l₀.rf = some u := (hsame.rf hread).trans hu
    rw [hrf (by rw [hu₀]; rfl), hu₀]

namespace ViewedGraph

variable (h : ViewedGraph conf s)
include h

/-- Adding a label, and computing its views. -/
theorem add (hn : NewLabel s.graph lab) (hi : Issues s.graph lab)
    (hpre : lab.isWrite = true →
      lab.prefixView = ((s.addLabelToGraph conf lab).views lab.pos).prefixView) :
    GraphInv (s.graph.addLabelToGraph lab) ∧ ViewInv conf (fun _ => False)
      (s.graph.addLabelToGraph lab) (s.addLabelToGraph conf lab).views := by
  have hg' := h.graphInv.addLabelToGraph hn h.complete
  have hx := hn.extends h.graphInv
  have hself : (s.graph.addLabelToGraph lab).getEventLabel lab.pos = some (stamped s.graph lab) :=
    hx.self
  have hpre' : (stamped s.graph lab).isWrite = true → (stamped s.graph lab).prefixView =
      (updateMMViews conf (s.graph.addLabelToGraph lab) s.views
        (stamped s.graph lab)).prefixView := by
    intro hw
    refine (hpre hw).trans ?_
    rw [GraphViews.addLabelToGraph, updateLabelViews, hself]
    exact congrArg LabelViews.prefixView (Function.update_self _ _ _)
  have hv := h.viewInv.extend h.graphInv hx hi.stamped hg' hpre'
  exact ⟨hg', hv⟩

/-- Adding a label that is no write. -/
theorem add_of_not_isWrite (hn : NewLabel s.graph lab) (hi : Issues s.graph lab)
    (hw : lab.isWrite = false) :
    GraphInv (s.graph.addLabelToGraph lab) ∧ ViewInv conf (fun _ => False)
      (s.graph.addLabelToGraph lab) (s.addLabelToGraph conf lab).views :=
  h.add hn hi fun hw' => absurd (hw.symm.trans hw') Bool.false_ne_true

theorem addLabel (hn : NewLabel s.graph lab) (hi : Issues s.graph lab)
    (hm : lab.isMemAccess = false) : ViewedGraph conf (s.addLabelToGraph conf lab) := by
  obtain ⟨hg', hv⟩ := h.add_of_not_isWrite hn hi (not_isWrite_of_not_isMemAccess hm)
  exact ⟨hg', (hn.extends h.graphInv).complete h.complete hm, hv⟩

theorem createThread (hn : NewLabel s.graph lab) (hi : Issues s.graph lab)
    (hk : lab.kind = .ThreadCreate) : ViewedGraph conf (s.handleThreadCreate conf lab) := by
  have hnj : lab.kind ≠ .ThreadJoin := by
    rw [hk]
    decide
  have hm : EventLabel.isMemAccess { lab with childId := s.graph.getNumThreads } = false := by
    show lab.kind.isMemAccess = false
    rw [hk]
    rfl
  have h₁ := h.addLabel (hn.setChildId s.graph.getNumThreads)
    ⟨hi.running, hi.begins, hi.linPreds, fun hj => absurd hj hnj⟩ hm
  have hx := h.graphInv.extends_begin h.complete hn none
  obtain ⟨-, hg₂⟩ := h.graphInv.addBegin h.complete hn hk none
  -- the begin comes first in its thread
  have hib : Issues (s.graph.addLabelToGraph { lab with childId := s.graph.getNumThreads })
      (stamped (s.graph.addLabelToGraph { lab with childId := s.graph.getNumThreads })
        (beginOf lab none s.graph.getNumThreads)) := by
    refine ⟨fun e l he _ => ?_, fun _ => rfl, rfl, fun hj => EventLabelKind.noConfusion hj⟩
    exact absurd (congrArg Event.index he) (Nat.succ_ne_zero _)
  have hv := h₁.viewInv.extend h₁.graphInv hx hib hg₂ fun hw => absurd hw Bool.false_ne_true
  exact ⟨hg₂, hx.complete h₁.complete rfl, hv⟩

theorem modify {f : EventLabel → EventLabel} (x : Event) (hf : ∀ lab, SameOrder lab (f lab) ∧
    (f lab).parentJoin = lab.parentJoin ∧
      (lab.isWrite = true → (f lab).prefixView = lab.prefixView)) :
    ViewedGraph conf ⟨s.graph.modify x f, s.views⟩ := by
  have hrel : Relabels s.graph (s.graph.modify x f) := relabels_modify x fun lab => (hf lab).1
  have hlabel : ∀ {e lab lab'}, s.graph.getEventLabel e = some lab →
      (s.graph.modify x f).getEventLabel e = some lab' → lab' = lab ∨ lab' = f lab := by
    intro e lab lab' he he'
    rw [getEventLabel_modify, he, Option.map_some] at he'
    rw [← Option.some.inj he']
    split
    · exact .inr rfl
    · exact .inl rfl
  have hg' : GraphInv (s.graph.modify x f) := hrel.graphInv_of (fun e lab lab' he he' => by
    rcases hlabel he he' with rfl | rfl
    · rfl
    · exact (hf lab).2.1) h.graphInv
  refine ⟨hg', hrel.complete h.complete, h.viewInv.relabel h.graphInv hg' hrel.insertionOrder
    hrel.isSome fun e lab lab' he he' => ?_⟩
  rcases hlabel he he' with rfl | rfl
  · exact ⟨.refl lab', fun _ => rfl⟩
  · exact ⟨(hf lab).1, (hf lab).2.2⟩

theorem join (hn : NewLabel s.graph lab) (hi : Issues s.graph lab) (hk : lab.kind = .ThreadJoin)
    (f : Event) : ViewedGraph conf ⟨(s.graph.addLabelToGraph lab).setParentJoin f lab.pos,
      (s.addLabelToGraph conf lab).views⟩ := by
  have hm : lab.isMemAccess = false := by
    rw [EventLabel.isMemAccess, hk]
    rfl
  have h₁ := h.addLabel hn hi hm
  have hrel := relabels_setParentJoin (g := s.graph.addLabelToGraph lab) f lab.pos
  have hg' : GraphInv ((s.graph.addLabelToGraph lab).setParentJoin f lab.pos) :=
    h₁.graphInv.setParentJoin (hn.extends h.graphInv).self hk f
  refine ⟨hg', hrel.complete h₁.complete, h₁.viewInv.relabel h₁.graphInv hg' hrel.insertionOrder
    hrel.isSome fun e l l' he he' => ?_⟩
  have hl : (s.graph.addLabelToGraph lab).getEventLabel e = some l := he
  rw [ExecutionGraph.setParentJoin, getEventLabel_modify, hl, Option.map_some] at he'
  rw [← Option.some.inj he']
  split
  · exact ⟨⟨⟨rfl, rfl, rfl, rfl, rfl⟩, rfl, rfl, rfl, rfl, rfl, rfl, rfl⟩, fun _ => rfl⟩
  · exact ⟨.refl l, fun _ => rfl⟩

theorem block (hb : FreshBlock bLab) (ha : Added s.graph bLab) (hi : Issues s.graph bLab) :
    ViewedGraph conf ⟨s.graph.addLabelToGraph bLab, s.views⟩ := by
  have hn := hb.newLabel ha
  have hg' := h.graphInv.addLabelToGraph hn h.complete
  have hx := hn.extends h.graphInv
  exact ⟨hg', hx.complete h.complete (FreshBlock.not_isMemAccess_of_isBlock hb.block),
    h.viewInv.extend_block h.graphInv hx hi.stamped hg' hb.block⟩

theorem removeLast {t : ℕ} (hlast : s.graph.getLastThreadLabel t = some lab) (hrem : Removable lab)
    (hk : lab.kind ≠ .ThreadFinish) : ViewedGraph conf ⟨s.graph.removeLast t, s.views⟩ := by
  have hc' := complete_removeLast h.graphInv hlast hrem
    (fun r rLab hr hread _ => h.complete.rf r rLab hr hread) h.complete.write
  exact ⟨h.graphInv.removeLast hlast hrem, hc',
    (h.viewInv.removeLast h.graphInv hlast hrem hk).of_complete hc'⟩

theorem store (hn : NewLabel s.graph lab) (hi : Issues s.graph lab) (hw : lab.isWrite = true)
    (hpre : lab.prefixView = ((s.addLabelToGraph conf lab).views lab.pos).prefixView)
    (pred : Event) : ViewedGraph conf ⟨(s.graph.addLabelToGraph lab).addCo lab.pos pred lab.addr,
      (s.addLabelToGraph conf lab).views⟩ := by
  obtain ⟨hg', hv⟩ := h.add hn hi fun _ => hpre
  have hp := hn.places h.graphInv h.complete hw pred
  exact ⟨hp.graphInv hg', complete_addCo h.graphInv h.complete hn hw pred, hv.places hg' hp⟩

theorem setRf (hr : s.graph.getEventLabel r = some rLab) (hread : rLab.isRead = true)
    (hsrc : Source s.graph rLab w) (hnext : s.graph.getEventLabel r.next = none) :
    ViewedGraph conf (s.setRf conf r w) :=
  ⟨h.graphInv.setRf hr hread hsrc hnext,
    complete_setRf h.graphInv hr (fun e eLab _ => h.complete.rf e eLab) h.complete.write,
    (h.viewInv.setRf h.graphInv hr hread hsrc hnext fun _ => False.elim).mono fun _ _ => And.left⟩

theorem moveCo (hw : s.graph.getEventLabel w = some lab) (hwrite : lab.isWrite = true)
    (pred : Event) : ViewedGraph conf ⟨s.graph.moveCo w pred lab.addr, s.views⟩ := by
  have hp := places_moveCo h.graphInv hw hwrite pred
  refine ⟨hp.graphInv h.graphInv, hp.complete hw h.complete.rf
    (fun v vLab hv hvw _ => h.complete.write v vLab hv hvw) ?_, h.viewInv.places h.graphInv hp⟩
  rw [co_moveCo, if_pos rfl]
  exact mem_insertAfter _ _ _

/-- The read that has just been added gets its views for the source that is taken. -/
theorem load {rfs : List Event} (hn : NewLabel s.graph lab) (hi : Issues s.graph lab)
    (hread : lab.isRead = true) (hsrc : ∀ v ∈ w :: rfs, Source s.graph lab v) :
    ViewedGraph conf ((s.addLabelToGraph conf lab).findConsistentRf conf lab.pos w rfs) := by
  have hnw : lab.isWrite = false := EventLabelKind.not_isWrite_of_isRead hread
  obtain ⟨-, hv⟩ := h.add_of_not_isWrite hn hi hnw
  have hx := hn.extends h.graphInv
  have hload := loading_addLabelToGraph h.graphInv h.complete hn hread
  have hsrc' : ∀ v ∈ w :: rfs, Source (s.graph.addLabelToGraph lab) lab v := by
    refine fun v hv => (hsrc v hv).imp_right ?_
    rintro ⟨wLab, hw, hww, hwa⟩
    exact ⟨wLab, hx.old hw, hww, hwa⟩
  obtain ⟨hl', hc', hv'⟩ := hload.viewInv (hv.mono fun _ _ => False.elim) hsrc'
  refine ⟨hl'.graphInv, hc', (hv'.updateRead hl'.graphInv (fun e he => he ▸ hl'.lastRead)
    hl'.lastRead).mono fun _ _ he => he.2 he.1⟩

/-- A read that is taken out again leaves all views right. -/
theorem blockLoad (hn : NewLabel s.graph lab) (hi : Issues s.graph lab)
    (hread : lab.isRead = true) :
      ViewedGraph conf ⟨(s.graph.addLabelToGraph lab).removeLast lab.pos.thread,
      (s.addLabelToGraph conf lab).views⟩ := by
  have hnw : lab.isWrite = false := EventLabelKind.not_isWrite_of_isRead hread
  obtain ⟨hg', hv⟩ := h.add_of_not_isWrite hn hi hnw
  have hx := hn.extends h.graphInv
  have hlast : (s.graph.addLabelToGraph lab).getLastThreadLabel lab.pos.thread =
      some (stamped s.graph lab) := getLastThreadLabel_of_next hx.self hx.next_eq_none
  have hrem := hn.removable hread
  have hk : lab.kind ≠ .ThreadFinish := by
    intro hk
    rw [EventLabel.isRead, hk] at hread
    cases hread
  have hc' := hn.complete_removeLast h.graphInv h.complete hread hlast
  exact ⟨hg'.removeLast hlast hrem, hc', (hv.removeLast hg' hlast hrem hk).of_complete hc'⟩

/-- **Each operation keeps the views right.** -/
theorem step (hs : ViewedStep conf s s') : ViewedGraph conf s' := by
  cases hs with
  | addLabel hn hi hm => exact h.addLabel hn hi hm
  | createThread hn hi hk => exact h.createThread hn hi hk
  | join hn hi hk _ => exact h.join hn hi hk _
  | block hb ha hi => exact h.block hb ha hi
  | removeLast hlast hrem hk => exact h.removeLast hlast hrem hk
  | load hn hi hread hsrc => exact h.load hn hi hread hsrc
  | blockLoad hn hi hread => exact h.blockLoad hn hi hread
  | store hn hi hw hpre => exact h.store hn hi hw hpre _
  | setRf hr hread hsrc hnext => exact h.setRf hr hread hsrc hnext
  | moveCo hw hwrite => exact h.moveCo hw hwrite _
  | modify hf => exact h.modify _ hf

/-! ### Going back -/

omit h in
/-- A restriction that keeps, with a join, the end of the thread. -/
theorem keeps_finish {keep : Event → Bool} {g₀ : ExecutionGraph} (hg : GraphInv s.graph)
    (hr : Restricts keep s.graph g₀) (hjoin : ∀ j jLab fLab, s.graph.getEventLabel j = some jLab →
      s.graph.tjPred jLab = some fLab → keep j = true → keep fLab.pos = true)
    (j : Event) (jLab fLab : EventLabel) (hsome : (g₀.getEventLabel j).isSome)
    (hj : s.graph.getEventLabel j = some jLab) (hf : s.graph.tjPred jLab = some fLab) :
    (g₀.getEventLabel fLab.pos).isSome := by
  obtain ⟨hfl, -, -⟩ := getEventLabel_of_tjPred hg hf
  obtain ⟨hi, hif⟩ := index_pos_of_tjPred hg hj hf
  obtain ⟨jLab', hj'⟩ := Option.isSome_iff_exists.1 hsome
  exact hr.restricted.kept _ hif (hjoin j jLab fLab hj hf (hr.back hi hj').1) (isSome_of_eq hfl)

/-- A restriction that keeps, with a join, the end of the thread, is repaired. -/
theorem goesBack {keep : Event → Bool} {g₀ : ExecutionGraph} (hr : Restricts keep s.graph g₀)
    (hs : Settles keep s.graph) (hjoin : ∀ j jLab fLab, s.graph.getEventLabel j = some jLab →
      s.graph.tjPred jLab = some fLab → keep j = true → keep fLab.pos = true) :
    ViewedGraph conf (GraphViews.repairDanglingReads conf ⟨g₀, s.views⟩) := by
  have hg := h.graphInv
  have hg₀ := hg.restrict hr hs
  have hback := hg.goesBack h.complete hr hs
  have hv : ViewInv conf (Dangling g₀) g₀ s.views :=
    h.viewInv.restrict hr hg hg₀ h.viewInv.causal (keeps_finish hg hr hjoin)
  have hrep := ViewInv.repair (s := ⟨g₀, s.views⟩) hv hg₀
  refine ⟨?_, ?_, hrep⟩
  · rw [graph_repairDanglingReads]
    exact hback.graphInv
  · rw [graph_repairDanglingReads]
    exact hback.complete

/-- The end of a thread was added before the joins that wait for it. -/
theorem keeps_tjPred (stamp : ℕ) {j : Event} {jLab fLab : EventLabel}
    (hj : s.graph.getEventLabel j = some jLab) (hf : s.graph.tjPred jLab = some fLab)
    (hin : (s.graph.getViewFromStamp stamp).contains j = true) :
    (s.graph.getViewFromStamp stamp).contains fLab.pos = true := by
  have hg := h.graphInv
  obtain ⟨hfl, -, -⟩ := getEventLabel_of_tjPred hg hf
  obtain ⟨hi, hif⟩ := index_pos_of_tjPred hg hj hf
  rw [hg.stampsUp.contains_iff hg.threaded _ (isSome_of_eq hj) hi] at hin
  rw [hg.stampsUp.contains_iff hg.threaded _ (isSome_of_eq hfl) hif]
  obtain ⟨l, hl, u, hu, hle⟩ := hin
  obtain ⟨v, hv⟩ := Option.isSome_iff_exists.1 (hg.stampsUp.stamped _ _ hfl)
  obtain ⟨f, hf', hbefore⟩ := h.viewInv.causal.joined j jLab hj (tjPred_eq_some hf).1
  obtain rfl := Option.some.inj (hf.symm.trans hf')
  exact ⟨fLab, hfl, v, hv, (hg.stampsUp.up _ _ _ _ _ _ hbefore hfl hl hv hu).le.trans hle⟩

theorem restrict (stamp : ℕ) : ViewedGraph conf (s.restrict conf stamp) :=
  h.goesBack (h.graphInv.restricts_cutToStamp stamp) (h.graphInv.settles_cutToStamp stamp)
    fun _ _ _ hj hf hin => h.keeps_tjPred stamp hj hf hin

theorem threadInv_restrict (stamp : ℕ) : (s.restrict conf stamp).graph.ThreadInv := by
  rw [graph_restrict]
  exact h.graphInv.threadInv_restrict stamp

section Prefix

variable (hw : s.graph.getEventLabel w = some sLab) (hwrite : sLab.isWrite = true)
include hw hwrite

/-- What the prefix of a write has. -/
theorem contains_prefixView (hx : 0 < x.index) : sLab.prefixView.contains x = true ↔
    ReflTransGen (CausalEdge sync71 s.graph) x w := by
  rw [h.viewInv.prefixView w sLab hw hwrite id]
  exact (h.viewInv.exact w (viewed_of_isWrite hw hwrite) id).prefixView x hx

/-- **The prefix of a write is a prefix of the graph.** -/
theorem prefixView : PrefixView s.graph sLab.prefixView := by
  have hg := h.graphInv
  have hc := h.viewInv.causal
  refine ⟨fun r rLab v hr hread hrf hne hin => ?_, fun t bLab c ht hb hmax hcr => ?_⟩
  · have hi := hg.readerInv.above r rLab hr (EventLabel.isMemAccess_of_isRead hread)
    obtain ⟨vLab, hv, hvw, -⟩ := (hg.source r rLab v hr hread hrf).resolve_left hne
    have hiv := hg.readerInv.above v vLab hv (EventLabel.isMemAccess_of_isWrite hvw)
    rw [h.contains_prefixView hw hwrite hi] at hin
    rw [h.contains_prefixView hw hwrite hiv]
    exact hin.head (.rf hr hread hrf hv rfl)
  · -- the prefix has a label of the thread, which comes after its begin
    obtain ⟨cLab, hcr', hcLab, hck, -⟩ := created_of_threaded hg.threaded ht hb
    obtain rfl := Option.some.inj (hcr.symm.trans hcr')
    have hic := index_pos_of_kind hg.threaded hcLab (by rw [hck]; decide) (by rw [hck]; decide)
    have hin : sLab.prefixView.contains ⟨t, sLab.prefixView.getMax t⟩ = true :=
      View.contains_iff.2 le_rfl
    rw [h.contains_prefixView hw hwrite hmax] at hin
    rw [h.contains_prefixView hw hwrite hic]
    have hsome : (s.graph.getEventLabel ⟨t, sLab.prefixView.getMax t⟩).isSome := by
      rcases ReflTransGen.cases_head hin with heq | ⟨y, hy, -⟩
      · rw [heq]
        exact isSome_of_eq hw
      · obtain ⟨l, hl, -⟩ := viewed_iff.1 (viewed_of_causalEdge hg hc hy)
        exact isSome_of_eq hl
    have hstart : bLab.isThreadStart = true := by
      obtain ⟨l, hl, hsame⟩ := (sameThreads_resetStamps s.graph).forth hb
      rw [EventLabel.isThreadStart, ← hsame.kind, (ThreadInv.created hg.threaded t l ht hl).1]
      rfl
    have hpo : ReflTransGen (CausalEdge sync71 s.graph) ⟨t, 0⟩ ⟨t, sLab.prefixView.getMax t⟩ :=
      reflTransGen_po hsome ⟨rfl, Nat.zero_le _⟩
    exact (hpo.trans hin).head (.tc hb hstart hcr)

/-- A write can revisit what is not in its prefix. -/
theorem canRevisit (hr : sLab.prefixView.contains r = false)
    (ho : InCreationOrder s.graph (s.graph.getRevisitView r sLab)) :
    CanRevisit s.graph r sLab := by
  refine ⟨h.prefixView hw hwrite, ?_, hr, ho⟩
  rw [h.graphInv.threaded.slots w sLab hw, h.contains_prefixView hw hwrite
    (h.graphInv.readerInv.above w sLab hw (EventLabel.isMemAccess_of_isWrite hwrite))]

section Copy

variable (hthr : s.graph.ThreadInv)
  (ho : InCreationOrder s.graph (s.graph.getRevisitView r sLab))
include hthr ho

/-- What the copy for a revisit keeps. -/
theorem restricts_revisitCopy :
    Restricts ((s.graph.getRevisitView r sLab).contains ·) s.graph
        (s.graph.copyGraph sLab.prefixView (s.graph.getRevisitView r sLab)) ∧
      Settles ((s.graph.getRevisitView r sLab).contains ·) s.graph ∧
        ∀ j jLab fLab, s.graph.getEventLabel j = some jLab → s.graph.tjPred jLab = some fLab →
          (s.graph.getRevisitView r sLab).contains j = true →
            (s.graph.getRevisitView r sLab).contains fLab.pos = true := by
  have hpre := h.prefixView hw hwrite
  refine ⟨h.graphInv.restricts_copyGraph hthr (hasCreations_update hthr hpre _) ho,
    settles_update h.graphInv hpre _, fun j jLab fLab hj hf hin => ?_⟩
  obtain ⟨hi, hif⟩ := index_pos_of_tjPred h.graphInv hj hf
  rw [getRevisitView, View.contains_update, Bool.or_eq_true] at hin ⊢
  refine hin.imp (h.keeps_tjPred _ hj hf) fun hin => ?_
  rw [h.contains_prefixView hw hwrite hi] at hin
  rw [h.contains_prefixView hw hwrite hif]
  exact hin.head (.tj hj hf)

/-- The copy for a revisit. -/
theorem revisitCopy : ViewedGraph conf (s.revisitCopy conf r sLab) := by
  obtain ⟨hr, hs, hjoin⟩ := h.restricts_revisitCopy hw hwrite hthr ho
  exact h.goesBack hr hs hjoin

/-- **A read that is filtered out cannot be revisited**: the graph that is left would not be
consistent. -/
theorem mem_filterCoherentRevisits (hj : JoinsKnown s.graph) {ls : List Event}
    (hr : s.graph.getEventLabel r = some rLab) (hread : rLab.isRead = true)
    (haddr : rLab.addr = sLab.addr) (hmem : r ∈ ls)
    (hac : Acyclic (OrderEdge ((s.graph.revisitCopy r sLab).setRf r (some sLab.pos)))) :
    r ∈ filterCoherentRevisits s.graph s.views sLab ls := by
  by_contra hout
  have hg := h.graphInv
  have hc := h.viewInv.causal
  have hri := hg.readerInv.above r rLab hr (EventLabel.isMemAccess_of_isRead hread)
  obtain ⟨hr₀, hset, hjoin⟩ := h.restricts_revisitCopy hw hwrite hthr ho
  have hg₀ := hg.restrict hr₀ hset
  have hfin := keeps_finish hg hr₀ hjoin
  have hcauses := hr₀.sameCauses hg hg₀ hc hfin
  obtain ⟨hrep, -⟩ := repairs_repairDanglingReads hg₀
  have hret := hr₀.retains hg hg₀ hc hfin
  have hpos : sLab.pos = w := hg.threaded.slots w sLab hw
  -- the read is in the copy
  have hkeep : (s.graph.getRevisitView r sLab).contains r = true := by
    rw [getRevisitView, View.contains_update, Bool.or_eq_true]
    exact .inl ((hg.contains_stampAt_iff (isSome_of_eq hr) (isSome_of_eq hr) hri).2 (.inl rfl))
  have hkeepw : (s.graph.getRevisitView r sLab).contains sLab.pos = true := by
    rw [getRevisitView, View.contains_update, Bool.or_eq_true, hpos, h.contains_prefixView hw hwrite
      (hg.readerInv.above w sLab hw (EventLabel.isMemAccess_of_isWrite hwrite))]
    exact .inr .refl
  obtain ⟨r₀, hr₀'⟩ := Option.isSome_iff_exists.1
    (hr₀.restricted.kept r hri hkeep (isSome_of_eq hr))
  obtain ⟨-, l, hl, hrl⟩ := hr₀.back hri hr₀'
  obtain rfl := Option.some.inj (hr.symm.trans hl)
  obtain ⟨r₁, hr₁⟩ := Option.isSome_iff_exists.1 ((hrep.sameThreads.isSome r).trans
    (isSome_of_eq hr₀'))
  obtain ⟨l, hl, hk, ha, -⟩ := hrep.back hr₁
  obtain rfl := Option.some.inj (hr₀'.symm.trans hl)
  have hr₁' : (s.graph.revisitCopy r sLab).getEventLabel r = some r₁ := hr₁
  obtain ⟨rs, m, hr'⟩ := to_setRf hrep.graphInv hr₁ (w := sLab.pos) hr₁
  obtain ⟨t, i⟩ := r
  cases i with
  | zero => exact absurd hri (lt_irrefl 0)
  | succ i =>
    have hpo : CausalEdge sync71 s.graph ⟨t, i⟩ ⟨t, i + 1⟩ := .po (isSome_of_eq hr)
    refine not_acyclic_of_filtered hg hc hj (fun e he => h.viewInv.exact e he id)
      (isSome_of_eq hr) hmem hout (s := fun e => ((s.graph.copyGraph sLab.prefixView
        (s.graph.getRevisitView ⟨t, i + 1⟩ sLab)).getEventLabel e).isSome ∧
          ¬ Dangling (s.graph.copyGraph sLab.prefixView
            (s.graph.getRevisitView ⟨t, i + 1⟩ sLab)) e ∧ e ≠ ⟨t, i + 1⟩) ?_ ?_ hr' ?_ (if_pos rfl)
      ?_ (fun u hu hb => ?_) hac
    · refine ⟨fun e he hsome => ?_, fun e lab lab' hi he hlab hlab' => ?_⟩
      · rw [isSome_setRf hr₁]
        exact hret.isSome e ⟨he.1, he.2.1⟩ hsome
      · obtain ⟨l, rs, m, hl, rfl⟩ := of_setRf hrep.graphInv hr₁ hlab'
        obtain ⟨h₁, h₂, h₃, h₄⟩ := hret.label e lab l hi ⟨he.1, he.2.1⟩ hlab hl
        refine ⟨h₁, h₂, fun j hj hsj => h₃ j hj ⟨hsj.1, hsj.2.1⟩, fun hrd u hu hsu => ?_⟩
        exact (if_neg he.2.2).trans (h₄ hrd u hu ⟨hsu.1, hsu.2.1⟩)
    · intro a ha
      have hne : a ≠ ⟨t, i + 1⟩ := by
        rintro rfl
        exact (wellFounded_causalEdge hg hc).transGen.irrefl.irrefl _ (TransGen.tail' ha hpo)
      have hsome : ((s.graph.copyGraph sLab.prefixView
          (s.graph.getRevisitView ⟨t, i + 1⟩ sLab)).getEventLabel a).isSome ∧
            ¬ Dangling (s.graph.copyGraph sLab.prefixView
              (s.graph.getRevisitView ⟨t, i + 1⟩ sLab)) a := by
        clear hne
        induction ha using ReflTransGen.head_induction_on with
        | refl =>
          refine ⟨getEventLabel_isSome_of_le (isSome_of_eq hr₀') rfl (Nat.le_succ i), ?_⟩
          rintro ⟨pLab, hp, hpr, hprf⟩
          have hnone := hg₀.waiting _ pLab hp hpr hprf
          rw [show (⟨t, i⟩ : Event).next = ⟨t, i + 1⟩ from rfl, hr₀'] at hnone
          cases hnone
        | head hab _ ih => exact hcauses.closed _ _ ih hab
      exact ⟨hsome.1, hsome.2, hne⟩
    · rw [EventLabel.isRead] at hread ⊢
      rw [← hread, ← hrl.kind, ← hk]
    · exact (ha.trans hrl.addr).trans haddr
    · rw [co_setRf, hrep.co, hr₀.co]
      obtain ⟨uLab, huLab, huw, -⟩ : ∃ uLab, s.graph.getEventLabel u = some uLab ∧
          uLab.isWrite = true ∧ uLab.addr = sLab.addr := by
        refine hg.co _ u ?_
        obtain ⟨l₁, l₂, heq, -⟩ := hb
        rw [heq]
        exact List.mem_append_right _ List.mem_cons_self
      obtain ⟨u₀, hu₀⟩ := Option.isSome_iff_exists.1 hu.1
      have hiu := hg.readerInv.above u uLab huLab (EventLabel.isMemAccess_of_isWrite huw)
      exact before_filter_iff.2 ⟨hb, hkeepw, (hr₀.back hiu hu₀).1⟩

end Copy

end Prefix

end ViewedGraph

/-! ## Runs -/

/-- A step of the driver on its stack of graphs, the last one first. -/
inductive Drives (conf : ViewConfig) : List GraphViews → List GraphViews → Prop
  | step {s s' : GraphViews} {l : List GraphViews} (h : ViewedStep conf s s') :
      Drives conf (s :: l) (s' :: l)
  | restrict {s : GraphViews} {l : List GraphViews} {stamp : ℕ} :
      Drives conf (s :: l) (s.restrict conf stamp :: l)
  /-- A write revisits a read: the graph goes back to the write, and is copied. -/
  | revisit {s s₁ : GraphViews} {l : List GraphViews} {stamp : ℕ} {r w : Event} {sLab : EventLabel}
      (hs₁ : s₁ = s.restrict conf stamp) (hw : s₁.graph.getEventLabel w = some sLab)
      (hwrite : sLab.isWrite = true)
      (ho : InCreationOrder s₁.graph (s₁.graph.getRevisitView r sLab)) :
      Drives conf (s :: l) (s₁.revisitCopy conf r sLab :: s₁ :: l)
  | pop {s : GraphViews} {l : List GraphViews} : Drives conf (s :: l) l

theorem causal_init : Causal ExecutionGraph.init := by
  refine ⟨fun l h => ?_, fun e l h _ => ?_, fun j l h hk => ?_, fun e l h => ?_, fun e l h ht => ?_⟩
  · obtain ⟨-, rfl⟩ := of_getEventLabel_init h
    exact ⟨rfl, rfl⟩
  · obtain ⟨rfl, -⟩ := of_getEventLabel_init h
    rfl
  · obtain ⟨-, rfl⟩ := of_getEventLabel_init h
    exact EventLabelKind.noConfusion hk
  · obtain ⟨-, rfl⟩ := of_getEventLabel_init h
    rfl
  · obtain ⟨-, rfl⟩ := of_getEventLabel_init h
    exact absurd ht Bool.false_ne_true

theorem viewedGraph_init (conf : ViewConfig) : ViewedGraph conf GraphViews.init := by
  have hs := sound_init
  -- nothing comes before the initializer
  have hshows : ∀ {sync}, Shows sync ExecutionGraph.init Event.getInit View.empty := by
    refine fun x hx => ⟨fun h => ?_, fun h => ?_⟩
    · rw [View.contains_iff] at h
      exact absurd h (not_le.2 hx)
    · rcases h.cases_tail with heq | ⟨y, -, hy⟩
      · rw [← heq] at hx
        exact absurd rfl hx.ne
      · exact absurd rfl (ne_init_of_causalEdge hs.graphInv causal_init hy)
  refine ⟨hs.graphInv, hs.complete, causal_init, fun e he _ => ?_, fun w l h hw _ => ?_⟩
  · obtain ⟨l, hl, -⟩ := viewed_iff.1 he
    obtain ⟨rfl, -⟩ := of_getEventLabel_init hl
    exact ⟨hshows, hshows, fun _ => hshows, hshows⟩
  · obtain ⟨-, rfl⟩ := of_getEventLabel_init h
    exact absurd hw Bool.false_ne_true

/-- Each step keeps all graphs of the stack as they should be. -/
theorem Drives.viewedGraph (hd : Drives conf l l') (h : ∀ s ∈ l, ViewedGraph conf s) :
    ∀ s ∈ l', ViewedGraph conf s := by
  cases hd with
  | step hs =>
    obtain ⟨h₁, h₂⟩ := List.forall_mem_cons.1 h
    exact List.forall_mem_cons.2 ⟨h₁.step hs, h₂⟩
  | restrict =>
    obtain ⟨h₁, h₂⟩ := List.forall_mem_cons.1 h
    exact List.forall_mem_cons.2 ⟨h₁.restrict _, h₂⟩
  | @revisit s _ _ stamp _ _ _ hs₁ hw hwrite ho =>
    obtain ⟨h₁, h₂⟩ := List.forall_mem_cons.1 h
    subst hs₁
    have h₁' := h₁.restrict stamp
    exact List.forall_mem_cons.2 ⟨h₁'.revisitCopy hw hwrite (h₁.threadInv_restrict stamp) ho,
      List.forall_mem_cons.2 ⟨h₁', h₂⟩⟩
  | pop => exact (List.forall_mem_cons.1 h).2

/-- All graphs that the driver works on are as they should be. -/
theorem viewedGraph_of_drives (h : ReflTransGen (Drives conf) [GraphViews.init] l) :
    ∀ s ∈ l, ViewedGraph conf s := by
  induction h with
  | refl =>
    intro s hs
    rw [List.mem_singleton.1 hs]
    exact viewedGraph_init conf
  | tail _ hstep ih => exact hstep.viewedGraph ih

/-- **The views are right in every graph that the driver works on**: they show what comes before the
label, and nothing else. -/
theorem exactAt_of_drives (h : ReflTransGen (Drives conf) [GraphViews.init] l) (hs : s ∈ l)
    (he : Viewed s.graph e) : ExactAt conf s.graph s.views e :=
  (viewedGraph_of_drives h s hs).viewInv.exact e he id

theorem issues_init (hs : lab.isThreadStart = false) (hl : linPredsOf lab = [])
    (hk : lab.kind ≠ .ThreadJoin) : Issues ExecutionGraph.init lab := by
  refine ⟨fun e l _ h => ?_, fun h => absurd (hs.symm.trans h) Bool.false_ne_true, hl,
    fun h => absurd h hk⟩
  obtain ⟨-, rfl⟩ := of_getEventLabel_init h
  rfl

theorem eq_of_next {t i : ℕ} (h : e.next = ⟨t, i + 1⟩) : e = ⟨t, i⟩ := by
  cases h
  rfl

/-- A thread is created. -/
def createdThread : GraphViews :=
  GraphViews.init.handleThreadCreate ⟨false, false⟩ { kind := .ThreadCreate, pos := ⟨0, 1⟩ }

/-- The thread reads. -/
def readInThread : GraphViews :=
  (createdThread.addLabelToGraph ⟨false, false⟩ { kind := .Read, pos := ⟨1, 1⟩ }).findConsistentRf
    ⟨false, false⟩ ⟨1, 1⟩ Event.getInit []

theorem newLabel_createdThread :
    NewLabel ExecutionGraph.init { kind := .ThreadCreate, pos := ⟨0, 1⟩ } :=
  ⟨⟨by decide, by decide, by decide, rfl⟩, rfl, rfl, rfl, rfl⟩

theorem newLabel_readInThread :
    NewLabel createdThread.graph { kind := .Read, pos := ⟨1, 1⟩ } :=
  ⟨⟨by decide, by decide, by decide, rfl⟩, rfl, rfl, rfl, rfl⟩

theorem viewedStep_createdThread : ViewedStep ⟨false, false⟩ GraphViews.init createdThread :=
  .createThread newLabel_createdThread (issues_init rfl rfl (by decide)) rfl

theorem viewedStep_readInThread : ViewedStep ⟨false, false⟩ createdThread readInThread := by
  refine .load newLabel_readInThread ⟨fun e l he h => ?_, fun h => absurd h Bool.false_ne_true, rfl,
    fun h => EventLabelKind.noConfusion h⟩ rfl fun v hv => .inl (List.mem_singleton.1 hv)
  obtain rfl : e = ⟨1, 0⟩ := eq_of_next he
  rw [← Option.some.inj h]
  rfl

theorem drives_readInThread :
    ReflTransGen (Drives ⟨false, false⟩) [GraphViews.init] [readInThread] :=
  (ReflTransGen.single (.step viewedStep_createdThread)).tail (.step viewedStep_readInThread)

/-- A write, with the view of its prefix. -/
def writeLabel (s : GraphViews) (pos : Event) : EventLabel :=
  { kind := .Write, pos, prefixView := ((s.addLabelToGraph ⟨false, false⟩
    { kind := .Write, pos }).views pos).prefixView }

/-- A write is added, and comes after `pred`. -/
def GraphViews.write (s : GraphViews) (pos pred : Event) : GraphViews :=
  ⟨(s.graph.addLabelToGraph (writeLabel s pos)).addCo pos pred 0,
    (s.addLabelToGraph ⟨false, false⟩ (writeLabel s pos)).views⟩

/-- Whether a thread may go on can be read off its last label. -/
theorem issues_of_prev {t i : ℕ} {prev : EventLabel} (hpos : lab.pos = ⟨t, i + 1⟩)
    (hprev : g.getEventLabel ⟨t, i⟩ = some prev) (ht : prev.isTerminator = false)
    (hs : lab.isThreadStart = false) (hl : linPredsOf lab = []) (hk : lab.kind ≠ .ThreadJoin) :
    Issues g lab := by
  refine ⟨fun e l he h => ?_, fun h => absurd (hs.symm.trans h) Bool.false_ne_true, hl,
    fun h => absurd h hk⟩
  obtain rfl : e = ⟨t, i⟩ := eq_of_next (he.trans hpos)
  rw [← Option.some.inj (hprev.symm.trans h)]
  exact ht

/-- The first thread writes what the other one has read. -/
def readAndWrite : GraphViews := readInThread.write ⟨0, 2⟩ Event.getInit

theorem drives_readAndWrite :
    ReflTransGen (Drives ⟨false, false⟩) [GraphViews.init] [readAndWrite] := by
  have hn : NewLabel readInThread.graph (writeLabel readInThread ⟨0, 2⟩) :=
    ⟨⟨by decide, by decide, by decide, rfl⟩, rfl, rfl, rfl, rfl⟩
  have hi : Issues readInThread.graph (writeLabel readInThread ⟨0, 2⟩) :=
    issues_of_prev rfl rfl rfl rfl rfl (by decide)
  have hstore : ViewedStep ⟨false, false⟩ readInThread readAndWrite := .store hn hi rfl rfl
  exact drives_readInThread.tail (.step hstore)

/-- The driver goes back to the write. -/
def backToWrite : GraphViews :=
  readAndWrite.restrict ⟨false, false⟩ (readAndWrite.graph.stampAt ⟨0, 2⟩)

/-- The write that it goes back to. -/
def backLabel : EventLabel := (backToWrite.graph.getEventLabel ⟨0, 2⟩).getD initLabel

theorem getEventLabel_backToWrite : backToWrite.graph.getEventLabel ⟨0, 2⟩ = some backLabel := by
  obtain ⟨l, hl⟩ := Option.isSome_iff_exists.1
    (by decide +kernel : (backToWrite.graph.getEventLabel ⟨0, 2⟩).isSome)
  rw [backLabel, hl]
  rfl

/-- There is only one thread besides the first one. -/
theorem inCreationOrder_of_two (h : g.getNumThreads = 2) (v : View) : InCreationOrder g v := by
  intro t t' bLab bLab' c c' ht htt' hb hb'
  have hlt : t' < g.getNumThreads := lt_getNumThreads_of_getEventLabel hb'
  omega

/-- In the copy in which the write revisits the read, the prefix of the write is what it was. -/
theorem exactAt_of_drives_revisit :
    ((backToWrite.revisitCopy ⟨false, false⟩ ⟨1, 1⟩ backLabel).views ⟨0, 2⟩).prefixView.contains
        ⟨0, 1⟩ = true ∧
      ExactAt ⟨false, false⟩ (backToWrite.revisitCopy ⟨false, false⟩ ⟨1, 1⟩ backLabel).graph
        (backToWrite.revisitCopy ⟨false, false⟩ ⟨1, 1⟩ backLabel).views ⟨0, 2⟩ := by
  have hrevisit : Drives ⟨false, false⟩ [readAndWrite]
      [backToWrite.revisitCopy ⟨false, false⟩ ⟨1, 1⟩ backLabel, backToWrite] :=
    .revisit rfl getEventLabel_backToWrite (by decide +kernel)
      (inCreationOrder_of_two (by decide +kernel) _)
  exact ⟨by decide +kernel, exactAt_of_drives (drives_readAndWrite.tail hrevisit)
    List.mem_cons_self (by rw [Viewed]; decide +kernel)⟩

/-- **A write can revisit every read that does not come before it**: its prefix is a prefix of the
graph. -/
theorem canRevisit_of_drives (h : ReflTransGen (Drives conf) [GraphViews.init] l) (hs : s ∈ l)
    (hw : s.graph.getEventLabel w = some sLab) (hwrite : sLab.isWrite = true)
    (hr : 0 < r.index) (hrw : ¬ ReflTransGen (CausalEdge sync71 s.graph) r w)
    (ho : InCreationOrder s.graph (s.graph.getRevisitView r sLab)) : CanRevisit s.graph r sLab := by
  have hv := viewedGraph_of_drives h s hs
  refine hv.canRevisit hw hwrite ?_ ho
  rw [← Bool.not_eq_true, hv.contains_prefixView hw hwrite hr]
  exact hrw

/-- A write of the first thread can revisit the read of the other one. -/
theorem canRevisit_of_drives_readAndWrite :
    CanRevisit readAndWrite.graph ⟨1, 1⟩
      (stamped readInThread.graph (writeLabel readInThread ⟨0, 2⟩)) := by
  have hw : readAndWrite.graph.getEventLabel ⟨0, 2⟩ =
      some (stamped readInThread.graph (writeLabel readInThread ⟨0, 2⟩)) := rfl
  refine canRevisit_of_drives drives_readAndWrite List.mem_cons_self hw rfl (by decide)
    (fun h => ?_)
    (inCreationOrder_of_two (by decide) _)
  rw [← (viewedGraph_of_drives drives_readAndWrite _ List.mem_cons_self).contains_prefixView hw rfl
    (by decide)] at h
  revert h
  decide

/-! ## Candidates in a run -/

/-- The graphs of the examples have no joins. -/
theorem joinsKnown_of_labels (h : ∀ l ∈ g.labels, l.kind ≠ .ThreadJoin) : JoinsKnown g :=
  fun j jLab _ hj hf => absurd (tjPred_eq_some hf).1 (h jLab (mem_labels.2 ⟨j, hj⟩))

/-- And no read-modify-writes. -/
theorem atomic_of_labels (h : ∀ l ∈ g.labels, l.isRMW = false) : Atomic g := by
  intro u uLab hu _ hrmw
  rw [h uLab (mem_labels.2 ⟨u, hu⟩)] at hrmw
  exact absurd hrmw Bool.false_ne_true

section Candidates

variable (h : ReflTransGen (Drives conf) [GraphViews.init] l) (hs : s ∈ l)
  (hn : NewLabel s.graph lab) (hi : Issues s.graph lab)
  (hj : JoinsKnown (s.graph.addLabelToGraph lab))
include h hs hn hi hj

/-- **The driver overlooks no source**: whatever a new read can read from without making a cycle is
one of the candidates that are found with the views. -/
theorem mem_getCoherentStores_of_drives (hread : lab.isRead = true) (hw : Source s.graph lab w)
    (hac : Acyclic (OrderEdge ((s.graph.addLabelToGraph lab).setRf lab.pos (some w)))) :
    w ∈ getCoherentStores (s.graph.addLabelToGraph lab) (s.addLabelToGraph conf lab).views
      (stamped s.graph lab) := by
  have hv := viewedGraph_of_drives h s hs
  have hx := hn.extends hv.graphInv
  obtain ⟨hg', hv'⟩ := hv.add_of_not_isWrite hn hi (EventLabelKind.not_isWrite_of_isRead hread)
  have hload := loading_addLabelToGraph hv.graphInv hv.complete hn hread
  have hw' : Source (s.graph.addLabelToGraph lab) (stamped s.graph lab) w := by
    refine hw.imp_right ?_
    rintro ⟨wLab, hwLab, hww, hwa⟩
    exact ⟨wLab, hx.old hwLab, hww, hwa⟩
  exact mem_getCoherentStores_of_acyclic hg' hv'.causal hj (fun e he => hv'.exact e he id) hx.self
    hread hn.rf hload.write hw' hac

/-- **The driver overlooks no place**: wherever a new write can be placed without making a cycle,
and without coming between the halves of a read-modify-write, is one of the candidates. -/
theorem mem_getCoherentPlacings_of_drives (hwrite : lab.isWrite = true)
    (hpre : lab.prefixView = ((s.addLabelToGraph conf lab).views lab.pos).prefixView)
    {p : Event} (hp : p = Event.getInit ∨ p ∈ s.graph.co lab.addr)
    (hac : Acyclic (OrderEdge ((s.graph.addLabelToGraph lab).addCo lab.pos p lab.addr)))
    (hat : Atomic ((s.graph.addLabelToGraph lab).addCo lab.pos p lab.addr)) :
    ∃ cos, getCoherentPlacings (s.graph.addLabelToGraph lab) (s.addLabelToGraph conf lab).views
      (stamped s.graph lab) = some cos ∧ p ∈ cos := by
  have hv := viewedGraph_of_drives h s hs
  have hx := hn.extends hv.graphInv
  obtain ⟨hg', hv'⟩ := hv.add hn hi fun _ => hpre
  have hnew : Unplaced (s.graph.addLabelToGraph lab) lab.pos (stamped s.graph lab) := by
    refine ⟨hx.self, hwrite, fun hmem => ?_, hn.readers⟩
    rw [hx.co] at hmem
    obtain ⟨l, hl, -⟩ := hv.graphInv.co _ _ hmem
    have hnone : s.graph.getEventLabel lab.pos = none := hx.new
    rw [hnone] at hl
    cases hl
  refine mem_getCoherentPlacings_of_acyclic hg' hv'.causal hj (fun e he => hv'.exact e he id) hnew
    hac (hp.imp_right fun hmem => ?_) hat
  rw [hx.co]
  exact hmem

end Candidates

/-- **The driver overlooks no revisit**: once it has gone back to a write, every read that the write
can revisit without making a cycle passes the filter. -/
theorem mem_filterCoherentRevisits_of_drives {s₁ : GraphViews} {stamp : ℕ} {ls : List Event}
    (h : ReflTransGen (Drives conf) [GraphViews.init] l) (hs : s ∈ l)
    (hs₁ : s₁ = s.restrict conf stamp) (hj : JoinsKnown s₁.graph)
    (hw : s₁.graph.getEventLabel w = some sLab) (hwrite : sLab.isWrite = true)
    (ho : InCreationOrder s₁.graph (s₁.graph.getRevisitView r sLab))
    (hr : s₁.graph.getEventLabel r = some rLab) (hread : rLab.isRead = true)
    (haddr : rLab.addr = sLab.addr) (hmem : r ∈ ls)
    (hac : Acyclic (OrderEdge ((s₁.graph.revisitCopy r sLab).setRf r (some sLab.pos)))) :
    r ∈ filterCoherentRevisits s₁.graph s₁.views sLab ls := by
  subst hs₁
  have hv := viewedGraph_of_drives h s hs
  exact (hv.restrict stamp).mem_filterCoherentRevisits hw hwrite (hv.threadInv_restrict stamp) ho hj
    hr hread haddr hmem hac

/-- The read of the other thread passes the filter. -/
theorem mem_filterCoherentRevisits_of_drives_backToWrite : ∃ sLab,
    backToWrite.graph.getEventLabel ⟨0, 2⟩ = some sLab ∧
      ⟨1, 1⟩ ∈ filterCoherentRevisits backToWrite.graph backToWrite.views sLab [⟨1, 1⟩] := by
  have hlabel : ∀ {g : ExecutionGraph} {e}, (g.getEventLabel e).isSome →
      g.getEventLabel e = some ((g.getEventLabel e).getD initLabel) := fun h => by
    obtain ⟨l, hl⟩ := Option.isSome_iff_exists.1 h
    rw [hl]
    rfl
  have hv := viewedGraph_of_drives drives_readAndWrite _ List.mem_cons_self
  have hback : ViewedGraph ⟨false, false⟩ backToWrite := hv.restrict _
  have hw := hlabel (g := backToWrite.graph) (e := ⟨0, 2⟩) (by decide +kernel)
  have hr := hlabel (g := backToWrite.graph) (e := ⟨1, 1⟩) (by decide +kernel)
  have hj : JoinsKnown backToWrite.graph := joinsKnown_of_labels (by decide +kernel)
  generalize hsLab : (backToWrite.graph.getEventLabel ⟨0, 2⟩).getD initLabel = sLab at hw
  generalize hrLab : (backToWrite.graph.getEventLabel ⟨1, 1⟩).getD initLabel = rLab at hr
  have hwrite : sLab.isWrite = true := by
    rw [← hsLab]
    decide +kernel
  have ho : InCreationOrder backToWrite.graph (backToWrite.graph.getRevisitView ⟨1, 1⟩ sLab) :=
    inCreationOrder_of_two (by decide +kernel) _
  -- the graph after the revisit is consistent
  have hcopy := hback.revisitCopy hw hwrite (hv.threadInv_restrict _) ho
  have hr' := hlabel (g := (backToWrite.revisitCopy ⟨false, false⟩ ⟨1, 1⟩ sLab).graph)
    (e := ⟨1, 1⟩) (by subst hsLab; decide +kernel)
  have hw' := hlabel (g := (backToWrite.revisitCopy ⟨false, false⟩ ⟨1, 1⟩ sLab).graph)
    (e := ⟨0, 2⟩) (by subst hsLab; decide +kernel)
  have hpos : sLab.pos = ⟨0, 2⟩ := hback.graphInv.threaded.slots _ _ hw
  have hset := hcopy.setRf hr' (by subst hsLab; decide +kernel)
    (.inr ⟨_, hw', by subst hsLab; decide +kernel, by subst hsLab; decide +kernel⟩)
    (by subst hsLab; decide +kernel)
  have hac := (hset.graphInv.isConsistentGraph_iff hset.complete).1
    (by subst hsLab; decide +kernel)
  refine ⟨sLab, hw, mem_filterCoherentRevisits_of_drives drives_readAndWrite List.mem_cons_self rfl
    hj hw hwrite ho hr ?_ ?_ List.mem_cons_self ?_⟩
  · rw [← hrLab]
    decide +kernel
  · rw [← hrLab, ← hsLab]
    decide +kernel
  · rw [graph_setRf_revisitCopy] at hac
    rw [hpos]
    exact hac

/-- Both threads write. -/
def bothWriteViewed : GraphViews :=
  (createdThread.write ⟨0, 2⟩ Event.getInit).write ⟨1, 1⟩ ⟨0, 2⟩

theorem drives_bothWriteViewed :
    ReflTransGen (Drives ⟨false, false⟩) [GraphViews.init] [bothWriteViewed] := by
  have hn : NewLabel createdThread.graph (writeLabel createdThread ⟨0, 2⟩) :=
    ⟨⟨by decide, by decide, by decide, rfl⟩, rfl, rfl, rfl, rfl⟩
  have hstore : ViewedStep ⟨false, false⟩ createdThread
      (createdThread.write ⟨0, 2⟩ Event.getInit) :=
    .store hn (issues_of_prev rfl rfl rfl rfl rfl (by decide)) rfl rfl
  have hn' : NewLabel (createdThread.write ⟨0, 2⟩ Event.getInit).graph
      (writeLabel (createdThread.write ⟨0, 2⟩ Event.getInit) ⟨1, 1⟩) :=
    ⟨⟨by decide, by decide, by decide, rfl⟩, rfl, rfl, rfl, rfl⟩
  have hstore' : ViewedStep ⟨false, false⟩ (createdThread.write ⟨0, 2⟩ Event.getInit)
      bothWriteViewed := .store hn' (issues_of_prev rfl rfl rfl rfl rfl (by decide)) rfl rfl
  exact ((ReflTransGen.single (.step viewedStep_createdThread)).tail (.step hstore)).tail
    (.step hstore')

/-- The first thread may read either write. -/
theorem mem_getCoherentStores_of_drives_bothWrite :
    ∃ stores, getCoherentStores
      (bothWriteViewed.graph.addLabelToGraph { kind := .Read, pos := ⟨0, 3⟩ })
      (bothWriteViewed.addLabelToGraph ⟨false, false⟩ { kind := .Read, pos := ⟨0, 3⟩ }).views
      (stamped bothWriteViewed.graph { kind := .Read, pos := ⟨0, 3⟩ }) = stores ∧
        ⟨0, 2⟩ ∈ stores ∧ ⟨1, 1⟩ ∈ stores := by
  have hcons : ∀ w ∈ [(⟨0, 2⟩ : Event), ⟨1, 1⟩], isConsistentGraph
      ((bothWriteViewed.graph.addLabelToGraph { kind := .Read, pos := ⟨0, 3⟩ }).setRf ⟨0, 3⟩
        (some w)) = some true := by decide +kernel
  have hv := viewedGraph_of_drives drives_bothWriteViewed _ List.mem_cons_self
  have hn : NewLabel bothWriteViewed.graph { kind := .Read, pos := ⟨0, 3⟩ } :=
    ⟨⟨by decide, by decide, by decide, rfl⟩, rfl, rfl, rfl, rfl⟩
  have hmem : ∀ w ∈ [(⟨0, 2⟩ : Event), ⟨1, 1⟩], w ∈ getCoherentStores
      (bothWriteViewed.graph.addLabelToGraph { kind := .Read, pos := ⟨0, 3⟩ })
      (bothWriteViewed.addLabelToGraph ⟨false, false⟩ { kind := .Read, pos := ⟨0, 3⟩ }).views
      (stamped bothWriteViewed.graph { kind := .Read, pos := ⟨0, 3⟩ }) := by
    intro w hw
    obtain ⟨hsrc, hsrc'⟩ : Source bothWriteViewed.graph { kind := .Read, pos := ⟨0, 3⟩ } w ∧
        Source (bothWriteViewed.graph.addLabelToGraph { kind := .Read, pos := ⟨0, 3⟩ })
          { kind := .Read, pos := ⟨0, 3⟩ } w := by
      rcases List.mem_cons.1 hw with rfl | hw
      · exact ⟨.inr ⟨_, rfl, rfl, rfl⟩, .inr ⟨_, rfl, rfl, rfl⟩⟩
      · obtain rfl := List.mem_singleton.1 hw
        exact ⟨.inr ⟨_, rfl, rfl, rfl⟩, .inr ⟨_, rfl, rfl, rfl⟩⟩
    obtain ⟨hload, hc⟩ := (loading_addLabelToGraph hv.graphInv hv.complete hn rfl).setRf hsrc'
    exact mem_getCoherentStores_of_drives drives_bothWriteViewed List.mem_cons_self hn
      (issues_of_prev rfl rfl rfl rfl rfl (by decide)) (joinsKnown_of_labels (by decide +kernel))
      rfl hsrc ((hload.graphInv.isConsistentGraph_iff hc).1 (hcons w hw))
  exact ⟨_, rfl, hmem _ (by decide), hmem _ (by decide)⟩

/-- Another write of the first thread may come between the two writes, or after both. -/
theorem mem_getCoherentPlacings_of_drives_bothWrite :
    ∃ cos, getCoherentPlacings
      (bothWriteViewed.graph.addLabelToGraph (writeLabel bothWriteViewed ⟨0, 3⟩))
      (bothWriteViewed.addLabelToGraph ⟨false, false⟩ (writeLabel bothWriteViewed ⟨0, 3⟩)).views
      (stamped bothWriteViewed.graph (writeLabel bothWriteViewed ⟨0, 3⟩)) = some cos ∧
        ⟨0, 2⟩ ∈ cos ∧ ⟨1, 1⟩ ∈ cos := by
  have hcons : ∀ p ∈ [(⟨0, 2⟩ : Event), ⟨1, 1⟩], isConsistentGraph
      ((bothWriteViewed.graph.addLabelToGraph (writeLabel bothWriteViewed ⟨0, 3⟩)).addCo ⟨0, 3⟩ p
        0) = some true := by decide +kernel
  have hrmw : ∀ p ∈ [(⟨0, 2⟩ : Event), ⟨1, 1⟩], ∀ l ∈ ((bothWriteViewed.graph.addLabelToGraph
      (writeLabel bothWriteViewed ⟨0, 3⟩)).addCo ⟨0, 3⟩ p 0).labels, l.isRMW = false := by
    decide +kernel
  have hv := viewedGraph_of_drives drives_bothWriteViewed _ List.mem_cons_self
  have hn : NewLabel bothWriteViewed.graph (writeLabel bothWriteViewed ⟨0, 3⟩) :=
    ⟨⟨by decide, by decide, by decide, rfl⟩, rfl, rfl, rfl, rfl⟩
  have hmem : ∀ p ∈ [(⟨0, 2⟩ : Event), ⟨1, 1⟩], ∃ cos, getCoherentPlacings
      (bothWriteViewed.graph.addLabelToGraph (writeLabel bothWriteViewed ⟨0, 3⟩))
      (bothWriteViewed.addLabelToGraph ⟨false, false⟩ (writeLabel bothWriteViewed ⟨0, 3⟩)).views
      (stamped bothWriteViewed.graph (writeLabel bothWriteViewed ⟨0, 3⟩)) = some cos ∧
        p ∈ cos := by
    intro p hp
    have hg := (hn.places hv.graphInv hv.complete rfl p).graphInv
      (hv.graphInv.addLabelToGraph hn hv.complete)
    have hac := (hg.isConsistentGraph_iff (complete_addCo hv.graphInv hv.complete hn rfl p)).1
      (hcons p hp)
    exact mem_getCoherentPlacings_of_drives drives_bothWriteViewed List.mem_cons_self hn
      (issues_of_prev rfl rfl rfl rfl rfl (by decide)) (joinsKnown_of_labels (by decide +kernel))
      rfl rfl (.inr hp) hac (atomic_of_labels (hrmw p hp))
  obtain ⟨cos, hcos, hfirst⟩ := hmem ⟨0, 2⟩ (by decide)
  obtain ⟨cos', hcos', hsecond⟩ := hmem ⟨1, 1⟩ (by decide)
  rw [Option.some.inj (hcos'.symm.trans hcos)] at hsecond
  exact ⟨cos, hcos, hfirst, hsecond⟩

end SCChecker
end GenMC
