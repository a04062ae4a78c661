import GenMC.Consistency.Worklist
import GenMC.Verification.ThreadJoin

/-!
# Runs of a program

The driver runs a program until its threads are done or blocked, and adds a label to the graph for
each of its operations.  A read reads from the first of its candidates that is consistent, and a
write comes last in coherence.  What else they could have done is left for later, and so is every
revisit of an older read by the new write.

* `RunStep` are the steps of a run.  Any label may be added that fits; symmetry reduction, bounds
  and errors are not considered.
* **`RunStep.sound`**: no step makes a cycle, although most of them are not checked at all.
* `RunStep.keeps` says what a step leaves alone, and `RunStep.pushes` what it leaves for later.

Steps are left out where they may go wrong: a write that is not the last one in coherence does not
revisit reads in place (it may make a cycle), and a read does not wait for a barrier, so that the
last write in coherence is among its candidates.
-/

set_option autoImplicit false

namespace GenMC

open ListOrder Relation ExecutionGraph SCChecker

variable {g g' : ExecutionGraph} {a b e r w x z : Event} {lab lab' : EventLabel}
  {p q s : Event → Prop} {env : Environment} {i : Revisit} {l new : List Revisit}

/-! ## Steps of a run -/

/-- Tries the candidates for a read, the oldest one first.  The last one is not checked.  Returns
the candidates that are left. -/
def ExecutionGraph.findConsistentRf (r : Event) :
    Event → List Event → ExecutionGraph → ExecutionGraph × List Event
  | w, [], g => (g.setRf r (some w), [])
  | w, w' :: rfs, g =>
    let g' := g.setRf r (some w)
    if isExecutionValid g' r then (g', w' :: rfs) else findConsistentRf r w' rfs g'

/-- Takes the alternative of an optional block. -/
def ExecutionGraph.revisitOptional (x : Event) (g : ExecutionGraph) : ExecutionGraph :=
  g.modify x fun oLab => { oLab with expanded := true }

/-- A step of a run, and what it leaves for later.  The last candidate of a read is the last write
in coherence (`hmax` of `load`), and so is a write that revisits in place (`hmax` of `inPlace`); the
source asks neither of waits at barriers and of in-place revisits. -/
inductive RunStep (env : Environment) (g : ExecutionGraph) :
    ExecutionGraph → List Revisit → Prop
  | addLabel {lab : EventLabel} (hn : NewLabel g lab) (hm : lab.isMemAccess = false)
      (hk : lab.kind ≠ .ThreadCreate) : RunStep env g (g.addLabelToGraph lab) []
  | optional {lab : EventLabel} (hn : NewLabel g lab) (hk : lab.kind = .Optional) :
      RunStep env g (g.addLabelToGraph lab) [.optional lab.pos]
  | createThread {lab : EventLabel} {symm : Option ℕ} {g' : ExecutionGraph} (hn : NewLabel g lab)
      (hk : lab.kind = .ThreadCreate) (hstep : g.handleThreadCreate lab symm = some g') :
      RunStep env g g' []
  | join {exceedsBound : ExecutionGraph → Bool} {lab : EventLabel} {res : JoinResult}
      {g' : ExecutionGraph} (hn : NewLabel g lab) (hk : lab.kind = .ThreadJoin)
      (hstep : g.handleThreadJoin exceedsBound lab = some (res, g')) : RunStep env g g' []
  | block {bLab : EventLabel} (hb : FreshBlock bLab) (ha : Added g bLab) :
      RunStep env g (g.blockThread bLab) []
  /-- A block takes the place of a label that is no memory access. -/
  | replace {bLab lab : EventLabel} (hb : FreshBlock bLab)
      (hlast : g.getLastThreadLabel bLab.pos.thread = some lab) (hpos : lab.pos = bLab.pos)
      (hrem : Removable lab) (hm : lab.isMemAccess = false) (hk : lab.kind ≠ .Optional) :
      RunStep env g (g.blockThread bLab) []
  | unblock {e : Event} {g' : ExecutionGraph} (hstep : g.unblockThread e = some g') :
      RunStep env g g' []
  | load {lab : EventLabel} {w : Event} {rfs : List Event} (hn : NewLabel g lab)
      (hread : lab.isRead = true) (hsrc : ∀ v ∈ w :: rfs, Source g lab v)
      (hmax : (w :: rfs).getLast? = some (g.coMax lab.addr)) :
      RunStep env g ((g.addLabelToGraph lab).findConsistentRf lab.pos w rfs).1
        (((g.addLabelToGraph lab).findConsistentRf lab.pos w rfs).2.map (.read lab.pos))
  /-- A compare-and-swap that blocks is taken out again: `removeCASReadIfBlocks`. -/
  | blockLoad {lab bLab : EventLabel} (hn : NewLabel g lab) (hread : lab.isRead = true)
      (hb : FreshBlock bLab) (hpos : bLab.pos = lab.pos) :
      RunStep env g ((g.addLabelToGraph lab).blockThread bLab) []
  | store {lab : EventLabel} {cos loads : List Event} (hn : NewLabel g lab)
      (hw : lab.isWrite = true) (hloads : ∀ r ∈ loads, ∃ rLab, g.getEventLabel r = some rLab ∧
        rLab.isRead = true ∧ rLab.addr = lab.addr) :
      RunStep env g
        ((g.addLabelToGraph lab).addCo lab.pos (g.coMax lab.addr) lab.addr)
        (loads.map (.backward · lab.pos) ++ cos.map (.write lab.pos))
  /-- The write of a read-modify-write comes right after the write that was read. -/
  | storeRMW {lab rLab : EventLabel} {r pred : Event} {loads : List Event} (hn : NewLabel g lab)
      (hw : lab.isWrite = true) (hr : g.getEventLabel r = some rLab) (hread : rLab.isRead = true)
      (haddr : rLab.addr = lab.addr) (hrf : rLab.rf = some pred) (hnext : r.next = lab.pos)
      (hloads : ∀ r ∈ loads, ∃ rLab, g.getEventLabel r = some rLab ∧
        rLab.isRead = true ∧ rLab.addr = lab.addr) :
      RunStep env g ((g.addLabelToGraph lab).addCo lab.pos pred lab.addr)
        (loads.map (.backward · lab.pos))
  | inPlace {r w : Event} {rLab : EventLabel} (h : CanRevisitInPlace g w r)
      (hr : g.getEventLabel r = some rLab) (hmax : w = g.coMax rLab.addr) :
      RunStep env g (revisitInPlace env w g r) []

namespace SCChecker

/-! ## Candidates for a read -/

/-- `g` is `g₀` up to what its last label `r`, a read, reads from. -/
structure Loading (r : Event) (rLab : EventLabel) (g₀ g : ExecutionGraph) : Prop where
  graphInv : GraphInv g
  changes : Changes r g₀ g
  keeps : Keeps (fun _ => True) g₀ g
  insertionOrder : g.insertionOrder = g₀.insertionOrder
  co : ∀ y, g.co y = g₀.co y
  read : ∃ l, g.getEventLabel r = some l ∧ l.isRead = true ∧ l.addr = rLab.addr
  next : g.getEventLabel r.next = none
  rf : ∀ e eLab, e ≠ r → g.getEventLabel e = some eLab → eLab.isRead = true → eLab.rf.isSome
  write : ∀ v vLab, g.getEventLabel v = some vLab → vLab.isWrite = true → v ∈ g.co vLab.addr

namespace Loading

variable {rLab : EventLabel} {g₀ : ExecutionGraph}

theorem source (h : Loading r rLab g₀ g) (hsrc : Source g₀ rLab w)
    {l : EventLabel} (hl : l.addr = rLab.addr) : Source g l w := by
  refine hsrc.imp_right ?_
  rintro ⟨wLab, hw, hww, hwa⟩
  obtain ⟨wLab', hw', hk, haddr⟩ := h.keeps.label w wLab trivial hw
  refine ⟨wLab', hw', ?_, (haddr.trans hwa).trans hl.symm⟩
  rw [EventLabel.isWrite, hk]
  exact hww

/-- Trying a candidate. -/
theorem setRf (h : Loading r rLab g₀ g) (hsrc : Source g₀ rLab w) :
    Loading r rLab g₀ (g.setRf r (some w)) ∧ Complete (g.setRf r (some w)) := by
  obtain ⟨l, hl, hread, haddr⟩ := h.read
  have hc : Complete (g.setRf r (some w)) := complete_setRf h.graphInv hl h.rf h.write
  obtain ⟨rs, m, hl'⟩ := to_setRf h.graphInv hl (w := w) hl
  refine ⟨⟨h.graphInv.setRf hl hread (h.source hsrc haddr) h.next, fun a b hab ha hb =>
    h.changes a b (changes_setRf h.graphInv hl a b hab ha hb) ha hb,
    h.keeps.trans (keeps_setRf h.graphInv hl) fun _ => id, (insertionOrder_setRf r _).trans
      h.insertionOrder, fun y => (co_setRf _ y).trans (h.co y), ⟨_, hl', hread, haddr⟩, ?_,
    fun e eLab _ => hc.rf e eLab, hc.write⟩, hc⟩
  rw [← Option.not_isSome_iff_eq_none, isSome_setRf hl, h.next]
  exact Bool.false_ne_true

/-- **Reading from the first candidate that is consistent**, or from the last write. -/
theorem findConsistentRf {rfs : List Event} (h : Loading r rLab g₀ g)
    (hac : Acyclic (OrderEdge g₀)) (hsrc : ∀ v ∈ w :: rfs, Source g₀ rLab v)
    (hmax : (w :: rfs).getLast? = some (g₀.coMax rLab.addr)) :
    Sound (g.findConsistentRf r w rfs).1 ∧ Loading r rLab g₀ (g.findConsistentRf r w rfs).1 ∧
      (g.findConsistentRf r w rfs).2 <:+ rfs := by
  induction rfs generalizing w g with
  | nil =>
    obtain ⟨h', hc⟩ := h.setRf (hsrc w List.mem_cons_self)
    obtain ⟨l, hl, hread, haddr⟩ := h.read
    have hw : w = g.coMax l.addr := by
      obtain rfl := Option.some.inj hmax
      rw [coMax, coMax, h.co, haddr]
    refine ⟨⟨h'.graphInv, hc, acyclic_of_last hac h'.changes fun b => ?_⟩, h', List.suffix_refl _⟩
    exact not_orderEdge_setRf h.graphInv hl hread h.next hw b
  | cons w' rfs ih =>
    obtain ⟨h', hc⟩ := h.setRf (hsrc w List.mem_cons_self)
    rw [ExecutionGraph.findConsistentRf]
    by_cases hv : isExecutionValid (g.setRf r (some w)) r = true
    · rw [if_pos hv]
      obtain ⟨l, hl, hread, -⟩ := h'.read
      have hno := noCycleFrom_of_valid_read h'.graphInv hc hl hread hv
        (noCycleFrom_of_absent h'.graphInv h'.next)
      exact ⟨⟨h'.graphInv, hc, acyclic_of_changes hac h'.changes fun hcyc => hno r .refl hcyc⟩, h',
        List.suffix_refl _⟩
    · rw [if_neg hv]
      obtain ⟨hs, hl, hsuf⟩ := ih h' (fun v hv => hsrc v (List.mem_cons_of_mem _ hv))
        (by rw [List.getLast?_cons_cons] at hmax; exact hmax)
      exact ⟨hs, hl, hsuf.trans (List.suffix_cons _ _)⟩

end Loading

/-- A read that has just been added has no source yet. -/
theorem loading_addLabelToGraph (hg : GraphInv g) (hc : Complete g) (hn : NewLabel g lab)
    (hread : lab.isRead = true) :
    Loading lab.pos lab (g.addLabelToGraph lab) (g.addLabelToGraph lab) := by
  have hx := hn.extends hg
  refine ⟨hg.addLabelToGraph hn hc, fun _ _ hab _ _ => hab,
    .of_eq rfl fun e l hl => ⟨l, hl, rfl, rfl⟩, rfl, fun _ => rfl, ⟨_, hx.self, hread, rfl⟩,
    hx.next_eq_none, fun e eLab hne he heread => ?_, fun v vLab hv hvw => ?_⟩
  · exact hc.rf e eLab ((hx.cases he).resolve_left fun h' => hne h'.1).2 heread
  · rw [hx.co]
    rcases hx.cases hv with ⟨-, rfl⟩ | ⟨-, hv⟩
    · have hnw : lab.isWrite = false := EventLabelKind.not_isWrite_of_isRead hread
      exact absurd (hnw.symm.trans hvw) Bool.false_ne_true
    · exact hc.write v vLab hv hvw

/-! ## Runs -/

/-- Nothing but the label that is revisited comes after the last write. -/
theorem Sound.revisitInPlace {rLab : EventLabel} (h : Sound g) (hcan : CanRevisitInPlace g w r)
    (hr : g.getEventLabel r = some rLab) (hmax : w = g.coMax rLab.addr) :
    Sound (revisitInPlace env w g r) := by
  have hrev := hcan.revisited env h.graphInv h.complete
  obtain ⟨l, hl, hread, hrf⟩ := hrev.read
  obtain ⟨l₀, hl₀, -, haddr, -⟩ := hrev.back r l hl
  obtain rfl := Option.some.inj (hr.symm.trans hl₀)
  refine ⟨hrev.graphInv, hrev.complete, acyclic_of_last h.acyclic hrev.edge fun b hb => ?_⟩
  rcases hrev.graphInv.orderEdge_read hl hread hb with rfl | ⟨hmem, v, hv, hafter⟩
  · have hnext := (hrev.graphInv.isSome_of_orderEdge hb).2
    rw [hrev.next] at hnext
    cases hnext
  · obtain rfl := Option.some.inj (hrf.symm.trans hv)
    rw [haddr, hrev.co] at hmem hafter
    rw [hmax] at hafter
    exact h.graphInv.not_after_coMax hmem hafter

/-- A new write that has been placed is not unfinished. -/
theorem complete_addCo (hg : GraphInv g) (hc : Complete g) (hn : NewLabel g lab)
    (hwrite : lab.isWrite = true) (pred : Event) :
      Complete ((g.addLabelToGraph lab).addCo lab.pos pred lab.addr) := by
  have hx := hn.extends hg
  have hp := hn.places hg hc hwrite pred
  have hnr : lab.isRead = false := by
    rw [← Bool.not_eq_true]
    intro hread
    rw [EventLabel.isWrite, EventLabelKind.not_isWrite_of_isRead hread] at hwrite
    cases hwrite
  refine hp.complete hx.self (fun e l hl hread => ?_) (fun v l hl hlw hne => ?_) ?_
  · rcases hx.cases hl with ⟨-, rfl⟩ | ⟨-, hl⟩
    · exact absurd (hnr.symm.trans hread) Bool.false_ne_true
    · exact hc.rf e l hl hread
  · rw [hx.co]
    exact hc.write v l ((hx.cases hl).resolve_left fun h' => hne h'.1).2 hlw
  · show lab.pos ∈ ((g.addLabelToGraph lab).addCo lab.pos pred lab.addr).co lab.addr
    rw [co_addCo, if_pos rfl]
    exact mem_insertAfter _ _ _

theorem Sound.store (h : Sound g) (hn : NewLabel g lab) (hwrite : lab.isWrite = true) :
    Sound ((g.addLabelToGraph lab).addCo lab.pos (g.coMax lab.addr) lab.addr) :=
  ⟨(hn.places h.graphInv h.complete hwrite _).graphInv (h.graphInv.addLabelToGraph hn h.complete),
    complete_addCo h.graphInv h.complete hn hwrite _,
      hn.acyclic_store h.graphInv h.complete hwrite h.acyclic⟩

theorem Sound.storeRMW {rLab : EventLabel} {pred : Event} (h : Sound g) (hn : NewLabel g lab)
    (hwrite : lab.isWrite = true) (hr : g.getEventLabel r = some rLab)
    (hread : rLab.isRead = true) (haddr : rLab.addr = lab.addr) (hrf : rLab.rf = some pred)
    (hnext : r.next = lab.pos) : Sound ((g.addLabelToGraph lab).addCo lab.pos pred lab.addr) :=
  ⟨(hn.places h.graphInv h.complete hwrite _).graphInv (h.graphInv.addLabelToGraph hn h.complete),
    complete_addCo h.graphInv h.complete hn hwrite _,
    hn.acyclic_rmw h.graphInv h.complete hwrite h.acyclic hr hread haddr hrf hnext⟩

theorem Sound.load {rfs : List Event} (h : Sound g) (hn : NewLabel g lab)
    (hread : lab.isRead = true) (hsrc : ∀ v ∈ w :: rfs, Source g lab v)
    (hmax : (w :: rfs).getLast? = some (g.coMax lab.addr)) :
    Sound ((g.addLabelToGraph lab).findConsistentRf lab.pos w rfs).1 ∧
      Loading lab.pos lab (g.addLabelToGraph lab)
        ((g.addLabelToGraph lab).findConsistentRf lab.pos w rfs).1 ∧
      ((g.addLabelToGraph lab).findConsistentRf lab.pos w rfs).2 <:+ rfs := by
  have hx := hn.extends h.graphInv
  refine (loading_addLabelToGraph h.graphInv h.complete hn hread).findConsistentRf ?_
    (fun v hv => ?_) ?_
  · exact hn.acyclic h.graphInv (hn.removable hread).2.1 h.acyclic
  · refine (hsrc v hv).imp_right ?_
    rintro ⟨wLab, hw, hww, hwa⟩
    exact ⟨wLab, hx.old hw, hww, hwa⟩
  · rw [hmax, coMax, coMax, hx.co]

/-! ## What a run leaves alone -/

/-- A block takes the place of a label that revisits are not about. -/
theorem keeps_replace {bLab : EventLabel} {t : ℕ} (hg : GraphInv g)
    (hlast : g.getLastThreadLabel t = some lab) (hrem : Removable lab) (hb : FreshBlock bLab)
    (hpos : bLab.pos = lab.pos) :
    Keeps (· ≠ lab.pos) g ((g.removeLast t).addLabelToGraph bLab) :=
  (keeps_removeLast hg hlast hrem).trans
    ((hb.newLabel (added_removeLast hg hlast hrem hpos hb.stamp)).extends
      (hg.removeLast hlast hrem)).keeps fun _ => id

theorem blockThread_eq_replace {bLab : EventLabel}
    (hlast : g.getLastThreadLabel bLab.pos.thread = some lab) (hpos : lab.pos = bLab.pos) :
    g.blockThread bLab = (g.removeLast bLab.pos.thread).addLabelToGraph bLab := by
  rw [ExecutionGraph.blockThread, if_pos]
  rw [hlast]
  exact decide_eq_true hpos

theorem keeps_handleThreadCreate {symm : Option ℕ} (h : Sound g) (hn : NewLabel g lab)
    (hstep : g.handleThreadCreate lab symm = some g') : Keeps s g g' := by
  rw [h.graphInv.threaded.handleThreadCreate_eq hn.toAdded] at hstep
  obtain rfl := Option.some.inj hstep
  exact (((hn.setChildId g.getNumThreads).extends h.graphInv).keeps.trans
    (h.graphInv.extends_begin h.complete hn symm).keeps fun _ => id).trans
    (relabels_setSymmSuccTid symm _ _).keeps fun _ => id

theorem keeps_handleThreadJoin {exceedsBound : ExecutionGraph → Bool} {res : JoinResult}
    (h : Sound g) (hn : NewLabel g lab)
      (hstep : g.handleThreadJoin exceedsBound lab = some (res, g')) :
    Keeps s g g' := by
  rw [ExecutionGraph.handleThreadJoin] at hstep
  split at hstep
  · cases hstep
  · split at hstep
    · obtain ⟨-, rfl⟩ := Prod.mk.inj (Option.some.inj hstep)
      have hb : FreshBlock { kind := .JoinBlock, pos := lab.pos, childId := lab.childId } :=
        ⟨rfl, rfl, rfl, rfl, rfl, rfl⟩
      have ha : Added g { kind := .JoinBlock, pos := lab.pos, childId := lab.childId } :=
        ⟨hn.thread, hn.index, hn.begun, rfl⟩
      rw [blockThread_eq_add h.graphInv.threaded.slots.seated ha.index]
      exact ((hb.newLabel ha).extends h.graphInv).keeps
    · simp only at hstep
      split at hstep
      · cases hstep
      · rename_i eLab heq
        have hrel : Relabels (g.addLabelToGraph lab)
            ((g.addLabelToGraph lab).setParentJoin eLab.pos lab.pos) := relabels_setParentJoin _ _
        have hkeeps : Keeps s g ((g.addLabelToGraph lab).setParentJoin eLab.pos lab.pos) :=
          (hn.extends h.graphInv).keeps.trans hrel.keeps fun _ => id
        split at hstep
        · obtain ⟨-, rfl⟩ := Prod.mk.inj (Option.some.inj hstep)
          exact hkeeps
        · split at hstep
          · obtain ⟨-, rfl⟩ := Prod.mk.inj (Option.some.inj hstep)
            exact hkeeps
          · obtain ⟨-, rfl⟩ := Prod.mk.inj (Option.some.inj hstep)
            exact hkeeps

theorem keeps_unblockThread (h : Sound g) (hstep : g.unblockThread e = some g') :
    Keeps (Chosen g) g g' := by
  rw [ExecutionGraph.unblockThread] at hstep
  split at hstep
  · rename_i hany
    obtain ⟨bLab, hlast, hb⟩ := (Option.any_eq_true _ _).1 hany
    obtain rfl := Option.some.inj hstep
    have hlab := (getEventLabel_of_last h.graphInv hlast).1
    exact (keeps_removeLast h.graphInv hlast (FreshBlock.removable h.graphInv hlab hb)).mono
      fun _ he => he.ne_block hlab hb
  · cases hstep

/-! ## What a run leaves for later -/

/-- The label at `x` is newer than what was there. -/
def IsNewest (x : Event) (g g' : ExecutionGraph) : Prop :=
  ∀ k, (g.getEventLabel k).isSome → Before g'.insertionOrder k x

theorem Extends.isNewest (hx : Extends lab g g') (hg : GraphInv g) : IsNewest lab.pos g g' := by
  intro k hk
  rw [hx.insertionOrder]
  exact before_concat ((hg.threaded.inserted k).2 hk) _

theorem IsNewest.of_eq (h : IsNewest x g g') {g'' : ExecutionGraph}
    (hio : g''.insertionOrder = g'.insertionOrder) : IsNewest x g g'' := by
  intro k hk
  rw [hio]
  exact h k hk

/-- The revisits that a new write is left with. -/
theorem wellFormed_of_store (h : Sound g) (hn : NewLabel g lab) (hw : lab.isWrite = true)
    (pred : Event) :
    IsNewest lab.pos g ((g.addLabelToGraph lab).addCo lab.pos pred lab.addr) ∧
      (∀ c, (Revisit.write lab.pos c).WellFormed
        ((g.addLabelToGraph lab).addCo lab.pos pred lab.addr)) ∧
      ∀ r, (∃ rLab, g.getEventLabel r = some rLab ∧ rLab.isRead = true ∧ rLab.addr = lab.addr) →
        (Revisit.backward r lab.pos).WellFormed
          ((g.addLabelToGraph lab).addCo lab.pos pred lab.addr) := by
  have hx := hn.extends h.graphInv
  have hp := hn.places h.graphInv h.complete hw pred
  have hnew := (hx.isNewest h.graphInv).of_eq hp.insertionOrder
  obtain ⟨m, hself⟩ := hp.forth hx.self
  refine ⟨hnew, fun c => ⟨_, hself, hw⟩, fun r hr => ?_⟩
  obtain ⟨rLab, hr, hread, haddr⟩ := hr
  obtain ⟨m', hr'⟩ := hp.forth (hx.old hr)
  exact ⟨_, _, hr', hread, hself, hw, haddr.symm, hnew r (isSome_of_eq hr)⟩

end SCChecker

/-! ## Steps -/

namespace RunStep

/-- **No step of a run makes a cycle.** -/
theorem sound (hs : RunStep env g g' new) (h : Sound g) : Sound g' := by
  cases hs with
  | addLabel hn hm hk => exact h.addLabelToGraph hn hm hk
  | optional hn hk =>
    refine h.addLabelToGraph hn ?_ ?_
    · rw [EventLabel.isMemAccess, hk]
      rfl
    · rw [hk]
      decide
  | createThread hn hk hstep => exact h.handleThreadCreate hn hk hstep
  | join hn hk hstep => exact h.handleThreadJoin hn hk hstep
  | block hb ha => exact h.blockThread hb (.inl ha)
  | replace hb hlast hpos hrem hm hk => exact h.blockThread hb (.inr ⟨_, hlast, hpos, hrem⟩)
  | unblock hstep => exact h.unblockThread hstep
  | load hn hread hsrc hmax => exact (h.load hn hread hsrc hmax).1
  | blockLoad hn hread hb hpos => exact h.blockLoad hn hread hb hpos
  | store hn hw hloads => exact h.store hn hw
  | storeRMW hn hw hr hread haddr hrf hnext hloads =>
    exact h.storeRMW hn hw hr hread haddr hrf hnext
  | inPlace hcan hr hmax => exact h.revisitInPlace hcan hr hmax

/-- **A run leaves alone what revisits are about.** -/
theorem keeps (hs : RunStep env g g' new) (h : Sound g) :
    Keeps (Chosen g) g g' := by
  cases hs with
  | addLabel hn hm hk => exact (hn.extends h.graphInv).keeps
  | optional hn hk => exact (hn.extends h.graphInv).keeps
  | createThread hn _ hstep => exact keeps_handleThreadCreate h hn hstep
  | join hn hk hstep => exact keeps_handleThreadJoin h hn hstep
  | block hb ha =>
    rw [blockThread_eq_add h.graphInv.threaded.slots.seated ha.index]
    exact ((hb.newLabel ha).extends h.graphInv).keeps
  | @replace bLab lab hb hlast hpos hrem hm hk =>
    rw [blockThread_eq_replace hlast hpos]
    have hlab := (getEventLabel_of_last h.graphInv hlast).1
    exact (keeps_replace h.graphInv hlast hrem hb hpos.symm).mono fun _ he => he.ne hlab hm hk
  | unblock hstep => exact keeps_unblockThread h hstep
  | load hn hread hsrc hmax =>
    obtain ⟨-, hload, -⟩ := h.load hn hread hsrc hmax
    exact (hn.extends h.graphInv).keeps.trans hload.keeps fun _ _ => trivial
  | @blockLoad lab bLab hn hread hb hpos =>
    have hx := hn.extends h.graphInv
    have hlast : (g.addLabelToGraph lab).getLastThreadLabel bLab.pos.thread =
        some (stamped g lab) := by
      rw [hpos]
      exact getLastThreadLabel_of_next hx.self hx.next_eq_none
    rw [blockThread_eq_replace hlast hpos.symm]
    refine hx.keeps.trans (keeps_replace (h.graphInv.addLabelToGraph hn h.complete) hlast
      (hn.removable hread) hb hpos) ?_
    rintro e ⟨l, hl, -⟩ rfl
    rw [hx.new] at hl
    cases hl
  | store hn hw hloads =>
    exact (hn.extends h.graphInv).keeps.trans
      (hn.places h.graphInv h.complete hw _).keeps fun _ => id
  | storeRMW hn hw hr hread haddr hrf hnext hloads =>
    exact (hn.extends h.graphInv).keeps.trans
      (hn.places h.graphInv h.complete hw _).keeps fun _ => id
  | inPlace hcan hr hmax =>
    exact (hcan.revisited env h.graphInv h.complete).keeps h.graphInv

/-- **What a run leaves for later goes back to its last label.** -/
theorem pushes (hs : RunStep env g g' new) (h : Sound g) :
    new = [] ∨ ∃ x, IsNewest x g g' ∧ ∀ i ∈ new, i.newest = x ∧ i.WellFormed g' := by
  cases hs with
  | addLabel hn hm hk => exact .inl rfl
  | @optional lab hn hk =>
    have hx := hn.extends h.graphInv
    refine .inr ⟨lab.pos, hx.isNewest h.graphInv, fun i hi => ?_⟩
    obtain rfl := List.mem_singleton.1 hi
    exact ⟨rfl, _, hx.self, hk⟩
  | createThread hn hk hstep => exact .inl rfl
  | join hn hk hstep => exact .inl rfl
  | block hb ha => exact .inl rfl
  | replace hb hlast hpos hrem hm hk => exact .inl rfl
  | unblock hstep => exact .inl rfl
  | @load lab w rfs hn hread hsrc hmax =>
    have hx := hn.extends h.graphInv
    obtain ⟨-, hload, hsuf⟩ := h.load hn hread hsrc hmax
    have hnew := (hx.isNewest h.graphInv).of_eq hload.insertionOrder
    refine .inr ⟨lab.pos, hnew, fun i hi => ?_⟩
    obtain ⟨v, hv, rfl⟩ := List.mem_map.1 hi
    obtain ⟨l, hl, hread', haddr⟩ := hload.read
    have hsrcv := hsrc v (List.mem_cons_of_mem _ (hsuf.subset hv))
    refine ⟨rfl, l, hl, hread', hload.source (hsrcv.imp_right ?_) haddr, hsrcv.imp_right ?_⟩
    · rintro ⟨wLab, hw, hww, hwa⟩
      exact ⟨wLab, hx.old hw, hww, hwa⟩
    · rintro ⟨wLab, hw, -, -⟩
      exact hnew v (isSome_of_eq hw)
  | blockLoad hn hread hb hpos => exact .inl rfl
  | @store lab cos loads hn hw hloads =>
    obtain ⟨hnew, hcos, hback⟩ := wellFormed_of_store h hn hw (g.coMax lab.addr)
    refine .inr ⟨lab.pos, hnew, fun i hi => ?_⟩
    rcases List.mem_append.1 hi with hi | hi
    · obtain ⟨r, hr, rfl⟩ := List.mem_map.1 hi
      exact ⟨rfl, hback r (hloads r hr)⟩
    · obtain ⟨c, -, rfl⟩ := List.mem_map.1 hi
      exact ⟨rfl, hcos c⟩
  | @storeRMW lab rLab r pred loads hn hw hr hread haddr hrf hnext hloads =>
    obtain ⟨hnew, -, hback⟩ := wellFormed_of_store h hn hw pred
    refine .inr ⟨lab.pos, hnew, fun i hi => ?_⟩
    obtain ⟨r', hr', rfl⟩ := List.mem_map.1 hi
    exact ⟨rfl, hback r' (hloads r' hr')⟩
  | inPlace hcan hr hmax => exact .inl rfl

end RunStep

end GenMC
