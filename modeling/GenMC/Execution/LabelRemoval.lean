import GenMC.Execution.Accesses
import GenMC.Execution.Copy

/-!
# Removing the last label of a thread

A label is referred to from many places: reads point to it, writes and the initializer list it as
a reader, coherence and the access lists contain it, begins and ends of threads point to their
creation and their join, and method calls are linked by linearization edges.  `removeLast` has one
clean-up for each kind of label.  This file says exactly when these clean-ups take out every
reference to the removed label and nothing else.

* `CrossReferenced` is the well-formedness the clean-ups rely on: references lead to labels of the
  right kind, and what is recorded on both sides agrees.
* `getEventLabel_removeLast` says what `removeLast` does to the labels of *any* graph.
* `RemovedOnly` is what a removal should do, and `RemovalSafe` what it needs for that: the label is
  not in coherence and has no linearization edges, a creation is made by a thread without a
  creation of its own and its child does not point to it, and a join is the one recorded at the end
  of its child.  `removedOnly_removeLast_iff` is the equivalence.
* Unblocking a thread removes a block, which is always safe (`removedOnly_unblockThread`).
-/

set_option autoImplicit false

namespace GenMC

namespace EventLabel

/-- A label that keeps only its references to some labels. -/
def keepPointers (keep : Event → Bool) (lab : EventLabel) : EventLabel :=
  { lab with
    rf := lab.rf.filter keep
    readers := lab.readers.filter keep
    create := lab.create.filter keep
    parentJoin := lab.parentJoin.filter keep
    linPreds := lab.linPreds.filter keep
    linSuccs := lab.linSuccs.filter keep }

/-- All references that are left are among those to be kept. -/
theorem keep_of_mem_pointers {keep : Event → Bool} {lab : EventLabel} {e : Event}
    (he : e ∈ (lab.keepPointers keep).pointers) : keep e = true := by
  simp only [pointers, keepPointers, List.mem_append, Option.mem_toList,
    Option.filter_eq_some_iff, List.mem_filter] at he
  tauto

/-- A label without its references to the label at `x`. -/
def forget (x : Event) (lab : EventLabel) : EventLabel := lab.keepPointers (· ≠ x)

theorem notMem_pointers_forget (x : Event) (lab : EventLabel) : x ∉ (lab.forget x).pointers :=
  fun h => of_decide_eq_true (keep_of_mem_pointers h) rfl

end EventLabel

namespace ExecutionGraph

variable {g : ExecutionGraph}

/-! ## References between labels -/

/-- References lead to labels of the right kind, and two-way references agree. -/
structure CrossReferenced (g : ExecutionGraph) : Prop where
  slots : g.Slots
  init : ∃ lab, g.getEventLabel Event.getInit = some lab ∧ lab.kind = .Init
  order : g.insertionOrder.Nodup
  inserted : ∀ e, e ∈ g.insertionOrder ↔ (g.getEventLabel e).isSome
  rf : ∀ r rLab w, g.getEventLabel r = some rLab → rLab.rf = some w → rLab.isRead = true ∧
    ((w = Event.getInit ∧ r ∈ g.initReaders rLab.addr) ∨
      ∃ wLab, g.getEventLabel w = some wLab ∧ wLab.isWrite = true ∧ r ∈ wLab.readers)
  readers : ∀ w wLab r, g.getEventLabel w = some wLab → r ∈ wLab.readers → wLab.isWrite = true ∧
    ∃ rLab, g.getEventLabel r = some rLab ∧ rLab.isRead = true ∧ rLab.rf = some w
  initReaders : ∀ a, ∀ r ∈ g.initReaders a, ∃ rLab, g.getEventLabel r = some rLab ∧
    rLab.isRead = true ∧ rLab.addr = a ∧ rLab.rf = some Event.getInit
  co : ∀ a, ∀ w ∈ g.co a, ∃ wLab, g.getEventLabel w = some wLab ∧ wLab.isWrite = true ∧
    wLab.addr = a
  accesses : ∀ a, ∀ e ∈ g.accesses a, ∃ lab, g.getEventLabel e = some lab ∧
    lab.isRegistered = true ∧ lab.addr = a
  create : ∀ b bLab c, g.getEventLabel b = some bLab → bLab.create = some c → b.index = 0 ∧
    bLab.isThreadStart = true ∧ ∃ cLab, g.getEventLabel c = some cLab ∧
      cLab.kind = .ThreadCreate ∧ cLab.childId = b.thread ∧ c.thread ≠ b.thread
  parentJoin : ∀ e eLab j, g.getEventLabel e = some eLab → eLab.parentJoin = some j →
    eLab.kind = .ThreadFinish ∧ g.getLastThreadLabel e.thread = some eLab ∧
      ∃ jLab, g.getEventLabel j = some jLab ∧ jLab.kind = .ThreadJoin ∧ jLab.childId = e.thread
  linPreds : ∀ b bLab e, g.getEventLabel b = some bLab → e ∈ bLab.linPreds →
    bLab.kind = .MethodBegin ∧ ∃ eLab, g.getEventLabel e = some eLab ∧ eLab.kind = .MethodEnd ∧
      b ∈ eLab.linSuccs
  linSuccs : ∀ e eLab b, g.getEventLabel e = some eLab → b ∈ eLab.linSuccs →
    eLab.kind = .MethodEnd ∧ ∃ bLab, g.getEventLabel b = some bLab ∧ bLab.kind = .MethodBegin ∧
      e ∈ bLab.linPreds

/-- `g'` is `g` without the label at `x` and the references to it. -/
structure RemovedOnly (g g' : ExecutionGraph) (x : Event) : Prop where
  label : ∀ e, g'.getEventLabel e =
    if e = x then none else (g.getEventLabel e).map (EventLabel.forget x)
  threads : g'.getNumThreads = g.getNumThreads
  insertionOrder : g'.insertionOrder = g.insertionOrder.filter (· ≠ x)
  co : ∀ a, g'.co a = (g.co a).filter (· ≠ x)
  initReaders : ∀ a, g'.initReaders a = (g.initReaders a).filter (· ≠ x)
  accesses : ∀ a, g'.accesses a = (g.accesses a).filter (· ≠ x)
  initVals : g'.initVals = g.initVals
  timestamp : g'.timestamp = g.timestamp

/-- Nothing refers to the removed label. -/
theorem RemovedOnly.no_reference {g' : ExecutionGraph} {x : Event} (h : RemovedOnly g g' x) :
    (∀ e lab, g'.getEventLabel e = some lab → x ∉ lab.pointers) ∧ x ∉ g'.insertionOrder ∧
      ∀ a, x ∉ g'.co a ∧ x ∉ g'.initReaders a ∧ x ∉ g'.accesses a := by
  refine ⟨fun e lab hlab => ?_, ?_, fun a => ⟨?_, ?_, ?_⟩⟩
  · rw [h.label] at hlab
    split at hlab
    · cases hlab
    · obtain ⟨lab₀, -, rfl⟩ := Option.map_eq_some_iff.1 hlab
      exact lab₀.notMem_pointers_forget x
  · rw [h.insertionOrder]
    simp
  · rw [h.co]
    simp
  · rw [h.initReaders]
    simp
  · rw [h.accesses]
    simp

/-! ## What `removeLast` does to the labels of a graph -/

/-- What removing `lab` does to another label. -/
def unlinked (g : ExecutionGraph) (lab r : EventLabel) : EventLabel :=
  { r with
    rf := if lab.isWrite = true ∧ r.pos ∈ lab.readers then none else r.rf
    readers := if lab.isRead = true ∧ r.pos ≠ Event.getInit ∧ lab.rf = some r.pos then
        r.readers.filter (· ≠ lab.pos)
      else r.readers
    create := if lab.kind = .ThreadCreate ∧
        (g.getFirstThreadLabel lab.pos.thread).any (·.pos = r.pos) then none
      else r.create
    parentJoin := if lab.kind = .ThreadJoin ∧
        (g.getLastThreadLabel lab.childId).any (fun e => e.kind = .ThreadFinish ∧ e.pos = r.pos)
          then none
      else r.parentJoin }

theorem getEventLabel_unlinkLabel (lab : EventLabel) (e : Event) :
    (g.unlinkLabel lab).getEventLabel e = (g.getEventLabel e).map fun r =>
      { r with
        rf := if lab.isWrite = true ∧ r.pos ∈ lab.readers then none else r.rf
        readers := if lab.isRead = true ∧ r.pos ≠ Event.getInit ∧ lab.rf = some r.pos then
            r.readers.filter (· ≠ lab.pos)
          else r.readers } := by
  rw [unlinkLabel]
  by_cases hread : lab.isRead = true
  · have hwrite : lab.isWrite = false := EventLabelKind.not_isWrite_of_isRead hread
    rw [hwrite, if_pos hread, if_neg Bool.false_ne_true]
    cases hrf : lab.rf with
    | none => simp
    | some w =>
      simp only [getEventLabel_removeReader]
      refine Option.map_congr fun r _ => ?_
      simp only [hread, Bool.false_eq_true, false_and, if_false, true_and, Option.some.injEq,
        eq_comm (a := w)]
  · rw [if_neg hread]
    by_cases hwrite : lab.isWrite = true
    · rw [if_pos hwrite, getEventLabel_mapLabels]
      refine Option.map_congr fun r _ => ?_
      simp only [hread, hwrite, true_and]
      split
      · rfl
      · rfl
    · simp [hread, hwrite]

/-- Positions and kinds of labels decide which ones are the first and the last of a thread. -/
theorem any_getFirstThreadLabel {g' : ExecutionGraph} {f : EventLabel → EventLabel}
    (hlabel : ∀ e, g'.getEventLabel e = (g.getEventLabel e).map f)
    (hf : ∀ r, (f r).pos = r.pos ∧ (f r).kind = r.kind) (t : ℕ) (p : Event) :
    (g'.getFirstThreadLabel t).any (·.pos = p) = (g.getFirstThreadLabel t).any (·.pos = p) := by
  rw [getFirstThreadLabel, getFirstThreadLabel, hlabel]
  cases g.getEventLabel ⟨t, 0⟩ with
  | none => rfl
  | some b =>
    have hstart : (f b).isThreadStart = b.isThreadStart :=
      congrArg EventLabelKind.isThreadStart (hf b).2
    rw [Option.map_some, Option.filter_some, Option.filter_some, hstart]
    split
    · simp [(hf b).1]
    · rfl

theorem getLastThreadLabel_congr {g' : ExecutionGraph} {f : EventLabel → EventLabel}
    (hlabel : ∀ e, g'.getEventLabel e = (g.getEventLabel e).map f) (t : ℕ) :
    g'.getLastThreadLabel t = (g.getLastThreadLabel t).map f := by
  have hsize : g'.getThreadSize t = g.getThreadSize t :=
    getThreadSize_congr (fun e => by rw [hlabel, Option.isSome_map]) t
  have hlast : ∀ o : ExecutionGraph,
      o.getLastThreadLabel t = o.getEventLabel ⟨t, o.getThreadSize t - 1⟩ := fun o =>
    List.getLast?_eq_getElem?
  rw [hlast, hlast, hsize, hlabel]

theorem any_getLastThreadLabel {g' : ExecutionGraph} {f : EventLabel → EventLabel}
    (hlabel : ∀ e, g'.getEventLabel e = (g.getEventLabel e).map f)
    (hf : ∀ r, (f r).pos = r.pos ∧ (f r).kind = r.kind) (t : ℕ) (p : Event) :
    (g'.getLastThreadLabel t).any (fun e => e.kind = .ThreadFinish ∧ e.pos = p) =
      (g.getLastThreadLabel t).any (fun e => e.kind = .ThreadFinish ∧ e.pos = p) := by
  rw [getLastThreadLabel_congr hlabel]
  cases g.getLastThreadLabel t with
  | none => rfl
  | some e => simp [(hf e).1, (hf e).2]

theorem mapLabels_of_eq {f : EventLabel → EventLabel} (h : ∀ r, f r = r) : g.mapLabels f = g := by
  rw [show f = id from funext h, mapLabels_id]

/-- The clean-up for a creation, as a change of all labels. -/
theorem clearCreate_eq (lab : EventLabel) (o : ExecutionGraph) :
    (if lab.kind = .ThreadCreate then
      match o.getFirstThreadLabel lab.pos.thread with
      | none => o
      | some b => o.modify b.pos fun b => { b with create := none }
    else o) = o.mapLabels fun r =>
      { r with
        create := if lab.kind = .ThreadCreate ∧
            (o.getFirstThreadLabel lab.pos.thread).any (·.pos = r.pos) then none
          else r.create } := by
  by_cases hk : lab.kind = .ThreadCreate
  · rw [if_pos hk]
    cases o.getFirstThreadLabel lab.pos.thread with
    | none => exact (mapLabels_of_eq fun r => by simp).symm
    | some b =>
      refine congrArg o.mapLabels (funext fun r => ?_)
      by_cases hr : r.pos = b.pos
      · simp [hk, hr]
      · simp [hr, Ne.symm hr]
  · rw [if_neg hk]
    exact (mapLabels_of_eq fun r => by simp [hk]).symm

/-- The clean-up for a join, as a change of all labels. -/
theorem clearJoin_eq (lab : EventLabel) (o : ExecutionGraph) :
    (if lab.kind = .ThreadJoin then
      match o.getLastThreadLabel lab.childId with
      | none => o
      | some e =>
        if e.kind = .ThreadFinish then o.modify e.pos fun e => { e with parentJoin := none } else o
    else o) = o.mapLabels fun r =>
      { r with
        parentJoin := if lab.kind = .ThreadJoin ∧ (o.getLastThreadLabel lab.childId).any
            (fun e => e.kind = .ThreadFinish ∧ e.pos = r.pos) then none
          else r.parentJoin } := by
  by_cases hk : lab.kind = .ThreadJoin
  · rw [if_pos hk]
    cases o.getLastThreadLabel lab.childId with
    | none => exact (mapLabels_of_eq fun r => by simp).symm
    | some e =>
      by_cases he : e.kind = .ThreadFinish
      · simp only [if_pos he]
        refine congrArg o.mapLabels (funext fun r => ?_)
        by_cases hr : r.pos = e.pos
        · simp [hk, he, hr]
        · simp [hr, Ne.symm hr]
      · simp only [if_neg he]
        exact (mapLabels_of_eq fun r => by simp [he]).symm
  · rw [if_neg hk]
    exact (mapLabels_of_eq fun r => by simp [hk]).symm

/-- `removeLast` changes all labels as `unlinked` says, and drops the last one of the thread. -/
theorem removeLast_eq_unlinked {t : ℕ} {lab : EventLabel}
    (hlast : g.getLastThreadLabel t = some lab) :
    ∃ o : ExecutionGraph, (∀ e, o.getEventLabel e = (g.getEventLabel e).map (g.unlinked lab)) ∧
      o.insertionOrder = g.insertionOrder ∧ o.coherence = g.coherence ∧
      (∀ a, o.initReaders a = (g.unlinkLabel lab).initReaders a) ∧ o.initVals = g.initVals ∧
      o.timestamp = g.timestamp ∧ o.getNumThreads = g.getNumThreads ∧
      g.removeLast t =
        { o with
          insertionOrder := o.insertionOrder.erase lab.pos
          events := o.events.modify t List.dropLast } := by
  obtain ⟨o₃, ho₃⟩ : ∃ o, o = if lab.isMemAccess || lab.isFree then
      { g.unlinkLabel lab with
        accessMap := Function.update (g.unlinkLabel lab).accessMap lab.addr
          (some ((((g.unlinkLabel lab).accessMap lab.addr).getD []).filter (· ≠ lab.pos))) }
    else g.unlinkLabel lab := ⟨_, rfl⟩
  obtain ⟨o₄, ho₄⟩ : ∃ o, o = if lab.kind = .ThreadCreate then
      match o₃.getFirstThreadLabel lab.pos.thread with
      | none => o₃
      | some b => o₃.modify b.pos fun b => { b with create := none }
    else o₃ := ⟨_, rfl⟩
  obtain ⟨o₅, ho₅⟩ : ∃ o, o = if lab.kind = .ThreadJoin then
      match o₄.getLastThreadLabel lab.childId with
      | none => o₄
      | some e =>
        if e.kind = .ThreadFinish then o₄.modify e.pos fun e => { e with parentJoin := none }
        else o₄
    else o₄ := ⟨_, rfl⟩
  have heq : g.removeLast t =
      { o₅ with
        insertionOrder := o₅.insertionOrder.erase lab.pos
        events := o₅.events.modify t List.dropLast } := by
    rw [removeLast, hlast]
    subst ho₅ ho₄ ho₃
    rfl
  rw [clearCreate_eq] at ho₄
  rw [clearJoin_eq] at ho₅
  obtain ⟨accesses, hacc⟩ : ∃ accesses, o₃ = { g.unlinkLabel lab with accessMap := accesses } := by
    rw [ho₃]
    split
    · exact ⟨_, rfl⟩
    · exact ⟨_, rfl⟩
  have hlabel₃ : ∀ e, o₃.getEventLabel e = _ := fun e =>
    (congrArg (·.getEventLabel e) hacc).trans (getEventLabel_unlinkLabel lab e)
  have hfirst := any_getFirstThreadLabel hlabel₃ (fun _ => ⟨rfl, rfl⟩) lab.pos.thread
  have hlabel₄ : ∀ e, o₄.getEventLabel e = _ := fun e =>
    (congrArg (·.getEventLabel e) ho₄).trans (getEventLabel_mapLabels _ e)
  have hlast' := fun p => (any_getLastThreadLabel hlabel₄ (fun _ => ⟨rfl, rfl⟩) lab.childId p).trans
    (any_getLastThreadLabel hlabel₃ (fun _ => ⟨rfl, rfl⟩) lab.childId p)
  obtain ⟨hio, hco⟩ := unlinkLabel_frame (g := g) lab
  refine ⟨o₅, fun e => ?_, ?_, ?_, fun a => ?_, ?_, ?_, ?_, heq⟩
  · rw [ho₅, getEventLabel_mapLabels, hlabel₄, hlabel₃, Option.map_map, Option.map_map]
    refine Option.map_congr fun r _ => ?_
    simp only [Function.comp_apply, hfirst, hlast', unlinked]
  · rw [ho₅, ho₄, hacc]
    exact hio
  · rw [ho₅, ho₄, hacc]
    exact hco
  · rw [ho₅, ho₄, hacc]
    rfl
  · rw [ho₅, ho₄, hacc]
    exact frame_unlinkLabel (·.initVals) (fun _ _ => rfl) (fun _ _ => rfl) lab
  · rw [ho₅, ho₄, hacc]
    exact frame_unlinkLabel (·.timestamp) (fun _ _ => rfl) (fun _ _ => rfl) lab
  · rw [ho₅, ho₄, hacc, getNumThreads_mapLabels, getNumThreads_mapLabels]
    exact frame_unlinkLabel (·.getNumThreads) (fun _ _ => getNumThreads_mapLabels _)
      (fun _ _ => rfl) lab

/-- **What `removeLast` leaves**: all labels but the last one of the thread. -/
theorem getEventLabel_removeLast_eq {t : ℕ} {lab : EventLabel}
    (hlast : g.getLastThreadLabel t = some lab) (e : Event) :
    (g.removeLast t).getEventLabel e =
      if e.thread = t ∧ e.index + 1 = g.getThreadSize t then none
      else (g.getEventLabel e).map (g.unlinked lab) := by
  obtain ⟨o, hlabel, -, -, -, -, -, -, heq⟩ := removeLast_eq_unlinked hlast
  have hlen : (o.events.getD t []).length = g.getThreadSize t :=
    getThreadSize_congr (fun e => by rw [hlabel, Option.isSome_map]) t
  rw [heq, ← hlabel]
  refine (getElem?_modify_dropLast o.events t e).trans ?_
  rw [hlen]
  rfl

theorem getNumThreads_removeLast (t : ℕ) : (g.removeLast t).getNumThreads = g.getNumThreads := by
  cases hlast : g.getLastThreadLabel t with
  | none => rw [removeLast, hlast]
  | some lab =>
    obtain ⟨o, -, -, -, -, -, -, hnum, heq⟩ := removeLast_eq_unlinked hlast
    rw [heq, ← hnum]
    exact List.length_modify ..

/-- The thread is shorter by one label. -/
theorem getThreadSize_removeLast {t : ℕ} {lab : EventLabel}
    (hlast : g.getLastThreadLabel t = some lab) :
    (g.removeLast t).getThreadSize t + 1 = g.getThreadSize t := by
  obtain ⟨hsize, hlab⟩ := getLastThreadLabel_eq_some.1 hlast
  obtain ⟨o, hlabel, -, -, -, -, -, hnum, heq⟩ := removeLast_eq_unlinked hlast
  have hlen : o.getThreadSize t = g.getThreadSize t :=
    getThreadSize_congr (fun e => by rw [hlabel, Option.isSome_map]) t
  have hlt : t < o.events.length := (lt_getNumThreads_of_getEventLabel hlab).trans_eq hnum.symm
  have hdrop : (g.removeLast t).getThreadSize t = ((o.events.getD t []).dropLast).length := by
    rw [heq]
    show ((o.events.modify t List.dropLast).getD t []).length = _
    rw [getD_modify, if_pos ⟨rfl, hlt⟩]
  rw [getThreadSize] at hlen
  rw [hdrop, List.length_dropLast, hlen]
  omega

section Removal

variable {t : ℕ} {lab : EventLabel}

/-- The last label of a thread sits where it says. -/
theorem CrossReferenced.getEventLabel_last (h : g.CrossReferenced)
    (hlast : g.getLastThreadLabel t = some lab) : g.getEventLabel lab.pos = some lab := by
  obtain ⟨-, hlab⟩ := getLastThreadLabel_eq_some.1 hlast
  rwa [← h.slots _ lab hlab] at hlab

theorem CrossReferenced.ne_init (h : g.CrossReferenced) {e : Event} {r : EventLabel}
    (hr : g.getEventLabel e = some r) (hk : r.kind ≠ .Init) : e ≠ Event.getInit := by
  rintro rfl
  obtain ⟨r', hr', hk'⟩ := h.init
  rw [hr] at hr'
  exact hk (Option.some.inj hr' ▸ hk')

theorem kind_ne_init_of_isWrite {r : EventLabel} (hw : r.isWrite = true) : r.kind ≠ .Init := by
  intro hk
  rw [EventLabel.isWrite, hk] at hw
  exact absurd hw (by decide)

theorem CrossReferenced.getEventLabel_removeLast (h : g.CrossReferenced)
    (hlast : g.getLastThreadLabel t = some lab) (e : Event) :
    (g.removeLast t).getEventLabel e =
      if e = lab.pos then none else (g.getEventLabel e).map (g.unlinked lab) := by
  obtain ⟨hsize, hlab⟩ := getLastThreadLabel_eq_some.1 hlast
  have hpos : (e.thread = t ∧ e.index + 1 = g.getThreadSize t) ↔ e = lab.pos := by
    rw [h.slots _ lab hlab, Event.ext_iff']
    refine and_congr_right fun _ => ?_
    show _ ↔ e.index = g.getThreadSize t - 1
    omega
  simp only [getEventLabel_removeLast_eq hlast, hpos]

/-- Labels of different kinds are at different positions. -/
theorem pos_ne_of_kind (hlab : g.getEventLabel lab.pos = some lab) {e : Event} {r : EventLabel}
    (hr : g.getEventLabel e = some r) (hk : r.kind ≠ lab.kind) : e ≠ lab.pos := by
  rintro rfl
  exact hk (Option.some.inj (hr.symm.trans hlab) ▸ rfl)

variable (h : g.CrossReferenced) (hlab : g.getEventLabel lab.pos = some lab)
  {e : Event} {r : EventLabel} (hr : g.getEventLabel e = some r)
include h hlab

theorem CrossReferenced.initReaders_unlinkLabel (a : SAddr) :
    (g.unlinkLabel lab).initReaders a = (g.initReaders a).filter (· ≠ lab.pos) := by
  rw [initReaders_unlinkLabel_eq]
  split
  · rfl
  · rename_i hne
    refine (List.filter_eq_self.2 fun r hr => decide_eq_true ?_).symm
    rintro rfl
    obtain ⟨rLab, hrLab, hread, haddr, hrf⟩ := h.initReaders a _ hr
    obtain rfl := Option.some.inj (hlab.symm.trans hrLab)
    exact hne ⟨hread, hrf, haddr.symm⟩

include hr

theorem CrossReferenced.rf_unlinked (hk : lab.kind ≠ .Init) :
    (g.unlinked lab r).rf = r.rf.filter (· ≠ lab.pos) := by
  have hpos := h.slots e r hr
  show (if lab.isWrite = true ∧ r.pos ∈ lab.readers then none else r.rf) = _
  split
  · rename_i hcond
    obtain ⟨-, r', hr', -, hrf⟩ := h.readers _ _ _ hlab hcond.2
    rw [hpos] at hr'
    obtain rfl := Option.some.inj (hr.symm.trans hr')
    rw [hrf, Option.filter_some, if_neg (by simp)]
  · rename_i hcond
    cases hrf : r.rf with
    | none => rfl
    | some w =>
      have hne : w ≠ lab.pos := by
        rintro rfl
        obtain ⟨-, ⟨hinit, -⟩ | ⟨wLab, hwLab, hwrite, hmem⟩⟩ := h.rf e r _ hr hrf
        · exact h.ne_init hlab hk hinit
        · obtain rfl := Option.some.inj (hlab.symm.trans hwLab)
          exact hcond ⟨hwrite, hpos ▸ hmem⟩
      rw [Option.filter_some, if_pos (decide_eq_true hne)]

theorem CrossReferenced.readers_unlinked :
    (g.unlinked lab r).readers = r.readers.filter (· ≠ lab.pos) := by
  have hpos := h.slots e r hr
  show (if lab.isRead = true ∧ r.pos ≠ Event.getInit ∧ lab.rf = some r.pos then _ else _) = _
  split
  · rfl
  · rename_i hcond
    refine (List.filter_eq_self.2 fun x hx => decide_eq_true ?_).symm
    rintro rfl
    obtain ⟨hwrite, r', hr', hread, hrf⟩ := h.readers e r _ hr hx
    obtain rfl := Option.some.inj (hlab.symm.trans hr')
    rw [hpos] at hcond
    exact hcond ⟨hread, h.ne_init hr (kind_ne_init_of_isWrite hwrite), hrf⟩

omit hlab in
/-- The create pointer survives, unless it is that of the begin that `removeLast` goes to. -/
theorem CrossReferenced.create_unlinked :
    (g.unlinked lab r).create =
      if lab.kind = .ThreadCreate ∧ r.isThreadStart = true ∧ e = ⟨lab.pos.thread, 0⟩ then none
      else r.create := by
  have hfirst : (g.getFirstThreadLabel lab.pos.thread).any (·.pos = r.pos) = true ↔
      r.isThreadStart = true ∧ e = ⟨lab.pos.thread, 0⟩ := by
    rw [h.slots e r hr, getFirstThreadLabel]
    refine ⟨fun hany => ?_, ?_⟩
    · obtain ⟨b, hb, hpos⟩ := (Option.any_eq_true _ _).1 hany
      obtain ⟨hb, hstart⟩ := Option.filter_eq_some_iff.1 hb
      obtain rfl : e = ⟨lab.pos.thread, 0⟩ :=
        (of_decide_eq_true hpos).symm.trans (h.slots _ b hb)
      exact ⟨Option.some.inj (hb.symm.trans hr) ▸ hstart, rfl⟩
    · rintro ⟨hstart, rfl⟩
      rw [hr, Option.filter_some, if_pos hstart]
      exact decide_eq_true (h.slots _ r hr)
  show (if _ ∧ _ then none else r.create) = _
  simp only [hfirst]

omit hlab in
theorem CrossReferenced.map_pos_last_iff (c : ℕ) :
    (g.getLastThreadLabel c).map (·.pos) = some e ↔ g.getLastThreadLabel c = some r := by
  refine ⟨fun hmap => ?_, fun hlast => ?_⟩
  · obtain ⟨b, hb, hpos⟩ := Option.map_eq_some_iff.1 hmap
    have hb' := h.getEventLabel_last hb
    rw [hpos, hr] at hb'
    rw [hb, Option.some.inj hb']
  · rw [hlast, Option.map_some, h.slots e r hr]

omit hlab in
/-- So does the join pointer, unless the removed join is one of the thread that ends here. -/
theorem CrossReferenced.parentJoin_unlinked :
    (g.unlinked lab r).parentJoin =
      if lab.kind = .ThreadJoin ∧ r.kind = .ThreadFinish ∧
        (g.getLastThreadLabel lab.childId).map (·.pos) = some e then none
      else r.parentJoin := by
  have hlast : (g.getLastThreadLabel lab.childId).any
      (fun e => e.kind = .ThreadFinish ∧ e.pos = r.pos) = true ↔
        r.kind = .ThreadFinish ∧ (g.getLastThreadLabel lab.childId).map (·.pos) = some e := by
    rw [h.map_pos_last_iff hr]
    refine ⟨fun hany => ?_, ?_⟩
    · obtain ⟨b, hb, hcond⟩ := (Option.any_eq_true _ _).1 hany
      obtain ⟨hk, hpos⟩ := of_decide_eq_true hcond
      have hb' := h.getEventLabel_last hb
      rw [hpos, h.slots e r hr, hr] at hb'
      obtain rfl := Option.some.inj hb'
      exact ⟨hk, hb⟩
    · rintro ⟨hk, hb⟩
      rw [hb]
      exact decide_eq_true ⟨hk, rfl⟩
  show (if _ ∧ _ then none else r.parentJoin) = _
  simp only [hlast]

end Removal

/-! ## Safe removals -/

/-- What a removal needs in order to take out the label and nothing else. -/
structure RemovalSafe (g : ExecutionGraph) (lab : EventLabel) : Prop where
  co : lab.pos ∉ g.co lab.addr
  ownBegin : lab.kind = .ThreadCreate → ∀ b, g.getFirstThreadLabel lab.pos.thread = some b →
    b.create = none
  childBegin : lab.kind = .ThreadCreate → ∀ b, g.getFirstThreadLabel lab.childId = some b →
    b.create ≠ some lab.pos
  join : lab.kind = .ThreadJoin → ∀ e, g.getLastThreadLabel lab.childId = some e →
    e.kind = .ThreadFinish → e.parentJoin = none ∨ e.parentJoin = some lab.pos
  linPreds : lab.linPreds = []
  linSuccs : lab.linSuccs = []

section Safe

variable {t : ℕ} {lab : EventLabel} (h : g.CrossReferenced)
  (hlab : g.getEventLabel lab.pos = some lab)
include h hlab

theorem CrossReferenced.forall_create_iff :
    (∀ e r, g.getEventLabel e = some r → e ≠ lab.pos →
      (g.unlinked lab r).create = r.create.filter (· ≠ lab.pos)) ↔
      (lab.kind = .ThreadCreate → ∀ b, g.getFirstThreadLabel lab.pos.thread = some b →
        b.create = none) ∧
      (lab.kind = .ThreadCreate → ∀ b, g.getFirstThreadLabel lab.childId = some b →
        b.create ≠ some lab.pos) := by
  have hbegin : lab.kind = .ThreadCreate → ∀ b : EventLabel, b.isThreadStart = true →
      b.kind ≠ lab.kind := by
    intro hk b hb heq
    rw [EventLabel.isThreadStart, heq, hk] at hb
    exact absurd hb (by decide)
  refine ⟨fun hall => ?_, ?_⟩
  · refine ⟨fun hk b hb => ?_, fun hk b hb hcreate => ?_⟩
    · obtain ⟨hb, hstart⟩ := Option.filter_eq_some_iff.1 hb
      have := hall _ b hb (pos_ne_of_kind hlab hb (hbegin hk b hstart))
      rw [h.create_unlinked hb, if_pos ⟨hk, hstart, rfl⟩] at this
      cases hc : b.create with
      | none => rfl
      | some c =>
        -- a thread does not create itself
        obtain ⟨-, -, cLab, -, -, -, hne⟩ := h.create _ b c hb hc
        rw [hc, Option.filter_some, if_pos] at this
        · cases this
        · exact decide_eq_true fun heq => hne (by rw [heq])
    · obtain ⟨hb, hstart⟩ := Option.filter_eq_some_iff.1 hb
      obtain ⟨-, -, cLab, -, -, -, hne⟩ := h.create _ b _ hb hcreate
      have := hall _ b hb (pos_ne_of_kind hlab hb (hbegin hk b hstart))
      rw [h.create_unlinked hb, if_neg, hcreate, Option.filter_some, if_neg (by simp)] at this
      · cases this
      · rintro ⟨-, -, heq⟩
        exact hne (congrArg Event.thread heq).symm
  · rintro ⟨hown, hchild⟩ e r hr hne
    rw [h.create_unlinked hr]
    split
    · rename_i hcond
      obtain ⟨hk, hstart, rfl⟩ := hcond
      have hfirst : g.getFirstThreadLabel lab.pos.thread = some r :=
        Option.filter_eq_some_iff.2 ⟨hr, hstart⟩
      rw [hown hk r hfirst]
      rfl
    · cases hc : r.create with
      | none => rfl
      | some c =>
        have hne' : c ≠ lab.pos := by
          rintro rfl
          obtain ⟨hindex, hstart, cLab, hcLab, hk, hchildId, -⟩ := h.create e r _ hr hc
          obtain rfl := Option.some.inj (hlab.symm.trans hcLab)
          refine hchild hk r (Option.filter_eq_some_iff.2 ⟨?_, hstart⟩) hc
          rw [← hr]
          exact congrArg g.getEventLabel (Event.ext_iff'.2 ⟨hchildId, hindex.symm⟩)
        rw [Option.filter_some, if_pos (decide_eq_true hne')]

theorem CrossReferenced.forall_parentJoin_iff :
    (∀ e r, g.getEventLabel e = some r → e ≠ lab.pos →
      (g.unlinked lab r).parentJoin = r.parentJoin.filter (· ≠ lab.pos)) ↔
      (lab.kind = .ThreadJoin → ∀ e, g.getLastThreadLabel lab.childId = some e →
        e.kind = .ThreadFinish → e.parentJoin = none ∨ e.parentJoin = some lab.pos) := by
  refine ⟨fun hall hk r hlast hfinish => ?_, fun hjoin e r hr hne => ?_⟩
  · have hr := h.getEventLabel_last hlast
    have := hall _ r hr (pos_ne_of_kind hlab hr (by rw [hfinish, hk]; decide))
    rw [h.parentJoin_unlinked hr,
      if_pos ⟨hk, hfinish, (h.map_pos_last_iff hr _).2 hlast⟩] at this
    cases hj : r.parentJoin with
    | none => exact .inl rfl
    | some j =>
      rw [hj, Option.filter_some] at this
      split at this
      · cases this
      · rename_i hne
        exact .inr (congrArg some (by simpa using hne))
  · rw [h.parentJoin_unlinked hr]
    split
    · rename_i hcond
      have hlast := (h.map_pos_last_iff hr _).1 hcond.2.2
      rcases hjoin hcond.1 r hlast hcond.2.1 with hj | hj
      · rw [hj]
        rfl
      · rw [hj, Option.filter_some, if_neg (by simp)]
    · rename_i hcond
      cases hj : r.parentJoin with
      | none => rfl
      | some j =>
        have hne' : j ≠ lab.pos := by
          rintro rfl
          obtain ⟨hfinish, hlast, jLab, hjLab, hk, hchild⟩ := h.parentJoin e r _ hr hj
          obtain rfl := Option.some.inj (hlab.symm.trans hjLab)
          exact hcond ⟨hk, hfinish, (h.map_pos_last_iff hr _).2 (hchild ▸ hlast)⟩
        rw [Option.filter_some, if_pos (decide_eq_true hne')]

theorem CrossReferenced.forall_linPreds_iff :
    (∀ e r, g.getEventLabel e = some r → e ≠ lab.pos →
      r.linPreds = r.linPreds.filter (· ≠ lab.pos)) ↔ lab.linSuccs = [] := by
  refine ⟨fun hall => List.eq_nil_iff_forall_not_mem.2 fun b hb => ?_, fun hnil e r hr _ => ?_⟩
  · obtain ⟨hk, bLab, hbLab, hkb, hmem⟩ := h.linSuccs _ lab b hlab hb
    have := hall b bLab hbLab (pos_ne_of_kind hlab hbLab (by rw [hk, hkb]; decide))
    rw [this] at hmem
    simp at hmem
  · refine (List.filter_eq_self.2 fun x hx => decide_eq_true ?_).symm
    rintro rfl
    obtain ⟨-, eLab, heLab, -, hmem⟩ := h.linPreds e r _ hr hx
    obtain rfl := Option.some.inj (hlab.symm.trans heLab)
    rw [hnil] at hmem
    cases hmem

theorem CrossReferenced.forall_linSuccs_iff :
    (∀ e r, g.getEventLabel e = some r → e ≠ lab.pos →
      r.linSuccs = r.linSuccs.filter (· ≠ lab.pos)) ↔ lab.linPreds = [] := by
  refine ⟨fun hall => List.eq_nil_iff_forall_not_mem.2 fun e he => ?_, fun hnil e r hr _ => ?_⟩
  · obtain ⟨hk, eLab, heLab, hke, hmem⟩ := h.linPreds _ lab e hlab he
    have := hall e eLab heLab (pos_ne_of_kind hlab heLab (by rw [hk, hke]; decide))
    rw [this] at hmem
    simp at hmem
  · refine (List.filter_eq_self.2 fun x hx => decide_eq_true ?_).symm
    rintro rfl
    obtain ⟨-, bLab, hbLab, -, hmem⟩ := h.linSuccs e r _ hr hx
    obtain rfl := Option.some.inj (hlab.symm.trans hbLab)
    rw [hnil] at hmem
    cases hmem

end Safe

section Removed

variable {t : ℕ} {lab : EventLabel} (h : g.CrossReferenced)
  (hlast : g.getLastThreadLabel t = some lab)
include h hlast

/-- The labels are as they should be if `unlinked` takes out the references and nothing else. -/
theorem CrossReferenced.label_removeLast_iff :
    (∀ e, (g.removeLast t).getEventLabel e =
      if e = lab.pos then none else (g.getEventLabel e).map (EventLabel.forget lab.pos)) ↔
      ∀ e r, g.getEventLabel e = some r → e ≠ lab.pos → g.unlinked lab r = r.forget lab.pos := by
  simp only [h.getEventLabel_removeLast hlast]
  refine ⟨fun hall e r hr hne => ?_, fun hall e => ?_⟩
  · have := hall e
    rw [if_neg hne, if_neg hne, hr] at this
    exact Option.some.inj this
  · split
    · rfl
    · rename_i hne
      exact Option.map_congr fun r hr => hall e r hr hne

/-- `removeLast` does not touch coherence. -/
theorem CrossReferenced.co_removeLast_iff :
    (∀ a, (g.removeLast t).co a = (g.co a).filter (· ≠ lab.pos)) ↔ lab.pos ∉ g.co lab.addr := by
  have hlab := h.getEventLabel_last hlast
  obtain ⟨o, -, -, hco, -, -, -, -, heq⟩ := removeLast_eq_unlinked hlast
  have hsame : ∀ a, (g.removeLast t).co a = g.co a := by
    intro a
    rw [heq]
    exact congrArg (fun m => (m a).getD []) hco
  simp only [hsame]
  refine ⟨fun hall hmem => ?_, fun hnot a => ?_⟩
  · rw [hall] at hmem
    simp at hmem
  · refine (List.filter_eq_self.2 fun w hw => decide_eq_true ?_).symm
    rintro rfl
    obtain ⟨wLab, hwLab, -, rfl⟩ := h.co a _ hw
    obtain rfl := Option.some.inj (hlab.symm.trans hwLab)
    exact hnot hw

theorem CrossReferenced.accesses_removeLast_eq (a : SAddr) :
    (g.removeLast t).accesses a = (g.accesses a).filter (· ≠ lab.pos) := by
  rw [accesses_removeLast hlast]
  split
  · rfl
  · rename_i hne
    refine (List.filter_eq_self.2 fun e he => decide_eq_true ?_).symm
    rintro rfl
    obtain ⟨r, hr, hreg, haddr⟩ := h.accesses a _ he
    obtain rfl := Option.some.inj ((h.getEventLabel_last hlast).symm.trans hr)
    exact hne (by rw [hreg, haddr]; simp)

/-- A safe removal takes out the label and the references to it. -/
theorem CrossReferenced.removedOnly (hk : lab.kind ≠ .Init) (hsafe : RemovalSafe g lab) :
    RemovedOnly g (g.removeLast t) lab.pos := by
  have hlab := h.getEventLabel_last hlast
  obtain ⟨o, -, hio, -, hinit, hvals, hstamp, hthreads, heq⟩ := removeLast_eq_unlinked hlast
  refine
    { label := (h.label_removeLast_iff hlast).2 fun e r hr hne => ?_
      threads := ?_
      insertionOrder := ?_
      co := (h.co_removeLast_iff hlast).2 hsafe.co
      initReaders := fun a => ?_
      accesses := h.accesses_removeLast_eq hlast
      initVals := ?_
      timestamp := ?_ }
  · rw [EventLabel.forget, EventLabel.keepPointers, ← h.rf_unlinked hlab hr hk,
      ← h.readers_unlinked hlab hr,
      ← (h.forall_create_iff hlab).2 ⟨hsafe.ownBegin, hsafe.childBegin⟩ e r hr hne,
      ← (h.forall_parentJoin_iff hlab).2 hsafe.join e r hr hne,
      ← (h.forall_linPreds_iff hlab).2 hsafe.linSuccs e r hr hne,
      ← (h.forall_linSuccs_iff hlab).2 hsafe.linPreds e r hr hne]
    rfl
  · rw [heq, ← hthreads]
    simp [getNumThreads]
  · rw [heq]
    show o.insertionOrder.erase lab.pos = _
    rw [hio, h.order.erase_eq_filter]
    exact List.filter_congr fun e _ => by rw [Bool.eq_iff_iff, bne_iff_ne, decide_eq_true_eq]
  · rw [← h.initReaders_unlinkLabel hlab, ← hinit, heq]
    rfl
  · rw [heq]
    exact hvals
  · rw [heq]
    exact hstamp

/-- A removal that takes out the label and the references to it is safe. -/
theorem CrossReferenced.removalSafe (hrem : RemovedOnly g (g.removeLast t) lab.pos) :
    RemovalSafe g lab := by
  have hlab := h.getEventLabel_last hlast
  have hall := (h.label_removeLast_iff hlast).1 hrem.label
  obtain ⟨hown, hchild⟩ := (h.forall_create_iff hlab).1 fun e r hr hne =>
    congrArg EventLabel.create (hall e r hr hne)
  exact
    { co := (h.co_removeLast_iff hlast).1 hrem.co
      ownBegin := hown
      childBegin := hchild
      join := (h.forall_parentJoin_iff hlab).1 fun e r hr hne =>
        congrArg EventLabel.parentJoin (hall e r hr hne)
      linPreds := (h.forall_linSuccs_iff hlab).1 fun e r hr hne =>
        congrArg EventLabel.linSuccs (hall e r hr hne)
      linSuccs := (h.forall_linPreds_iff hlab).1 fun e r hr hne =>
        congrArg EventLabel.linPreds (hall e r hr hne) }

omit hlast in
/-- A label that is neither in coherence, nor a creation, a join, or part of a method call. -/
theorem CrossReferenced.removalSafe_of_kind (hlab : g.getEventLabel lab.pos = some lab)
    (hco : lab.pos ∉ g.co lab.addr) (hcreate : lab.kind ≠ .ThreadCreate)
    (hjoin : lab.kind ≠ .ThreadJoin) (hbegin : lab.kind ≠ .MethodBegin)
    (hend : lab.kind ≠ .MethodEnd) : RemovalSafe g lab where
  co := hco
  ownBegin := fun hk => absurd hk hcreate
  childBegin := fun hk => absurd hk hcreate
  join := fun hk => absurd hk hjoin
  linPreds := List.eq_nil_iff_forall_not_mem.2 fun e he =>
    hbegin (h.linPreds _ lab e hlab he).1
  linSuccs := List.eq_nil_iff_forall_not_mem.2 fun b hb =>
    hend (h.linSuccs _ lab b hlab hb).1

end Removed

/-- **Removing the last label of a thread takes out the label and every reference to it, and
nothing else, exactly if the removal is safe.** -/
theorem removedOnly_removeLast_iff (g : ExecutionGraph) (h : g.CrossReferenced) (t : ℕ)
    (lab : EventLabel) (hlast : g.getLastThreadLabel t = some lab) (hk : lab.kind ≠ .Init) :
    RemovedOnly g (g.removeLast t) lab.pos ↔ RemovalSafe g lab :=
  ⟨h.removalSafe hlast, h.removedOnly hlast hk⟩

/-- The main thread creates a thread, which reads the initial value of a location. -/
def forkedLoad : ExecutionGraph :=
  { init with
    events :=
      [[{ initLabel with stamp := some 0 },
        { kind := .ThreadCreate, pos := ⟨0, 1⟩, stamp := some 1, childId := 1 }],
       [{ kind := .ThreadStart, pos := ⟨1, 0⟩, stamp := some 2, createId := ⟨0, 1⟩,
          create := some ⟨0, 1⟩ },
        { kind := .Read, pos := ⟨1, 1⟩, stamp := some 3, addr := 8, rf := some ⟨0, 0⟩ }]]
    insertionOrder := [⟨0, 0⟩, ⟨0, 1⟩, ⟨1, 0⟩, ⟨1, 1⟩]
    timestamp := 4
    coherence := fun a => if a = 8 then some [] else none
    initRfs := fun a => if a = 8 then some [⟨1, 1⟩] else none
    accessMap := fun a => if a = 8 then some [⟨1, 1⟩] else none }

theorem forkedLoad_crossReferenced : forkedLoad.CrossReferenced where
  slots := by decide
  init := ⟨_, rfl, rfl⟩
  order := by decide
  inserted := by
    have h : forkedLoad.insertionOrder.Perm forkedLoad.positions := by decide
    exact fun e => h.mem_iff.trans mem_positions
  rf := by
    have h := (forall_label_iff (g := forkedLoad) (p := fun r rLab => ∀ w ∈ rLab.rf,
      rLab.isRead = true ∧ w = Event.getInit ∧ r ∈ forkedLoad.initReaders rLab.addr)).2 (by decide)
    exact fun r rLab w hr hw => (h r rLab hr w hw).imp id .inl
  readers := by
    have h := (forall_label_iff (g := forkedLoad) (p := fun _ lab => lab.readers = [])).2
      (by decide)
    intro w wLab r hw hr
    rw [h w wLab hw] at hr
    cases hr
  initReaders := by
    intro a r hr
    by_cases ha : a = 8
    · subst ha
      obtain rfl : r = ⟨1, 1⟩ := List.mem_singleton.1 hr
      exact ⟨_, rfl, rfl, rfl, rfl⟩
    · simp [forkedLoad, ExecutionGraph.initReaders, ha] at hr
  co := by
    intro a w hw
    by_cases ha : a = 8
    · subst ha
      cases hw
    · simp [forkedLoad, ExecutionGraph.co, ha] at hw
  accesses := by
    intro a e he
    by_cases ha : a = 8
    · subst ha
      obtain rfl : e = ⟨1, 1⟩ := List.mem_singleton.1 he
      exact ⟨_, rfl, rfl, rfl⟩
    · simp [forkedLoad, ExecutionGraph.accesses, ha] at he
  create := by
    have h := (forall_label_iff (g := forkedLoad) (p := fun b bLab => ∀ c ∈ bLab.create,
      b = ⟨1, 0⟩ ∧ bLab.isThreadStart = true ∧ c = ⟨0, 1⟩)).2 (by decide)
    intro b bLab c hb hc
    obtain ⟨rfl, hstart, rfl⟩ := h b bLab hb c hc
    exact ⟨rfl, hstart, _, rfl, rfl, rfl, by decide⟩
  parentJoin := by
    have h := (forall_label_iff (g := forkedLoad) (p := fun _ lab => lab.parentJoin = none)).2
      (by decide)
    intro e eLab j he hj
    rw [h e eLab he] at hj
    cases hj
  linPreds := by
    have h := (forall_label_iff (g := forkedLoad) (p := fun _ lab => lab.linPreds = [])).2
      (by decide)
    intro b bLab e hb he
    rw [h b bLab hb] at he
    cases he
  linSuccs := by
    have h := (forall_label_iff (g := forkedLoad) (p := fun _ lab => lab.linSuccs = [])).2
      (by decide)
    intro e eLab b he hb
    rw [h e eLab he] at hb
    cases hb

/-- The load of the child can be removed. -/
theorem forkedLoad_removedOnly :
    RemovedOnly forkedLoad (forkedLoad.removeLast 1) ⟨1, 1⟩ :=
  (removedOnly_removeLast_iff forkedLoad forkedLoad_crossReferenced 1 _ rfl (by decide)).2
    { co := by decide
      ownBegin := by simp
      childBegin := by simp
      join := by simp
      linPreds := rfl
      linSuccs := rfl }

/-- Without the creation, the begin of the child still points to it. -/
theorem forkedLoad_dangling : ¬ ∀ (g : ExecutionGraph), g.CrossReferenced → ∀ (t : ℕ)
    (lab : EventLabel), g.getLastThreadLabel t = some lab → lab.kind ≠ .Init →
      RemovedOnly g (g.removeLast t) lab.pos := by
  intro h
  have hrem := h forkedLoad forkedLoad_crossReferenced 0 _ rfl (by decide)
  have hbegin : ((forkedLoad.removeLast 0).getEventLabel ⟨1, 0⟩).map (·.create) =
      some (some ⟨0, 1⟩) := by decide
  rw [hrem.label] at hbegin
  exact absurd hbegin (by decide)

/-! ## Blocking and unblocking threads -/

/-- Adds a block to a thread, over the label that is there. -/
def blockThread (bLab : EventLabel) (g : ExecutionGraph) : ExecutionGraph :=
  if (g.getLastThreadLabel bLab.pos.thread).any (·.pos = bLab.pos) then
    (g.removeLast bLab.pos.thread).addLabelToGraph bLab
  else g.addLabelToGraph bLab

/-- Removes the block at the end of a thread; nothing is returned where the source stops. -/
def unblockThread (g : ExecutionGraph) (pos : Event) : Option ExecutionGraph :=
  if (g.getLastThreadLabel pos.thread).any (·.isBlock) then some (g.removeLast pos.thread) else none

theorem CrossReferenced.removalSafe_of_isBlock (h : g.CrossReferenced) {lab : EventLabel}
    (hlab : g.getEventLabel lab.pos = some lab) (hb : lab.isBlock = true) : RemovalSafe g lab := by
  have hne : ∀ k : EventLabelKind, k.isBlock = false → lab.kind ≠ k := by
    rintro k hk rfl
    rw [EventLabel.isBlock, hk] at hb
    cases hb
  refine h.removalSafe_of_kind hlab (fun hmem => ?_) (hne _ rfl) (hne _ rfl) (hne _ rfl) (hne _ rfl)
  obtain ⟨wLab, hwLab, hwrite, -⟩ := h.co _ _ hmem
  obtain rfl := Option.some.inj (hlab.symm.trans hwLab)
  rw [EventLabel.isBlock] at hb
  rw [EventLabel.isWrite] at hwrite
  revert hb hwrite
  cases lab.kind <;> decide

/-- **Unblocking a thread takes out its block and nothing else.** -/
theorem removedOnly_unblockThread (h : g.CrossReferenced) {pos : Event} {g' : ExecutionGraph}
    (hg' : g.unblockThread pos = some g') :
    ∃ bLab, g.getLastThreadLabel pos.thread = some bLab ∧ RemovedOnly g g' bLab.pos := by
  rw [unblockThread] at hg'
  split at hg'
  · rename_i hany
    obtain ⟨bLab, hlast, hb⟩ := (Option.any_eq_true _ _).1 hany
    obtain rfl := Option.some.inj hg'
    refine ⟨bLab, hlast, h.removedOnly hlast ?_
      (h.removalSafe_of_isBlock (h.getEventLabel_last hlast) hb)⟩
    intro hk
    rw [EventLabel.isBlock, hk] at hb
    exact absurd hb (by decide)
  · cases hg'

end ExecutionGraph
end GenMC
