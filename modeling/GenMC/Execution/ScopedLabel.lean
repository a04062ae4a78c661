import GenMC.Execution.LabelRemoval

/-!
# Scoped insertion of a label

To ask a question about an access that will not stay in the graph, the driver adds its label for
the duration of a scope: `ScopedLabel` adds the label when it is constructed and, unless it was
committed, takes it out again when it is destroyed, with `removeLast`.  In between, a read may be
made to read from something, any number of times.

`InScope` says how the graph looks inside the scope: the label is at the end of its thread, of the
insertion order and of the access list of its location, a read is listed by the one it currently
reads from, and everything else is as it was.  `ScopedLabel.invisible` is the result: after the
scope the graph is the old one, except for its stamp counter and lists that were not there and are
there, empty, now.
-/

set_option autoImplicit false

namespace GenMC
namespace ExecutionGraph

variable {g o : ExecutionGraph} {lab : EventLabel}

/-! ## The scope -/

namespace ScopedLabel

/-- The constructor adds the label to the graph. -/
def construct (lab : EventLabel) (g : ExecutionGraph) : ExecutionGraph := g.addLabelToGraph lab

/-- The destructor removes the last label of the thread, unless the label was committed. -/
def destroy (commited : Bool) (lab : EventLabel) (g : ExecutionGraph) : ExecutionGraph :=
  if commited then g else g.removeLast lab.pos.thread

/-- Inside the scope, the label may be made to read from something. -/
def setRfs (lab : EventLabel) (rfs : List (Option Event)) (g : ExecutionGraph) : ExecutionGraph :=
  rfs.foldl (fun o rf => o.setRf lab.pos rf) g

end ScopedLabel

/-- `o` is `g` with the label `lab` in scope. -/
structure InScope (g : ExecutionGraph) (lab : EventLabel) (o : ExecutionGraph)
    (rf : Option Event) : Prop where
  own : ∃ l, o.getEventLabel lab.pos = some l ∧ l.kind = lab.kind ∧ l.pos = lab.pos ∧
    l.addr = lab.addr ∧ l.readers = [] ∧ l.rf = rf
  read : rf.isSome → lab.isRead = true
  label : ∀ e, e ≠ lab.pos → o.getEventLabel e = (g.getEventLabel e).map fun r =>
    { r with readers := r.readers ++ if e ≠ Event.getInit ∧ rf = some e then [lab.pos] else [] }
  threads : o.getNumThreads = g.getNumThreads
  insertionOrder : o.insertionOrder = g.insertionOrder ++ [lab.pos]
  initReaders : ∀ a, o.initReaders a =
    g.initReaders a ++ if a = lab.addr ∧ rf = some Event.getInit then [lab.pos] else []
  accesses : ∀ a, o.accesses a =
    g.accesses a ++ if lab.isRegistered && lab.addr = a then [lab.pos] else []
  coherence : ∀ a, o.coherence a = g.coherence a ∨ g.coherence a = none ∧ o.coherence a = some []
  initVals : o.initVals = g.initVals

/-- Two graphs that differ in the stamp counter and in empty lists of locations only. -/
structure SameUpToEmpty (g g' : ExecutionGraph) : Prop where
  events : g'.events = g.events
  insertionOrder : g'.insertionOrder = g.insertionOrder
  coherence : ∀ a, g'.coherence a = g.coherence a ∨ g.coherence a = none ∧ g'.coherence a = some []
  initReaders : ∀ a, g'.initReaders a = g.initReaders a
  accesses : ∀ a, g'.accesses a = g.accesses a
  initVals : g'.initVals = g.initVals

/-! ## Entering the scope -/

section Enter

variable (h : g.CrossReferenced) (hfresh : Fresh g lab)
include h hfresh

theorem CrossReferenced.inScope_addLabelToGraph : InScope g lab (g.addLabelToGraph lab) none := by
  have hs := h.slots.seated
  have hlabel := getEventLabel_addLabelToGraph hs hfresh.thread hfresh.index
  have hcopy := stampLabel_same (g := g) lab
  have heq := addLabelToGraph_eq hs hfresh.index
  refine
    { own := ⟨_, by rw [hlabel, if_pos rfl], hcopy.kind, hcopy.pos, hcopy.addr,
        hcopy.readers.trans hfresh.readers, hcopy.rf.trans hfresh.rf⟩
      read := fun hsome => absurd hsome Bool.false_ne_true
      label := fun e he => ?_
      threads := getNumThreads_addLabelToGraph hs hfresh.index
      insertionOrder := insertionOrder_addLabelToGraph hs hfresh.index
      initReaders := fun a => ?_
      accesses := accesses_addLabelToGraph lab
      coherence := fun a => ?_
      initVals := ?_ }
  · rw [hlabel, if_neg he]
    simp
  · rw [initReaders_addLabelToGraph hs hfresh.index]
    simp
  · rw [heq]
    show (trackLabel lab _).coherence a = _ ∨ _
    rw [trackLabel]
    split
    · show Function.update g.coherence lab.addr (some (g.co lab.addr)) a = _ ∨ _ ∧
        Function.update g.coherence lab.addr (some (g.co lab.addr)) a = _
      by_cases ha : a = lab.addr
      · subst ha
        rw [Function.update_self, ExecutionGraph.co]
        cases g.coherence lab.addr with
        | none => exact .inr ⟨rfl, rfl⟩
        | some l => exact .inl rfl
      · exact .inl (Function.update_of_ne ha _ _)
    · exact .inl rfl
  · rw [heq]
    show (trackLabel lab _).initVals = _
    rw [trackLabel]
    split <;> rfl

end Enter

/-! ## Inside the scope -/

/-- What `setRf` does to a label other than the read: only its readers may change. -/
theorem getEventLabel_setRf_of_ne {r : Event} {rLab : EventLabel}
    (hr : g.getEventLabel r = some rLab)
    (hpos : rLab.pos = r) (rf : Option Event) {e : Event}
    (hne : ∀ l, g.getEventLabel e = some l → l.pos ≠ r) :
    (g.setRf r rf).getEventLabel e = (g.getEventLabel e).map fun l =>
      { l with
        readers := if l.pos = Event.getInit then l.readers
          else moveReader rLab.rf rf r l.pos l.readers } := by
  have hdetach : ∀ rf, (g.detachReader r rLab rf).getEventLabel e = (g.getEventLabel e).map fun l =>
      { l with
        readers := if l.pos = Event.getInit then l.readers
          else moveReader rLab.rf none r l.pos l.readers } := by
    intro rf
    rw [detachReader]
    cases hold : rLab.rf with
    | none =>
      simp only [getEventLabel_modify]
      refine Option.map_congr fun l hl => ?_
      rw [if_neg (hne l hl)]
      simp [moveReader]
    | some old =>
      simp only [getEventLabel_removeReader, getEventLabel_modify, Option.map_map]
      refine Option.map_congr fun l hl => ?_
      simp only [Function.comp_apply, if_neg (hne l hl), hpos]
      by_cases hi : l.pos = Event.getInit
      · simp [hi]
      · by_cases ho : l.pos = old
        · subst ho
          simp [hi, moveReader]
        · simp [hi, ho, Ne.symm ho, moveReader]
  rw [setRf_eq hr]
  cases rf with
  | none => exact hdetach none
  | some w =>
    simp only [getEventLabel_modify, getEventLabel_addReader, hdetach, Option.map_map]
    refine Option.map_congr fun l hl => ?_
    simp only [Function.comp_apply, hpos]
    rw [if_neg (hne l hl)]
    by_cases hi : l.pos = Event.getInit
    · simp [hi]
    · by_cases hw : l.pos = w
      · subst hw
        simp [hi, moveReader]
      · simp [hi, hw, Ne.symm hw, moveReader]

/-- A read that is not on a list moves from one list to another. -/
theorem moveReader_append {x p : Event} {old new : Option Event} {l : List Event} (hx : x ∉ l) :
    moveReader old new x p (l ++ if old = some p then [x] else []) =
      l ++ if new = some p then [x] else [] := by
  have hne : ∀ y ∈ l, y ≠ x := fun y hy hyx => hx (hyx ▸ hy)
  by_cases hold : old = some p
  · simpa [moveReader, hold] using hne
  · simp [moveReader, hold]

section Scope

variable (h : g.CrossReferenced) (hfresh : Fresh g lab) {rf : Option Event}
include h hfresh

/-- Nothing in the graph refers to a position that is not taken yet. -/
theorem CrossReferenced.fresh_notMem :
    lab.pos ∉ g.insertionOrder ∧ (∀ a, lab.pos ∉ g.initReaders a) ∧ (∀ a, lab.pos ∉ g.accesses a) ∧
      ∀ e r, g.getEventLabel e = some r → lab.pos ∉ r.readers := by
  have hnone : g.getEventLabel lab.pos = none := getEventLabel_of_index_ge hfresh.index.ge
  refine ⟨fun hmem => ?_, fun a hmem => ?_, fun a hmem => ?_, fun e r hr hmem => ?_⟩
  · have := (h.inserted _).1 hmem
    rw [hnone] at this
    cases this
  · obtain ⟨rLab, hrLab, -⟩ := h.initReaders a _ hmem
    rw [hnone] at hrLab
    cases hrLab
  · obtain ⟨rLab, hrLab, -⟩ := h.accesses a _ hmem
    rw [hnone] at hrLab
    cases hrLab
  · obtain ⟨-, rLab, hrLab, -⟩ := h.readers e r _ hr hmem
    rw [hnone] at hrLab
    cases hrLab

theorem CrossReferenced.inScope_setRf (hscope : InScope g lab o rf) {new : Option Event}
    (hread : lab.isRead = true) (hnew : ValidRf g new) :
    InScope g lab (o.setRf lab.pos new) new := by
  obtain ⟨l, hl, hkind, hpos, haddr, hnil, hrf⟩ := hscope.own
  obtain ⟨-, hinit, -, hreaders⟩ := h.fresh_notMem hfresh
  have hnone : g.getEventLabel lab.pos = none := getEventLabel_of_index_ge hfresh.index.ge
  have hself : new ≠ some lab.pos := by
    intro heq
    rcases hnew _ heq with hw | ⟨wLab, hwLab, -⟩
    · obtain ⟨iLab, hiLab, -⟩ := h.init
      rw [← hw, hnone] at hiLab
      cases hiLab
    · rw [hnone] at hwLab
      cases hwLab
  obtain ⟨f, hf, hrew⟩ := rewiredBy_setRf hl hpos new
  have hown : Rewired l (if l.pos = lab.pos then new else l.rf) _ (f l) := hrew l
  refine
    { own := ⟨f l, by rw [hf, hl]; rfl, hown.kind.trans hkind, hown.pos.trans hpos,
        hown.addr.trans haddr, ?_, ?_⟩
      read := fun _ => hread
      label := fun e he => ?_
      threads := ?_
      insertionOrder := (insertionOrder_setRf _ _).trans hscope.insertionOrder
      initReaders := fun a => ?_
      accesses := fun a => ?_
      coherence := fun a => ?_
      initVals := ?_ }
  · rw [hown.readers]
    simp only [hnil, hpos]
    split
    · rfl
    · simp [moveReader, hself]
  · rw [hown.rf, if_pos hpos]
  · have hne : ∀ r, o.getEventLabel e = some r → r.pos ≠ lab.pos := by
      intro r hr
      rw [hscope.label e he] at hr
      obtain ⟨r₀, hr₀, rfl⟩ := Option.map_eq_some_iff.1 hr
      show r₀.pos ≠ lab.pos
      rwa [h.slots e r₀ hr₀]
    rw [getEventLabel_setRf_of_ne hl hpos new hne, hscope.label e he, Option.map_map]
    refine Option.map_congr fun r hr => ?_
    simp only [Function.comp_apply, h.slots e r hr, hrf]
    by_cases hi : e = Event.getInit
    · simp [hi]
    · simp only [hi, if_false, ne_eq, not_false_eq_true, true_and]
      rw [moveReader_append (hreaders e r hr)]
  · exact (frame_setRf (·.getNumThreads) (fun _ _ => getNumThreads_mapLabels _) (fun _ _ => rfl)
      lab.pos new).trans hscope.threads
  · rw [initReaders_setRf hl hpos new a, hscope.initReaders a, hrf, haddr]
    by_cases ha : a = lab.addr
    · simp only [ha, if_true, true_and]
      exact moveReader_append (hinit lab.addr)
    · simp [ha]
  · rw [ExecutionGraph.accesses, accessMap_setRf]
    exact hscope.accesses a
  · rw [coherence_setRf]
    exact hscope.coherence a
  · exact (frame_setRf (·.initVals) (fun _ _ => rfl) (fun _ _ => rfl) lab.pos new).trans
      hscope.initVals

theorem CrossReferenced.inScope_setRfs (rfs : List (Option Event))
    (hrfs : ∀ new ∈ rfs, lab.isRead = true ∧ ValidRf g new) :
    ∃ rf, InScope g lab (ScopedLabel.setRfs lab rfs (ScopedLabel.construct lab g)) rf := by
  have hrun : ∀ (rfs : List (Option Event)) (o : ExecutionGraph) (rf : Option Event),
      (∀ new ∈ rfs, lab.isRead = true ∧ ValidRf g new) → InScope g lab o rf →
        ∃ rf', InScope g lab (ScopedLabel.setRfs lab rfs o) rf' := by
    intro rfs
    induction rfs with
    | nil => exact fun o rf _ hscope => ⟨rf, hscope⟩
    | cons new rfs ih =>
      intro o rf hvalid hscope
      obtain ⟨hread, hnew⟩ := hvalid new (List.mem_cons_self ..)
      exact ih (o.setRf lab.pos new) new (fun x hx => hvalid x (List.mem_cons_of_mem _ hx))
        (h.inScope_setRf hfresh hscope hread hnew)
  exact hrun rfs _ none hrfs (h.inScope_addLabelToGraph hfresh)

/-! ## Leaving the scope -/

omit h in
theorem InScope.getThreadSize_eq (hscope : InScope g lab o rf) :
    o.getThreadSize lab.pos.thread = lab.pos.index + 1 := by
  obtain ⟨l, hl, -⟩ := hscope.own
  have hnext : o.getEventLabel ⟨lab.pos.thread, lab.pos.index + 1⟩ = none := by
    rw [hscope.label _ (fun heq => by simpa using congrArg Event.index heq),
      getEventLabel_of_index_ge (by rw [hfresh.index]; exact Nat.le_succ _)]
    rfl
  have hlt := lt_getThreadSize_of_getEventLabel hl
  have hle : o.getThreadSize lab.pos.thread ≤ lab.pos.index + 1 := List.getElem?_eq_none_iff.1 hnext
  omega

omit h in
theorem InScope.getLastThreadLabel_eq (hscope : InScope g lab o rf) {l : EventLabel}
    (hl : o.getEventLabel lab.pos = some l) : o.getLastThreadLabel lab.pos.thread = some l := by
  rw [getLastThreadLabel_eq_some, hscope.getThreadSize_eq hfresh]
  exact ⟨Nat.succ_pos _, hl⟩

end Scope

theorem events_ext {g' : ExecutionGraph} (hthreads : g'.getNumThreads = g.getNumThreads)
    (hlabel : ∀ e, g'.getEventLabel e = g.getEventLabel e) : g'.events = g.events := by
  refine List.ext_getElem? fun t => ?_
  by_cases ht : t < g.getNumThreads
  · have ht' : t < g'.events.length := lt_of_lt_of_eq ht hthreads.symm
    rw [List.getElem?_eq_getElem ht', List.getElem?_eq_getElem ht]
    refine congrArg some (List.ext_getElem? fun i => ?_)
    have := hlabel ⟨t, i⟩
    rwa [getEventLabel, getEventLabel, List.getD_eq_getElem?_getD, List.getD_eq_getElem?_getD,
      List.getElem?_eq_getElem ht', List.getElem?_eq_getElem ht] at this
  · rw [List.getElem?_eq_none (not_lt.1 ht), List.getElem?_eq_none]
    exact hthreads.trans_le (not_lt.1 ht)

/-- Taking the label out again restores the graph. -/
theorem CrossReferenced.sameUpToEmpty_removeLast (h : g.CrossReferenced) (hfresh : Fresh g lab)
    (hcreate : lab.kind ≠ .ThreadCreate) (hjoin : lab.kind ≠ .ThreadJoin) {rf : Option Event}
    (hscope : InScope g lab o rf) : SameUpToEmpty g (o.removeLast lab.pos.thread) := by
  obtain ⟨l, hl, hkind, hpos, haddr, hnil, hrf⟩ := hscope.own
  obtain ⟨horder, hinit, hacc, hreaders⟩ := h.fresh_notMem hfresh
  have hlast := hscope.getLastThreadLabel_eq hfresh hl
  have hdrop : ∀ L : List Event, lab.pos ∉ L → (L ++ [lab.pos]).filter (· ≠ lab.pos) = L := by
    intro L hL
    have hne : ∀ y ∈ L, y ≠ lab.pos := fun y hy hyx => hL (hyx ▸ hy)
    simpa using hne
  obtain ⟨o', hlabel, hio, hco, hinitReaders, hvals, -, hthreads, heq⟩ :=
    removeLast_eq_unlinked hlast
  have hlen : (o'.events.getD lab.pos.thread []).length = lab.pos.index + 1 :=
    (getThreadSize_congr (fun e => by rw [hlabel, Option.isSome_map]) _).trans
      (hscope.getThreadSize_eq hfresh)
  have hisRead : rf.isSome → l.isRead = true := fun hsome => by
    rw [EventLabel.isRead, hkind]
    exact hscope.read hsome
  have hunlinked : ∀ e, e ≠ lab.pos →
      (o.getEventLabel e).map (o.unlinked l) = g.getEventLabel e := by
    intro e he
    rw [hscope.label e he, Option.map_map]
    refine (Option.map_congr fun r hr => ?_).trans Option.map_id_apply
    simp only [Function.comp_apply, unlinked, hnil, List.not_mem_nil, and_false, if_false, hkind,
      hcreate, hjoin, false_and, hpos, hrf, h.slots e r hr, id_eq]
    by_cases hcond : e ≠ Event.getInit ∧ rf = some e
    · rw [if_pos hcond, if_pos ⟨hisRead (by rw [hcond.2]; rfl), hcond⟩,
        hdrop _ (hreaders e r hr), ← h.slots e r hr]
    · rw [if_neg hcond, if_neg fun h => hcond h.2, List.append_nil, ← h.slots e r hr]
  refine
    { events := events_ext ?_ fun e => ?_
      insertionOrder := ?_
      coherence := fun a => ?_
      initReaders := fun a => ?_
      accesses := fun a => ?_
      initVals := ?_ }
  · rw [heq, ← hscope.threads, ← hthreads]
    simp [getNumThreads]
  · rw [heq]
    refine (getElem?_modify_dropLast o'.events lab.pos.thread e).trans ?_
    have hcond : (e.thread = lab.pos.thread ∧ e.index + 1 = lab.pos.index + 1) ↔ e = lab.pos := by
      rw [Event.ext_iff', Nat.add_right_cancel_iff]
    rw [hlen]
    simp only [hcond]
    split
    · rename_i he
      rw [he, getEventLabel_of_index_ge hfresh.index.ge]
    · rename_i he
      exact (hlabel e).trans (hunlinked e he)
  · rw [heq]
    show o'.insertionOrder.erase l.pos = _
    rw [hio, hscope.insertionOrder, hpos, List.erase_append_right _ horder]
    simp
  · rw [heq]
    show o'.coherence a = _ ∨ _ ∧ o'.coherence a = _
    rw [hco]
    exact hscope.coherence a
  · rw [heq]
    show o'.initReaders a = _
    rw [hinitReaders, initReaders_unlinkLabel_eq, hscope.initReaders, hrf, haddr, hpos]
    by_cases hcond : a = lab.addr ∧ rf = some Event.getInit
    · rw [if_pos hcond, if_pos ⟨hisRead (by rw [hcond.2]; rfl), hcond.2, hcond.1⟩,
        hdrop _ (hinit a)]
    · rw [if_neg hcond, if_neg fun h => hcond ⟨h.2.2, h.2.1⟩, List.append_nil]
  · rw [accesses_removeLast hlast, hscope.accesses, haddr, hpos]
    have hreg : l.isRegistered = lab.isRegistered := by
      rw [EventLabel.isRegistered, EventLabel.isMemAccess, EventLabel.isFree, hkind]
      rfl
    rw [hreg]
    split
    · exact hdrop _ (hacc a)
    · exact List.append_nil _
  · rw [heq]
    exact hvals.trans hscope.initVals

/-- **Scoped insertion is invisible.** -/
theorem ScopedLabel.invisible (g : ExecutionGraph) (h : g.CrossReferenced) (lab : EventLabel)
    (hfresh : Fresh g lab) (hcreate : lab.kind ≠ .ThreadCreate) (hjoin : lab.kind ≠ .ThreadJoin)
    (rfs : List (Option Event)) (hrfs : ∀ new ∈ rfs, lab.isRead = true ∧ ValidRf g new) :
    SameUpToEmpty g (destroy false lab (setRfs lab rfs (construct lab g))) := by
  obtain ⟨rf, hscope⟩ := h.inScope_setRfs hfresh rfs hrfs
  exact h.sameUpToEmpty_removeLast hfresh hcreate hjoin hscope

/-- A load in the main thread that reads from the initializer, then from nothing, and is dropped;
its location has not been accessed before. -/
theorem ScopedLabel.invisible_load : SameUpToEmpty forkedLoad
    (destroy false { kind := .Read, pos := ⟨0, 2⟩, addr := 9 }
      (setRfs { kind := .Read, pos := ⟨0, 2⟩, addr := 9 } [some Event.getInit, none]
        (construct { kind := .Read, pos := ⟨0, 2⟩, addr := 9 } forkedLoad))) :=
  ScopedLabel.invisible forkedLoad forkedLoad_crossReferenced
    { kind := .Read, pos := ⟨0, 2⟩, addr := 9 } ⟨by decide, rfl, rfl, rfl, fun _ => by decide⟩
    (by decide) (by decide) [some Event.getInit, none] fun new hnew => ⟨rfl, fun w hw => by
      rw [hw] at hnew
      simp only [List.mem_cons, Option.some.injEq, reduceCtorEq, List.not_mem_nil, or_false] at hnew
      exact .inl hnew⟩

end ExecutionGraph
end GenMC
