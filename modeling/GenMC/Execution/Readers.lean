import GenMC.Execution.Operations

/-!
# Reads-from and reader lists

A read knows the write it reads from, and a write knows its readers; reads of the initial value
are kept in lists of the graph, one for each location.  Five operations update the two directions
in different places, and this file shows that they stay in step.

* `RfReaders` is the cross reference: a read is exactly once in the reader list of what it reads
  from, and every read in a reader list reads from the owner of the list.
* `ReaderInv` is the invariant that carries it.  The rest of it is what the operations rely on:
  where labels sit, that they are stamped and in the insertion order, and that the locations they
  access are known.
* `Reachable` is what the operations build, starting from the empty graph, and
  `rfReaders_of_reachable` is the result.
-/

set_option autoImplicit false

namespace GenMC
namespace ExecutionGraph

variable {g : ExecutionGraph}

/-- The reads of location `a` that a write, or the initializer, has on its list. -/
def readersOf (g : ExecutionGraph) (w : Event) (a : SAddr) : List Event :=
  if w = Event.getInit then g.initReaders a else ((g.getEventLabel w).map (·.readers)).getD []

/-- Reads-from and reader lists agree. -/
structure RfReaders (g : ExecutionGraph) : Prop where
  count_readersOf : ∀ r rLab w, g.getEventLabel r = some rLab → rLab.isRead = true →
    rLab.rf = some w → (g.readersOf w rLab.addr).count r = 1
  rf_of_mem_readers : ∀ w wLab r, g.getEventLabel w = some wLab → wLab.isWrite = true →
    r ∈ wLab.readers → ∃ rLab, g.getEventLabel r = some rLab ∧ rLab.isRead = true ∧
      rLab.rf = some w
  rf_of_mem_initReaders : ∀ a r, r ∈ g.initReaders a → ∃ rLab, g.getEventLabel r = some rLab ∧
    rLab.isRead = true ∧ rLab.addr = a ∧ rLab.rf = some Event.getInit

/-- The invariant behind `RfReaders`. -/
structure ReaderInv (g : ExecutionGraph) : Prop where
  seated : g.Seated
  stamped : g.Stamped
  inserted : ∀ e, 0 < e.index → (g.getEventLabel e).isSome → e ∈ g.insertionOrder
  above : ∀ e lab, g.getEventLabel e = some lab → lab.isMemAccess = true → 0 < e.index
  tracked : ∀ e lab, g.getEventLabel e = some lab → lab.isMemAccess = true →
    (g.coherence lab.addr).isSome
  rf : ∀ r rLab w, g.getEventLabel r = some rLab → rLab.isRead = true → rLab.rf = some w →
    (w = Event.getInit ∧ r ∈ g.initReaders rLab.addr) ∨
      ∃ wLab, g.getEventLabel w = some wLab ∧ wLab.isWrite = true ∧ r ∈ wLab.readers
  readers : ∀ w wLab, g.getEventLabel w = some wLab → wLab.isWrite = true →
    wLab.readers.Nodup ∧ ∀ r ∈ wLab.readers, ∃ rLab, g.getEventLabel r = some rLab ∧
      rLab.isRead = true ∧ rLab.rf = some w
  initReaders : ∀ a, (g.initReaders a).Nodup ∧ ∀ r ∈ g.initReaders a, ∃ rLab,
    g.getEventLabel r = some rLab ∧ rLab.isRead = true ∧ rLab.addr = a ∧
      rLab.rf = some Event.getInit

/-- A write is not the initializer. -/
theorem ReaderInv.ne_init (h : ReaderInv g) {e : Event} {lab : EventLabel}
    (hlab : g.getEventLabel e = some lab) (hm : lab.isMemAccess = true) : e ≠ Event.getInit := by
  rintro rfl
  exact lt_irrefl _ (h.above _ _ hlab hm)

theorem ReaderInv.rfReaders (h : ReaderInv g) : RfReaders g := by
  refine ⟨fun r rLab w hr hread hw => ?_, fun w wLab r hw hwrite hr => ?_,
    fun a r hr => (h.initReaders a).2 r hr⟩
  · rcases h.rf r rLab w hr hread hw with ⟨rfl, hmem⟩ | ⟨wLab, hwLab, hwrite, hmem⟩
    · rw [readersOf, if_pos rfl]
      exact List.count_eq_one_of_mem (h.initReaders _).1 hmem
    · rw [readersOf, if_neg (h.ne_init hwLab (EventLabel.isMemAccess_of_isWrite hwrite)), hwLab]
      exact List.count_eq_one_of_mem (h.readers w wLab hwLab hwrite).1 hmem
  · exact (h.readers w wLab hw hwrite).2 r hr

/-! ## Operations that do not touch reads-from -/

/-- Two labels that agree on everything that matters for reads-from. -/
structure SameAccess (lab lab' : EventLabel) : Prop where
  kind : lab'.kind = lab.kind
  pos : lab'.pos = lab.pos
  addr : lab'.addr = lab.addr
  rf : lab'.rf = lab.rf
  readers : lab'.readers = lab.readers
  stamp : lab.stamp.isSome → lab'.stamp.isSome

theorem SameAccess.refl (lab : EventLabel) : SameAccess lab lab := ⟨rfl, rfl, rfl, rfl, rfl, id⟩

theorem SameAccess.trans {lab lab' lab'' : EventLabel} (h : SameAccess lab lab')
    (h' : SameAccess lab' lab'') : SameAccess lab lab'' :=
  ⟨h'.kind.trans h.kind, h'.pos.trans h.pos, h'.addr.trans h.addr, h'.rf.trans h.rf,
    h'.readers.trans h.readers, fun hs => h'.stamp (h.stamp hs)⟩

/-- Changing other parts of labels, or the coherence of known locations, keeps the invariant. -/
theorem ReaderInv.congr (h : ReaderInv g) {g' : ExecutionGraph} {f : EventLabel → EventLabel}
    (hf : ∀ lab, SameAccess lab (f lab))
    (hlab : ∀ e, g'.getEventLabel e = (g.getEventLabel e).map f)
    (hinit : ∀ a, g'.initReaders a = g.initReaders a)
    (hio : ∀ e, e ∈ g.insertionOrder → e ∈ g'.insertionOrder)
    (hco : ∀ a, (g.coherence a).isSome → (g'.coherence a).isSome) : ReaderInv g' := by
  have hsome : ∀ {e lab'}, g'.getEventLabel e = some lab' →
      ∃ lab, g.getEventLabel e = some lab ∧ lab' = f lab := by
    intro e lab' h'
    rw [hlab] at h'
    obtain ⟨lab, h1, h2⟩ := Option.map_eq_some_iff.1 h'
    exact ⟨lab, h1, h2.symm⟩
  have hmem : ∀ lab, (f lab).isMemAccess = lab.isMemAccess := fun lab => by
    simp only [EventLabel.isMemAccess, (hf lab).kind]
  have hread : ∀ lab, (f lab).isRead = lab.isRead := fun lab => by
    simp only [EventLabel.isRead, (hf lab).kind]
  have hwrite : ∀ lab, (f lab).isWrite = lab.isWrite := fun lab => by
    simp only [EventLabel.isWrite, (hf lab).kind]
  refine ⟨fun e lab' h' => ?_, fun e lab' h' => ?_, fun e he h' => ?_, fun e lab' h' hm => ?_,
    fun e lab' h' hm => ?_, fun r rLab' w h' hr hw => ?_, fun w wLab' h' hw => ?_,
    fun a => ?_⟩
  · obtain ⟨lab, h1, rfl⟩ := hsome h'
    rw [(hf lab).pos]
    exact h.seated e lab h1
  · obtain ⟨lab, h1, rfl⟩ := hsome h'
    exact (hf lab).stamp (h.stamped e lab h1)
  · refine hio e (h.inserted e he ?_)
    rwa [hlab, Option.isSome_map] at h'
  · obtain ⟨lab, h1, rfl⟩ := hsome h'
    exact h.above e lab h1 ((hmem lab) ▸ hm)
  · obtain ⟨lab, h1, rfl⟩ := hsome h'
    rw [(hf lab).addr]
    exact hco _ (h.tracked e lab h1 ((hmem lab) ▸ hm))
  · obtain ⟨rLab, h1, rfl⟩ := hsome h'
    rw [(hf rLab).rf] at hw
    rw [(hf rLab).addr, hinit]
    rcases h.rf r rLab w h1 (hread rLab ▸ hr) hw with h2 | ⟨wLab, h2, h3, h4⟩
    · exact Or.inl h2
    · refine Or.inr ⟨f wLab, by rw [hlab, h2]; rfl, (hwrite wLab).trans h3, ?_⟩
      rwa [(hf wLab).readers]
  · obtain ⟨wLab, h1, rfl⟩ := hsome h'
    obtain ⟨h2, h3⟩ := h.readers w wLab h1 (hwrite wLab ▸ hw)
    rw [(hf wLab).readers]
    refine ⟨h2, fun r hr => ?_⟩
    obtain ⟨rLab, h4, h5, h6⟩ := h3 r hr
    exact ⟨f rLab, by rw [hlab, h4]; rfl, (hread rLab).trans h5, by rw [(hf rLab).rf, h6]⟩
  · obtain ⟨h2, h3⟩ := h.initReaders a
    rw [hinit]
    refine ⟨h2, fun r hr => ?_⟩
    obtain ⟨rLab, h4, h5, h6, h7⟩ := h3 r hr
    exact ⟨f rLab, by rw [hlab, h4]; rfl, (hread rLab).trans h5, by rw [(hf rLab).addr, h6],
      by rw [(hf rLab).rf, h7]⟩

theorem isSome_update {m : SAddr → Option (List Event)} {a b : SAddr} {l : List Event}
    (h : (m b).isSome) : (Function.update m a (some l) b).isSome := by
  rw [Function.update_apply]
  split
  · rfl
  · exact h

theorem ReaderInv.addCo (h : ReaderInv g) (w pred : Event) (a : SAddr) :
    ReaderInv (g.addCo w pred a) :=
  h.congr (f := id) SameAccess.refl (fun _ => Option.map_id_apply.symm) (fun _ => rfl)
    (fun _ => id) fun _ => isSome_update

theorem ReaderInv.moveCo (h : ReaderInv g) (w pred : Event) (a : SAddr) :
    ReaderInv (g.moveCo w pred a) := by
  refine h.congr (f := fun lab => if lab.pos = w then _ else lab) (fun lab => ?_)
    (fun e => getEventLabel_modify _ _ e) (fun _ => rfl) (fun _ => id)
    fun _ h' => isSome_update (isSome_update h')
  split
  · exact ⟨rfl, rfl, rfl, rfl, rfl, id⟩
  · exact SameAccess.refl lab

/-! ## Adding labels -/

theorem stampLabel_same (lab : EventLabel) : SameAccess lab (g.stampLabel lab).1 := by
  rw [stampLabel]
  split
  · exact SameAccess.refl lab
  · exact ⟨rfl, rfl, rfl, rfl, rfl, fun _ => rfl⟩

theorem isSome_stampLabel (lab : EventLabel) : (g.stampLabel lab).1.stamp.isSome := by
  rw [stampLabel]
  split
  · assumption
  · rfl

/-- A label that has just been created and goes to the end of its thread. -/
structure Fresh (g : ExecutionGraph) (lab : EventLabel) : Prop where
  thread : lab.pos.thread < g.getNumThreads
  index : lab.pos.index = g.getThreadSize lab.pos.thread
  rf : lab.rf = none
  readers : lab.readers = []
  above : lab.isMemAccess = true → 0 < lab.pos.index

theorem getEventLabel_of_index_ge {e : Event} (h : g.getThreadSize e.thread ≤ e.index) :
    g.getEventLabel e = none :=
  List.getElem?_eq_none h

theorem ReaderInv.addLabelToGraph (h : ReaderInv g) {lab : EventLabel} (hfresh : Fresh g lab) :
    ReaderInv (g.addLabelToGraph lab) := by
  have hlab := getEventLabel_addLabelToGraph h.seated hfresh.thread hfresh.index
  have hnone : g.getEventLabel lab.pos = none := getEventLabel_of_index_ge hfresh.index.ge
  have hold : ∀ {e lab'}, g.getEventLabel e = some lab' →
      (g.addLabelToGraph lab).getEventLabel e = some lab' := by
    intro e lab' h'
    rw [hlab, if_neg (fun he => by rw [he, hnone] at h'; cases h')]
    exact h'
  have hnew : ∀ {e lab'}, (g.addLabelToGraph lab).getEventLabel e = some lab' →
      (e = lab.pos ∧ lab' = (g.stampLabel lab).1) ∨ g.getEventLabel e = some lab' := by
    intro e lab' h'
    rw [hlab] at h'
    split at h'
    · rename_i he
      exact Or.inl ⟨he, (Option.some.inj h').symm⟩
    · exact Or.inr h'
  have hsame := stampLabel_same (g := g) lab
  have hinit := initReaders_addLabelToGraph h.seated hfresh.index
  have htracked : ∀ a, (g.coherence a).isSome ∨ (lab.isMemAccess = true ∧ lab.addr = a) →
      ((g.addLabelToGraph lab).coherence a).isSome := by
    intro a ha
    rw [addLabelToGraph_eq h.seated hfresh.index]
    refine (tracked_trackLabel lab a).2 (ha.imp_right fun ⟨h1, h2⟩ => ⟨?_, h2⟩)
    rw [h1]
    rfl
  refine ⟨h.seated.addLabelToGraph hfresh.thread hfresh.index, fun e lab' h' => ?_,
    fun e he h' => ?_, fun e lab' h' hm => ?_, fun e lab' h' hm => ?_,
    fun r rLab w h' hr hw => ?_, fun w wLab h' hw => ?_, fun a => ?_⟩
  · rcases hnew h' with ⟨-, rfl⟩ | h'
    · exact isSome_stampLabel lab
    · exact h.stamped e lab' h'
  · rw [insertionOrder_addLabelToGraph h.seated hfresh.index, List.mem_append, List.mem_singleton]
    rw [hlab] at h'
    split at h'
    · rename_i he'
      exact Or.inr he'
    · exact Or.inl (h.inserted e he h')
  · rcases hnew h' with ⟨rfl, rfl⟩ | h'
    · refine hfresh.above ?_
      simpa only [EventLabel.isMemAccess, hsame.kind] using hm
    · exact h.above e lab' h' hm
  · rcases hnew h' with ⟨-, rfl⟩ | h'
    · refine htracked _ (Or.inr ⟨?_, hsame.addr.symm⟩)
      simpa only [EventLabel.isMemAccess, hsame.kind] using hm
    · exact htracked _ (Or.inl (h.tracked e lab' h' hm))
  · rcases hnew h' with ⟨-, rfl⟩ | h'
    · rw [hsame.rf, hfresh.rf] at hw
      cases hw
    · rw [hinit]
      rcases h.rf r rLab w h' hr hw with h1 | ⟨wLab, h1, h2, h3⟩
      · exact Or.inl h1
      · exact Or.inr ⟨wLab, hold h1, h2, h3⟩
  · rcases hnew h' with ⟨-, rfl⟩ | h'
    · rw [hsame.readers, hfresh.readers]
      exact ⟨List.nodup_nil, by simp⟩
    · obtain ⟨h1, h2⟩ := h.readers w wLab h' hw
      refine ⟨h1, fun r hr => ?_⟩
      obtain ⟨rLab, h3, h4⟩ := h2 r hr
      exact ⟨rLab, hold h3, h4⟩
  · rw [hinit]
    obtain ⟨h1, h2⟩ := h.initReaders a
    refine ⟨h1, fun r hr => ?_⟩
    obtain ⟨rLab, h3, h4⟩ := h2 r hr
    exact ⟨rLab, hold h3, h4⟩

theorem getEventLabel_addNewThread (e : Event) :
    g.addNewThread.getEventLabel e = g.getEventLabel e := by
  simp only [getEventLabel, addNewThread]
  simp only [List.getD_eq_getElem?_getD, List.getElem?_append]
  split
  · rfl
  · rename_i h
    rw [List.getElem?_eq_none (not_lt.1 h), List.getElem?_singleton]
    split <;> rfl

theorem ReaderInv.addNewThread (h : ReaderInv g) : ReaderInv g.addNewThread :=
  h.congr (f := id) SameAccess.refl
    (fun e => by rw [getEventLabel_addNewThread, Option.map_id_apply]) (fun _ => rfl)
    (fun _ => id) (fun _ => id)

/-! ## Changing reads-from -/

/-- The reader list of `p` when read `r` moves from `old` to `new`. -/
def moveReader (old new : Option Event) (r p : Event) (l : List Event) : List Event :=
  (if old = some p then l.filter (· ≠ r) else l) ++ if new = some p then [r] else []

theorem mem_moveReader {old new : Option Event} {r p x : Event} {l : List Event} :
    x ∈ moveReader old new r p l ↔
      (x = r ∧ new = some p) ∨ (x ∈ l ∧ ¬ (x = r ∧ old = some p)) := by
  rw [moveReader]
  by_cases h1 : old = some p <;> by_cases h2 : new = some p <;> simp [h1, h2] <;> tauto

theorem nodup_moveReader {old new : Option Event} {r p : Event} {l : List Event} (hl : l.Nodup)
    (hr : r ∈ l → old = some p) : (moveReader old new r p l).Nodup := by
  rw [moveReader]
  refine List.nodup_append.2 ⟨?_, ?_, ?_⟩
  · split
    · exact hl.filter _
    · exact hl
  · split
    · exact List.nodup_singleton r
    · exact List.nodup_nil
  · intro a ha b hb hab
    subst hab
    split at hb
    · rw [List.mem_singleton] at hb
      subst hb
      split at ha
      · simp at ha
      · rename_i hold
        exact hold (hr ha)
    · simp at hb

/-- The readers of `p`, which the initializer keeps for each address, change by `f`. -/
theorem getEventLabel_changeReaders (f : List Event → List Event)
    (rd : SAddr → Option (List Event)) (p e : Event) :
    (if p.isInitializer then { g with initRfs := rd }
      else g.modify p fun lab => { lab with readers := f lab.readers }).getEventLabel e =
      (g.getEventLabel e).map fun lab =>
        { lab with
          readers := if lab.pos ≠ Event.getInit ∧ lab.pos = p then f lab.readers
            else lab.readers } := by
  split
  · rename_i hp
    rw [Event.isInitializer_iff] at hp
    show g.getEventLabel e = _
    rw [eq_comm]
    refine (Option.map_congr fun lab _ => ?_).trans Option.map_id_apply
    rw [if_neg (fun h => h.1 (h.2.trans hp))]
    rfl
  · rename_i hp
    rw [Event.isInitializer_iff] at hp
    rw [getEventLabel_modify]
    refine Option.map_congr fun lab _ => ?_
    by_cases h : lab.pos = p
    · rw [if_pos h, if_pos ⟨fun h' => hp (h.symm.trans h'), h⟩]
    · rw [if_neg h, if_neg (fun h' => h h'.2)]

theorem initReaders_changeReaders (f : List Event → List Event) (upd : EventLabel → EventLabel)
    (p : Event) (b a : SAddr) :
    (if p.isInitializer
      then { g with initRfs := Function.update g.initRfs b (some (f (g.initReaders b))) }
      else g.modify p upd).initReaders a =
      if p = Event.getInit ∧ a = b then f (g.initReaders a) else g.initReaders a := by
  split
  · rename_i hp
    rw [Event.isInitializer_iff] at hp
    simp only [initReaders, Function.update_apply, hp, true_and]
    split
    · subst_vars
      rfl
    · rfl
  · rename_i hp
    rw [Event.isInitializer_iff] at hp
    rw [if_neg (fun h => hp h.1)]
    rfl

theorem getEventLabel_removeReader (p : Event) (rLab : EventLabel) (e : Event) :
    (g.removeReader p rLab).getEventLabel e = (g.getEventLabel e).map fun lab =>
      { lab with readers := if lab.pos ≠ Event.getInit ∧ lab.pos = p
          then lab.readers.filter (· ≠ rLab.pos) else lab.readers } :=
  getEventLabel_changeReaders (·.filter (· ≠ rLab.pos)) _ p e

theorem initReaders_removeReader (p : Event) (rLab : EventLabel) (a : SAddr) :
    (g.removeReader p rLab).initReaders a =
      if p = Event.getInit ∧ a = rLab.addr then (g.initReaders a).filter (· ≠ rLab.pos)
      else g.initReaders a :=
  initReaders_changeReaders (·.filter (· ≠ rLab.pos)) _ p rLab.addr a

theorem getEventLabel_addReader (p : Event) (rLab : EventLabel) (e : Event) :
    (g.addReader p rLab).getEventLabel e = (g.getEventLabel e).map fun lab =>
      { lab with readers := if lab.pos ≠ Event.getInit ∧ lab.pos = p
          then lab.readers ++ [rLab.pos] else lab.readers } :=
  getEventLabel_changeReaders (· ++ [rLab.pos]) _ p e

theorem initReaders_addReader (p : Event) (rLab : EventLabel) (a : SAddr) :
    (g.addReader p rLab).initReaders a =
      if p = Event.getInit ∧ a = rLab.addr then g.initReaders a ++ [rLab.pos]
      else g.initReaders a :=
  initReaders_changeReaders (· ++ [rLab.pos]) _ p rLab.addr a

/-- The graph in which read `r` has left the list of what it read from. -/
def detachReader (r : Event) (rLab : EventLabel) (rf : Option Event) (g : ExecutionGraph) :
    ExecutionGraph :=
  match rLab.rf with
  | none => g.modify r fun lab => { lab with rf := rf }
  | some old => (g.modify r fun lab => { lab with rf := rf }).removeReader old rLab

theorem setRf_eq {r : Event} {rLab : EventLabel} (hr : g.getEventLabel r = some rLab)
    (rf : Option Event) :
    g.setRf r rf = match rf with
      | none => g.detachReader r rLab none
      | some w => ((g.detachReader r rLab (some w)).addReader w rLab).modify r fun lab =>
          { lab with maximal := (g.detachReader r rLab (some w)).coMax rLab.addr = w } := by
  rw [setRf]
  rw [hr]
  cases rf <;> rfl

/-- The outcome of an operation on one label: what it reads from is `rf` and its readers are
`readers`. -/
structure Rewired (lab : EventLabel) (rf : Option Event) (readers : List Event)
    (lab' : EventLabel) : Prop where
  kind : lab'.kind = lab.kind
  pos : lab'.pos = lab.pos
  addr : lab'.addr = lab.addr
  stamp : lab'.stamp = lab.stamp
  rf : lab'.rf = rf
  readers : lab'.readers = readers

/-- Every label `lab` of `g` becomes a label with the given reads-from and readers. -/
def RewiredBy (g g' : ExecutionGraph) (rf : EventLabel → Option Event)
    (readers : EventLabel → List Event) : Prop :=
  ∃ f, (∀ e, g'.getEventLabel e = (g.getEventLabel e).map f) ∧
    ∀ lab, Rewired lab (rf lab) (readers lab) (f lab)

theorem RewiredBy.trans {g₁ g₂ g₃ : ExecutionGraph} {rf rf' : EventLabel → Option Event}
    {rs rs' : EventLabel → List Event} (h : RewiredBy g₁ g₂ rf rs) (h' : RewiredBy g₂ g₃ rf' rs')
    {rf'' : EventLabel → Option Event} {rs'' : EventLabel → List Event}
    (hrf : ∀ lab lab', Rewired lab (rf lab) (rs lab) lab' → rf' lab' = rf'' lab)
    (hrs : ∀ lab lab', Rewired lab (rf lab) (rs lab) lab' → rs' lab' = rs'' lab) :
    RewiredBy g₁ g₃ rf'' rs'' := by
  obtain ⟨f, hf, hf'⟩ := h
  obtain ⟨k, hk, hk'⟩ := h'
  refine ⟨k ∘ f, fun e => by rw [hk, hf, Option.map_map], fun lab => ?_⟩
  have h1 := hf' lab
  have h2 := hk' (f lab)
  exact ⟨h2.kind.trans h1.kind, h2.pos.trans h1.pos, h2.addr.trans h1.addr,
    h2.stamp.trans h1.stamp, h2.rf.trans (hrf lab _ h1), h2.readers.trans (hrs lab _ h1)⟩

theorem rewiredBy_modify_rf (r : Event) (rf : Option Event) :
    RewiredBy g (g.modify r fun lab => { lab with rf := rf })
      (fun lab => if lab.pos = r then rf else lab.rf) (·.readers) := by
  refine ⟨_, getEventLabel_modify r _, fun lab => ?_⟩
  simp only
  split
  · exact ⟨rfl, rfl, rfl, rfl, rfl, rfl⟩
  · exact ⟨rfl, rfl, rfl, rfl, rfl, rfl⟩

theorem rewiredBy_modify_maximal (r : Event) (b : Bool) :
    RewiredBy g (g.modify r fun lab => { lab with maximal := b }) (·.rf) (·.readers) := by
  refine ⟨_, getEventLabel_modify r _, fun lab => ?_⟩
  simp only
  split
  · exact ⟨rfl, rfl, rfl, rfl, rfl, rfl⟩
  · exact ⟨rfl, rfl, rfl, rfl, rfl, rfl⟩

theorem rewiredBy_removeReader (p : Event) (rLab : EventLabel) :
    RewiredBy g (g.removeReader p rLab) (·.rf) fun lab =>
      if lab.pos = Event.getInit then lab.readers
      else moveReader (some p) none rLab.pos lab.pos lab.readers := by
  refine ⟨_, getEventLabel_removeReader p rLab, fun lab => ⟨rfl, rfl, rfl, rfl, rfl, ?_⟩⟩
  by_cases hi : lab.pos = Event.getInit
  · simp [hi]
  · by_cases hp : lab.pos = p
    · obtain rfl := hp
      simp [hi, moveReader]
    · simp [hi, hp, Ne.symm hp, moveReader]

theorem rewiredBy_addReader (p : Event) (rLab : EventLabel) :
    RewiredBy g (g.addReader p rLab) (·.rf) fun lab =>
      if lab.pos = Event.getInit then lab.readers
      else moveReader none (some p) rLab.pos lab.pos lab.readers := by
  refine ⟨_, getEventLabel_addReader p rLab, fun lab => ⟨rfl, rfl, rfl, rfl, rfl, ?_⟩⟩
  by_cases hi : lab.pos = Event.getInit
  · simp [hi]
  · by_cases hp : lab.pos = p
    · obtain rfl := hp
      simp [hi, moveReader]
    · simp [hi, hp, Ne.symm hp, moveReader]

theorem rewiredBy_detachReader {r : Event} {rLab : EventLabel} (hpos : rLab.pos = r)
    (rf : Option Event) :
    RewiredBy g (g.detachReader r rLab rf) (fun lab => if lab.pos = r then rf else lab.rf)
      fun lab => if lab.pos = Event.getInit then lab.readers
        else moveReader rLab.rf none r lab.pos lab.readers := by
  rw [detachReader]
  cases hold : rLab.rf with
  | none =>
    obtain ⟨f, hf, hf'⟩ := rewiredBy_modify_rf (g := g) r rf
    refine ⟨f, hf, fun lab => ?_⟩
    have h := hf' lab
    exact ⟨h.kind, h.pos, h.addr, h.stamp, h.rf, by rw [h.readers]; simp [moveReader]⟩
  | some old =>
    refine (rewiredBy_modify_rf r rf).trans (rewiredBy_removeReader old rLab)
      (fun lab lab' h => h.rf) fun lab lab' h => ?_
    rw [h.pos, h.readers, hpos]

/-- **What `setRf` does to the labels**: the read gets its new source, and moves from the list of
the old one to the list of the new one. -/
theorem rewiredBy_setRf {r : Event} {rLab : EventLabel} (hr : g.getEventLabel r = some rLab)
    (hpos : rLab.pos = r) (rf : Option Event) :
    RewiredBy g (g.setRf r rf) (fun lab => if lab.pos = r then rf else lab.rf)
      fun lab => if lab.pos = Event.getInit then lab.readers
        else moveReader rLab.rf rf r lab.pos lab.readers := by
  rw [setRf_eq hr]
  cases rf with
  | none => exact rewiredBy_detachReader hpos none
  | some w =>
    refine ((rewiredBy_detachReader hpos (some w)).trans (rewiredBy_addReader w rLab)
      (fun lab lab' h => h.rf) (fun lab lab' h => ?_)).trans (rewiredBy_modify_maximal r _)
      (fun lab lab' h => h.rf) fun lab lab' h => h.readers
    rw [h.pos, h.readers, hpos]
    by_cases hi : lab.pos = Event.getInit
    · simp [hi]
    · simp [hi, moveReader]

/-- What `setRf` does to the readers of the initializer. -/
theorem initReaders_setRf {r : Event} {rLab : EventLabel} (hr : g.getEventLabel r = some rLab)
    (hpos : rLab.pos = r) (rf : Option Event) (a : SAddr) :
    (g.setRf r rf).initReaders a =
      if a = rLab.addr then moveReader rLab.rf rf r Event.getInit (g.initReaders a)
      else g.initReaders a := by
  have hdetach : ∀ rf, (g.detachReader r rLab rf).initReaders a =
      if a = rLab.addr then moveReader rLab.rf none r Event.getInit (g.initReaders a)
      else g.initReaders a := by
    intro rf
    rw [detachReader]
    cases hold : rLab.rf with
    | none =>
      show g.initReaders a = _
      simp [moveReader]
    | some old =>
      simp only
      rw [initReaders_removeReader, hpos]
      show (if _ then (g.initReaders a).filter _ else g.initReaders a) = _
      by_cases ha : a = rLab.addr
      · by_cases ho : old = Event.getInit <;> simp [ha, ho, moveReader]
      · simp [ha]
  rw [setRf_eq hr]
  cases rf with
  | none => exact hdetach none
  | some w =>
    show ((g.detachReader r rLab (some w)).addReader w rLab).initReaders a = _
    rw [initReaders_addReader, hdetach, hpos]
    by_cases ha : a = rLab.addr
    · by_cases hw : w = Event.getInit <;> simp [ha, hw, moveReader]
    · simp [ha]

/-- `removeReader` and `addReader` change labels and the readers of the initializer only. -/
theorem frame_removeReader {α : Type*} (F : ExecutionGraph → α)
    (hmap : ∀ o f, F (mapLabels f o) = F o) (hinit : ∀ o m, F { o with initRfs := m } = F o)
    (p : Event) (rLab : EventLabel) : F (g.removeReader p rLab) = F g := by
  rw [removeReader]
  split
  · exact hinit _ _
  · exact hmap _ _

theorem frame_addReader {α : Type*} (F : ExecutionGraph → α)
    (hmap : ∀ o f, F (mapLabels f o) = F o) (hinit : ∀ o m, F { o with initRfs := m } = F o)
    (p : Event) (rLab : EventLabel) : F (g.addReader p rLab) = F g := by
  rw [addReader]
  split
  · exact hinit _ _
  · exact hmap _ _

/-- `setRf` changes labels and the readers of the initializer only. -/
theorem frame_setRf {α : Type*} (F : ExecutionGraph → α)
    (hmap : ∀ o f, F (mapLabels f o) = F o) (hinit : ∀ o m, F { o with initRfs := m } = F o)
    (r : Event) (rf : Option Event) : F (g.setRf r rf) = F g := by
  have hrem := fun o p rLab => frame_removeReader (g := o) F hmap hinit p rLab
  have hadd := fun o p rLab => frame_addReader (g := o) F hmap hinit p rLab
  rw [ExecutionGraph.setRf]
  split
  · rfl
  · rename_i rLab _
    cases rLab.rf <;> cases rf
    · exact hmap _ _
    · exact ((hmap _ _).trans (hadd _ _ _)).trans (hmap _ _)
    · exact (hrem _ _ _).trans (hmap _ _)
    · exact (((hmap _ _).trans (hadd _ _ _)).trans (hrem _ _ _)).trans (hmap _ _)

theorem insertionOrder_setRf (r : Event) (rf : Option Event) :
    (g.setRf r rf).insertionOrder = g.insertionOrder :=
  frame_setRf (·.insertionOrder) (fun _ _ => rfl) (fun _ _ => rfl) r rf

theorem coherence_setRf (r : Event) (rf : Option Event) :
    (g.setRf r rf).coherence = g.coherence :=
  frame_setRf (·.coherence) (fun _ _ => rfl) (fun _ _ => rfl) r rf

/-- What a read can be made to read from: nothing, the initializer or a write. -/
def ValidRf (g : ExecutionGraph) (rf : Option Event) : Prop :=
  ∀ w, rf = some w → w = Event.getInit ∨
    ∃ wLab, g.getEventLabel w = some wLab ∧ wLab.isWrite = true

/-- **`setRf` keeps the cross reference**, also when the read is made to read from nothing. -/
theorem ReaderInv.setRf (h : ReaderInv g) {r : Event} {rLab : EventLabel}
    (hr : g.getEventLabel r = some rLab) (hread : rLab.isRead = true) {rf : Option Event}
    (hrf : ValidRf g rf) : ReaderInv (g.setRf r rf) := by
  have hmem := EventLabel.isMemAccess_of_isRead hread
  have hpos : rLab.pos = r := h.seated.pos_eq hr (h.above r rLab hr hmem)
  obtain ⟨f, hf, hf'⟩ := rewiredBy_setRf hr hpos rf
  beta_reduce at hf'
  have hinit := initReaders_setRf hr hpos rf
  have hsome : ∀ {e lab'}, (g.setRf r rf).getEventLabel e = some lab' →
      ∃ lab, g.getEventLabel e = some lab ∧ lab' = f lab := by
    intro e lab' h'
    rw [hf] at h'
    obtain ⟨lab, h1, h2⟩ := Option.map_eq_some_iff.1 h'
    exact ⟨lab, h1, h2.symm⟩
  have hkind : ∀ lab, (f lab).isMemAccess = lab.isMemAccess ∧ (f lab).isRead = lab.isRead ∧
      (f lab).isWrite = lab.isWrite := fun lab => by
    simp only [EventLabel.isMemAccess, EventLabel.isRead, EventLabel.isWrite, (hf' lab).kind,
      and_self]
  have hposEq : ∀ {e lab}, g.getEventLabel e = some lab → lab.isMemAccess = true →
      lab.pos = e := fun h1 h2 => h.seated.pos_eq h1 (h.above _ _ h1 h2)
  have hwritePos : ∀ {w wLab}, g.getEventLabel w = some wLab → wLab.isWrite = true →
      wLab.pos = w ∧ w ≠ Event.getInit := fun h1 h2 =>
    ⟨hposEq h1 (EventLabel.isMemAccess_of_isWrite h2),
      h.ne_init h1 (EventLabel.isMemAccess_of_isWrite h2)⟩
  -- the other reads keep their source
  have hother : ∀ {r' rLab'}, g.getEventLabel r' = some rLab' → rLab'.isRead = true → r' ≠ r →
      (f rLab').rf = rLab'.rf := by
    intro r' rLab' h1 h2 hne
    rw [(hf' rLab').rf, hposEq h1 (EventLabel.isMemAccess_of_isRead h2), if_neg hne]
  have hself : (f rLab).rf = rf := by rw [(hf' rLab).rf, if_pos hpos]
  have hget : ∀ {e lab}, g.getEventLabel e = some lab →
      (g.setRf r rf).getEventLabel e = some (f lab) := fun h1 => by rw [hf, h1]; rfl
  have hreaders : ∀ {w wLab}, g.getEventLabel w = some wLab → wLab.isWrite = true →
      (f wLab).readers = moveReader rLab.rf rf r w wLab.readers := by
    intro w wLab h1 h2
    obtain ⟨h3, h4⟩ := hwritePos h1 h2
    rw [(hf' wLab).readers, h3, if_neg h4]
  refine ⟨fun e lab' h' => ?_, fun e lab' h' => ?_, fun e he h' => ?_, fun e lab' h' hm => ?_,
    fun e lab' h' hm => ?_, fun r' rLab' w h' hr' hw => ?_, fun w wLab' h' hw => ?_,
    fun a => ?_⟩
  · obtain ⟨lab, h1, rfl⟩ := hsome h'
    rw [(hf' lab).pos]
    exact h.seated e lab h1
  · obtain ⟨lab, h1, rfl⟩ := hsome h'
    rw [(hf' lab).stamp]
    exact h.stamped e lab h1
  · rw [hf, Option.isSome_map] at h'
    have hio : (g.setRf r rf).insertionOrder = g.insertionOrder := insertionOrder_setRf r rf
    rw [hio]
    exact h.inserted e he h'
  · obtain ⟨lab, h1, rfl⟩ := hsome h'
    exact h.above e lab h1 ((hkind lab).1 ▸ hm)
  · obtain ⟨lab, h1, rfl⟩ := hsome h'
    rw [(hf' lab).addr, coherence_setRf]
    exact h.tracked e lab h1 ((hkind lab).1 ▸ hm)
  · obtain ⟨rLab', h1, rfl⟩ := hsome h'
    rw [(hkind rLab').2.1] at hr'
    rw [(hf' rLab').addr]
    by_cases hne : r' = r
    · subst hne
      rw [hr] at h1
      cases h1
      rw [hself] at hw
      rcases hrf w hw with rfl | ⟨wLab, hwLab, hwrite⟩
      · left
        rw [hinit, if_pos rfl]
        exact ⟨rfl, mem_moveReader.2 (Or.inl ⟨rfl, hw⟩)⟩
      · refine Or.inr ⟨f wLab, hget hwLab, (hkind wLab).2.2.trans hwrite, ?_⟩
        rw [hreaders hwLab hwrite]
        exact mem_moveReader.2 (Or.inl ⟨rfl, hw⟩)
    · rw [hother h1 hr' hne] at hw
      rcases h.rf r' rLab' w h1 hr' hw with ⟨rfl, h2⟩ | ⟨wLab, h2, h3, h4⟩
      · left
        rw [hinit]
        refine ⟨rfl, ?_⟩
        split
        · exact mem_moveReader.2 (Or.inr ⟨h2, fun h' => hne h'.1⟩)
        · exact h2
      · refine Or.inr ⟨f wLab, hget h2, (hkind wLab).2.2.trans h3, ?_⟩
        rw [hreaders h2 h3]
        exact mem_moveReader.2 (Or.inr ⟨h4, fun h' => hne h'.1⟩)
  · obtain ⟨wLab, h1, rfl⟩ := hsome h'
    rw [(hkind wLab).2.2] at hw
    obtain ⟨h2, h3⟩ := h.readers w wLab h1 hw
    have hold : r ∈ wLab.readers → rLab.rf = some w := by
      intro hmem
      obtain ⟨rLab', h4, -, h5⟩ := h3 r hmem
      rw [hr] at h4
      cases h4
      exact h5
    rw [hreaders h1 hw]
    refine ⟨nodup_moveReader h2 hold, fun r' hr' => ?_⟩
    rcases mem_moveReader.1 hr' with ⟨rfl, hnew⟩ | ⟨hmem', hne⟩
    · exact ⟨f rLab, hget hr, (hkind rLab).2.1.trans hread, hself.trans hnew⟩
    · obtain ⟨rLab', h4, h5, h6⟩ := h3 r' hmem'
      have hne' : r' ≠ r := fun h' => hne ⟨h', hold (h' ▸ hmem')⟩
      exact ⟨f rLab', hget h4, (hkind rLab').2.1.trans h5, (hother h4 h5 hne').trans h6⟩
  · obtain ⟨h2, h3⟩ := h.initReaders a
    have hmove : ∀ r' ∈ g.initReaders a, r' ≠ r → ∃ rLab', (g.setRf r rf).getEventLabel r' =
        some rLab' ∧ rLab'.isRead = true ∧ rLab'.addr = a ∧
          rLab'.rf = some Event.getInit := by
      intro r' hr' hne
      obtain ⟨rLab', h4, h5, h6, h7⟩ := h3 r' hr'
      exact ⟨f rLab', hget h4, (hkind rLab').2.1.trans h5, (hf' rLab').addr.trans h6,
        (hother h4 h5 hne).trans h7⟩
    have hold : r ∈ g.initReaders a → rLab.addr = a ∧ rLab.rf = some Event.getInit := by
      intro hmem
      obtain ⟨rLab', h4, -, h5⟩ := h3 r hmem
      rw [hr] at h4
      cases h4
      exact h5
    rw [hinit]
    split
    · rename_i ha
      refine ⟨nodup_moveReader h2 fun hmem => (hold hmem).2, fun r' hr' => ?_⟩
      rcases mem_moveReader.1 hr' with ⟨rfl, hnew⟩ | ⟨hmem', hne⟩
      · exact ⟨f rLab, hget hr, (hkind rLab).2.1.trans hread, (hf' rLab).addr.trans ha.symm,
          hself.trans hnew⟩
      · exact hmove r' hmem' fun h' => hne ⟨h', (hold (h' ▸ hmem')).2⟩
    · rename_i ha
      refine ⟨h2, fun r' hr' => hmove r' hr' ?_⟩
      rintro rfl
      exact ha (hold hr').1.symm

/-! ## Restriction -/

/-- What restricting a graph to the events satisfying `keep` does to a label: it keeps its
pointers to events that are kept. -/
structure RestrictedLabel (keep : Event → Bool) (lab lab' : EventLabel) : Prop where
  kind : lab'.kind = lab.kind
  addr : lab'.addr = lab.addr
  rf : lab.isRead = true → lab'.rf = lab.rf.filter fun w => w = Event.getInit || keep w
  readers : lab.isWrite = true → lab'.readers = lab.readers.filter keep

/-- `g'` is `g` restricted to the events satisfying `keep`, begins apart. -/
structure RestrictedTo (keep : Event → Bool) (g g' : ExecutionGraph) : Prop where
  seated : g'.Seated
  stamped : g'.Stamped
  inserted : ∀ e, 0 < e.index → (g'.getEventLabel e).isSome → e ∈ g'.insertionOrder
  begins : ∀ e lab, e.index = 0 → g'.getEventLabel e = some lab → lab.isMemAccess = false
  label : ∀ e lab', 0 < e.index → g'.getEventLabel e = some lab' →
    keep e = true ∧ ∃ lab, g.getEventLabel e = some lab ∧ RestrictedLabel keep lab lab'
  kept : ∀ e, 0 < e.index → keep e = true → (g.getEventLabel e).isSome →
    (g'.getEventLabel e).isSome
  initReaders : ∀ a, g'.initReaders a = (g.initReaders a).filter keep ∨
    (g'.initReaders a = [] ∧ ∀ e lab, 0 < e.index → keep e = true → g.getEventLabel e = some lab →
      lab.isRead = true → lab.addr ≠ a)
  tracked : ∀ e lab, 0 < e.index → g'.getEventLabel e = some lab → lab.isMemAccess = true →
    (g'.coherence lab.addr).isSome

/-- **Restriction keeps the cross reference.** -/
theorem ReaderInv.restrict (h : ReaderInv g) (keep : Event → Bool) {g' : ExecutionGraph}
    (hr : RestrictedTo keep g g') : ReaderInv g' := by
  have habove : ∀ e lab, g'.getEventLabel e = some lab → lab.isMemAccess = true →
      0 < e.index := by
    intro e lab h1 h2
    rw [Nat.pos_iff_ne_zero]
    intro h0
    rw [hr.begins e lab h0 h1] at h2
    cases h2
  -- a read of the restriction, and the read it comes from
  have hread : ∀ e lab', g'.getEventLabel e = some lab' → lab'.isRead = true →
      0 < e.index ∧ keep e = true ∧ ∃ lab, g.getEventLabel e = some lab ∧ lab.isRead = true ∧
        lab'.addr = lab.addr ∧
        lab'.rf = lab.rf.filter fun w => w = Event.getInit || keep w := by
    intro e lab' h1 h2
    have hpos := habove e lab' h1 (EventLabel.isMemAccess_of_isRead h2)
    obtain ⟨hk, lab, h3, h4⟩ := hr.label e lab' hpos h1
    have h5 : lab.isRead = true := by simpa only [EventLabel.isRead, h4.kind] using h2
    exact ⟨hpos, hk, lab, h3, h5, h4.addr, h4.rf h5⟩
  -- a read that is kept, together with what it reads from
  have hkept : ∀ e lab w, g.getEventLabel e = some lab → lab.isRead = true → lab.rf = some w →
      keep e = true → (w = Event.getInit ∨ keep w = true) → ∃ lab',
        g'.getEventLabel e = some lab' ∧ lab'.isRead = true ∧ lab'.addr = lab.addr ∧
          lab'.rf = some w := by
    intro e lab w h1 h2 h3 hk hw
    have hpos := h.above e lab h1 (EventLabel.isMemAccess_of_isRead h2)
    obtain ⟨lab', h4⟩ := Option.isSome_iff_exists.1 (hr.kept e hpos hk (by rw [h1]; rfl))
    obtain ⟨-, lab₀, h5, h6⟩ := hr.label e lab' hpos h4
    rw [h1] at h5
    cases h5
    refine ⟨lab', h4, ?_, h6.addr, ?_⟩
    · simpa only [EventLabel.isRead, h6.kind] using h2
    · rw [h6.rf h2, h3]
      simpa using hw
  refine ⟨hr.seated, hr.stamped, hr.inserted, habove,
    fun e lab h1 h2 => hr.tracked e lab (habove e lab h1 h2) h1 h2,
    fun r rLab' w h1 h2 hw => ?_, fun w wLab' h1 h2 => ?_, fun a => ?_⟩
  · obtain ⟨hpos, hk, rLab, h3, h4, h5, h6⟩ := hread r rLab' h1 h2
    rw [h6, Option.filter_eq_some_iff] at hw
    obtain ⟨hw, hcond⟩ := hw
    rcases h.rf r rLab w h3 h4 hw with ⟨rfl, h7⟩ | ⟨wLab, h7, h8, h9⟩
    · left
      rw [h5]
      rcases hr.initReaders rLab.addr with h8 | ⟨-, h8⟩
      · rw [h8]
        exact ⟨rfl, List.mem_filter.2 ⟨h7, hk⟩⟩
      · exact absurd rfl (h8 r rLab hpos hk h3 h4)
    · have hmem := EventLabel.isMemAccess_of_isWrite h8
      have hkw : keep w = true := by simpa [h.ne_init h7 hmem] using hcond
      obtain ⟨wLab', h10⟩ := Option.isSome_iff_exists.1
        (hr.kept w (h.above w wLab h7 hmem) hkw (by rw [h7]; rfl))
      obtain ⟨-, wLab₀, h11, h12⟩ := hr.label w wLab' (h.above w wLab h7 hmem) h10
      rw [h7] at h11
      cases h11
      refine Or.inr ⟨wLab', h10, ?_, ?_⟩
      · simpa only [EventLabel.isWrite, h12.kind] using h8
      · rw [h12.readers h8]
        exact List.mem_filter.2 ⟨h9, hk⟩
  · have hpos := habove w wLab' h1 (EventLabel.isMemAccess_of_isWrite h2)
    obtain ⟨hk, wLab, h3, h4⟩ := hr.label w wLab' hpos h1
    have h5 : wLab.isWrite = true := by simpa only [EventLabel.isWrite, h4.kind] using h2
    obtain ⟨h6, h7⟩ := h.readers w wLab h3 h5
    rw [h4.readers h5]
    refine ⟨h6.filter _, fun r hr' => ?_⟩
    obtain ⟨hmem, hkr⟩ := List.mem_filter.1 hr'
    obtain ⟨rLab, h8, h9, h10⟩ := h7 r hmem
    obtain ⟨rLab', h11, h12, -, h13⟩ := hkept r rLab w h8 h9 h10 hkr (Or.inr hk)
    exact ⟨rLab', h11, h12, h13⟩
  · obtain ⟨h1, h2⟩ := h.initReaders a
    rcases hr.initReaders a with h3 | ⟨h3, -⟩
    · rw [h3]
      refine ⟨h1.filter _, fun r hr' => ?_⟩
      obtain ⟨hmem, hkr⟩ := List.mem_filter.1 hr'
      obtain ⟨rLab, h4, h5, h6, h7⟩ := h2 r hmem
      obtain ⟨rLab', h8, h9, h10, h11⟩ := hkept r rLab _ h4 h5 h7 hkr (Or.inl rfl)
      exact ⟨rLab', h8, h9, h10.trans h6, h11⟩
    · rw [h3]
      exact ⟨List.nodup_nil, by simp⟩

/-! ## Cutting -/

theorem restrictedLabel_dropPointers (preds : View) (lab : EventLabel) (io : List Event) :
    RestrictedLabel (preds.contains ·) lab (restampLabel io 0 (dropPointers preds lab)) := by
  refine ⟨rfl, rfl, fun hr => ?_, fun hw => ?_⟩
  · simp only [restampLabel, dropPointers, hr, if_true]
    congr 1
    funext w
    by_cases h : w = Event.getInit
    · simp [h, preds.contains_of_index_eq_zero (e := Event.getInit) rfl]
    · simp [h]
  · simp only [restampLabel, dropPointers, hw, if_true]

/-- The location of an access in the view is to be kept. -/
theorem any_keptEvents {preds : View} {e : Event} {lab : EventLabel}
    (hlab : g.getEventLabel e = some lab) (he : preds.contains e = true)
    (hm : lab.isMemAccess = true) :
    ((g.keptEvents preds).flatten.any fun lab' =>
      lab'.isMemAccess && lab'.addr = lab.addr) = true := by
  rw [List.any_eq_true]
  refine ⟨lab, ?_, by simp [hm]⟩
  have h := getElem?_keptEvents (g := g) preds e
  rw [if_pos he, hlab] at h
  obtain ⟨thr, hthr, hi⟩ : ∃ thr, (g.keptEvents preds)[e.thread]? = some thr ∧
      thr[e.index]? = some lab := by
    rw [List.getD_eq_getElem?_getD] at h
    cases hk : (g.keptEvents preds)[e.thread]? with
    | none => simp [hk] at h
    | some thr => exact ⟨thr, rfl, by simpa [hk] using h⟩
  exact List.mem_flatten.2 ⟨thr, List.mem_of_getElem? hthr, List.mem_of_getElem? hi⟩

/-- An access in the view keeps its location alive. -/
theorem isSome_removeAfter {preds : View} {e : Event} {lab : EventLabel}
    (hlab : g.getEventLabel e = some lab) (he : preds.contains e = true)
    (hm : lab.isMemAccess = true) (hco : (g.coherence lab.addr).isSome) :
    ((g.removeAfter preds).coherence lab.addr).isSome ∧
      (g.removeAfter preds).initReaders lab.addr =
        (g.initReaders lab.addr).filter (preds.contains ·) := by
  have hkeep := any_keptEvents hlab he hm
  have hnone : ¬ (g.coherence lab.addr).isNone = true := by
    rw [Option.isNone_iff_eq_none]
    exact Option.isSome_iff_ne_none.1 hco
  refine ⟨?_, ?_⟩
  · rw [removeAfter]
    simp only
    rw [if_neg hnone, if_pos hkeep]
    rfl
  · rw [removeAfter, initReaders]
    simp only
    rw [if_neg hnone, if_pos hkeep]
    rfl

/-- After cutting, the readers of the initializer are those in the view, or the location is gone
together with its accesses. -/
theorem initReaders_removeAfter (h : ReaderInv g) (preds : View) (a : SAddr) :
    (g.removeAfter preds).initReaders a = (g.initReaders a).filter (preds.contains ·) ∨
      ((g.removeAfter preds).initReaders a = [] ∧ ∀ e lab, 0 < e.index →
        preds.contains e = true → g.getEventLabel e = some lab → lab.isRead = true →
          lab.addr ≠ a) := by
  by_cases hex : ∃ e lab, preds.contains e = true ∧ g.getEventLabel e = some lab ∧
      lab.isRead = true ∧ lab.addr = a
  · obtain ⟨e, lab, he, hlab, hr, rfl⟩ := hex
    have hm := EventLabel.isMemAccess_of_isRead hr
    exact Or.inl (isSome_removeAfter hlab he hm (h.tracked e lab hlab hm)).2
  · have hempty : (g.initReaders a).filter (preds.contains ·) = [] := by
      rw [List.filter_eq_nil_iff]
      intro r hr hc
      obtain ⟨rLab, h1, h2, h3, -⟩ := (h.initReaders a).2 r hr
      exact hex ⟨r, rLab, hc, h1, h2, h3⟩
    by_cases hco : (g.coherence a).isNone
    · left
      have hnil : g.initReaders a = [] := by
        rw [List.eq_nil_iff_forall_not_mem]
        intro r hr
        obtain ⟨rLab, h1, h2, rfl, -⟩ := (h.initReaders a).2 r hr
        have := h.tracked r rLab h1 (EventLabel.isMemAccess_of_isRead h2)
        rw [Option.isNone_iff_eq_none] at hco
        rw [hco] at this
        cases this
      rw [hnil]
      rw [removeAfter, initReaders]
      simp only
      rw [if_pos hco]
      exact hnil
    · refine Or.inr ⟨?_, fun e lab _ he hlab hr ha => hex ⟨e, lab, he, hlab, hr, ha⟩⟩
      rw [removeAfter, initReaders]
      simp only
      rw [if_neg hco]
      split
      · exact hempty
      · rfl

/-- A begin that is left after cutting was a begin before. -/
theorem begin_cutToStamp (hs : g.Seated) (stamp : ℕ) {t : ℕ} {lab' : EventLabel}
    (h' : (g.cutToStamp stamp).getEventLabel ⟨t, 0⟩ = some lab') :
    ∃ t₀ lab, g.getEventLabel ⟨t₀, 0⟩ = some lab ∧ lab'.kind = lab.kind ∧
      (lab.stamp.isSome → lab'.stamp.isSome) := by
  set preds := g.getViewFromStamp stamp with hpreds
  set g₁ := g.restrictTo preds with hg₁
  have hclean := cleanedUp_cleanupBegins (g := g₁) (fun _ bLab => bLab.create.isNone)
    g₁.getNumThreads (hs.restrictTo preds) fun t ht => by rw [getThreadSize_eq_zero ht]; omega
  set g₂ := g₁.cleanupBegins (fun _ bLab => bLab.create.isNone) g₁.getNumThreads with hg₂
  have hcut : g.cutToStamp stamp = g₂.resetStamps := rfl
  rw [hcut, resetStamps_eq] at h'
  change (g₂.mapLabels _).getEventLabel ⟨t, 0⟩ = _ at h'
  rw [getEventLabel_mapLabels] at h'
  obtain ⟨lab₂, h2, rfl⟩ := Option.map_eq_some_iff.1 h'
  obtain ⟨t', lab₁, h3, hk, hst⟩ := hclean.begins t lab₂ h2
  rw [hg₁, getEventLabel_restrictTo, if_pos (preds.contains_of_index_eq_zero rfl)] at h3
  obtain ⟨lab, h4, rfl⟩ := Option.map_eq_some_iff.1 h3
  refine ⟨t', lab, h4, hk, fun hsome => restamp_isSome ?_⟩
  rw [hst]
  exact hsome

/-- `cutToStamp` restricts the graph to a view. -/
theorem ReaderInv.restrictedTo_cutToStamp (h : ReaderInv g) (stamp : ℕ) :
    RestrictedTo ((g.getViewFromStamp stamp).contains ·) g (g.cutToStamp stamp) := by
  set preds := g.getViewFromStamp stamp with hpreds
  set g₁ := g.restrictTo preds with hg₁
  have hclean := cleanedUp_cleanupBegins (g := g₁) (fun _ bLab => bLab.create.isNone)
    g₁.getNumThreads (h.seated.restrictTo preds) fun t ht => by
      rw [getThreadSize_eq_zero ht]; omega
  set g₂ := g₁.cleanupBegins (fun _ bLab => bLab.create.isNone) g₁.getNumThreads with hg₂
  have hcut : g.cutToStamp stamp = { g₂.mapLabels (restampLabel g₂.insertionOrder 0) with
      timestamp := g₂.insertionOrder.length } := resetStamps_eq
  have hget : ∀ e, (g.cutToStamp stamp).getEventLabel e =
      (g₂.getEventLabel e).map (restampLabel g₂.insertionOrder 0) := getEventLabel_resetStamps
  have hget₁ : ∀ e, 0 < e.index → (g.cutToStamp stamp).getEventLabel e =
      if preds.contains e then (g.getEventLabel e).map fun lab =>
        restampLabel g₂.insertionOrder 0 (dropPointers preds lab) else none := by
    intro e he
    rw [hget, hclean.label e he, hg₁, getEventLabel_restrictTo]
    split
    · rw [Option.map_map]
      rfl
    · rfl
  have hsome : ∀ {e lab'}, 0 < e.index → (g.cutToStamp stamp).getEventLabel e = some lab' →
      preds.contains e = true ∧ ∃ lab, g.getEventLabel e = some lab ∧
        lab' = restampLabel g₂.insertionOrder 0 (dropPointers preds lab) := by
    intro e lab' he h'
    rw [hget₁ e he] at h'
    split at h'
    · rename_i hc
      obtain ⟨lab, h1, h2⟩ := Option.map_eq_some_iff.1 h'
      exact ⟨hc, lab, h1, h2.symm⟩
    · cases h'
  refine ⟨?_, fun e lab' h' => ?_, fun e he h' => ?_,
    fun e lab' he h' => ?_, fun e lab' he h' => ?_, fun e he hk h' => ?_, fun a => ?_,
    fun e lab' he h' hm => ?_⟩
  · exact h.seated.cutToStamp stamp
  · rcases Nat.eq_zero_or_pos e.index with he | he
    · obtain ⟨t, i⟩ := e
      obtain rfl : i = 0 := he
      obtain ⟨t₀, lab, h1, -, h2⟩ := begin_cutToStamp h.seated stamp h'
      exact h2 (h.stamped _ _ h1)
    · obtain ⟨-, lab, h1, rfl⟩ := hsome he h'
      exact restamp_isSome (h.stamped e lab h1)
  · obtain ⟨lab', h1⟩ := Option.isSome_iff_exists.1 h'
    obtain ⟨hc, lab, h2, -⟩ := hsome he h1
    rw [hcut]
    show e ∈ g₂.insertionOrder
    rw [hclean.inserted e he]
    exact List.mem_filter.2 ⟨h.inserted e he (by rw [h2]; rfl), hc⟩
  · obtain ⟨t, i⟩ := e
    obtain rfl : i = 0 := he
    obtain ⟨t₀, lab, h1, h2, -⟩ := begin_cutToStamp h.seated stamp h'
    rw [EventLabel.isMemAccess, h2, ← EventLabel.isMemAccess]
    by_contra hm
    exact lt_irrefl _ (h.above _ _ h1 (by simpa using hm))
  · obtain ⟨hc, lab, h1, rfl⟩ := hsome he h'
    exact ⟨hc, lab, h1, restrictedLabel_dropPointers preds lab _⟩
  · rw [hget₁ e he, if_pos hk, Option.isSome_map]
    exact h'
  · have hinit : (g.cutToStamp stamp).initReaders a = (g.removeAfter preds).initReaders a := by
      rw [hcut]
      show (g₂.initRfs a).getD [] = _
      rw [hclean.initRfs]
      rfl
    rw [hinit]
    exact initReaders_removeAfter h preds a
  · obtain ⟨hc, lab, h1, rfl⟩ := hsome he h'
    have hco : (g.cutToStamp stamp).coherence = (g.removeAfter preds).coherence := by
      rw [hcut]
      show g₂.coherence = _
      rw [hclean.coherence]
      rfl
    rw [hco]
    exact (isSome_removeAfter h1 hc hm (h.tracked e lab h1 hm)).1

/-- **`cutToStamp` keeps the cross reference.** -/
theorem ReaderInv.cutToStamp (h : ReaderInv g) (stamp : ℕ) : ReaderInv (g.cutToStamp stamp) :=
  h.restrict _ (h.restrictedTo_cutToStamp stamp)

/-! ## Copying -/

/-- What the copy keeps of a label of the view. -/
theorem ReaderInv.restrictedLabel_fixPointers (h : ReaderInv g) (hs : g.Slots) (v : View)
    {e : Event} {lab : EventLabel} (hlab : g.getEventLabel e = some lab) (io : List Event) :
    RestrictedLabel (v.contains ·) lab
      (fixPointers g (g.orderedCopy v) v (restampLabel io 0 lab.clone)) := by
  have hpos : lab.pos = e := hs e lab hlab
  refine ⟨rfl, rfl, fun hr => ?_, fun hw => ?_⟩
  · show (if lab.isRead then lab.rf.bind _ else lab.rf) = _
    rw [if_pos hr]
    cases hrf : lab.rf with
    | none => rfl
    | some w =>
      show relink (g.orderedCopy v) v w = _
      rcases h.rf e lab w hlab hr hrf with ⟨rfl, -⟩ | ⟨wLab, h1, h2, -⟩
      · rw [relink_orderedCopy_init hs h.stamped]
        rfl
      · have hm := EventLabel.isMemAccess_of_isWrite h2
        rw [relink_orderedCopy hs h.stamped v (h.above w wLab h1 hm), h1]
        simp only [Option.filter_some, h.ne_init h1 hm, Option.isSome_some, Bool.and_true,
          decide_false, Bool.false_or]
  · show (if lab.isWrite then ((g.getEventLabel lab.pos).map (·.readers)).getD [] |>.filterMap _
      else _) = _
    rw [if_pos hw, hpos, hlab]
    show lab.readers.filterMap _ = _
    rw [← List.filterMap_eq_filter]
    refine List.filterMap_congr fun r hr => ?_
    obtain ⟨rLab, h1, h2, -⟩ := (h.readers e lab hlab hw).2 r hr
    rw [relink_orderedCopy hs h.stamped v
      (h.above r rLab h1 (EventLabel.isMemAccess_of_isRead h2)), h1, Option.isSome_some,
      Bool.and_true]
    rfl

/-- A begin of the copy is the clone of a begin, or the new initializer. -/
theorem begin_copyGraphUpTo (hs : g.Slots) (hst : g.Stamped) (v : View) {t : ℕ}
    {lab' : EventLabel} (h' : (g.copyGraphUpTo v).getEventLabel ⟨t, 0⟩ = some lab') :
    (lab'.kind = .Init ∨ ∃ t₀ lab, g.getEventLabel ⟨t₀, 0⟩ = some lab ∧ lab'.kind = lab.kind) ∧
      lab'.stamp.isSome := by
  rw [copyGraphUpTo_eq] at h'
  change ((g.orderedCopy v).mapLabels _).getEventLabel ⟨t, 0⟩ = _ at h'
  rw [getEventLabel_mapLabels, getEventLabel_orderedCopy, Option.map_map] at h'
  obtain ⟨lab₁, h1, rfl⟩ := Option.map_eq_some_iff.1 h'
  obtain ⟨t', lab₀, h2, hkind, hstamp⟩ := (cleanedUp_cleanedCopy hs hst v).begins t lab₁ h1
  have h3 : (lab₀.kind = .Init ∨ ∃ t₀ lab, g.getEventLabel ⟨t₀, 0⟩ = some lab ∧
      lab₀.kind = lab.kind) ∧ lab₀.stamp.isSome := by
    rw [getEventLabel_cloneLabels hs hst] at h2
    split at h2
    · cases h2
      exact ⟨.inl rfl, rfl⟩
    · split at h2
      · obtain ⟨lab, h4, rfl⟩ := Option.map_eq_some_iff.1 h2
        exact ⟨.inr ⟨t', lab, h4, rfl⟩, hst _ lab h4⟩
      · cases h2
  have hst : (restampLabel (g.copiedOrder (g.cleanedCopy v)) 0 lab₁).stamp.isSome :=
    restamp_isSome (hstamp ▸ h3.2)
  have hk : (restampLabel (g.copiedOrder (g.cleanedCopy v)) 0 lab₁).kind = lab₀.kind := hkind
  rw [← hk] at h3
  rw [Function.comp_apply]
  split
  · exact ⟨h3.1, hst⟩
  · exact ⟨h3.1, hst⟩

/-- `copyGraphUpTo` restricts the graph to a view. -/
theorem ReaderInv.restrictedTo_copyGraphUpTo (h : ReaderInv g) (hs : g.Slots) (v : View) :
    RestrictedTo (v.contains ·) g (g.copyGraphUpTo v) := by
  have hclean := cleanedUp_cleanedCopy hs h.stamped v
  have hclone := cloned_cloneLabels hs h.stamped v
  have hget := fun {e : Event} (he : 0 < e.index) =>
    getEventLabel_copyGraphUpTo hs h.stamped v h.inserted he
  have hsome : ∀ {e lab'}, 0 < e.index → (g.copyGraphUpTo v).getEventLabel e = some lab' →
      v.contains e = true ∧ ∃ lab, g.getEventLabel e = some lab ∧ lab' = fixPointers g
        (g.orderedCopy v) v (restampLabel (g.copiedOrder (g.cleanedCopy v)) 0 lab.clone) := by
    intro e lab' he h'
    rw [hget he] at h'
    split at h'
    · rename_i hc
      obtain ⟨lab, h1, h2⟩ := Option.map_eq_some_iff.1 h'
      exact ⟨hc, lab, h1, h2.symm⟩
    · cases h'
  have hbegin : ∀ {e lab'}, e.index = 0 → (g.copyGraphUpTo v).getEventLabel e = some lab' →
      lab'.isMemAccess = false ∧ lab'.stamp.isSome := by
    intro e lab' he h'
    obtain ⟨t, i⟩ := e
    obtain rfl : i = 0 := he
    obtain ⟨hinit | ⟨t₀, lab, h1, hk⟩, hst⟩ := begin_copyGraphUpTo hs h.stamped v h'
    · refine ⟨?_, hst⟩
      rw [EventLabel.isMemAccess, hinit]
      rfl
    · refine ⟨?_, hst⟩
      rw [EventLabel.isMemAccess, hk, ← EventLabel.isMemAccess]
      by_contra hm
      exact lt_irrefl _ (h.above _ lab h1 (by simpa using hm))
  have hcoh : ∀ a, ((g.cloneLabels v).coherence a).isSome →
      ((g.copyGraphUpTo v).coherence a).isSome := by
    intro a ha
    refine isSome_appendKept ?_
    show ((g.orderedCopy v).coherence a).isSome
    rw [orderedCopy, fixInsertionOrder_eq]
    show ((g.cleanedCopy v).coherence a).isSome
    rwa [hclean.coherence]
  refine ⟨?_, fun e lab' h' => ?_, fun e he h' => ?_,
    fun e lab' he h' => (hbegin he h').1, fun e lab' he h' => ?_, fun e he hk h' => ?_,
    fun a => ?_, fun e lab' he h' hm => ?_⟩
  · exact seated_copyGraphUpTo hs h.stamped v
  · rcases Nat.eq_zero_or_pos e.index with he | he
    · exact (hbegin he h').2
    · obtain ⟨-, lab, h1, rfl⟩ := hsome he h'
      exact restamp_isSome (h.stamped e lab h1)
  · obtain ⟨lab', h1⟩ := Option.isSome_iff_exists.1 h'
    obtain ⟨hc, lab, h2, -⟩ := hsome he h1
    have hio : (g.copyGraphUpTo v).insertionOrder = g.copiedOrder (g.cleanedCopy v) := by
      rw [copyGraphUpTo_eq]
      show (g.orderedCopy v).insertionOrder = _
      rw [orderedCopy, fixInsertionOrder_eq]
    rw [hio]
    refine List.mem_filterMap.2 ⟨e, h.inserted e he (by rw [h2]; rfl), ?_⟩
    rw [getEventLabel_cleanedCopy hs h.stamped v he, if_pos hc, h2]
    exact congrArg some (hs e lab h2)
  · obtain ⟨hc, lab, h1, rfl⟩ := hsome he h'
    exact ⟨hc, lab, h1, h.restrictedLabel_fixPointers hs v h1 _⟩
  · rw [hget he, if_pos hk, Option.isSome_map]
    exact h'
  · rw [initReaders_copyGraphUpTo hs h.stamped]
    split
    · exact Or.inl rfl
    · rename_i hnone
      refine Or.inr ⟨rfl, fun e lab _ _ h1 h2 ha => hnone ?_⟩
      rw [← ha]
      exact h.tracked e lab h1 (EventLabel.isMemAccess_of_isRead h2)
  · obtain ⟨hc, lab, h1, rfl⟩ := hsome he h'
    refine hcoh _ ((hclone.tracked _).2 ⟨e.thread, lt_getNumThreads_of_getEventLabel h1,
      lab.clone, List.mem_of_getElem? (i := e.index) ?_, ?_, rfl⟩)
    · rw [getElem?_clonedThread, if_neg (fun h0 => by rw [h0] at he; exact lt_irrefl _ he),
        if_pos hc, h1]
      rfl
    · have : lab.isMemAccess = true := hm
      show (lab.isMemAccess || _) = true
      rw [this]
      rfl

/-- **The graph built by `copyGraphUpTo` satisfies the cross reference.** -/
theorem ReaderInv.copyGraphUpTo (h : ReaderInv g) (hs : g.Slots) (v : View) :
    ReaderInv (g.copyGraphUpTo v) :=
  h.restrict _ (h.restrictedTo_copyGraphUpTo hs v)

/-! ## Removing the last label of a thread -/

theorem mapLabels_id : g.mapLabels id = g := by
  simp [mapLabels]

/-- The rest of `removeLast` takes the label out. -/
theorem removeLast_eq {t : ℕ} {lab : EventLabel} (hlast : g.getLastThreadLabel t = some lab) :
    ∃ f : EventLabel → EventLabel, (∀ l, SameAccess l (f l)) ∧ ∃ accesses,
      g.removeLast t =
        { (g.unlinkLabel lab).mapLabels f with
          accessMap := accesses
          insertionOrder := (g.unlinkLabel lab).insertionOrder.erase lab.pos
          events := ((g.unlinkLabel lab).mapLabels f).events.modify t List.dropLast } := by
  rw [removeLast]
  rw [hlast]
  simp only
  -- clearing a creation, or a join
  have hclear : ∀ (g' : ExecutionGraph) (x : Event) (f : EventLabel → EventLabel),
      (∀ l, SameAccess l (f l)) →
        ∃ f', (∀ l, SameAccess l (f' l)) ∧ g'.modify x f = g'.mapLabels f' := by
    intro g' x f hf
    refine ⟨fun l => if l.pos = x then f l else l, fun l => ?_, rfl⟩
    simp only
    split
    · exact hf l
    · exact SameAccess.refl l
  have hid : ∀ g' : ExecutionGraph, ∃ f', (∀ l, SameAccess l (f' l)) ∧ g' = g'.mapLabels f' :=
    fun g' => ⟨id, SameAccess.refl, mapLabels_id.symm⟩
  set g₃ := if lab.isMemAccess || lab.isFree then _ else g.unlinkLabel lab with hg₃
  have h₃ : ∃ accesses, g₃ = { g.unlinkLabel lab with accessMap := accesses } := by
    rw [hg₃]
    split
    · exact ⟨_, rfl⟩
    · exact ⟨_, rfl⟩
  obtain ⟨accesses, h₃⟩ := h₃
  set g₄ := if lab.kind = .ThreadCreate then _ else g₃ with hg₄
  have h₄ : ∃ f, (∀ l, SameAccess l (f l)) ∧ g₄ = g₃.mapLabels f := by
    rw [hg₄]
    split
    · split
      · exact hid g₃
      · exact hclear g₃ _ _ fun l => ⟨rfl, rfl, rfl, rfl, rfl, id⟩
    · exact hid g₃
  obtain ⟨f₄, hf₄, h₄⟩ := h₄
  set g₅ := if lab.kind = .ThreadJoin then _ else g₄ with hg₅
  have h₅ : ∃ f, (∀ l, SameAccess l (f l)) ∧ g₅ = g₄.mapLabels f := by
    rw [hg₅]
    split
    · split
      · exact hid g₄
      · split
        · exact hclear g₄ _ _ fun l => ⟨rfl, rfl, rfl, rfl, rfl, id⟩
        · exact hid g₄
    · exact hid g₄
  obtain ⟨f₅, hf₅, h₅⟩ := h₅
  refine ⟨f₅ ∘ f₄, fun l => (hf₄ l).trans (hf₅ (f₄ l)), accesses, ?_⟩
  rw [h₅, h₄, mapLabels_mapLabels, h₃]
  rfl

theorem getThreadSize_congr {g' : ExecutionGraph}
    (h : ∀ e, (g'.getEventLabel e).isSome = (g.getEventLabel e).isSome) (t : ℕ) :
    g'.getThreadSize t = g.getThreadSize t := by
  have hlt : ∀ i, i < g'.getThreadSize t ↔ i < g.getThreadSize t := by
    intro i
    have := h ⟨t, i⟩
    rw [Bool.eq_iff_iff, Option.isSome_iff_ne_none, Option.isSome_iff_ne_none, getEventLabel,
      getEventLabel, Ne, Ne, List.getElem?_eq_none_iff, List.getElem?_eq_none_iff, not_le,
      not_le] at this
    exact this
  have h1 := hlt (g.getThreadSize t)
  have h2 := hlt (g'.getThreadSize t)
  omega

/-- What is left in a thread without its last label. -/
theorem getElem?_modify_dropLast (l : List (List EventLabel)) (t : ℕ) (e : Event) :
    ((l.modify t List.dropLast).getD e.thread [])[e.index]? =
      if e.thread = t ∧ e.index + 1 = (l.getD t []).length then none
      else (l.getD e.thread [])[e.index]? := by
  rw [getD_modify]
  by_cases ht : e.thread = t
  · by_cases hlt : t < l.length
    · rw [if_pos ⟨ht, hlt⟩, ht, List.getElem?_dropLast]
      by_cases hi : e.index + 1 = (l.getD t []).length
      · rw [if_neg (by omega : ¬ e.index < _), if_pos ⟨rfl, hi⟩]
      · rw [if_neg (fun h : _ ∧ _ => hi h.2)]
        split
        · rfl
        · rw [List.getElem?_eq_none (by omega)]
    · have hnil : l.getD t [] = [] := by
        rw [List.getD_eq_getElem?_getD, List.getElem?_eq_none (not_lt.1 hlt)]
        rfl
      rw [if_neg (fun h => hlt h.2), ht, hnil]
      simp
  · rw [if_neg (fun h => ht h.1), if_neg (fun h => ht h.1)]

/-- Unlinking a label restricts the pointers of the others. -/
theorem ReaderInv.unlinkLabel (h : ReaderInv g) {e₀ : Event} {lab : EventLabel}
    (hlab : g.getEventLabel e₀ = some lab) :
    ∃ f : EventLabel → EventLabel, (∀ e, (g.unlinkLabel lab).getEventLabel e =
        (g.getEventLabel e).map f) ∧
      (∀ l, (f l).pos = l.pos ∧ (f l).stamp = l.stamp ∧ (f l).kind = l.kind) ∧
      ∀ e l, g.getEventLabel e = some l → 0 < e.index →
        RestrictedLabel (fun x => x ≠ lab.pos) l (f l) := by
  have hself : 0 < lab.pos.index → g.getEventLabel lab.pos = some lab :=
    h.seated.getEventLabel_pos hlab
  -- only the readers of `lab` point to it from below, and only its write from above
  have hrf : ∀ {e l}, g.getEventLabel e = some l → l.isRead = true →
      (lab.isWrite = true → e ∉ lab.readers) →
        l.rf = l.rf.filter fun w => w = Event.getInit || w ≠ lab.pos := by
    intro e l hl hr hnot
    cases hw : l.rf with
    | none => rfl
    | some w =>
      rcases h.rf e l w hl hr hw with ⟨rfl, -⟩ | ⟨wLab, h1, h2, h3⟩
      · rfl
      · have hne : w ≠ lab.pos := by
          rintro rfl
          rw [hself (h.above _ _ h1 (EventLabel.isMemAccess_of_isWrite h2))] at h1
          cases h1
          exact hnot h2 h3
        rw [Option.filter_some, if_pos (by simp [hne])]
  have hreaders : ∀ {e l}, g.getEventLabel e = some l → l.isWrite = true →
      (lab.isRead = true → lab.rf ≠ some e) →
        l.readers = l.readers.filter fun x => x ≠ lab.pos := by
    intro e l hl hw hnot
    refine (List.filter_eq_self.2 fun r hr => ?_).symm
    obtain ⟨rLab, h1, h2, h3⟩ := (h.readers e l hl hw).2 r hr
    have hne : r ≠ lab.pos := by
      rintro rfl
      rw [hself (h.above _ _ h1 (EventLabel.isMemAccess_of_isRead h2))] at h1
      cases h1
      exact hnot h2 h3
    simpa using hne
  by_cases hread : lab.isRead = true
  · have hwrite : ¬ lab.isWrite = true := by
      rw [EventLabel.isWrite, EventLabelKind.not_isWrite_of_isRead hread]
      exact Bool.false_ne_true
    have hnot : ∀ {e : Event}, lab.isWrite = true → e ∉ lab.readers := fun hw => absurd hw hwrite
    rw [ExecutionGraph.unlinkLabel]
    rw [if_pos hread, if_neg hwrite]
    cases hlrf : lab.rf with
    | none =>
      exact ⟨id, fun _ => Option.map_id_apply.symm, fun _ => ⟨rfl, rfl, rfl⟩, fun e l hl _ =>
        ⟨rfl, rfl, fun hr => hrf hl hr hnot, fun hw => hreaders hl hw (by simp [hlrf])⟩⟩
    | some w =>
      refine ⟨_, getEventLabel_removeReader w lab, fun _ => ⟨rfl, rfl, rfl⟩, fun e l hl he => ?_⟩
      have hpos := h.seated.pos_eq hl he
      have hrf' := fun hr => hrf hl hr hnot
      refine ⟨rfl, rfl, hrf', fun hw => ?_⟩
      show (if _ then _ else _) = _
      split
      · rfl
      · rename_i hne
        refine hreaders hl hw fun _ heq => hne ⟨?_, ?_⟩
        · rw [hpos]
          exact h.ne_init hl (EventLabel.isMemAccess_of_isWrite hw)
        · rw [hlrf] at heq
          rw [hpos, Option.some.inj heq]
  · by_cases hwrite : lab.isWrite = true
    · rw [ExecutionGraph.unlinkLabel]
      rw [if_neg hread, if_pos hwrite]
      refine ⟨_, getEventLabel_mapLabels _, fun l => ?_, fun e l hl he => ⟨?_, ?_,
        fun hr => ?_, fun hw => ?_⟩⟩
      · split
        · exact ⟨rfl, rfl, rfl⟩
        · exact ⟨rfl, rfl, rfl⟩
      · split <;> rfl
      · split <;> rfl
      · rw [h.seated.pos_eq hl he]
        split
        · rename_i hmem
          obtain ⟨l', h1, -, h3⟩ := (h.readers _ lab hlab hwrite).2 e hmem
          rw [hl] at h1
          cases h1
          rw [h3, h.seated.pos_eq hlab
            (h.above _ _ hlab (EventLabel.isMemAccess_of_isWrite hwrite))]
          have hne := h.ne_init hlab (EventLabel.isMemAccess_of_isWrite hwrite)
          rw [Option.filter_some, if_neg (by simp [hne])]
        · rename_i hmem
          exact hrf hl hr fun _ => hmem
      · have hsame : (if l.pos ∈ lab.readers then { l with rf := none } else l).readers =
            l.readers := by split <;> rfl
        rw [hsame]
        exact hreaders hl hw fun hr => absurd hr hread
    · rw [ExecutionGraph.unlinkLabel]
      rw [if_neg hread, if_neg hwrite]
      exact ⟨id, fun _ => Option.map_id_apply.symm, fun _ => ⟨rfl, rfl, rfl⟩, fun e l hl _ =>
        ⟨rfl, rfl, fun hr => hrf hl hr fun hw => absurd hw hwrite,
          fun hw => hreaders hl hw fun hr => absurd hr hread⟩⟩

theorem initReaders_unlinkLabel_eq (lab : EventLabel) (a : SAddr) :
    (g.unlinkLabel lab).initReaders a =
      if lab.isRead = true ∧ lab.rf = some Event.getInit ∧ a = lab.addr then
        (g.initReaders a).filter (· ≠ lab.pos)
      else g.initReaders a := by
  have hmap : (g.unlinkLabel lab).initReaders a = (if lab.isRead then
      match lab.rf with
      | none => g
      | some w => g.removeReader w lab
    else g).initReaders a := by
    rw [ExecutionGraph.unlinkLabel]
    split <;> rfl
  rw [hmap]
  by_cases hread : lab.isRead = true
  · rw [if_pos hread]
    cases hrf : lab.rf with
    | none => simp
    | some w =>
      simp only [initReaders_removeReader, hread, true_and, Option.some.injEq]
  · rw [if_neg hread, if_neg fun h => hread h.1]

theorem initReaders_unlinkLabel (h : ReaderInv g) {e₀ : Event} {lab : EventLabel}
    (hlab : g.getEventLabel e₀ = some lab) (a : SAddr) :
    (g.unlinkLabel lab).initReaders a = (g.initReaders a).filter fun x => x ≠ lab.pos := by
  have hkeep : (lab.isRead = true → lab.addr = a → lab.rf ≠ some Event.getInit) →
      g.initReaders a = (g.initReaders a).filter fun x => x ≠ lab.pos := by
    intro hnot
    refine (List.filter_eq_self.2 fun r hr => ?_).symm
    obtain ⟨rLab, h1, h2, h3, h4⟩ := (h.initReaders a).2 r hr
    have hne : r ≠ lab.pos := by
      rintro rfl
      rw [h.seated.getEventLabel_pos hlab
        (h.above _ _ h1 (EventLabel.isMemAccess_of_isRead h2))] at h1
      cases h1
      exact hnot h2 h3 h4
    simpa using hne
  rw [initReaders_unlinkLabel_eq]
  split
  · rfl
  · rename_i hnot
    exact hkeep fun hread haddr hrf => hnot ⟨hread, hrf, haddr.symm⟩

/-- Unlinking a label changes labels and the readers of the initializer only. -/
theorem frame_unlinkLabel {α : Type*} (F : ExecutionGraph → α)
    (hmap : ∀ o f, F (mapLabels f o) = F o) (hinit : ∀ o m, F { o with initRfs := m } = F o)
    (lab : EventLabel) : F (g.unlinkLabel lab) = F g := by
  have hread : F (if lab.isRead then
      match lab.rf with
      | none => g
      | some w => g.removeReader w lab
      else g) = F g := by
    split
    · split
      · rfl
      · exact frame_removeReader F hmap hinit _ _
    · rfl
  rw [ExecutionGraph.unlinkLabel]
  split
  · exact (hmap _ _).trans hread
  · exact hread

theorem unlinkLabel_frame (lab : EventLabel) :
    (g.unlinkLabel lab).insertionOrder = g.insertionOrder ∧
      (g.unlinkLabel lab).coherence = g.coherence :=
  ⟨frame_unlinkLabel (·.insertionOrder) (fun _ _ => rfl) (fun _ _ => rfl) lab,
    frame_unlinkLabel (·.coherence) (fun _ _ => rfl) (fun _ _ => rfl) lab⟩

/-- **What is left of a graph without the last label of a thread.** -/
theorem ReaderInv.getEventLabel_removeLast (h : ReaderInv g) {t : ℕ} {lab : EventLabel}
    (hlast : g.getLastThreadLabel t = some lab) :
    ∃ f : EventLabel → EventLabel,
      (∀ l, (f l).pos = l.pos ∧ (l.stamp.isSome → (f l).stamp.isSome) ∧ (f l).kind = l.kind) ∧
      (∀ e l, g.getEventLabel e = some l → 0 < e.index →
        RestrictedLabel (fun x => x ≠ lab.pos) l (f l)) ∧
      ∀ e, (g.removeLast t).getEventLabel e =
        if e.thread = t ∧ e.index + 1 = g.getThreadSize t then none
        else (g.getEventLabel e).map f := by
  obtain ⟨-, hlab⟩ := getLastThreadLabel_eq_some.1 hlast
  obtain ⟨f, hget, hf, hrestr⟩ := h.unlinkLabel hlab
  obtain ⟨k, hk, accesses, heq⟩ := removeLast_eq hlast
  have hmap : ∀ e, ((g.unlinkLabel lab).mapLabels k).getEventLabel e =
      (g.getEventLabel e).map fun l => k (f l) := by
    intro e
    rw [getEventLabel_mapLabels, hget, Option.map_map]
    rfl
  have hlen : (((g.unlinkLabel lab).mapLabels k).events.getD t []).length =
      g.getThreadSize t :=
    getThreadSize_congr (fun e => by rw [hmap, Option.isSome_map]) t
  refine ⟨fun l => k (f l), fun l => ⟨(hk _).pos.trans (hf l).1, fun hs => ?_,
    (hk _).kind.trans (hf l).2.2⟩, fun e l h1 he => ?_, fun e => ?_⟩
  · refine (hk _).stamp ?_
    rw [(hf l).2.1]
    exact hs
  · have h2 := hrestr e l h1 he
    exact ⟨(hk _).kind.trans (hf l).2.2, (hk _).addr.trans h2.addr,
      fun hr => (hk _).rf.trans (h2.rf hr), fun hw => (hk _).readers.trans (h2.readers hw)⟩
  · rw [heq, ← hmap, ← hlen]
    exact getElem?_modify_dropLast _ t e

/-- `removeLast` restricts the graph to the labels other than the last one of a thread. -/
theorem ReaderInv.restrictedTo_removeLast (h : ReaderInv g) {t : ℕ} {lab : EventLabel}
    (hlast : g.getLastThreadLabel t = some lab) :
    RestrictedTo (fun x => x ≠ lab.pos) g (g.removeLast t) := by
  obtain ⟨hsize, hlab⟩ := getLastThreadLabel_eq_some.1 hlast
  obtain ⟨f, hf, hrestr, hget'⟩ := h.getEventLabel_removeLast hlast
  obtain ⟨k, hk, accesses, heq⟩ := removeLast_eq hlast
  obtain ⟨hio, hco⟩ := unlinkLabel_frame (g := g) lab
  have hsome : ∀ {e lab'}, (g.removeLast t).getEventLabel e = some lab' →
      ¬ (e.thread = t ∧ e.index + 1 = g.getThreadSize t) ∧
        ∃ l, g.getEventLabel e = some l ∧ lab' = f l := by
    intro e lab' h'
    rw [hget'] at h'
    split at h'
    · cases h'
    · rename_i hne
      obtain ⟨l, h1, h2⟩ := Option.map_eq_some_iff.1 h'
      exact ⟨hne, l, h1, h2.symm⟩
  -- above the begins, the removed label is the one at its position
  have hne_pos : ∀ {e}, 0 < e.index →
      (¬ (e.thread = t ∧ e.index + 1 = g.getThreadSize t) ↔ e ≠ lab.pos) := by
    intro e he
    obtain ⟨h1, h2⟩ := h.seated _ lab hlab
    simp only at h1 h2
    rw [not_iff_not, Event.ext_iff']
    refine ⟨?_, ?_⟩
    · rintro ⟨h3, h4⟩
      exact ⟨h3.trans (h2 (by omega)).symm, by omega⟩
    · rintro ⟨h3, h4⟩
      exact ⟨h3.trans (h2 (by omega)), by omega⟩
  have hinit : ∀ a, (g.removeLast t).initReaders a = (g.unlinkLabel lab).initReaders a := by
    intro a
    rw [heq]
    rfl
  have hcoh : (g.removeLast t).coherence = g.coherence := by
    rw [heq]
    exact hco
  refine ⟨fun e lab' h' => ?_, fun e lab' h' => ?_,
    fun e he h' => ?_, fun e lab' he h' => ?_, fun e lab' he h' => ?_, fun e he hkeep h' => ?_,
    fun a => Or.inl ?_, fun e lab' he h' hm => ?_⟩
  · obtain ⟨-, l, h1, rfl⟩ := hsome h'
    rw [(hf l).1]
    exact h.seated e l h1
  · obtain ⟨-, l, h1, rfl⟩ := hsome h'
    exact (hf l).2.1 (h.stamped e l h1)
  · obtain ⟨lab', h1⟩ := Option.isSome_iff_exists.1 h'
    obtain ⟨hne, l, h2, -⟩ := hsome h1
    rw [heq]
    show e ∈ (g.unlinkLabel lab).insertionOrder.erase lab.pos
    rw [hio]
    exact (List.mem_erase_of_ne ((hne_pos he).1 hne)).2 (h.inserted e he (by rw [h2]; rfl))
  · obtain ⟨-, l, h1, rfl⟩ := hsome h'
    rw [EventLabel.isMemAccess, (hf l).2.2, ← EventLabel.isMemAccess]
    by_contra hm
    exact (h.above e l h1 (by simpa using hm)).ne' he
  · obtain ⟨hne, l, h1, rfl⟩ := hsome h'
    exact ⟨by simpa using (hne_pos he).1 hne, l, h1, hrestr e l h1 he⟩
  · rw [hget', if_neg ((hne_pos he).2 (by simpa using hkeep)), Option.isSome_map]
    exact h'
  · rw [hinit, initReaders_unlinkLabel h hlab]
  · obtain ⟨-, l, h1, rfl⟩ := hsome h'
    rw [hcoh, (hrestr e l h1 he).addr]
    refine h.tracked e l h1 ?_
    rwa [EventLabel.isMemAccess, (hf l).2.2] at hm

/-- **`removeLast` keeps the cross reference.** -/
theorem ReaderInv.removeLast (h : ReaderInv g) (t : ℕ) : ReaderInv (g.removeLast t) := by
  cases hlast : g.getLastThreadLabel t with
  | none =>
    rw [ExecutionGraph.removeLast, hlast]
    exact h
  | some lab => exact h.restrict _ (h.restrictedTo_removeLast hlast)

/-! ## Reachable graphs -/

/-- The graphs the operations build from the graph of the initializer.

A copy files the clone of a label under the thread the label was created for, so `copyGraphUpTo`
is only meaningful on a graph whose labels sit in their own slots. -/
inductive Reachable : ExecutionGraph → Prop
  | init : Reachable init
  | addNewThread {g : ExecutionGraph} : Reachable g → Reachable g.addNewThread
  | addLabelToGraph {g : ExecutionGraph} {lab : EventLabel} :
      Reachable g → Fresh g lab → Reachable (g.addLabelToGraph lab)
  | setRf {g : ExecutionGraph} {r : Event} {rLab : EventLabel} {rf : Option Event} :
      Reachable g → g.getEventLabel r = some rLab → rLab.isRead = true → ValidRf g rf →
        Reachable (g.setRf r rf)
  | addCo {g : ExecutionGraph} (w pred : Event) (a : SAddr) :
      Reachable g → Reachable (g.addCo w pred a)
  | moveCo {g : ExecutionGraph} (w pred : Event) (a : SAddr) :
      Reachable g → Reachable (g.moveCo w pred a)
  | removeLast {g : ExecutionGraph} (t : ℕ) : Reachable g → Reachable (g.removeLast t)
  | cutToStamp {g : ExecutionGraph} (stamp : ℕ) : Reachable g → Reachable (g.cutToStamp stamp)
  | copyGraphUpTo {g : ExecutionGraph} (v : View) :
      Reachable g → g.Slots → Reachable (g.copyGraphUpTo v)

theorem readerInv_init : ReaderInv init := by
  have hlabel : ∀ e, init.getEventLabel e =
      if e = Event.getInit then some freshInit else none := by
    intro e
    obtain ⟨t, i⟩ := e
    cases t with
    | zero => cases i <;> rfl
    | succ t => rfl
  have hsome : ∀ {e lab}, init.getEventLabel e = some lab →
      e = Event.getInit ∧ lab = freshInit := by
    intro e lab h
    rw [hlabel] at h
    split at h
    · rename_i he
      exact ⟨he, (Option.some.inj h).symm⟩
    · cases h
  have hmem : ∀ {e lab}, init.getEventLabel e = some lab → ¬ lab.isMemAccess = true := by
    intro e lab h
    obtain ⟨-, rfl⟩ := hsome h
    exact Bool.false_ne_true
  refine ⟨fun e lab h => ?_, fun e lab h => ?_, fun e he h => ?_,
    fun e lab h hm => absurd hm (hmem h), fun e lab h hm => absurd hm (hmem h),
    fun r rLab w h hr => absurd (EventLabel.isMemAccess_of_isRead hr) (hmem h),
    fun w wLab h hw => absurd (EventLabel.isMemAccess_of_isWrite hw) (hmem h),
    fun a => ⟨List.nodup_nil, fun r hr => absurd hr List.not_mem_nil⟩⟩
  · obtain ⟨rfl, rfl⟩ := hsome h
    exact ⟨rfl, fun _ => rfl⟩
  · obtain ⟨-, rfl⟩ := hsome h
    rfl
  · obtain ⟨lab, h'⟩ := Option.isSome_iff_exists.1 h
    obtain ⟨rfl, -⟩ := hsome h'
    exact absurd he (lt_irrefl _)

theorem Reachable.readerInv (h : Reachable g) : ReaderInv g := by
  induction h with
  | init => exact readerInv_init
  | addNewThread _ ih => exact ih.addNewThread
  | addLabelToGraph _ hfresh ih => exact ih.addLabelToGraph hfresh
  | setRf _ hr hread hrf ih => exact ih.setRf hr hread hrf
  | addCo w pred a _ ih => exact ih.addCo w pred a
  | moveCo w pred a _ ih => exact ih.moveCo w pred a
  | removeLast t _ ih => exact ih.removeLast t
  | cutToStamp stamp _ ih => exact ih.cutToStamp stamp
  | copyGraphUpTo v _ hs ih => exact ih.copyGraphUpTo hs v

/-- **Reads-from and reader lists agree in every reachable graph.** -/
theorem rfReaders_of_reachable (h : Reachable g) : RfReaders g :=
  h.readerInv.rfReaders

/-- A thread that writes `x` and reads its own write, up to the read. -/
def storeThenLoad : ExecutionGraph :=
  ((init.addLabelToGraph { kind := .Write, pos := ⟨0, 1⟩, addr := 7 }).addLabelToGraph
    { kind := .Read, pos := ⟨0, 2⟩, addr := 7 }).setRf ⟨0, 2⟩ (some ⟨0, 1⟩)

theorem storeThenLoad_rfReaders :
    (storeThenLoad.getEventLabel ⟨0, 2⟩).map (·.rf) = some (some ⟨0, 1⟩) ∧
      RfReaders storeThenLoad := by
  refine ⟨rfl, rfReaders_of_reachable (.setRf (.addLabelToGraph (.addLabelToGraph .init ?_) ?_)
    rfl rfl fun w hw => Or.inr ?_)⟩
  · exact ⟨by decide, rfl, rfl, rfl, fun _ => by decide⟩
  · exact ⟨by decide, rfl, rfl, rfl, fun _ => by decide⟩
  · obtain rfl := Option.some.inj hw
    exact ⟨_, rfl, rfl⟩

end ExecutionGraph
end GenMC
