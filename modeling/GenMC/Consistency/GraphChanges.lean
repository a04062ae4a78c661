import GenMC.Consistency.Restriction

/-!
# Changing a graph under construction

The operations that add a label, change what a read reads from, and place a write in coherence.
Each of them touches one label: it leaves the edges between the other labels alone.  So it makes a
cycle only if it makes one through this label.

* `Changes` is an operation that touches one label, and `acyclic_of_changes` what follows.
* An operation makes no cycle if nothing comes after the label that it touches: a new label, a read
  that reads from the last write, and a write at the end of coherence.
* `acyclic_of_rmw`: neither does it make one when a write is placed right after the write that the
  read before it reads from.
-/

set_option autoImplicit false

namespace GenMC

open ListOrder Relation ExecutionGraph

namespace SCChecker

variable {g g' : ExecutionGraph} {a b e r w x : Event} {lab lab' : EventLabel}

/-- An operation that leaves the edges between all labels but one alone. -/
def Changes (x : Event) (g g' : ExecutionGraph) : Prop :=
  ∀ a b, OrderEdge g' a b → a ≠ x → b ≠ x → OrderEdge g a b

theorem acyclic_of_changes (h : Acyclic (OrderEdge g)) (hc : Changes x g g')
    (hx : ¬ TransGen (OrderEdge g') x x) : Acyclic (OrderEdge g') :=
  acyclic_of_changesAt (p := (· = x)) h (fun a b hab ha hb => .single (hc a b hab ha hb))
    fun _ h' => h' ▸ hx

/-- There is no cycle if nothing comes after the label. -/
theorem acyclic_of_last (h : Acyclic (OrderEdge g)) (hc : Changes x g g')
    (hx : ∀ b, ¬ OrderEdge g' x b) : Acyclic (OrderEdge g') := by
  refine acyclic_of_changes h hc fun hcycle => ?_
  obtain ⟨b, hxb, -⟩ := TransGen.head'_iff.1 hcycle
  exact hx b hxb

/-! ## Adding labels -/

/-- `g'` is `g` with one more label, which is the last one of its thread. -/
structure Extends (lab : EventLabel) (g g' : ExecutionGraph) : Prop where
  label : ∀ e, g'.getEventLabel e = if e = lab.pos then some lab else g.getEventLabel e
  new : g.getEventLabel lab.pos = none
  next : g.getEventLabel lab.pos.next = none
  co : ∀ y, g'.co y = g.co y
  insertionOrder : g'.insertionOrder = g.insertionOrder ++ [lab.pos]
  rf : lab.rf = none
  parentJoin : lab.parentJoin = none
  linSuccs : lab.linSuccs = []

namespace Extends

variable (hx : Extends lab g g')
include hx

theorem self : g'.getEventLabel lab.pos = some lab := by rw [hx.label, if_pos rfl]

theorem old (h : g.getEventLabel e = some lab') : g'.getEventLabel e = some lab' := by
  rw [hx.label, if_neg, h]
  rintro rfl
  rw [hx.new] at h
  cases h

theorem cases (h : g'.getEventLabel e = some lab') :
    (e = lab.pos ∧ lab' = lab) ∨ (e ≠ lab.pos ∧ g.getEventLabel e = some lab') := by
  rw [hx.label] at h
  split at h
  · rename_i he
    exact .inl ⟨he, (Option.some.inj h).symm⟩
  · rename_i he
    exact .inr ⟨he, h⟩

theorem next_eq_none : g'.getEventLabel lab.pos.next = none := by
  rw [hx.label, if_neg, hx.next]
  intro h
  simpa [Event.next] using congrArg Event.index h

theorem notMem_co (hg : GraphInv g) (y : SAddr) : lab.pos ∉ g.co y := by
  intro h
  obtain ⟨wLab, hwLab, -⟩ := hg.co y _ h
  rw [hx.new] at hwLab
  cases hwLab

/-- **Adding a label keeps the invariant.** -/
theorem graphInv (hg : GraphInv g) (hc : Complete g) (hthr : g'.Threaded) (hst : g'.StampsUp)
    (hri : g'.ReaderInv) : GraphInv g' := by
  refine ⟨hthr, hst, hri, fun y => ?_, fun y w hw => ?_, fun r rLab w h hread hw => ?_,
    fun r rLab h hread hw => ?_, fun r rLab w h hread hw hnext => ?_, fun e eLab j h hj => ?_,
    fun e eLab h => ?_⟩
  · rw [hx.co]
    exact hg.coNodup y
  · rw [hx.co] at hw
    obtain ⟨wLab, hwLab, hwrite⟩ := hg.co y w hw
    exact ⟨wLab, hx.old hwLab, hwrite⟩
  · rcases hx.cases h with ⟨-, rfl⟩ | ⟨-, h⟩
    · exact absurd (hx.rf.symm.trans hw) (by simp)
    · refine (hg.source r rLab w h hread hw).imp_right ?_
      rintro ⟨wLab, hwLab, hwrite⟩
      exact ⟨wLab, hx.old hwLab, hwrite⟩
  · rcases hx.cases h with ⟨rfl, -⟩ | ⟨-, h⟩
    · exact hx.next_eq_none
    · have := hc.rf r rLab h hread
      rw [hw] at this
      cases this
  · rcases hx.cases h with ⟨-, rfl⟩ | ⟨-, h⟩
    · exact absurd (hx.rf.symm.trans hw) (by simp)
    · rw [hx.insertionOrder]
      by_cases hi : w = Event.getInit
      · exact .inl hi
      · obtain ⟨wLab, hwLab, -⟩ := (hg.source r rLab w h hread hw).resolve_left hi
        obtain ⟨nLab, hnLab⟩ := Option.isSome_iff_exists.1 hnext
        rcases hx.cases hnLab with ⟨he, -⟩ | ⟨-, hnLab⟩
        · rw [he]
          exact .inr (before_concat ((hg.threaded.inserted w).2 (isSome_of_eq hwLab)) _)
        · exact .inr (((hg.settled r rLab w h hread hw (isSome_of_eq hnLab)).resolve_left
            hi).append _)
  · rcases hx.cases h with ⟨-, rfl⟩ | ⟨-, h⟩
    · rw [tjSucc] at hj
      split_ifs at hj
      exact absurd (hx.parentJoin.symm.trans hj) (by simp)
    · obtain ⟨jLab, hjLab, hjk⟩ := hg.parentJoin e eLab j h hj
      exact ⟨jLab, hx.old hjLab, hjk⟩
  · rcases hx.cases h with ⟨-, rfl⟩ | ⟨-, h⟩
    · rw [ExecutionGraph.linSuccsOf]
      split_ifs
      · exact hx.linSuccs
      · rfl
    · exact hg.linSuccs e eLab h

/-- A new label changes nothing about the others. -/
theorem changes : Changes lab.pos g g' := by
  intro a b hab ha hb
  have hsome : ∀ {e}, (g'.getEventLabel e).isSome → e ≠ lab.pos → (g.getEventLabel e).isSome := by
    intro e he hne
    rw [hx.label, if_neg hne] at he
    exact he
  have hback : ∀ {e lab'}, g'.getEventLabel e = some lab' → e ≠ lab.pos →
      g.getEventLabel e = some lab' := fun h hne =>
    ((hx.cases h).resolve_left fun h' => hne h'.1).2
  cases hab with
  | po h => exact .po (hsome h hb)
  | tc h hk hb' => exact .tc (hback h ha) hk (hsome hb' hb)
  | tj h hb' => exact .tj (hback h ha) hb'
  | rf h hread hw hne => exact .rf (hback h hb) hread hw hne
  | co h =>
    rw [hx.co] at h
    exact .co h
  | fr h hread hw hb' h' =>
    rw [hx.co] at hb' h'
    exact .fr (hback h ha) hread hw hb' h'

/-- Nothing comes after a new label, unless it creates a thread that exists. -/
theorem last (hg : GraphInv g)
    (hk : lab.kind = .ThreadCreate → g'.getEventLabel ⟨lab.childId, 0⟩ = none) (b : Event) :
    ¬ OrderEdge g' lab.pos b := by
  intro h
  have hself := hx.self
  obtain ⟨x, hpos⟩ : ∃ x, x = lab.pos := ⟨_, rfl⟩
  rw [← hpos] at h hself
  cases h with
  | po h =>
    have hnext := hx.next_eq_none
    rw [← hpos, Event.next] at hnext
    rw [hnext] at h
    cases h
  | tc h hk' hb =>
    obtain rfl := Option.some.inj (hself.symm.trans h)
    rw [hk hk'] at hb
    cases hb
  | tj h hb =>
    obtain rfl := Option.some.inj (hself.symm.trans h)
    rw [tjSucc] at hb
    split_ifs at hb
    exact absurd (hx.parentJoin.symm.trans hb) (by simp)
  | rf h hread hw hne =>
    rcases hx.cases h with ⟨-, rfl⟩ | ⟨-, h⟩
    · exact absurd (hx.rf.symm.trans hw) (by simp)
    · obtain ⟨wLab, hwLab, -⟩ := (hg.source _ _ _ h hread hw).resolve_left hne
      rw [hpos, hx.new] at hwLab
      cases hwLab
  | co h =>
    rw [hx.co, hpos] at h
    exact hx.notMem_co hg _ h.mem_left
  | fr h hread hw hb h' =>
    obtain rfl := Option.some.inj (hself.symm.trans h)
    exact absurd (hx.rf.symm.trans hw) (by simp)

/-- **Adding a label makes no cycle.** -/
theorem acyclic (hg : GraphInv g)
    (hk : lab.kind = .ThreadCreate → g'.getEventLabel ⟨lab.childId, 0⟩ = none)
    (hac : Acyclic (OrderEdge g)) : Acyclic (OrderEdge g') :=
  acyclic_of_last hac hx.changes (hx.last hg hk)

/-- Nothing reads from a new label. -/
theorem rf_ne (hg : GraphInv g) (h : g'.getEventLabel r = some lab') (hread : lab'.isRead = true) :
    lab'.rf ≠ some lab.pos := by
  intro hrf
  rcases hx.cases h with ⟨-, rfl⟩ | ⟨-, h⟩
  · exact absurd (hx.rf.symm.trans hrf) (by simp)
  · rcases hg.source r lab' lab.pos h hread hrf with hi | ⟨wLab, hwLab, -⟩
    · obtain ⟨iLab, hiLab, -⟩ := hg.threaded.main
      have := hx.new
      rw [hi, hiLab] at this
      cases this
    · rw [hx.new] at hwLab
      cases hwLab

end Extends

/-- A label that has just been created and goes to the end of its thread. -/
structure NewLabel (g : ExecutionGraph) (lab : EventLabel) : Prop extends Added g lab where
  rf : lab.rf = none
  readers : lab.readers = []
  parentJoin : lab.parentJoin = none
  linSuccs : lab.linSuccs = []

/-- A label with the stamp that it gets. -/
def stamped (g : ExecutionGraph) (lab : EventLabel) : EventLabel :=
  { lab with stamp := some g.timestamp }

section Add

variable (hg : GraphInv g) (hn : NewLabel g lab)
include hg hn

theorem NewLabel.extends : Extends (stamped g lab) g (g.addLabelToGraph lab) := by
  have hseat := hg.threaded.slots.seated
  refine ⟨fun e => ?_, getEventLabel_of_index_ge hn.index.ge, getEventLabel_of_index_ge ?_,
    co_addLabelToGraph hseat hn.index, insertionOrder_addLabelToGraph hseat hn.index, hn.rf,
    hn.parentJoin, hn.linSuccs⟩
  · rw [getEventLabel_addLabelToGraph hseat hn.thread hn.index, stamp_stampLabel hn.stamp]
    rfl
  · show g.getThreadSize lab.pos.thread ≤ lab.pos.index + 1
    rw [hn.index]
    exact Nat.le_succ _

theorem GraphInv.addLabelToGraph (hc : Complete g) : GraphInv (g.addLabelToGraph lab) :=
  (hn.extends hg).graphInv hg hc (hg.threaded.addLabelToGraph hn.toAdded)
    (hg.stampsUp.addLabelToGraph hg.threaded hn.toAdded)
    (hg.readerInv.addLabelToGraph ⟨hn.thread, hn.index, hn.rf, hn.readers, fun _ => hn.begun⟩)

theorem NewLabel.acyclic (hk : lab.kind ≠ .ThreadCreate) (hac : Acyclic (OrderEdge g)) :
    Acyclic (OrderEdge (g.addLabelToGraph lab)) :=
  (hn.extends hg).acyclic hg (fun h => absurd h hk) hac

end Add

/-! ## Changing reads-from -/

/-- An operation that changes reads-from, reader lists and maximality of labels. -/
def Relinks (g g' : ExecutionGraph) : Prop :=
  ∃ f : EventLabel → EventLabel, (∀ e, g'.getEventLabel e = (g.getEventLabel e).map f) ∧
    ∀ lab, ∃ rf rs m, f lab = { lab with rf := rf, readers := rs, maximal := m }

theorem Relinks.trans {g'' : ExecutionGraph} (h : Relinks g g') (h' : Relinks g' g'') :
    Relinks g g'' := by
  obtain ⟨f, hf, hlab⟩ := h
  obtain ⟨f', hf', hlab'⟩ := h'
  refine ⟨f' ∘ f, fun e => by rw [hf', hf, Option.map_map], fun lab => ?_⟩
  obtain ⟨rf, rs, m, h⟩ := hlab lab
  obtain ⟨rf', rs', m', h'⟩ := hlab' (f lab)
  exact ⟨rf', rs', m', by rw [Function.comp_apply, h', h]⟩

theorem relinks_modify {f : EventLabel → EventLabel} (x : Event)
    (hf : ∀ lab, ∃ rf rs m, f lab = { lab with rf := rf, readers := rs, maximal := m }) :
    Relinks g (g.modify x f) := by
  refine ⟨_, getEventLabel_modify x f, fun lab => ?_⟩
  split
  · exact hf lab
  · exact ⟨lab.rf, lab.readers, lab.maximal, rfl⟩

theorem relinks_setRf (hr : g.getEventLabel r = some lab) (rf : Option Event) :
    Relinks g (g.setRf r rf) := by
  have hmodify : Relinks g (g.modify r fun lab => { lab with rf := rf }) :=
    relinks_modify r fun lab => ⟨rf, lab.readers, lab.maximal, rfl⟩
  have hdetach : Relinks g (g.detachReader r lab rf) := by
    rw [detachReader]
    cases lab.rf with
    | none => exact hmodify
    | some old =>
      exact hmodify.trans ⟨_, getEventLabel_removeReader old lab, fun l => ⟨_, _, _, rfl⟩⟩
  rw [setRf_eq hr]
  cases rf with
  | none => exact hdetach
  | some w =>
    exact (hdetach.trans ⟨_, getEventLabel_addReader w lab, fun l => ⟨_, _, _, rfl⟩⟩).trans
      (relinks_modify r fun l => ⟨l.rf, l.readers, _, rfl⟩)

/-- What `setRf` leaves of a label. -/
theorem of_getEventLabel_setRf {rf : Option Event} (hr : g.getEventLabel r = some lab)
    (hpos : lab.pos = r) (h : (g.setRf r rf).getEventLabel e = some lab') :
    ∃ l rs m, g.getEventLabel e = some l ∧
      lab' = { l with rf := if l.pos = r then rf else l.rf, readers := rs, maximal := m } := by
  obtain ⟨f, hf, hlab⟩ := relinks_setRf hr rf
  obtain ⟨f', hf', hlab'⟩ := rewiredBy_setRf hr hpos rf
  have heq := hf' e
  rw [hf] at h heq
  obtain ⟨l, hl, rfl⟩ := Option.map_eq_some_iff.1 h
  rw [hl, Option.map_some, Option.map_some, Option.some.injEq] at heq
  obtain ⟨rf', rs, m, hfl⟩ := hlab l
  refine ⟨l, rs, m, hl, ?_⟩
  have hrf := (hlab' l).rf
  rw [← heq, hfl] at hrf
  rw [hfl]
  exact congrArg (fun s => { l with rf := s, readers := rs, maximal := m }) hrf

/-- What a read can be made to read from. -/
def Source (g : ExecutionGraph) (rLab : EventLabel) (w : Event) : Prop :=
  w = Event.getInit ∨ ∃ wLab, g.getEventLabel w = some wLab ∧ wLab.isWrite = true ∧
    wLab.addr = rLab.addr

theorem GraphInv.source_coMax (hg : GraphInv g) (rLab : EventLabel) :
    Source g rLab (g.coMax rLab.addr) := by
  rw [coMax, List.getLastD_eq_getLast?]
  cases hlast : (g.co rLab.addr).getLast? with
  | none => exact .inl rfl
  | some v => exact .inr (hg.co _ _ (List.mem_of_getLast? hlast))

section SetRf

variable {rLab : EventLabel} (hg : GraphInv g) (hr : g.getEventLabel r = some rLab)
  (hread : rLab.isRead = true) (hw : Source g rLab w) (hlast : g.getEventLabel r.next = none)
include hg hr

theorem of_setRf (h : (g.setRf r (some w)).getEventLabel e = some lab') :
    ∃ l rs m, g.getEventLabel e = some l ∧
      lab' = { l with rf := if e = r then some w else l.rf, readers := rs, maximal := m } := by
  obtain ⟨l, rs, m, hl, rfl⟩ := of_getEventLabel_setRf hr (hg.threaded.slots r rLab hr) h
  have hpos : l.pos = e := hg.threaded.slots e l hl
  refine ⟨l, rs, m, hl, ?_⟩
  rw [hpos]

omit hg in
theorem isSome_setRf (e : Event) :
    ((g.setRf r (some w)).getEventLabel e).isSome = (g.getEventLabel e).isSome := by
  obtain ⟨f, hf, -⟩ := relinks_setRf hr (some w)
  rw [hf, Option.isSome_map]

theorem to_setRf (h : g.getEventLabel e = some lab) :
    ∃ rs m, (g.setRf r (some w)).getEventLabel e =
      some { lab with rf := if e = r then some w else lab.rf, readers := rs, maximal := m } := by
  obtain ⟨lab', hlab'⟩ := Option.isSome_iff_exists.1 (by
    rw [isSome_setRf hr (w := w)]
    exact isSome_of_eq h)
  obtain ⟨l, rs, m, hl, rfl⟩ := of_setRf hg hr hlab'
  obtain rfl := Option.some.inj (h.symm.trans hl)
  exact ⟨rs, m, hlab'⟩

omit hg hr in
theorem co_setRf (rf : Option Event) (y : SAddr) : (g.setRf r rf).co y = g.co y := by
  rw [ExecutionGraph.co, coherence_setRf, ExecutionGraph.co]

theorem sameThreads_setRf : SameThreads g (g.setRf r (some w)) := by
  refine ⟨insertionOrder_setRf r _,
    frame_setRf (·.getNumThreads) (fun _ _ => getNumThreads_mapLabels _) (fun _ _ => rfl) r _,
    isSome_setRf hr, fun e lab' h => ?_⟩
  obtain ⟨l, rs, m, hl, rfl⟩ := of_setRf hg hr h
  exact ⟨l, hl, ⟨rfl, rfl, rfl, rfl, rfl⟩⟩

theorem stampsUp_setRf : StampsUp (g.setRf r (some w)) := by
  refine ⟨fun e lab' h => ?_, fun a b aLab bLab s s' hab ha hb hs hs' => ?_,
    fun e lab' s h hs => ?_⟩
  · obtain ⟨l, rs, m, hl, rfl⟩ := of_setRf hg hr h
    exact hg.stampsUp.stamped e l hl
  · obtain ⟨aLab, rs, m, ha₀, rfl⟩ := of_setRf hg hr ha
    obtain ⟨bLab, rs', m', hb₀, rfl⟩ := of_setRf hg hr hb
    rw [insertionOrder_setRf] at hab
    exact hg.stampsUp.up a b aLab bLab s s' hab ha₀ hb₀ hs hs'
  · obtain ⟨l, rs, m, hl, rfl⟩ := of_setRf hg hr h
    have htime : (g.setRf r (some w)).timestamp = g.timestamp :=
      frame_setRf (·.timestamp) (fun _ _ => rfl) (fun _ _ => rfl) r _
    rw [htime]
    exact hg.stampsUp.below e l s hl hs

include hread hw hlast

/-- **Changing what a read reads from keeps the invariant**, as long as the thread has not gone
on. -/
theorem GraphInv.setRf : GraphInv (g.setRf r (some w)) := by
  have hvalid : ValidRf g (some w) := by
    intro w' hw'
    obtain rfl := Option.some.inj hw'
    refine hw.imp_right ?_
    rintro ⟨wLab, h1, h2, -⟩
    exact ⟨wLab, h1, h2⟩
  have hto : ∀ {l : EventLabel} {v : Event}, Source g l v → v = Event.getInit ∨
      ∃ wLab, (g.setRf r (some w)).getEventLabel v = some wLab ∧ wLab.isWrite = true ∧
        wLab.addr = l.addr := by
    intro l v h
    refine h.imp_right ?_
    rintro ⟨vLab, hv, hvw, hva⟩
    obtain ⟨rs, m, hv'⟩ := to_setRf hg hr (w := w) hv
    exact ⟨_, hv', hvw, hva⟩
  refine ⟨hg.threaded.of_same (sameThreads_setRf hg hr), stampsUp_setRf hg hr,
    hg.readerInv.setRf hr hread hvalid, fun y => ?_, fun y v hv => ?_,
    fun e eLab v h hread' hv => ?_, fun e eLab h hread' hv => ?_,
    fun e eLab v h hread' hv hnext => ?_, fun e eLab j h hj => ?_, fun e eLab h => ?_⟩
  · rw [co_setRf]
    exact hg.coNodup y
  · rw [co_setRf] at hv
    obtain ⟨vLab, hvLab, hvw, hva⟩ := hg.co y v hv
    obtain ⟨rs, m, h'⟩ := to_setRf hg hr (w := w) hvLab
    exact ⟨_, h', hvw, hva⟩
  · obtain ⟨l, rs, m, hl, rfl⟩ := of_setRf hg hr h
    by_cases he : e = r
    · subst he
      obtain rfl := Option.some.inj (hr.symm.trans hl)
      obtain rfl : w = v := by simpa using hv
      exact hto hw
    · exact hto (hg.source e l v hl hread' (by simpa [he] using hv))
  · obtain ⟨l, rs, m, hl, rfl⟩ := of_setRf hg hr h
    by_cases he : e = r
    · simp [he] at hv
    · rw [← Option.not_isSome_iff_eq_none, isSome_setRf hr,
        hg.waiting e l hl hread' (by simpa [he] using hv)]
      exact Bool.false_ne_true
  · obtain ⟨l, rs, m, hl, rfl⟩ := of_setRf hg hr h
    rw [isSome_setRf hr] at hnext
    rw [insertionOrder_setRf]
    by_cases he : e = r
    · rw [he, hlast] at hnext
      cases hnext
    · exact hg.settled e l v hl hread' (by simpa [he] using hv) hnext
  · obtain ⟨l, rs, m, hl, rfl⟩ := of_setRf hg hr h
    obtain ⟨jLab, hjLab, hjk⟩ := hg.parentJoin e l j hl hj
    obtain ⟨rs', m', h'⟩ := to_setRf hg hr (w := w) hjLab
    exact ⟨_, h', hjk⟩
  · obtain ⟨l, rs, m, hl, rfl⟩ := of_setRf hg hr h
    exact hg.linSuccs e l hl

omit hread hw hlast in
/-- Changing what a read reads from changes nothing about the others. -/
theorem changes_setRf : Changes r g (g.setRf r (some w)) := by
  intro a b hab ha hb
  cases hab with
  | po h =>
    rw [isSome_setRf hr] at h
    exact .po h
  | tc h hk hb' =>
    obtain ⟨l, rs, m, hl, rfl⟩ := of_setRf hg hr h
    rw [isSome_setRf hr] at hb'
    have hedge : OrderEdge g a ⟨l.childId, 0⟩ := .tc hl hk hb'
    exact hedge
  | tj h hb' =>
    obtain ⟨l, rs, m, hl, rfl⟩ := of_setRf hg hr h
    exact .tj hl hb'
  | rf h hread' hv hne =>
    obtain ⟨l, rs, m, hl, rfl⟩ := of_setRf hg hr h
    exact .rf hl hread' (by simpa [hb] using hv) hne
  | co h =>
    rw [co_setRf] at h
    exact .co h
  | fr h hread' hv hb' h' =>
    obtain ⟨l, rs, m, hl, rfl⟩ := of_setRf hg hr h
    rw [co_setRf] at hb' h'
    exact .fr hl hread' (by simpa [ha] using hv) hb' h'

omit hw in
/-- Nothing comes after a read that reads from the last write. -/
theorem not_orderEdge_setRf (hmax : w = g.coMax rLab.addr) (b : Event) :
    ¬ OrderEdge (g.setRf r (some w)) r b := by
  subst hmax
  have hg' := hg.setRf hr hread (hg.source_coMax rLab) hlast
  obtain ⟨rs, m, hr'⟩ := to_setRf hg hr (w := g.coMax rLab.addr) hr
  rw [if_pos rfl] at hr'
  intro h
  rcases hg'.orderEdge_read hr' hread h with rfl | ⟨hb, v, hv, hafter⟩
  · have hnext := (hg'.isSome_of_orderEdge h).2
    rw [isSome_setRf hr, hlast] at hnext
    cases hnext
  · obtain rfl := Option.some.inj hv
    rw [co_setRf] at hb hafter
    exact hg.not_after_coMax hb hafter

end SetRf

/-! ## Coherence -/

theorem insertIdx_eq {l : List Event} {i : ℕ} (hi : i ≤ l.length) :
    l.insertIdx i w = l.take i ++ w :: l.drop i := by
  induction l generalizing i with
  | nil =>
    obtain rfl : i = 0 := by simpa using hi
    rfl
  | cons a l ih =>
    cases i with
    | zero => rfl
    | succ i => rw [List.insertIdx_succ_cons, ih (Nat.le_of_succ_le_succ hi)]; rfl

/-- Where a write is inserted. -/
theorem insertAfter_split (pred w : Event) (l : List Event) : ∃ l₁ l₂, l = l₁ ++ l₂ ∧
    insertAfter pred w l = l₁ ++ w :: l₂ ∧ ((pred ∉ l ∧ l₁ = []) ∨ ∃ l₀, l₁ = l₀ ++ [pred]) := by
  rw [insertAfter]
  cases h : l.idxOf? pred with
  | none => exact ⟨[], l, rfl, rfl, .inl ⟨List.idxOf?_eq_none_iff.1 h, rfl⟩⟩
  | some i =>
    obtain ⟨hi, hget, -⟩ := List.idxOf?_eq_some_iff.1 h
    refine ⟨l.take (i + 1), l.drop (i + 1), (List.take_append_drop _ l).symm,
      insertIdx_eq (by omega), .inr ⟨l.take i, ?_⟩⟩
    have hget : l[i] = pred := by simpa using hget
    rw [List.take_succ_eq_append_getElem hi, hget]

/-- An operation that changes the place of a write in coherence. -/
structure Places (w : Event) (g g' : ExecutionGraph) : Prop where
  insertionOrder : g'.insertionOrder = g.insertionOrder
  timestamp : g'.timestamp = g.timestamp
  numThreads : g'.getNumThreads = g.getNumThreads
  label : ∃ f : EventLabel → EventLabel, (∀ e, g'.getEventLabel e = (g.getEventLabel e).map f) ∧
    ∀ lab, ∃ m, f lab = { lab with maximal := m }
  readerInv : g'.ReaderInv
  nodup : ∀ y, (g'.co y).Nodup
  co : ∀ y, (g'.co y).filter (· ≠ w) = (g.co y).filter (· ≠ w)
  write : ∃ wLab, g.getEventLabel w = some wLab ∧ wLab.isWrite = true ∧
    ∀ y, w ∈ g'.co y → wLab.addr = y

namespace Places

variable (hp : Places w g g')
include hp

theorem isSome (e : Event) : (g'.getEventLabel e).isSome = (g.getEventLabel e).isSome := by
  obtain ⟨f, hf, -⟩ := hp.label
  rw [hf, Option.isSome_map]

theorem back (h : g'.getEventLabel e = some lab') :
    ∃ lab m, g.getEventLabel e = some lab ∧ lab' = { lab with maximal := m } := by
  obtain ⟨f, hf, hlab⟩ := hp.label
  rw [hf] at h
  obtain ⟨lab, h', rfl⟩ := Option.map_eq_some_iff.1 h
  obtain ⟨m, hm⟩ := hlab lab
  exact ⟨lab, m, h', hm⟩

theorem forth (h : g.getEventLabel e = some lab) :
    ∃ m, g'.getEventLabel e = some { lab with maximal := m } := by
  obtain ⟨f, hf, hlab⟩ := hp.label
  obtain ⟨m, hm⟩ := hlab lab
  exact ⟨m, by rw [hf, h, Option.map_some, hm]⟩

theorem mem_co_iff {y : SAddr} (hne : a ≠ w) : a ∈ g'.co y ↔ a ∈ g.co y := by
  have := congrArg (a ∈ ·) (hp.co y)
  simpa [hne] using this

/-- The order of the other writes. -/
theorem before {y : SAddr} (h : Before (g'.co y) a b) (ha : a ≠ w) (hb : b ≠ w) :
    Before (g.co y) a b := by
  have h' : Before ((g'.co y).filter (· ≠ w)) a b :=
    before_filter_iff.2 ⟨h, by simpa using ha, by simpa using hb⟩
  rw [hp.co] at h'
  exact (before_filter_iff.1 h').1

theorem sameThreads : SameThreads g g' := by
  refine ⟨hp.insertionOrder, hp.numThreads, hp.isSome, fun e lab' h => ?_⟩
  obtain ⟨lab, m, hlab, rfl⟩ := hp.back h
  exact ⟨lab, hlab, ⟨rfl, rfl, rfl, rfl, rfl⟩⟩

/-- **Placing a write keeps the invariant.** -/
theorem graphInv (hg : GraphInv g) : GraphInv g' := by
  have hwrite : ∀ {v y}, (∃ vLab, g.getEventLabel v = some vLab ∧ vLab.isWrite = true ∧
      vLab.addr = y) → ∃ vLab, g'.getEventLabel v = some vLab ∧ vLab.isWrite = true ∧
        vLab.addr = y := by
    rintro v y ⟨vLab, hv, hvw, hva⟩
    obtain ⟨m, hv'⟩ := hp.forth hv
    exact ⟨_, hv', hvw, hva⟩
  refine ⟨hg.threaded.of_same hp.sameThreads,
    ⟨fun e lab' h => ?_, fun a b aLab bLab s s' hab ha hb hs hs' => ?_, fun e lab' s h hs => ?_⟩,
    hp.readerInv, hp.nodup, fun y v hv => hwrite ?_, fun r rLab v h hread hv => ?_,
    fun r rLab h hread hv => ?_, fun r rLab v h hread hv hnext => ?_, fun e eLab j h hj => ?_,
    fun e eLab h => ?_⟩
  · obtain ⟨lab, m, hlab, rfl⟩ := hp.back h
    exact hg.stampsUp.stamped e lab hlab
  · obtain ⟨aLab, m, ha₀, rfl⟩ := hp.back ha
    obtain ⟨bLab, m', hb₀, rfl⟩ := hp.back hb
    rw [hp.insertionOrder] at hab
    exact hg.stampsUp.up a b aLab bLab s s' hab ha₀ hb₀ hs hs'
  · obtain ⟨lab, m, hlab, rfl⟩ := hp.back h
    rw [hp.timestamp]
    exact hg.stampsUp.below e lab s hlab hs
  · by_cases hne : v = w
    · obtain ⟨wLab, hwLab, hw, haddr⟩ := hp.write
      rw [hne] at hv ⊢
      exact ⟨wLab, hwLab, hw, haddr y hv⟩
    · exact hg.co y v ((hp.mem_co_iff hne).1 hv)
  · obtain ⟨l, m, hl, rfl⟩ := hp.back h
    exact (hg.source r l v hl hread hv).imp_right hwrite
  · obtain ⟨l, m, hl, rfl⟩ := hp.back h
    rw [← Option.not_isSome_iff_eq_none, hp.isSome, hg.waiting r l hl hread hv]
    exact Bool.false_ne_true
  · obtain ⟨l, m, hl, rfl⟩ := hp.back h
    rw [hp.isSome] at hnext
    rw [hp.insertionOrder]
    exact hg.settled r l v hl hread hv hnext
  · obtain ⟨l, m, hl, rfl⟩ := hp.back h
    obtain ⟨jLab, hjLab, hjk⟩ := hg.parentJoin e l j hl hj
    obtain ⟨m', hj'⟩ := hp.forth hjLab
    exact ⟨_, hj', hjk⟩
  · obtain ⟨l, m, hl, rfl⟩ := hp.back h
    exact hg.linSuccs e l hl

/-- The edges to other labels, from labels other than the write and its reads. -/
theorem orderEdge (h : OrderEdge g' a b) (ha : a ≠ w) (hb : b ≠ w)
    (hr : ∀ rLab, g.getEventLabel a = some rLab → rLab.isRead = true → rLab.rf ≠ some w) :
    OrderEdge g a b := by
  cases h with
  | po h =>
    rw [hp.isSome] at h
    exact .po h
  | tc h hk hb' =>
    obtain ⟨l, m, hl, rfl⟩ := hp.back h
    rw [hp.isSome] at hb'
    have hedge : OrderEdge g a ⟨l.childId, 0⟩ := .tc hl hk hb'
    exact hedge
  | tj h hb' =>
    obtain ⟨l, m, hl, rfl⟩ := hp.back h
    exact .tj hl hb'
  | rf h hread hv hne =>
    obtain ⟨l, m, hl, rfl⟩ := hp.back h
    exact .rf hl hread hv hne
  | co h => exact .co (hp.before h ha hb)
  | fr h hread hv hb' h' =>
    obtain ⟨l, m, hl, rfl⟩ := hp.back h
    have hvw : ∀ {v}, l.rf = some v → v ≠ w := by
      rintro v hlv rfl
      exact hr l hl hread hlv
    exact .fr hl hread hv ((hp.mem_co_iff hb).1 hb') (h'.imp_right fun h' =>
      hp.before h' (hvw hv) hb)

/-- A write that has no reads changes nothing about the other labels. -/
theorem changes (hr : ∀ r rLab, g.getEventLabel r = some rLab → rLab.isRead = true →
    rLab.rf ≠ some w) : Changes w g g' :=
  fun a _ hab ha hb => hp.orderEdge hab ha hb (hr a)

end Places

theorem co_addCo (w pred : Event) (x y : SAddr) : (g.addCo w pred x).co y =
    if y = x then insertAfter pred w (g.co x) else g.co y := by
  rw [ExecutionGraph.co, addCo]
  simp only [Function.update_apply]
  split_ifs with h
  · rfl
  · rfl

theorem nodup_insertAfter {l : List Event} (hl : l.Nodup) (hw : w ∉ l) (pred : Event) :
    (insertAfter pred w l).Nodup := by
  obtain ⟨l₁, l₂, rfl, heq, -⟩ := insertAfter_split pred w l
  rw [heq]
  exact (List.perm_middle.nodup_iff).2 (List.nodup_cons.2 ⟨hw, hl⟩)

theorem filter_insertAfter {l : List Event} (pred : Event) :
    (insertAfter pred w l).filter (· ≠ w) = l.filter (· ≠ w) := by
  obtain ⟨l₁, l₂, rfl, heq, -⟩ := insertAfter_split pred w l
  rw [heq]
  simp [List.filter_append]

theorem co_moveCo (pred : Event) (x y : SAddr) : (g.moveCo w pred x).co y =
    if y = x then insertAfter pred w ((g.co x).erase w) else g.co y := by
  rw [moveCo]
  refine (co_addCo w pred x y).trans ?_
  split_ifs with h
  · rw [ExecutionGraph.co]
    simp
  · rw [ExecutionGraph.co]
    simp only [Function.update_apply, if_neg h]
    rfl

section Place

variable {wLab : EventLabel} (hg : GraphInv g) (hw : g.getEventLabel w = some wLab)
  (hwrite : wLab.isWrite = true)
include hg hw

theorem notMem_co_of_addr_ne {y : SAddr} (hy : y ≠ wLab.addr) : w ∉ g.co y := by
  intro h
  obtain ⟨wLab', hw', -, haddr⟩ := hg.co y w h
  obtain rfl := Option.some.inj (hw.symm.trans hw')
  exact hy haddr.symm

include hwrite

/-- Placing a new write. -/
theorem places_addCo (hnew : w ∉ g.co wLab.addr) (pred : Event) :
    Places w g (g.addCo w pred wLab.addr) := by
  refine ⟨rfl, rfl, rfl, ⟨id, fun e => Option.map_id_apply.symm, fun lab => ⟨lab.maximal, rfl⟩⟩,
    hg.readerInv.addCo w pred _, fun y => ?_, fun y => ?_, wLab, hw, hwrite, fun y hy => ?_⟩
  · rw [co_addCo]
    split_ifs with h
    · exact nodup_insertAfter (hg.coNodup _) hnew pred
    · exact hg.coNodup y
  · rw [co_addCo]
    split_ifs with h
    · rw [h]
      exact filter_insertAfter pred
    · rfl
  · by_contra hne
    rw [co_addCo, if_neg fun h => hne h.symm] at hy
    exact notMem_co_of_addr_ne hg hw (fun h => hne h.symm) hy

/-- Placing a write anew. -/
theorem places_moveCo (pred : Event) : Places w g (g.moveCo w pred wLab.addr) := by
  have hnum : (g.moveCo w pred wLab.addr).getNumThreads = g.getNumThreads := by
    rw [moveCo]
    exact getNumThreads_mapLabels _
  refine ⟨rfl, rfl, hnum, ⟨_, getEventLabel_modify w _, fun lab => ?_⟩,
    hg.readerInv.moveCo w pred _, fun y => ?_, fun y => ?_, wLab, hw, hwrite, fun y hy => ?_⟩
  · split
    · exact ⟨_, rfl⟩
    · exact ⟨lab.maximal, rfl⟩
  · rw [co_moveCo]
    split_ifs with h
    · refine nodup_insertAfter ((hg.coNodup _).erase w) ?_ pred
      exact (hg.coNodup _).not_mem_erase
    · exact hg.coNodup y
  · rw [co_moveCo]
    split_ifs with h
    · rw [filter_insertAfter, h, (hg.coNodup _).erase_eq_filter, List.filter_filter]
      refine List.filter_congr fun v _ => ?_
      by_cases hv : v = w
      · simp [hv]
      · simp [hv]
    · rfl
  · by_contra hne
    rw [co_moveCo, if_neg fun h => hne h.symm] at hy
    exact notMem_co_of_addr_ne hg hw (fun h => hne h.symm) hy

end Place

/-! ## Adding writes -/

theorem insertAfter_getLastD {l : List Event} (hl : l.Nodup) (w : Event) :
    insertAfter (l.getLastD Event.getInit) w l = l ++ [w] := by
  obtain ⟨l₁, l₂, hsplit, heq, hpred⟩ := insertAfter_split (l.getLastD Event.getInit) w l
  have hnil : l₂ = [] := by
    rcases List.eq_nil_or_concat l₂ with h | ⟨k, v, rfl⟩
    · exact h
    · have hlast : l.getLastD Event.getInit = v := by rw [hsplit]; simp
      rw [hlast] at hpred
      rcases hpred with ⟨hnot, -⟩ | ⟨l₀, rfl⟩
      · exact absurd (by rw [hsplit]; simp) hnot
      · -- the last write would be there twice
        rw [hsplit] at hl
        exact absurd rfl ((List.nodup_append.1 hl).2.2 v (by simp) v (by simp))
  rw [heq, hsplit, hnil, List.append_nil]

theorem NewLabel.kind_ne (_ : NewLabel g lab) (hwrite : lab.isWrite = true) :
    lab.kind ≠ .ThreadCreate := by
  intro hk
  rw [EventLabel.isWrite, hk] at hwrite
  exact absurd hwrite (by decide)

section Store

variable (hg : GraphInv g) (hc : Complete g) (hn : NewLabel g lab) (hwrite : lab.isWrite = true)
include hg hc hn hwrite

/-- A new write is placed in coherence. -/
theorem NewLabel.places (pred : Event) : Places lab.pos (g.addLabelToGraph lab)
    ((g.addLabelToGraph lab).addCo lab.pos pred lab.addr) := by
  have hx := hn.extends hg
  refine places_addCo (hg.addLabelToGraph hn hc) hx.self hwrite ?_ pred
  rw [hx.co]
  exact hx.notMem_co hg _

/-- What comes after a new write: the later writes. -/
theorem NewLabel.before_of_orderEdge {pred : Event}
    (h : OrderEdge ((g.addLabelToGraph lab).addCo lab.pos pred lab.addr) lab.pos b) :
    Before (insertAfter pred lab.pos (g.co lab.addr)) lab.pos b := by
  have hp := hn.places hg hc hwrite pred
  have hx₀ := hn.extends hg
  rw [EventLabel.isWrite] at hwrite
  suffices hx : ∀ x, OrderEdge ((g.addLabelToGraph lab).addCo lab.pos pred lab.addr) x b →
      x = lab.pos → Before (insertAfter pred lab.pos (g.co lab.addr)) x b from hx _ h rfl
  clear h
  intro x h hx
  have hlabel : ∀ {l : EventLabel}, ((g.addLabelToGraph lab).addCo lab.pos pred
      lab.addr).getEventLabel x = some l → l.kind = lab.kind := by
    intro l hl
    obtain ⟨l', m, hl', rfl⟩ := hp.back hl
    obtain rfl := Option.some.inj (hx₀.self.symm.trans (hx ▸ hl'))
    rfl
  cases h with
  | po h =>
    have hnext := hx₀.next_eq_none
    have hpos : (stamped g lab).pos = lab.pos := rfl
    rw [hpos, ← hx, Event.next] at hnext
    rw [hp.isSome, hnext] at h
    cases h
  | tc h hk hb =>
    rw [← hlabel h, hk] at hwrite
    exact absurd hwrite (by decide)
  | tj h hb =>
    rw [← hlabel h, kind_of_tjSucc hb] at hwrite
    exact absurd hwrite (by decide)
  | rf h hread hv hne =>
    obtain ⟨l, m, hl, rfl⟩ := hp.back h
    exact absurd (hx ▸ hv) (hx₀.rf_ne hg hl hread)
  | @co y _ _ h =>
    rw [co_addCo] at h
    split_ifs at h with hy
    · rwa [hx₀.co] at h
    · rw [hx₀.co, hx] at h
      exact absurd h.mem_left (hx₀.notMem_co hg y)
  | fr h hread hv hb h' =>
    rw [EventLabel.isRead, hlabel h] at hread
    rw [EventLabelKind.not_isWrite_of_isRead hread] at hwrite
    cases hwrite

/-- **Adding a write at the end of coherence makes no cycle.** -/
theorem NewLabel.acyclic_store (hac : Acyclic (OrderEdge g)) :
    Acyclic (OrderEdge ((g.addLabelToGraph lab).addCo lab.pos (g.coMax lab.addr) lab.addr)) := by
  have hx := hn.extends hg
  refine acyclic_of_last (hn.acyclic hg (hn.kind_ne hwrite) hac)
    ((hn.places hg hc hwrite _).changes fun r rLab hr hread => hx.rf_ne hg hr hread) fun b hb => ?_
  have hbefore := hn.before_of_orderEdge hg hc hwrite hb
  have hmem : lab.pos ∉ g.co lab.addr := hx.notMem_co hg _
  rw [coMax, insertAfter_getLastD (hg.coNodup _)] at hbefore
  have hnodup : (g.co lab.addr ++ [lab.pos]).Nodup :=
    List.nodup_append.2 ⟨hg.coNodup _, List.nodup_singleton _, fun u hu v hv huv =>
      hmem (List.mem_singleton.1 hv ▸ huv ▸ hu)⟩
  rcases (before_concat_iff hnodup).1 hbefore with h | ⟨h, -⟩
  · exact hmem h.mem_left
  · exact hmem h

/-- **Placing the write of an RMW right after what its read reads from makes no cycle.**  What comes
before the write comes before all writes that come after it. -/
theorem NewLabel.acyclic_rmw (hac : Acyclic (OrderEdge g)) {rLab : EventLabel} {pred : Event}
    (hr : g.getEventLabel r = some rLab) (hread : rLab.isRead = true)
    (haddr : rLab.addr = lab.addr) (hrf : rLab.rf = some pred) (hnext : r.next = lab.pos) :
    Acyclic (OrderEdge ((g.addLabelToGraph lab).addCo lab.pos pred lab.addr)) := by
  have hx₀ := hn.extends hg
  have hac₁ := hn.acyclic hg (hn.kind_ne hwrite) hac
  have hp := hn.places hg hc hwrite pred
  have hchanges : Changes lab.pos (g.addLabelToGraph lab)
      ((g.addLabelToGraph lab).addCo lab.pos pred lab.addr) :=
    hp.changes fun r rLab hr hread => hx₀.rf_ne hg hr hread
  have hmem : lab.pos ∉ g.co lab.addr := hx₀.notMem_co hg _
  obtain ⟨l₁, l₂, hsplit, heq, hpred⟩ := insertAfter_split pred lab.pos (g.co lab.addr)
  have hnodup := nodup_insertAfter (hg.coNodup lab.addr) hmem pred
  rw [heq] at hnodup
  -- the writes after the new one
  have hlater : ∀ {c}, Before (insertAfter pred lab.pos (g.co lab.addr)) lab.pos c → c ∈ l₂ := by
    intro c h
    rw [heq] at h
    have hc := h.mem_right
    have hne := h.ne hnodup
    rcases List.mem_append.1 hc with hc | hc
    · exact absurd ((before_append_cons_iff hnodup).2 hc) (not_before_symm hnodup h)
    · exact (List.mem_cons.1 hc).resolve_left hne.symm
  have hbefore : ∀ {u c}, u ∈ l₁ → c ∈ l₂ → Before (g.co lab.addr) u c := by
    intro u c hu hc
    obtain ⟨k₁, k₂, rfl⟩ := List.append_of_mem hc
    exact ⟨l₁ ++ k₁, k₂, by rw [hsplit, List.append_assoc], List.mem_append_left _ hu⟩
  have hmem₂ : ∀ {c}, c ∈ l₂ → c ∈ g.co lab.addr := fun hc => by
    rw [hsplit]
    exact List.mem_append_right _ hc
  refine acyclic_of_changes hac₁ hchanges
    (not_transGen_of_shortcut hac₁
      (fun a b hab ha hb => .single (hchanges a b hab ha hb)) (fun hloop => ?_)
      fun a c ha hcc hane hcne => ?_)
  · have h := hn.before_of_orderEdge hg hc hwrite hloop
    rw [heq] at h
    exact h.ne hnodup rfl
  · have hcl := hlater (hn.before_of_orderEdge hg hc hwrite hcc)
    -- the read of the RMW, and a read that reads an earlier write, come before the later writes
    have hfr : ∀ {q : Event} {qLab : EventLabel} {v : Event}, g.getEventLabel q = some qLab →
        qLab.isRead = true → qLab.addr = lab.addr → qLab.rf = some v →
        (v = Event.getInit ∨ v ∈ l₁) → TransGen (OrderEdge (g.addLabelToGraph lab)) q c := by
      intro q qLab v hq hqr hqa hqv hv
      refine .single (.fr (hx₀.old hq) hqr hqv ?_ (hv.imp_right fun hv => ?_))
      · rw [hx₀.co, hqa]
        exact hmem₂ hcl
      · rw [hx₀.co, hqa]
        exact hbefore hv hcl
    have hpredl : pred = Event.getInit ∨ pred ∈ l₁ := by
      rcases hpred with ⟨hnot, -⟩ | ⟨l₀, rfl⟩
      · refine (hg.source r rLab pred hr hread hrf).imp_right ?_
        rintro ⟨pLab, hpLab, hpw, hpa⟩
        exact absurd (hpa.trans haddr ▸ hc.write pred pLab hpLab hpw) hnot
      · exact .inr (by simp)
    have hself : ∀ {l : EventLabel}, ((g.addLabelToGraph lab).addCo lab.pos pred
        lab.addr).getEventLabel lab.pos = some l → l.kind = lab.kind := by
      intro l hl
      obtain ⟨l', m, hl', rfl⟩ := hp.back hl
      obtain rfl := Option.some.inj (hx₀.self.symm.trans hl')
      rfl
    suffices hx : ∀ x, OrderEdge ((g.addLabelToGraph lab).addCo lab.pos pred lab.addr) a x →
        x = lab.pos → TransGen (OrderEdge (g.addLabelToGraph lab)) a c from hx _ ha rfl
    intro x ha hx
    cases ha with
    | @po t i h =>
      have hri : r = ⟨t, i⟩ := by
        rw [← hx, Event.next] at hnext
        rw [Event.ext_iff'] at hnext ⊢
        exact ⟨hnext.1, by simpa using hnext.2⟩
      rw [← hri]
      exact hfr hr hread haddr hrf hpredl
    | tc h hk' hb =>
      have hb' := hn.begun
      rw [← hx] at hb'
      exact absurd hb' (lt_irrefl _)
    | tj h hb =>
      obtain ⟨jLab, hj, hjk⟩ := (hp.graphInv (hg.addLabelToGraph hn hc)).parentJoin _ _ _ h hb
      rw [hx] at hj
      rw [EventLabel.isWrite, ← hself hj, hjk] at hwrite
      exact absurd hwrite (by decide)
    | rf h hread' hv hne =>
      rw [hx] at h
      rw [EventLabel.isRead, hself h] at hread'
      rw [EventLabel.isWrite, EventLabelKind.not_isWrite_of_isRead hread'] at hwrite
      cases hwrite
    | @co y _ _ h =>
      rw [hx, co_addCo] at h
      split_ifs at h with hy
      · rw [hx₀.co, heq, before_append_cons_iff hnodup] at h
        refine .single (.co (x := lab.addr) ?_)
        rw [hx₀.co]
        exact hbefore h hcl
      · rw [hx₀.co] at h
        exact absurd h.mem_right (hx₀.notMem_co hg y)
    | @fr _ v _ qLab h hread' hv hb h' =>
      obtain ⟨l, m, hl, rfl⟩ := hp.back h
      have hane' : a ≠ lab.pos := hane
      have hl' := ((hx₀.cases hl).resolve_left fun h => hane' h.1).2
      rw [hx] at hb h'
      have hqa : l.addr = lab.addr := by
        by_contra hne
        rw [co_addCo, if_neg hne, hx₀.co] at hb
        exact absurd hb (hx₀.notMem_co hg _)
      refine hfr hl' hread' hqa hv (h'.imp_right fun h' => ?_)
      rw [co_addCo, if_pos hqa, hx₀.co, heq, before_append_cons_iff hnodup] at h'
      exact h'

end Store

end SCChecker
end GenMC
