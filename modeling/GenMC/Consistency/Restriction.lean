import GenMC.Consistency.OrderEdge
import GenMC.Verification.ThreadJoin

/-!
# Restricting a graph under construction

Cutting at a stamp, copying along a view and removing the last label of a thread all restrict a
graph to some of its labels.  A restriction makes no edges, and keeps what the driver relies on, as
long as a thread that goes on after a read keeps what the read reads from (`Settles`).

* `Restricts` is what the three operations have in common.
* `GraphInv.restrict` and `Restricts.orderEdge` are the results about them.
-/

set_option autoImplicit false

namespace GenMC

open ListOrder Relation ExecutionGraph

namespace SCChecker

variable {g g' : ExecutionGraph} {a b e r w : Event} {lab lab' : EventLabel}

/-! ## Restrictions -/

/-- `g'` is `g` restricted to the events satisfying `keep`. -/
structure Restricts (keep : Event → Bool) (g g' : ExecutionGraph) : Prop where
  threaded : g'.Threaded
  stampsUp : g'.StampsUp
  restricted : RestrictedTo keep g g'
  numThreads : g'.getNumThreads ≤ g.getNumThreads
  insertionOrder : g'.insertionOrder.Sublist g.insertionOrder
  co : ∀ a, g'.co a = (g.co a).filter keep
  label : ∀ e lab lab', 0 < e.index → g.getEventLabel e = some lab →
    g'.getEventLabel e = some lab' → lab'.childId = lab.childId ∧
      tjSucc lab' = (tjSucc lab).filter keep ∧ (linSuccsOf lab = [] → linSuccsOf lab' = [])
  ordering : ∀ e lab lab', 0 < e.index → g.getEventLabel e = some lab →
    g'.getEventLabel e = some lab' → lab'.ordering = lab.ordering ∧
      lab'.prefixView = lab.prefixView ∧ (linPredsOf lab = [] → linPredsOf lab' = [])
  begins : ∀ e lab lab', e.index = 0 → g.getEventLabel e = some lab →
    g'.getEventLabel e = some lab' → lab'.createId = lab.createId ∧
      (lab.create = none ∧ lab.ordering = initLabel.ordering →
        lab'.create = none ∧ lab'.ordering = initLabel.ordering)

/-- A thread that goes on after a read keeps what the read reads from. -/
def Settles (keep : Event → Bool) (g : ExecutionGraph) : Prop :=
  ∀ r rLab w, g.getEventLabel r = some rLab → rLab.isRead = true → rLab.rf = some w →
    w ≠ Event.getInit → (g.getEventLabel r.next).isSome → keep r.next = true → keep w = true

/-- The first label of a thread is a begin. -/
theorem kind_of_begin (h : g.Threaded) (hlab : g.getEventLabel e = some lab) (he : e.index = 0) :
    lab.kind = .Init ∨ lab.kind = .ThreadStart := by
  obtain ⟨t, i⟩ := e
  obtain rfl : i = 0 := he
  obtain ⟨lab', hlab', hsame⟩ := (sameThreads_resetStamps g).forth hlab
  rw [← hsame.kind]
  rcases Nat.eq_zero_or_pos t with rfl | ht
  · exact .inl (ThreadInv.main h lab' hlab').1
  · exact .inr (ThreadInv.created h t lab' ht hlab').1

/-- Labels that are no begins come after one. -/
theorem index_pos_of_kind (h : g.Threaded) (hlab : g.getEventLabel e = some lab)
    (hi : lab.kind ≠ .Init) (hs : lab.kind ≠ .ThreadStart) : 0 < e.index := by
  rw [Nat.pos_iff_ne_zero]
  intro he
  rcases kind_of_begin h hlab he with h | h
  · exact hi h
  · exact hs h

theorem kind_of_tjSucc (h : tjSucc lab = some b) : lab.kind = .ThreadFinish := by
  rw [tjSucc] at h
  split_ifs at h with hk
  exact hk

namespace Restricts

variable {keep : Event → Bool} (hr : Restricts keep g g')
include hr

/-- Where a label of the restriction comes from. -/
theorem back (he : 0 < e.index) (h : g'.getEventLabel e = some lab') :
    keep e = true ∧ ∃ lab, g.getEventLabel e = some lab ∧ RestrictedLabel keep lab lab' :=
  hr.restricted.label e lab' he h

theorem index_pos_of_isMemAccess (h : g'.getEventLabel e = some lab')
    (hm : lab'.isMemAccess = true) : 0 < e.index := by
  rw [Nat.pos_iff_ne_zero]
  intro he
  rw [hr.restricted.begins e lab' he h] at hm
  cases hm

/-- A read of the restriction. -/
theorem read (h : g'.getEventLabel e = some lab') (hread : lab'.isRead = true) :
    0 < e.index ∧ keep e = true ∧ ∃ lab, g.getEventLabel e = some lab ∧ lab.isRead = true ∧
      lab'.addr = lab.addr ∧ lab'.rf = lab.rf.filter fun w => w = Event.getInit || keep w := by
  have he := hr.index_pos_of_isMemAccess h (EventLabel.isMemAccess_of_isRead hread)
  obtain ⟨hkeep, lab, hlab, hrl⟩ := hr.back he h
  have hread' : lab.isRead = true := by
    rw [EventLabel.isRead, ← hrl.kind]
    exact hread
  exact ⟨he, hkeep, lab, hlab, hread', hrl.addr, hrl.rf hread'⟩

/-- A write that is kept. -/
theorem write (h : g.getEventLabel w = some lab) (hw : lab.isWrite = true) (hi : 0 < w.index)
    (hkeep : keep w = true) :
    ∃ lab', g'.getEventLabel w = some lab' ∧ lab'.isWrite = true ∧ lab'.addr = lab.addr := by
  obtain ⟨lab', hlab'⟩ := Option.isSome_iff_exists.1
    (hr.restricted.kept w hi hkeep (isSome_of_eq h))
  obtain ⟨-, lab₀, hlab₀, hrl⟩ := hr.back hi hlab'
  obtain rfl := Option.some.inj (h.symm.trans hlab₀)
  refine ⟨lab', hlab', ?_, hrl.addr⟩
  rw [EventLabel.isWrite, hrl.kind]
  exact hw

theorem isSome_of_next (h : (g'.getEventLabel e.next).isSome) :
    (g.getEventLabel e.next).isSome ∧ keep e.next = true := by
  obtain ⟨lab', hlab'⟩ := Option.isSome_iff_exists.1 h
  obtain ⟨hkeep, lab, hlab, -⟩ := hr.back (Nat.succ_pos _) hlab'
  exact ⟨isSome_of_eq hlab, hkeep⟩

/-- **A restriction makes no edges.** -/
theorem orderEdge (hg : GraphInv g) (h : OrderEdge g' a b) : OrderEdge g a b := by
  have hbefore : ∀ {x : SAddr} {u v : Event}, Before (g'.co x) u v → Before (g.co x) u v := by
    intro x u v huv
    rw [hr.co] at huv
    exact (before_filter_iff.1 huv).1
  cases h with
  | @po t i h => exact .po (hr.isSome_of_next (e := ⟨t, i⟩) h).1
  | @tc _ lab' h hk hb =>
    have hi := index_pos_of_kind hr.threaded h (by rw [hk]; decide) (by rw [hk]; decide)
    obtain ⟨-, lab, hlab, hrl⟩ := hr.back hi h
    rw [(hr.label a lab lab' hi hlab h).1] at hb ⊢
    refine .tc hlab (hrl.kind.symm.trans hk) ?_
    -- the thread is one of `g` too
    obtain ⟨bLab, hbLab⟩ := Option.isSome_iff_exists.1 hb
    have hlt := (lt_getNumThreads_of_getEventLabel hbLab).trans_le hr.numThreads
    rw [← (sameThreads_resetStamps g).isSome]
    exact ThreadInv.begun hg.threaded _ (by rwa [getNumThreads_resetStamps])
  | @tj _ _ lab' h hb =>
    have hk := kind_of_tjSucc hb
    have hi := index_pos_of_kind hr.threaded h (by rw [hk]; decide) (by rw [hk]; decide)
    obtain ⟨-, lab, hlab, -⟩ := hr.back hi h
    rw [(hr.label a lab lab' hi hlab h).2.1] at hb
    exact .tj hlab (Option.filter_eq_some_iff.1 hb).1
  | rf h hread hw hne =>
    obtain ⟨-, -, lab, hlab, hread', -, hrf⟩ := hr.read h hread
    rw [hrf] at hw
    exact .rf hlab hread' (Option.filter_eq_some_iff.1 hw).1 hne
  | co h => exact .co (hbefore h)
  | fr h hread hw hb h' =>
    obtain ⟨-, -, lab, hlab, hread', haddr, hrf⟩ := hr.read h hread
    rw [hrf] at hw
    rw [haddr] at hb h'
    rw [hr.co] at hb
    exact .fr hlab hread' (Option.filter_eq_some_iff.1 hw).1 (List.mem_filter.1 hb).1
      (h'.imp_right hbefore)

/-- Writes stay complete. -/
theorem mem_co (hw : ∀ w wLab, g.getEventLabel w = some wLab → wLab.isWrite = true →
    w ∈ g.co wLab.addr) (h : g'.getEventLabel w = some lab') (hwrite : lab'.isWrite = true) :
    w ∈ g'.co lab'.addr := by
  have he := hr.index_pos_of_isMemAccess h (EventLabel.isMemAccess_of_isWrite hwrite)
  obtain ⟨hkeep, lab, hlab, hrl⟩ := hr.back he h
  rw [hr.co, hrl.addr]
  refine List.mem_filter.2 ⟨hw w lab hlab ?_, hkeep⟩
  rw [EventLabel.isWrite, ← hrl.kind]
  exact hwrite

end Restricts

/-- **A restriction keeps the invariant.** -/
theorem GraphInv.restrict (hg : GraphInv g) {keep : Event → Bool} (hr : Restricts keep g g')
    (hs : Settles keep g) : GraphInv g' := by
  have hreader := hg.readerInv.restrict keep hr.restricted
  -- what a read reads from is kept together with the read
  have hsource : ∀ {r rLab' w}, g'.getEventLabel r = some rLab' → rLab'.isRead = true →
      rLab'.rf = some w → ∃ rLab, g.getEventLabel r = some rLab ∧ rLab.isRead = true ∧
        rLab'.addr = rLab.addr ∧ rLab.rf = some w ∧ (w = Event.getInit ∨ keep w = true) := by
    intro r rLab' w h hread hw
    obtain ⟨-, -, rLab, hrLab, hread', haddr, hrf⟩ := hr.read h hread
    rw [hrf] at hw
    obtain ⟨hw', hkeep⟩ := Option.filter_eq_some_iff.1 hw
    exact ⟨rLab, hrLab, hread', haddr, hw', by simpa using hkeep⟩
  refine ⟨hr.threaded, hr.stampsUp, hreader, fun a => ?_, fun a w hw => ?_,
    fun r rLab' w h hread hw => ?_, fun r rLab' h hread hw => ?_,
    fun r rLab' w h hread hw hnext => ?_, fun e eLab' j h hj => ?_, fun e eLab' h => ?_⟩
  · rw [hr.co]
    exact (hg.coNodup a).filter _
  · rw [hr.co] at hw
    obtain ⟨hmem, hkeep⟩ := List.mem_filter.1 hw
    obtain ⟨wLab, hwLab, hwrite, rfl⟩ := hg.co a w hmem
    exact hr.write hwLab hwrite
      (hg.readerInv.above w wLab hwLab (EventLabel.isMemAccess_of_isWrite hwrite)) hkeep
  · obtain ⟨rLab, hrLab, hread', haddr, hw', hkeep⟩ := hsource h hread hw
    rcases hg.source r rLab w hrLab hread' hw' with hi | ⟨wLab, hwLab, hwrite, hwaddr⟩
    · exact .inl hi
    · have hkeep := hkeep.resolve_left (hg.ne_init_of_isWrite hwLab hwrite)
      obtain ⟨wLab', hwLab', hwrite', haddr'⟩ := hr.write hwLab hwrite
        (hg.readerInv.above w wLab hwLab (EventLabel.isMemAccess_of_isWrite hwrite)) hkeep
      exact .inr ⟨wLab', hwLab', hwrite', by rw [haddr', hwaddr, haddr]⟩
  · obtain ⟨-, -, rLab, hrLab, hread', -, hrf⟩ := hr.read h hread
    rw [hrf] at hw
    rw [← Option.not_isSome_iff_eq_none]
    intro hnext
    obtain ⟨hnext', hkeep⟩ := hr.isSome_of_next hnext
    cases hw' : rLab.rf with
    | none =>
      rw [hg.waiting r rLab hrLab hread' hw'] at hnext'
      cases hnext'
    | some w =>
      -- what the read read from has been removed, so the thread does not go on
      rw [hw', Option.filter_some] at hw
      split_ifs at hw with hc
      simp only [Bool.or_eq_true, decide_eq_true_eq, not_or, Bool.not_eq_true] at hc
      rw [hs r rLab w hrLab hread' hw' hc.1 hnext' hkeep] at hc
      exact Bool.noConfusion hc.2
  · obtain ⟨rLab, hrLab, hread', -, hw', hkeep⟩ := hsource h hread hw
    rcases hg.settled r rLab w hrLab hread' hw' (hr.isSome_of_next hnext).1 with hi | hbefore
    · exact .inl hi
    · by_cases hne : w = Event.getInit
      · exact .inl hne
      · refine .inr (before_of_sublist hg.threaded.order hr.insertionOrder ?_
          ((hr.threaded.inserted _).2 hnext) hbefore)
        rw [hr.threaded.inserted]
        rcases hreader.rf r rLab' w h hread hw with ⟨hi, -⟩ | ⟨wLab', hwLab', -⟩
        · exact absurd hi hne
        · exact isSome_of_eq hwLab'
  · have hk := kind_of_tjSucc hj
    have hi := index_pos_of_kind hr.threaded h (by rw [hk]; decide) (by rw [hk]; decide)
    obtain ⟨-, lab, hlab, -⟩ := hr.back hi h
    rw [(hr.label e lab eLab' hi hlab h).2.1] at hj
    obtain ⟨hj', hkeep⟩ := Option.filter_eq_some_iff.1 hj
    obtain ⟨jLab, hjLab, hjk⟩ := hg.parentJoin e lab j hlab hj'
    have hpos := index_pos_of_kind hg.threaded hjLab (by rw [hjk]; decide) (by rw [hjk]; decide)
    obtain ⟨jLab', hjLab'⟩ := Option.isSome_iff_exists.1
      (hr.restricted.kept j hpos hkeep (isSome_of_eq hjLab))
    obtain ⟨-, jLab₀, hjLab₀, hrl⟩ := hr.back hpos hjLab'
    obtain rfl := Option.some.inj (hjLab.symm.trans hjLab₀)
    exact ⟨jLab', hjLab', hrl.kind.trans hjk⟩
  · rcases Nat.eq_zero_or_pos e.index with he | hi
    · rw [ExecutionGraph.linSuccsOf, if_neg]
      rcases kind_of_begin hr.threaded h he with hk | hk
      · rw [hk]
        decide
      · rw [hk]
        decide
    · obtain ⟨-, lab, hlab, -⟩ := hr.back hi h
      exact (hr.label e lab eLab' hi hlab h).2.2 (hg.linSuccs e lab hlab)

/-! ## Removing the last label of a thread -/

/-- A label whose removal changes no other label but what it reads from. -/
def Removable (lab : EventLabel) : Prop :=
  lab.isWrite = false ∧ lab.kind ≠ .ThreadCreate ∧ lab.kind ≠ .ThreadJoin ∧ 0 < lab.pos.index

section Removal

variable {t : ℕ} (hg : GraphInv g) (hlast : g.getLastThreadLabel t = some lab)
  (hrem : Removable lab)
include hg hlast

theorem getEventLabel_of_last : g.getEventLabel lab.pos = some lab ∧
    lab.pos = ⟨t, g.getThreadSize t - 1⟩ := by
  obtain ⟨-, h⟩ := getLastThreadLabel_eq_some.1 hlast
  have hpos := hg.threaded.slots _ _ h
  exact ⟨by rwa [hpos], hpos⟩

theorem getEventLabel_removeLast_of_ne (hne : e ≠ lab.pos) :
    (g.removeLast t).getEventLabel e = (g.getEventLabel e).map (g.unlinked lab) := by
  rw [getEventLabel_removeLast_eq hlast, if_neg]
  rintro ⟨h1, h2⟩
  rw [(getEventLabel_of_last hg hlast).2, Ne, Event.ext_iff'] at hne
  exact hne ⟨h1, by simp only; omega⟩

theorem getEventLabel_removeLast_pos : (g.removeLast t).getEventLabel lab.pos = none := by
  obtain ⟨-, hpos⟩ := getEventLabel_of_last hg hlast
  obtain ⟨hsize, -⟩ := getLastThreadLabel_eq_some.1 hlast
  rw [getEventLabel_removeLast_eq hlast, if_pos]
  rw [hpos]
  exact ⟨rfl, by simp only; omega⟩

/-- What is left after a removal. -/
theorem of_getEventLabel_removeLast (h : (g.removeLast t).getEventLabel e = some lab') :
    e ≠ lab.pos ∧ ∃ l, g.getEventLabel e = some l ∧ lab' = g.unlinked lab l := by
  have hne : e ≠ lab.pos := by
    rintro rfl
    rw [getEventLabel_removeLast_pos hg hlast] at h
    cases h
  rw [getEventLabel_removeLast_eq hlast] at h
  split at h
  · cases h
  · obtain ⟨l, hl, rfl⟩ := Option.map_eq_some_iff.1 h
    exact ⟨hne, l, hl, rfl⟩

omit hg in
theorem removeLast_frame : (g.removeLast t).insertionOrder = g.insertionOrder.erase lab.pos ∧
    (g.removeLast t).coherence = g.coherence ∧ (g.removeLast t).timestamp = g.timestamp := by
  obtain ⟨o, -, hio, hco, -, -, htime, -, heq⟩ := removeLast_eq_unlinked hlast
  rw [heq]
  exact ⟨congrArg (·.erase lab.pos) hio, hco, htime⟩

include hrem

theorem threaded_removeLast : (g.removeLast t).Threaded := by
  obtain ⟨hlab, hpos⟩ := getEventLabel_of_last hg hlast
  obtain ⟨hio, -, -⟩ := removeLast_frame hlast
  have hsame := sameThreads_resetStamps (g.removeLast t)
  have hsame₀ := sameThreads_resetStamps g
  -- the labels of the thread from the one that is removed on
  set keep : Event → Bool := fun e => !(e.thread = t && lab.pos.index ≤ e.index) with hkeep
  have hkeep_iff : ∀ {e}, (g.getEventLabel e).isSome → (keep e = true ↔ e ≠ lab.pos) := by
    intro e he
    obtain ⟨l, hl⟩ := Option.isSome_iff_exists.1 he
    have hlt := lt_getThreadSize_of_getEventLabel hl
    rw [hkeep]
    simp only [Bool.not_eq_true', Bool.and_eq_false_iff, decide_eq_false_iff_not, hpos, ne_eq,
      Event.ext_iff', not_and_or]
    by_cases ht : e.thread = t
    · rw [ht] at hlt
      simp only [ht, not_true, false_or]
      omega
    · simp [ht]
  have hmem : ∀ {e}, e ∈ g.insertionOrder → (keep e = true ↔ e ≠ lab.pos) :=
    fun he => hkeep_iff ((hg.threaded.inserted _).1 he)
  have hprune : Pruned g.getNumThreads keep g.resetStamps (g.removeLast t).resetStamps := by
    refine ⟨?_, ?_, fun e lab' h' => ?_, fun e he h' => ?_, fun t' ht' => ?_,
      fun t' bLab ht ht' hb => ?_, fun t' i hi => ?_, ?_, ?_⟩
    · have := ThreadInv.threads hg.threaded
      rwa [getNumThreads_resetStamps] at this
    · rw [getNumThreads_resetStamps, getNumThreads_removeLast]
    · obtain ⟨l', hl', hs'⟩ := hsame.label e lab' h'
      obtain ⟨hne, l, hl, rfl⟩ := of_getEventLabel_removeLast hg hlast hl'
      obtain ⟨l₀, hl₀, hs₀⟩ := hsame₀.forth hl
      have hepos : lab'.pos = e := hs'.pos.trans (hg.threaded.slots e l hl)
      refine ⟨(hkeep_iff (isSome_of_eq hl)).2 hne, hepos, ?_, l₀, hl₀, ?_⟩
      · have hein : e ∈ (g.removeLast t).insertionOrder := by
          rw [hio]
          exact (List.mem_erase_of_ne hne).2 ((hg.threaded.inserted e).2 (isSome_of_eq hl))
        have hnodup : (g.removeLast t).insertionOrder.Nodup := by
          rw [hio]
          exact hg.threaded.order.erase _
        rw [getEventLabel_resetStamps, hl', Option.map_some] at h'
        obtain rfl := Option.some.inj h'
        show restamp _ 0 l.pos _ = _
        rw [hg.threaded.slots e l hl, restamp_of_mem hnodup hein, Nat.zero_add,
          insertionOrder_resetStamps]
      · refine ⟨hs'.kind.trans hs₀.kind.symm, hs'.createId.trans hs₀.createId.symm,
          fun _ => ⟨hs'.childId.trans hs₀.childId.symm, fun _ => ?_⟩⟩
        rw [hs'.create, hs₀.create]
        exact if_neg fun h => hrem.2.1 h.1
    · rw [hsame₀.isSome] at h'
      rw [hsame.isSome, getEventLabel_removeLast_of_ne hg hlast ((hkeep_iff h').1 he),
        Option.isSome_map]
      exact h'
    · refine ⟨?_, ThreadInv.begun hg.threaded t' (by rwa [getNumThreads_resetStamps])⟩
      have := hrem.2.2.2
      simp only [hkeep, Bool.not_eq_true', Bool.and_eq_false_iff, decide_eq_false_iff_not]
      right
      omega
    · obtain ⟨-, cLab, -, hc, hck, -⟩ := ThreadInv.created hg.threaded t' bLab ht hb
      obtain ⟨cLab', hc', hcs⟩ := hsame₀.label _ _ hc
      refine (hkeep_iff (isSome_of_eq hc')).2 ?_
      intro heq
      rw [heq, hlab] at hc'
      obtain rfl := Option.some.inj hc'
      exact hrem.2.1 (hcs.kind.symm.trans hck)
    · simp only [hkeep, Bool.not_eq_true', Bool.and_eq_false_iff, decide_eq_false_iff_not] at hi ⊢
      omega
    · rw [insertionOrder_resetStamps, insertionOrder_resetStamps, hio,
        hg.threaded.order.erase_eq_filter]
      refine List.filter_congr fun e he => ?_
      rw [Bool.eq_iff_iff, hmem he]
      simp
    · rw [resetStamps_eq]
      rfl
  exact ThreadInv.prune hg.threaded hprune

/-- **Removing a label is a restriction.** -/
theorem restricts_removeLast : Restricts (fun e => e ≠ lab.pos) g (g.removeLast t) := by
  obtain ⟨hlab, -⟩ := getEventLabel_of_last hg hlast
  obtain ⟨hio, hco, htime⟩ := removeLast_frame hlast
  refine ⟨threaded_removeLast hg hlast hrem,
    ⟨(hg.readerInv.removeLast t).stamped, fun a b aLab bLab s s' hab ha hb hs hs' => ?_,
      fun e lab' s h' hs => ?_⟩,
    hg.readerInv.restrictedTo_removeLast hlast, (getNumThreads_removeLast t).le, ?_, fun a => ?_,
    fun e l lab' he hl h' => ?_, fun e l lab' _ hl h' => ?_, fun e l lab' _ hl h' => ?_⟩
  · obtain ⟨-, aLab₀, ha₀, rfl⟩ := of_getEventLabel_removeLast hg hlast ha
    obtain ⟨-, bLab₀, hb₀, rfl⟩ := of_getEventLabel_removeLast hg hlast hb
    refine hg.stampsUp.up a b _ _ s s' ?_ ha₀ hb₀ hs hs'
    rw [hio, hg.threaded.order.erase_eq_filter] at hab
    exact (before_filter_iff.1 hab).1
  · obtain ⟨-, l, hl, rfl⟩ := of_getEventLabel_removeLast hg hlast h'
    rw [htime]
    exact hg.stampsUp.below e l s hl hs
  · rw [hio]
    exact List.erase_sublist
  · rw [ExecutionGraph.co, hco]
    refine (List.filter_eq_self.2 fun w hw => ?_).symm
    obtain ⟨wLab, hwLab, hwrite, -⟩ := hg.co a w hw
    rw [decide_eq_true_eq]
    rintro rfl
    obtain rfl := Option.some.inj (hlab.symm.trans hwLab)
    rw [hrem.1] at hwrite
    cases hwrite
  · obtain ⟨-, l₀, hl₀, rfl⟩ := of_getEventLabel_removeLast hg hlast h'
    obtain rfl := Option.some.inj (hl.symm.trans hl₀)
    refine ⟨rfl, ?_, id⟩
    have hparent : (g.unlinked lab l).parentJoin = l.parentJoin :=
      if_neg fun h => hrem.2.2.1 h.1
    have hsucc : tjSucc (g.unlinked lab l) = tjSucc l := by
      rw [tjSucc, tjSucc, hparent]
      rfl
    rw [hsucc]
    cases hj : tjSucc l with
    | none => rfl
    | some j =>
      obtain ⟨jLab, hjLab, hk⟩ := hg.parentJoin e l j hl hj
      rw [Option.filter_some, if_pos]
      rw [decide_eq_true_eq]
      rintro rfl
      obtain rfl := Option.some.inj (hlab.symm.trans hjLab)
      exact hrem.2.2.1 hk
  · obtain ⟨-, l₀, hl₀, rfl⟩ := of_getEventLabel_removeLast hg hlast h'
    obtain rfl := Option.some.inj (hl.symm.trans hl₀)
    exact ⟨rfl, rfl, id⟩
  · obtain ⟨-, l₀, hl₀, rfl⟩ := of_getEventLabel_removeLast hg hlast h'
    obtain rfl := Option.some.inj (hl.symm.trans hl₀)
    refine ⟨rfl, fun h => ⟨?_, h.2⟩⟩
    have hcreate : (g.unlinked lab l).create = l.create := if_neg fun h => hrem.2.1 h.1
    rw [hcreate, h.1]

theorem settles_removeLast : Settles (fun e => e ≠ lab.pos) g := by
  intro r rLab w hr hread hw hne _ _
  rw [decide_eq_true_eq]
  rintro rfl
  rcases hg.source r rLab _ hr hread hw with hi | ⟨wLab, hwLab, hwrite, -⟩
  · exact hne hi
  · obtain rfl := Option.some.inj ((getEventLabel_of_last hg hlast).1.symm.trans hwLab)
    rw [hrem.1] at hwrite
    cases hwrite

end Removal

/-! ## Cutting -/

theorem getNumThreads_cleanupBegins_le (orphan : ExecutionGraph → EventLabel → Bool) :
    ∀ (i : ℕ) (o : ExecutionGraph), (o.cleanupBegins orphan i).getNumThreads ≤ o.getNumThreads ∧
      (o.cleanupBegins orphan i).insertionOrder.Sublist o.insertionOrder
  | 0, _ => ⟨le_rfl, List.Sublist.refl _⟩
  | i + 1, o => by
    rw [cleanupBegins]
    split
    · rename_i bLab _
      split
      · exact ⟨le_rfl, List.Sublist.refl _⟩
      · split
        · obtain ⟨h1, h2⟩ := getNumThreads_cleanupBegins_le orphan i (o.eraseBegin i bLab)
          refine ⟨h1.trans ?_, h2.trans ?_⟩
          · rw [getNumThreads, eraseBegin]
            cases bLab.symmPredTid with
            | none => exact (List.eraseIdx_sublist ..).length_le
            | some p =>
              refine (List.eraseIdx_sublist ..).length_le.trans_eq ?_
              exact List.length_modify ..
          · rw [insertionOrder_eraseBegin]
            exact List.erase_sublist
        · exact getNumThreads_cleanupBegins_le orphan i o
    · exact ⟨le_rfl, List.Sublist.refl _⟩

/-- The writes to a location that are left after a cut. -/
theorem GraphInv.co_removeAfter (hg : GraphInv g) (v : View) (x : SAddr) :
    (g.removeAfter v).co x = (g.co x).filter (v.contains ·) := by
  have hempty : (∀ e lab, v.contains e = true → g.getEventLabel e = some lab →
      lab.isMemAccess = true → lab.addr ≠ x) → (g.co x).filter (v.contains ·) = [] := by
    intro h
    rw [List.filter_eq_nil_iff]
    intro w hw hc
    obtain ⟨wLab, hwLab, hwrite, ha⟩ := hg.co x w hw
    exact h w wLab hc hwLab (EventLabel.isMemAccess_of_isWrite hwrite) ha
  rw [removeAfter, ExecutionGraph.co]
  simp only
  split_ifs with hnone hkeep
  · have hnil : g.co x = [] := by
      rw [ExecutionGraph.co, Option.isNone_iff_eq_none.1 hnone]
      rfl
    rw [hnil]
    exact hnil
  · rfl
  · refine (hempty fun e lab hc hlab hm ha => hkeep ?_).symm
    rw [← ha]
    exact any_keptEvents hlab hc hm

/-- A cut leaves the begins as they are. -/
theorem begins_cutToStamp (hg : GraphInv g) (stamp : ℕ) (hlab : g.getEventLabel e = some lab)
    (hlab' : (g.cutToStamp stamp).getEventLabel e = some lab') :
    lab'.createId = lab.createId ∧ (lab.create = none ∧ lab.ordering = initLabel.ordering →
      lab'.create = none ∧ lab'.ordering = initLabel.ordering) := by
  have h : ThreadInv g.resetStamps := hg.threaded
  obtain ⟨n, hn⟩ := hg.stampsUp.cutToStamp_eq hg.threaded stamp
  have hc := h.hasCreations_getViewFromStamp n
  obtain ⟨k, hk, hkn, hthr⟩ := h.exists_threshold (h.inCreationOrder_getViewFromStamp n)
  have htrim := h.trimmed_restrictTo hc hk hkn hthr
  rw [hn, ExecutionGraph.cutToStamp, getEventLabel_resetStamps] at hlab'
  obtain ⟨lab₁, h₁, rfl⟩ := Option.map_eq_some_iff.1 hlab'
  obtain ⟨lab₂, s, h₂, rfl⟩ := htrim.label _ _ h₁
  rw [getEventLabel_restrictTo] at h₂
  split at h₂
  · rw [getEventLabel_resetStamps, hlab] at h₂
    obtain rfl := Option.some.inj h₂
    refine ⟨rfl, fun hnone => ⟨?_, hnone.2⟩⟩
    show (if lab.isThreadStart then lab.create.filter _ else lab.create) = none
    rw [hnone.1]
    split_ifs <;> rfl
  · cases h₂

/-- **Cutting at a stamp is a restriction.** -/
theorem GraphInv.restricts_cutToStamp (hg : GraphInv g) (stamp : ℕ) :
    Restricts ((g.getViewFromStamp stamp).contains ·) g (g.cutToStamp stamp) := by
  have hinv := hg.stampsUp.threadInv_cutToStamp hg.threaded stamp
  obtain ⟨hnum, hio⟩ := getNumThreads_cleanupBegins_le (fun _ bLab => bLab.create.isNone)
    (g.restrictTo (g.getViewFromStamp stamp)).getNumThreads
    (g.restrictTo (g.getViewFromStamp stamp))
  rw [getNumThreads_restrictTo] at hnum
  refine ⟨hinv.threaded (.refl _), hinv.stampsUp, hg.readerInv.restrictedTo_cutToStamp stamp,
    ?_, ?_, fun x => ?_, fun e lab lab' he hlab hlab' => ?_, fun e lab lab' he hlab hlab' => ?_,
    fun e lab lab' _ => begins_cutToStamp hg stamp⟩
  · rw [ExecutionGraph.cutToStamp, getNumThreads_resetStamps]
    rw [getNumThreads_restrictTo]
    exact hnum
  · rw [ExecutionGraph.cutToStamp, insertionOrder_resetStamps]
    exact hio.trans List.filter_sublist
  · rw [ExecutionGraph.co, (maps_cutToStamp hg.readerInv.seated stamp).2]
    exact hg.co_removeAfter _ x
  · obtain ⟨io, hget⟩ := getEventLabel_cutToStamp hg.readerInv.seated stamp
    rw [hget e he] at hlab'
    split at hlab'
    · rw [hlab, Option.map_some] at hlab'
      obtain rfl := Option.some.inj hlab'
      refine ⟨rfl, ?_, fun hnil => ?_⟩
      · show (if lab.kind = .ThreadFinish then
          (if lab.kind = .ThreadFinish then lab.parentJoin.filter _ else lab.parentJoin)
            else none) = _
        rw [tjSucc]
        split_ifs with hk
        · rfl
        · rfl
      · rw [ExecutionGraph.linSuccsOf] at hnil ⊢
        show (if lab.kind = .MethodEnd then
          (if lab.kind = .MethodEnd then lab.linSuccs.filter _ else lab.linSuccs) else []) = []
        split_ifs with hk
        · rw [if_pos hk] at hnil
          rw [hnil]
          rfl
        · rfl
    · cases hlab'
  · obtain ⟨io, hget⟩ := getEventLabel_cutToStamp hg.readerInv.seated stamp
    rw [hget e he] at hlab'
    split at hlab'
    · rw [hlab, Option.map_some] at hlab'
      obtain rfl := Option.some.inj hlab'
      refine ⟨rfl, rfl, fun hnil => ?_⟩
      rw [ExecutionGraph.linPredsOf] at hnil ⊢
      show (if lab.kind = .MethodBegin then
        (if lab.kind = .MethodBegin then lab.linPreds.filter _ else lab.linPreds) else []) = []
      split_ifs with hk
      · rw [if_pos hk] at hnil
        rw [hnil]
        rfl
      · rfl
    · cases hlab'

/-- A cut keeps what a read reads from if it keeps what comes after the read. -/
theorem GraphInv.settles_cutToStamp (hg : GraphInv g) (stamp : ℕ) :
    Settles ((g.getViewFromStamp stamp).contains ·) g := by
  obtain ⟨n, hn, -⟩ := hg.stampsUp.exists_view hg.threaded stamp
  have hcontains : ∀ {e : Event}, (g.getEventLabel e).isSome → 0 < e.index →
      ((g.getViewFromStamp stamp).contains e = true ↔ g.insertionOrder.idxOf e ≤ n) := by
    intro e he hi
    rw [← hn, ThreadInv.contains_getViewFromStamp hg.threaded n
      (by rwa [(sameThreads_resetStamps g).isSome]) hi, insertionOrder_resetStamps]
  intro r rLab w hr hread hw hne hnext hkeep
  obtain ⟨wLab, hwLab, hwrite, -⟩ := (hg.source r rLab w hr hread hw).resolve_left hne
  have hbefore := (hg.settled r rLab w hr hread hw hnext).resolve_left hne
  have hlt := (before_iff_idxOf_lt hg.threaded.order ((hg.threaded.inserted _).2 hnext)).1 hbefore
  rw [hcontains (isSome_of_eq hwLab)
    (hg.readerInv.above w wLab hwLab (EventLabel.isMemAccess_of_isWrite hwrite))]
  exact hlt.le.trans ((hcontains hnext (Nat.succ_pos _)).1 hkeep)

/-! ## Copying -/

/-- The initializer of a copy is a new one. -/
theorem init_copyGraphUpTo (h : g.ThreadInv) {v : View} (hc : HasCreations g v) {k : ℕ} (hk : 0 < k)
    (hkn : k ≤ g.getNumThreads) (hthr : ∀ t bLab, 0 < t → g.getEventLabel ⟨t, 0⟩ = some bLab →
      (v.contains bLab.createId = true ↔ t < k))
    (hlab' : (g.copyGraphUpTo v).getEventLabel Event.getInit = some lab') :
    lab'.create = none ∧ lab'.ordering = initLabel.ordering := by
  have htrim := h.trimmed_cleanedCopy hc hk hkn hthr
  rw [copyGraphUpTo_eq] at hlab'
  have hget : ((g.orderedCopy v).mapLabels fun lab =>
      if lab.pos ∈ (g.orderedCopy v).insertionOrder then fixPointers g (g.orderedCopy v) v lab
        else lab).getEventLabel Event.getInit = some lab' := hlab'
  rw [getEventLabel_mapLabels, getEventLabel_orderedCopy, Option.map_map] at hget
  obtain ⟨lab₂, h₂, rfl⟩ := Option.map_eq_some_iff.1 hget
  obtain ⟨lab₁, s, h₁, rfl⟩ := htrim.label _ _ h₂
  obtain ⟨-, -, lab, -, ⟨-, rfl⟩ | ⟨hne, -⟩⟩ :=
    cloneLabels_cases h.slots h.stamped h.isSome_init h₁
  · rw [Function.comp_apply]
    split <;> exact ⟨rfl, rfl⟩
  · exact absurd rfl hne

/-- **Copying along a view is a restriction**, if the view keeps creations in the order of ids. -/
theorem GraphInv.restricts_copyGraphUpTo (hg : GraphInv g) (h : g.ThreadInv) {v : View}
    (hc : HasCreations g v) (ho : InCreationOrder g v) :
    Restricts (v.contains ·) g (g.copyGraphUpTo v) := by
  have hinv := h.copyGraphUpTo hc ho
  obtain ⟨k, hk, hkn, hthr⟩ := h.exists_threshold ho
  have hp := h.pruned_copyGraphUpTo hc hk hkn hthr
  refine ⟨hinv.threaded (.refl _), hinv.stampsUp,
    hg.readerInv.restrictedTo_copyGraphUpTo h.slots v, hp.numThreads.trans_le hkn, ?_, fun x => ?_,
    fun e lab lab' he hlab hlab' => ?_, fun e lab lab' he hlab hlab' => ?_,
    fun e lab lab' he hlab hlab' => ?_⟩
  · rw [hp.insertionOrder]
    exact List.filter_sublist
  · rw [co_copyGraphUpTo h.slots h.stamped]
    split
    · rfl
    · rename_i hnone
      have hnil : g.co x = [] := by
        rw [ExecutionGraph.co, Option.not_isSome_iff_eq_none.1 hnone]
        rfl
      rw [hnil]
      rfl
  · rw [getEventLabel_copyGraphUpTo h.slots h.stamped v hg.readerInv.inserted he] at hlab'
    split at hlab'
    · rw [hlab, Option.map_some] at hlab'
      obtain rfl := Option.some.inj hlab'
      refine ⟨rfl, ?_, fun hnil => ?_⟩
      · rw [tjSucc]
        show (if lab.kind = .ThreadFinish then
          (if lab.kind = .ThreadFinish then lab.parentJoin.bind (relink (g.orderedCopy v) v)
            else lab.parentJoin) else none) = _
        by_cases hk' : lab.kind = .ThreadFinish
        · rw [if_pos hk', if_pos hk']
          have hsucc : tjSucc lab = lab.parentJoin := if_pos hk'
          rw [hsucc]
          cases hj : lab.parentJoin with
          | none => rfl
          | some j =>
            obtain ⟨jLab, hjLab, hjk⟩ := hg.parentJoin e lab j hlab (hsucc.trans hj)
            have hji := index_pos_of_kind hg.threaded hjLab (by rw [hjk]; decide)
              (by rw [hjk]; decide)
            show relink (g.orderedCopy v) v j = _
            rw [relink_orderedCopy h.slots h.stamped v hji, hjLab, Option.isSome_some,
              Bool.and_true, Option.filter_some]
        · rw [if_neg hk']
          have hsucc : tjSucc lab = none := if_neg hk'
          rw [hsucc]
          rfl
      · rw [ExecutionGraph.linSuccsOf] at hnil ⊢
        show (if lab.kind = .MethodEnd then (if lab.kind = .MethodEnd then
          (((g.getEventLabel lab.pos).map (·.linSuccs)).getD []).filterMap _ else lab.linSuccs)
            else []) = []
        split_ifs with hk'
        · rw [if_pos hk'] at hnil
          rw [h.slots e lab hlab, hlab, Option.map_some, Option.getD_some, hnil]
          rfl
        · rfl
    · cases hlab'
  · rw [getEventLabel_copyGraphUpTo h.slots h.stamped v hg.readerInv.inserted he] at hlab'
    split at hlab'
    · rw [hlab, Option.map_some] at hlab'
      obtain rfl := Option.some.inj hlab'
      refine ⟨rfl, rfl, fun hnil => ?_⟩
      rw [ExecutionGraph.linPredsOf] at hnil ⊢
      show (if lab.kind = .MethodBegin then (if lab.kind = .MethodBegin then
        (((g.getEventLabel lab.pos).map (·.linPreds)).getD []).filterMap _ else lab.linPreds)
          else []) = []
      split_ifs with hk'
      · rw [if_pos hk'] at hnil
        rw [h.slots e lab hlab, hlab, Option.map_some, Option.getD_some, hnil]
        rfl
      · rfl
    · cases hlab'
  · obtain ⟨-, -, -, lab₀, hlab₀, -, hcreate, -⟩ := hp.label e lab' hlab'
    obtain rfl := Option.some.inj (hlab.symm.trans hlab₀)
    refine ⟨hcreate, fun hnone => ?_⟩
    obtain ⟨t, i⟩ := e
    obtain rfl : i = 0 := he
    rcases Nat.eq_zero_or_pos t with rfl | ht
    · exact init_copyGraphUpTo h hc hk hkn hthr hlab'
    · obtain ⟨-, cLab, hsome, -⟩ := h.created t lab ht hlab
      rw [hnone.1] at hsome
      cases hsome

end SCChecker
end GenMC
