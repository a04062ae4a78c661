import GenMC.Consistency.ThreadChanges
import GenMC.Verification.Revisits

/-!
# Going back in an exploration

An exploration goes back by cutting the graph at the stamp of a label.  Reads whose source is gone
afterwards read from the last write instead.

* `CyclesAt` says where the cycles of a graph can be.  A graph that a revisit has left behind may
  have cycles, and they are where the revisit has changed it.
* `Repairs` is what `repairDanglingReads` does, and `repairs_repairDanglingReads` the result about
  it.
* `CyclesAt.restrict`: going back makes no cycles anywhere else.
-/

set_option autoImplicit false

namespace GenMC

open ListOrder Relation ExecutionGraph

namespace ExecutionGraph

/-- Makes a read read from the last write. -/
def repairRead (rLab : EventLabel) (g : ExecutionGraph) : ExecutionGraph :=
  g.setRf rLab.pos (some (g.coMax rLab.addr))

/-- Repairs the last label of a thread, if it is a read without a source. -/
def repairThread (g : ExecutionGraph) (i : ℕ) : ExecutionGraph :=
  match g.getLastThreadLabel i with
  | none => g
  | some lab => if lab.isRead && lab.rf.isNone then g.repairRead lab else g

/-- Makes all reads without a source read from the last write. -/
def repairDanglingReads (g : ExecutionGraph) : ExecutionGraph :=
  (List.range g.getNumThreads).foldl repairThread g

/-- Goes back to where the label with a stamp was added. -/
def restrict (stamp : ℕ) (g : ExecutionGraph) : ExecutionGraph :=
  (g.cutToStamp stamp).repairDanglingReads

/-- The copy of a graph along a view.  What is in the prefix of the write that revisits is not
revisited any more. -/
def copyGraph (pre v : View) (g : ExecutionGraph) : ExecutionGraph :=
  (g.copyGraphUpTo v).mapLabels fun lab =>
    if pre.contains lab.pos then { lab with revisitable := false } else lab

end ExecutionGraph

namespace SCChecker

variable {g g' : ExecutionGraph} {a b e r w x : Event} {lab lab' : EventLabel}
  {p p' q q' : Event → Prop}

/-! ## Where the cycles are -/

/-- An event of a kind, or a read of one. -/
def Touches (g : ExecutionGraph) (p : Event → Prop) (e : Event) : Prop :=
  p e ∨ ∃ lab w, g.getEventLabel e = some lab ∧ lab.isRead = true ∧ lab.rf = some w ∧ p w

/-- Every cycle goes through an event with `p`, a read of one, or an event with `q`. -/
def CyclesAt (p q : Event → Prop) (g : ExecutionGraph) : Prop :=
  Acyclic fun a b => OrderEdge g a b ∧ ¬ (Touches g p a ∨ q a) ∧ ¬ (Touches g p b ∨ q b)

theorem cyclesAt_of_acyclic (h : Acyclic (OrderEdge g)) : CyclesAt p q g :=
  h.mono fun _ _ hab => hab.1

/-- There are no cycles if there are none where they can be. -/
theorem CyclesAt.acyclic (h : CyclesAt p q g) (hi : ¬ p Event.getInit)
    (hp : ∀ x y, p x → ReflTransGen (OrderEdge g) x y → ¬ TransGen (OrderEdge g) y y)
    (hq : ∀ y, q y → ¬ TransGen (OrderEdge g) y y) : Acyclic (OrderEdge g) := by
  refine acyclic_of_changesAt (p := fun e => Touches g p e ∨ q e) h
    (fun a b hab ha hb => .single ⟨hab, ha, hb⟩) fun y hy => ?_
  rcases hy with (hy | ⟨lab, w, hlab, hread, hw, hpw⟩) | hy
  · exact hp y y hy .refl
  · -- the reads of an event come after it
    refine hp w y hpw (.single (.rf hlab hread hw ?_))
    rintro rfl
    exact hi hpw
  · exact hq y hy

/-- Cycles of a graph with the same edges, apart from events that nothing comes after. -/
theorem CyclesAt.of_sinks (h : CyclesAt p q g) {s : Event → Prop}
    (hsink : ∀ a b, OrderEdge g' a b → ¬ s a)
    (hrest : ∀ a b, OrderEdge g' a b → ¬ s b → OrderEdge g a b)
    (htouch : ∀ e, (g'.getEventLabel e).isSome → ¬ s e → Touches g p e ∨ q e →
      Touches g' p' e ∨ q' e) (hg' : GraphInv g') : CyclesAt p' q' g' := by
  refine acyclic_of_sinks (p := s) h (fun a b hab => hsink a b hab.1) fun a b hab hb => ?_
  obtain ⟨hedge, hpa, hpb⟩ := hab
  obtain ⟨ha, hb'⟩ := hg'.isSome_of_orderEdge hedge
  exact .single ⟨hrest a b hedge hb, fun h' => hpa (htouch a ha (hsink a b hedge) h'),
    fun h' => hpb (htouch b hb' hb h')⟩

/-! ## Reads without a source -/

/-- A read without a source. -/
def Dangling (g : ExecutionGraph) (r : Event) : Prop :=
  ∃ rLab, g.getEventLabel r = some rLab ∧ rLab.isRead = true ∧ rLab.rf = none

/-- Nothing comes after a read without a source. -/
theorem GraphInv.not_orderEdge_of_dangling (hg : GraphInv g) (hr : Dangling g r) (b : Event) :
    ¬ OrderEdge g r b := by
  obtain ⟨rLab, hrLab, hread, hrf⟩ := hr
  intro h
  rcases hg.orderEdge_read hrLab hread h with rfl | ⟨-, w, hw, -⟩
  · have hnext := (hg.isSome_of_orderEdge h).2
    rw [hg.waiting r rLab hrLab hread hrf] at hnext
    cases hnext
  · rw [hrf] at hw
    cases hw

/-- The edges after `setRf`: to the read, there is a new one from its source. -/
theorem orderEdge_setRf {rLab : EventLabel} (hg : GraphInv g) (hr : g.getEventLabel r = some rLab)
    (h : OrderEdge (g.setRf r (some w)) a b) (ha : a ≠ r) : OrderEdge g a b ∨ (b = r ∧ a = w) := by
  by_cases hb : b = r
  · cases h with
    | po h =>
      rw [isSome_setRf hr] at h
      exact .inl (.po h)
    | tc h hk hb' =>
      obtain ⟨l, rs, m, hl, rfl⟩ := of_setRf hg hr h
      rw [isSome_setRf hr] at hb'
      have hedge : OrderEdge g a ⟨l.childId, 0⟩ := .tc hl hk hb'
      exact .inl hedge
    | tj h hb' =>
      obtain ⟨l, rs, m, hl, rfl⟩ := of_setRf hg hr h
      exact .inl (.tj hl hb')
    | rf h hread hw hne =>
      obtain ⟨l, rs, m, hl, rfl⟩ := of_setRf hg hr h
      exact .inr ⟨hb, by simpa [hb] using hw.symm⟩
    | co h =>
      rw [co_setRf] at h
      exact .inl (.co h)
    | fr h hread hw hb' h' =>
      obtain ⟨l, rs, m, hl, rfl⟩ := of_setRf hg hr h
      rw [co_setRf] at hb' h'
      exact .inl (.fr hl hread (by simpa [ha] using hw) hb' h')
  · exact .inl (changes_setRf hg hr a b h ha hb)

/-! ## Repairing -/

/-- `g'` is `g` with some of the reads without a source repaired. -/
structure Repairs (g g' : ExecutionGraph) : Prop where
  graphInv : GraphInv g'
  sameThreads : SameThreads g g'
  timestamp : g'.timestamp = g.timestamp
  co : ∀ y, g'.co y = g.co y
  label : ∀ e lab', g'.getEventLabel e = some lab' → ∃ lab, g.getEventLabel e = some lab ∧
    lab'.addr = lab.addr ∧ lab'.stamp = lab.stamp ∧ (lab.rf.isSome → lab'.rf = lab.rf)
  edge : ∀ a b, OrderEdge g' a b → ¬ Dangling g a ∧ (¬ Dangling g b → OrderEdge g a b)

namespace Repairs

theorem refl (hg : GraphInv g) : Repairs g g :=
  ⟨hg, .refl g, rfl, fun _ => rfl, fun _ lab h => ⟨lab, h, rfl, rfl, fun _ => rfl⟩, fun _ b h =>
    ⟨fun ha => hg.not_orderEdge_of_dangling ha b h, fun _ => h⟩⟩

variable (hr : Repairs g g')
include hr

/-- What a label was before. -/
theorem back (h : g'.getEventLabel e = some lab') : ∃ lab, g.getEventLabel e = some lab ∧
    lab'.kind = lab.kind ∧ lab'.addr = lab.addr ∧ lab'.stamp = lab.stamp ∧
      (lab.rf.isSome → lab'.rf = lab.rf) := by
  obtain ⟨lab, hlab, haddr, hst, hrf⟩ := hr.label e lab' h
  obtain ⟨lab₀, hlab₀, hsame⟩ := hr.sameThreads.label e lab' h
  obtain rfl := Option.some.inj (hlab.symm.trans hlab₀)
  exact ⟨lab, hlab, hsame.kind, haddr, hst, hrf⟩

/-- Repairing one more read. -/
theorem repairRead (h : g'.getEventLabel lab.pos = some lab) (hread : lab.isRead = true)
    (hrf : lab.rf = none) : Repairs g (g'.repairRead lab) := by
  have hg' := hr.graphInv
  have hnext := hg'.waiting _ lab h hread hrf
  have hmax := hg'.source_coMax lab
  have hdangling : Dangling g lab.pos := by
    obtain ⟨lab₀, hlab₀, hk, -, -, hrf'⟩ := hr.back h
    refine ⟨lab₀, hlab₀, ?_, ?_⟩
    · rw [EventLabel.isRead, ← hk]
      exact hread
    · by_contra hne
      rw [hrf' (Option.ne_none_iff_isSome.1 hne)] at hrf
      exact hne hrf
  have hsame := sameThreads_setRf (w := g'.coMax lab.addr) hg' h
  refine ⟨hg'.setRf h hread hmax hnext, hr.sameThreads.trans hsame, ?_, fun y => ?_,
    fun e lab' h' => ?_, fun a b hab => ?_⟩
  · rw [← hr.timestamp]
    exact frame_setRf (·.timestamp) (fun _ _ => rfl) (fun _ _ => rfl) _ _
  · rw [ExecutionGraph.repairRead, co_setRf, hr.co]
  · obtain ⟨l, rs, m, hl, rfl⟩ := of_setRf hg' h h'
    obtain ⟨l₀, hl₀, -, haddr, hst, hrf'⟩ := hr.back hl
    refine ⟨l₀, hl₀, haddr, hst, fun hsome => ?_⟩
    show (if e = lab.pos then some (g'.coMax lab.addr) else l.rf) = l₀.rf
    rw [if_neg, hrf' hsome]
    rintro rfl
    obtain rfl := Option.some.inj (hl.symm.trans h)
    rw [hrf' hsome] at hrf
    rw [hrf] at hsome
    cases hsome
  · have hane : a ≠ lab.pos := by
      rintro rfl
      exact not_orderEdge_setRf hg' h hread hnext rfl b hab
    rcases orderEdge_setRf hg' h hab hane with hab | ⟨rfl, rfl⟩
    · exact hr.edge a b hab
    · -- a source is no read
      refine ⟨?_, fun hb => absurd hdangling hb⟩
      rintro ⟨rLab, hrLab, hread', -⟩
      rcases hmax with hi | ⟨vLab, hv, hvw, -⟩
      · obtain ⟨iLab, hiLab, hik⟩ := hg'.threaded.main
        rw [← hi] at hiLab
        obtain ⟨iLab₀, hiLab₀, hk, -⟩ := hr.back hiLab
        obtain rfl := Option.some.inj (hrLab.symm.trans hiLab₀)
        rw [EventLabel.isRead, ← hk, hik] at hread'
        exact absurd hread' (by decide)
      · obtain ⟨vLab₀, hv₀, hk, -⟩ := hr.back hv
        obtain rfl := Option.some.inj (hrLab.symm.trans hv₀)
        rw [EventLabel.isWrite, hk, EventLabelKind.not_isWrite_of_isRead hread'] at hvw
        cases hvw

/-- Repairing a thread leaves no read of it without a source. -/
theorem repairThread (i : ℕ) : Repairs g (g'.repairThread i) ∧
    (∀ r rLab, (g'.repairThread i).getEventLabel r = some rLab → rLab.isRead = true →
      rLab.rf = none → r.thread ≠ i ∧ Dangling g' r) := by
  have hg' := hr.graphInv
  have hlast : ∀ {r rLab}, g'.getEventLabel r = some rLab → rLab.isRead = true → rLab.rf = none →
      g'.getLastThreadLabel r.thread = some rLab := fun h hread hrf =>
    getLastThreadLabel_of_next h (hg'.waiting _ _ h hread hrf)
  rw [ExecutionGraph.repairThread]
  cases hi : g'.getLastThreadLabel i with
  | none =>
    refine ⟨hr, fun r rLab h hread hrf => ⟨?_, rLab, h, hread, hrf⟩⟩
    rintro rfl
    rw [hlast h hread hrf] at hi
    cases hi
  | some lab =>
    simp only
    split
    · rename_i hc
      obtain ⟨hread, hrf⟩ := (Bool.and_eq_true _ _).mp hc
      obtain ⟨h, hpos⟩ := getEventLabel_of_last hg' hi
      refine ⟨hr.repairRead h hread (Option.isNone_iff_eq_none.1 hrf), fun r rLab h' hr' hn => ?_⟩
      obtain ⟨l, rs, m, hl, rfl⟩ := of_setRf hg' h h'
      have hne : r ≠ lab.pos := by
        rintro rfl
        simp at hn
      have hn : l.rf = none := by simpa [hne] using hn
      refine ⟨?_, l, hl, hr', hn⟩
      rintro rfl
      obtain rfl := Option.some.inj (hi.symm.trans (hlast hl hr' hn))
      exact hne (hg'.threaded.slots _ _ hl).symm
    · rename_i hc
      refine ⟨hr, fun r rLab h hread hrf => ⟨?_, rLab, h, hread, hrf⟩⟩
      rintro rfl
      obtain rfl := Option.some.inj (hi.symm.trans (hlast h hread hrf))
      rw [hread, hrf] at hc
      exact hc rfl

end Repairs

/-- **Repairing leaves no read without a source.** -/
theorem repairs_repairDanglingReads (hg : GraphInv g) : Repairs g g.repairDanglingReads ∧
    ∀ r rLab, g.repairDanglingReads.getEventLabel r = some rLab → rLab.isRead = true →
      rLab.rf.isSome := by
  have hfold : ∀ n, Repairs g ((List.range n).foldl ExecutionGraph.repairThread g) ∧
      ∀ r rLab, ((List.range n).foldl ExecutionGraph.repairThread g).getEventLabel r = some rLab →
        rLab.isRead = true → rLab.rf = none → n ≤ r.thread := by
    intro n
    induction n with
    | zero => exact ⟨.refl hg, fun _ _ _ _ _ => Nat.zero_le _⟩
    | succ n ih =>
      rw [List.range_succ, List.foldl_append, List.foldl_cons, List.foldl_nil]
      obtain ⟨hr, hdone⟩ := ih.1.repairThread n
      refine ⟨hr, fun r rLab h hread hrf => ?_⟩
      obtain ⟨hne, rLab₀, h₀, hread₀, hrf₀⟩ := hdone r rLab h hread hrf
      exact Nat.lt_of_le_of_ne (ih.2 r rLab₀ h₀ hread₀ hrf₀) hne.symm
  obtain ⟨hr, hdone⟩ := hfold g.getNumThreads
  refine ⟨hr, fun r rLab h hread => ?_⟩
  by_contra hrf
  have hle := hdone r rLab h hread (Option.not_isSome_iff_eq_none.1 hrf)
  have hlt := (lt_getNumThreads_of_getEventLabel h).trans_eq hr.sameThreads.numThreads
  exact absurd hlt (not_lt.2 hle)

/-! ## Going back -/

/-- `g'` has the events of `g` that satisfy `keep`, and its reads are repaired. -/
structure GoesBack (keep : Event → Bool) (g g' : ExecutionGraph) : Prop where
  graphInv : GraphInv g'
  complete : Complete g'
  co : ∀ y, g'.co y = (g.co y).filter keep
  insertionOrder : g'.insertionOrder.Sublist g.insertionOrder
  back : ∀ e lab', 0 < e.index → g'.getEventLabel e = some lab' → keep e = true ∧
    ∃ lab, g.getEventLabel e = some lab ∧ lab'.kind = lab.kind ∧ lab'.addr = lab.addr
  kept : ∀ e, 0 < e.index → keep e = true → (g.getEventLabel e).isSome →
    (g'.getEventLabel e).isSome
  cycles : ∀ p q p' q' : Event → Prop, CyclesAt p q g →
    (∀ e, (g'.getEventLabel e).isSome → p e → p' e) →
      (∀ e, (g'.getEventLabel e).isSome → q e → q' e) → CyclesAt p' q' g'

/-- **Going back makes no cycles**, and leaves nothing unfinished. -/
theorem GraphInv.goesBack (hg : GraphInv g) (hc : Complete g) {keep : Event → Bool}
    {g₀ : ExecutionGraph} (hr : Restricts keep g g₀) (hs : Settles keep g) :
    GoesBack keep g g₀.repairDanglingReads := by
  obtain ⟨hrep, hrf⟩ := repairs_repairDanglingReads (hg.restrict hr hs)
  have hg' := hrep.graphInv
  refine ⟨hg', ⟨hrf, fun w wLab hw hwrite => ?_⟩, fun y => by rw [hrep.co, hr.co], ?_,
    fun e lab' hi h => ?_, fun e hi hkeep he => ?_, fun p q p' q' hcyc hp hq => ?_⟩
  · obtain ⟨wLab₀, hw₀, hk, haddr, -⟩ := hrep.back hw
    rw [hrep.co, haddr]
    refine hr.mem_co hc.write hw₀ ?_
    rw [EventLabel.isWrite, ← hk]
    exact hwrite
  · rw [hrep.sameThreads.insertionOrder]
    exact hr.insertionOrder
  · obtain ⟨lab₀, h₀, hk, haddr, -⟩ := hrep.back h
    obtain ⟨hkeep, lab, hlab, hrl⟩ := hr.back hi h₀
    exact ⟨hkeep, lab, hlab, hk.trans hrl.kind, haddr.trans hrl.addr⟩
  · rw [hrep.sameThreads.isSome]
    exact hr.restricted.kept e hi hkeep he
  · refine hcyc.of_sinks (s := Dangling g₀) (fun a b hab => (hrep.edge a b hab).1)
      (fun a b hab hb => hr.orderEdge hg ((hrep.edge a b hab).2 hb)) (fun e he hne ht => ?_) hg'
    rcases ht with (hpe | ⟨lab, w, hlab, hread, hw, hpw⟩) | hqe
    · exact .inl (.inl (hp e he hpe))
    · -- a read that is not repaired reads from what it read from before
      have hi : 0 < e.index :=
        hg.readerInv.above e lab hlab (EventLabel.isMemAccess_of_isRead hread)
      obtain ⟨lab', h'⟩ := Option.isSome_iff_exists.1 he
      obtain ⟨lab₀, h₀, hk, -, -, hrf'⟩ := hrep.back h'
      obtain ⟨-, lab₁, h₁, hrl⟩ := hr.back hi h₀
      obtain rfl := Option.some.inj (hlab.symm.trans h₁)
      have hread₀ : lab₀.isRead = true := by
        rw [EventLabel.isRead, hrl.kind]
        exact hread
      have hw₀ : lab₀.rf = some w := by
        cases hn : lab₀.rf with
        | none => exact absurd ⟨lab₀, h₀, hread₀, hn⟩ hne
        | some v =>
          rw [hrl.rf hread] at hn
          exact (Option.filter_eq_some_iff.1 hn).1.symm.trans hw
      have hread' : lab'.isRead = true := by
        rw [EventLabel.isRead, hk]
        exact hread₀
      have hw' : lab'.rf = some w := (hrf' (by rw [hw₀]; rfl)).trans hw₀
      refine .inl (.inr ⟨lab', w, h', hread', hw', hp w ?_ hpw⟩)
      rcases hg'.source e lab' w h' hread' hw' with rfl | ⟨wLab, hwLab, -⟩
      · obtain ⟨iLab, hiLab, -⟩ := hg'.threaded.main
        exact isSome_of_eq hiLab
      · exact isSome_of_eq hwLab
    · exact .inr (hq e he hqe)

/-- Repairing reads keeps the invariant about threads. -/
theorem Repairs.threadInv (hr : Repairs g g') (h : g.ThreadInv) : g'.ThreadInv := by
  refine h.of_same hr.sameThreads (fun e lab lab' hlab hlab' => ?_) hr.timestamp
  obtain ⟨lab₀, h₀, -, -, hst, -⟩ := hr.back hlab'
  rw [hst, Option.some.inj (hlab.symm.trans h₀)]

section Restrict

variable (hg : GraphInv g) (stamp : ℕ)
include hg

/-- **Cutting and repairing.** -/
theorem GraphInv.goesBack_restrict (hc : Complete g) :
    GoesBack ((g.getViewFromStamp stamp).contains ·) g (g.restrict stamp) :=
  hg.goesBack hc (hg.restricts_cutToStamp stamp) (hg.settles_cutToStamp stamp)

theorem GraphInv.threadInv_restrict : (g.restrict stamp).ThreadInv :=
  (repairs_repairDanglingReads (hg.restrict (hg.restricts_cutToStamp stamp)
    (hg.settles_cutToStamp stamp))).1.threadInv
      (hg.stampsUp.threadInv_cutToStamp hg.threaded stamp)

/-- The labels up to the stamp of a label are those before it. -/
theorem GraphInv.contains_stampAt_iff (hx : (g.getEventLabel x).isSome)
    (he : (g.getEventLabel e).isSome) (hi : 0 < e.index) :
    (g.getViewFromStamp (g.stampAt x)).contains e = true ↔ e = x ∨ Before g.insertionOrder e x := by
  rw [hg.stampsUp.contains_iff hg.threaded _ he hi]
  obtain ⟨xLab, hxLab⟩ := Option.isSome_iff_exists.1 hx
  obtain ⟨s, hs⟩ := Option.isSome_iff_exists.1 (hg.stampsUp.stamped x xLab hxLab)
  have hst : g.stampAt x = s := by simp [stampAt, EventLabel.getStamp, hxLab, hs]
  rw [hst]
  refine ⟨?_, ?_⟩
  · rintro ⟨lab, hlab, s', hs', hle⟩
    by_cases hne : e = x
    · exact .inl hne
    · refine .inr ((before_of_mem hg.threaded.order ((hg.threaded.inserted e).2 he)
        ((hg.threaded.inserted x).2 hx) hne).resolve_right fun hb => ?_)
      exact absurd (hg.stampsUp.up _ _ _ _ _ _ hb hxLab hlab hs hs') (not_lt.2 hle)
  · rintro (rfl | hb)
    · exact ⟨xLab, hxLab, s, hs, le_rfl⟩
    · obtain ⟨lab, hlab⟩ := Option.isSome_iff_exists.1 he
      obtain ⟨s', hs'⟩ := Option.isSome_iff_exists.1 (hg.stampsUp.stamped e lab hlab)
      exact ⟨lab, hlab, s', hs', (hg.stampsUp.up _ _ _ _ _ _ hb hlab hxLab hs' hs).le⟩

end Restrict

/-! ## Copying -/

/-- Changing labels of a restriction. -/
theorem Restricts.relabel {keep : Event → Bool} {g₀ g₁ : ExecutionGraph}
    (hr : Restricts keep g g₀) (hrel : Relabels g₀ g₁)
    (hj : ∀ e lab lab', g₀.getEventLabel e = some lab → g₁.getEventLabel e = some lab' →
      lab'.parentJoin = lab.parentJoin ∧ lab'.prefixView = lab.prefixView) :
    Restricts keep g g₁ := by
  have hslots := hr.threaded.slots
  have hthr := hr.threaded.of_same hrel.sameThreads
  refine ⟨hthr, hrel.stampsUp hr.stampsUp, ⟨hthr.slots.seated, (hrel.stampsUp hr.stampsUp).stamped,
    fun e _ h => (hthr.inserted e).2 h, fun e lab' hi h => ?_, fun e lab' hi h => ?_,
    fun e hi hkeep he => ?_, fun a => ?_, fun e lab' hi h hm => ?_⟩,
    hrel.numThreads.trans_le hr.numThreads, ?_, fun a => by rw [hrel.co, hr.co],
    fun e lab lab' hi hlab h => ?_, fun e lab lab' hi hlab h => ?_, fun e lab lab' hi hlab h => ?_⟩
  · obtain ⟨l, hl, hsame⟩ := hrel.back h
    rw [EventLabel.isMemAccess, hsame.kind]
    exact hr.restricted.begins e l hi hl
  · obtain ⟨l, hl, hsame⟩ := hrel.back h
    obtain ⟨hkeep, lab, hlab, hrl⟩ := hr.restricted.label e l hi hl
    exact ⟨hkeep, lab, hlab, hsame.kind.trans hrl.kind, hsame.addr.trans hrl.addr,
      fun hread => hsame.rf.trans (hrl.rf hread), fun hw => hsame.readers.trans (hrl.readers hw)⟩
  · rw [hrel.isSome]
    exact hr.restricted.kept e hi hkeep he
  · rw [initReaders, hrel.initRfs]
    exact hr.restricted.initReaders a
  · obtain ⟨l, hl, hsame⟩ := hrel.back h
    rw [hrel.coherence, hsame.addr]
    rw [EventLabel.isMemAccess, hsame.kind] at hm
    exact hr.restricted.tracked e l hi hl hm
  · rw [hrel.insertionOrder]
    exact hr.insertionOrder
  · obtain ⟨l, hl, hsame⟩ := hrel.back h
    obtain ⟨hchild, htj, hlin⟩ := hr.label e lab l hi hlab hl
    refine ⟨hsame.childId.trans hchild, ?_, fun hnil => ?_⟩
    · rw [← htj, tjSucc, tjSucc, hsame.kind, (hj e l lab' hl h).1]
    · rw [← hlin hnil, ExecutionGraph.linSuccsOf, ExecutionGraph.linSuccsOf, hsame.kind,
        hsame.linSuccs]
  · obtain ⟨l, hl, hsame⟩ := hrel.back h
    obtain ⟨hord, hpre, hlin⟩ := hr.ordering e lab l hi hlab hl
    refine ⟨hsame.ordering.trans hord, (hj e l lab' hl h).2.trans hpre, fun hnil => ?_⟩
    rw [← hlin hnil, ExecutionGraph.linPredsOf, ExecutionGraph.linPredsOf, hsame.kind,
      hsame.linPreds]
  · obtain ⟨l, hl, hsame⟩ := hrel.back h
    rw [hsame.createId, hsame.create, hsame.ordering]
    exact hr.begins e lab l hi hlab hl

/-- A view that has, with a read, what it reads from, and with a label its thread's creation: a
prefix of program order, reads-from and creation. -/
structure PrefixView (g : ExecutionGraph) (v : View) : Prop where
  rf : ∀ r rLab w, g.getEventLabel r = some rLab → rLab.isRead = true → rLab.rf = some w →
    w ≠ Event.getInit → v.contains r = true → v.contains w = true
  create : HasCreations g v

section Copy

variable {pre : View} (hg : GraphInv g)
include hg

/-- The events before a read, together with a prefix. -/
theorem settles_update (hpre : PrefixView g pre) (stamp : ℕ) :
    Settles (((g.getViewFromStamp stamp).update pre).contains ·) g := by
  intro r rLab w hr hread hw hne hnext hkeep
  simp only [View.contains_update, Bool.or_eq_true] at hkeep ⊢
  refine hkeep.imp (hg.settles_cutToStamp stamp r rLab w hr hread hw hne hnext) fun hin => ?_
  refine hpre.rf r rLab w hr hread hw hne ?_
  rw [View.contains_iff] at hin ⊢
  exact (Nat.le_succ _).trans hin

omit hg in
theorem hasCreations_update (h : g.ThreadInv) (hpre : PrefixView g pre) (stamp : ℕ) :
    HasCreations g ((g.getViewFromStamp stamp).update pre) := by
  intro t bLab c ht hb hmax hcr
  rw [View.contains_update, Bool.or_eq_true]
  rw [View.getMax_update] at hmax
  rcases lt_max_iff.1 hmax with hmax | hmax
  · exact .inl (h.hasCreations_getViewFromStamp stamp t bLab c ht hb hmax hcr)
  · exact .inr (hpre.create t bLab c ht hb hmax hcr)

/-- What is in the prefix is marked in the copy. -/
theorem GraphInv.restricts_copyGraph (h : g.ThreadInv) {v : View} (hv : HasCreations g v)
    (ho : InCreationOrder g v) : Restricts (v.contains ·) g (g.copyGraph pre v) := by
  have hget := getEventLabel_mapLabels (g := g.copyGraphUpTo v) fun lab =>
    if pre.contains lab.pos then { lab with revisitable := false } else lab
  have hrel : Relabels (g.copyGraphUpTo v) (g.copyGraph pre v) := by
    refine ⟨rfl, rfl, getNumThreads_mapLabels _, rfl, rfl, fun e => ⟨_, fun lab => ?_, hget e⟩⟩
    split
    · exact ⟨⟨rfl, rfl, rfl, rfl, rfl⟩, rfl, rfl, rfl, rfl, rfl, rfl, rfl⟩
    · exact .refl lab
  refine (hg.restricts_copyGraphUpTo h hv ho).relabel hrel fun e lab lab' hlab hlab' => ?_
  have := hget e
  rw [hlab, Option.map_some] at this
  obtain rfl := Option.some.inj (hlab'.symm.trans this)
  split <;> exact ⟨rfl, rfl⟩

/-- **Copying and repairing.** -/
theorem GraphInv.goesBack_copyGraph (hc : Complete g) (h : g.ThreadInv) (hpre : PrefixView g pre)
    (stamp : ℕ) (ho : InCreationOrder g ((g.getViewFromStamp stamp).update pre)) :
    GoesBack (((g.getViewFromStamp stamp).update pre).contains ·) g
      (g.copyGraph pre ((g.getViewFromStamp stamp).update pre)).repairDanglingReads :=
  hg.goesBack hc (hg.restricts_copyGraph h (hasCreations_update h hpre stamp) ho)
    (settles_update hg hpre stamp)

end Copy

end SCChecker
end GenMC
