import GenMC.Consistency.Repair

/-!
# Revisiting reads and writes

A revisit makes a read read from another write, or places a write anew in coherence, and is valid if
the labels it has touched are consistent.  What it has touched is the newest part of the graph, so
this is all there is to check.

* `isRevisitValid` is the check, and `Revisited.acyclic` and `Moved.acyclic` say that it is enough.
* A revisit that is not valid leaves a graph with cycles behind, and the exploration goes on from
  there.  `Revisited.cyclesAt_later` and `Moved.cyclesAt_later` say where the cycles are: whatever
  reads from the newest write will be found to be on one.
-/

set_option autoImplicit false

namespace GenMC

open ListOrder Relation ExecutionGraph

/-- Adds the write of a read-modify-write after its read has been revisited. -/
def ExecutionGraph.completeRevisitedRMW (sLab : EventLabel) (w : Event) (g : ExecutionGraph) :
    ExecutionGraph := (g.addLabelToGraph sLab).addCo sLab.pos w sLab.addr

namespace SCChecker

variable {g g' : ExecutionGraph} {a b e r w x z : Event} {lab lab' : EventLabel}
  {p q : Event → Prop} {env : Environment}

/-! ## The checks -/

/-- A read from the last write needs no check.  Neither symmetries nor bounds are considered. -/
def isExecutionValid (g : ExecutionGraph) (e : Event) : Bool :=
  ((g.getEventLabel e).any fun lab => lab.isRead && lab.rf = some (g.coMax lab.addr)) ||
    isConsistent g e = some true

/-- Checks the label that was revisited, and the write that was added to it. -/
def isRevisitValid (g : ExecutionGraph) (e : Event) : Bool :=
  (g.getEventLabel e).all fun lab => !lab.isMemAccess ||
    (isExecutionValid g e && (!(lab.isRead && g.isRMWRead lab) || isExecutionValid g e.next))

section Valid

variable (hg : GraphInv g) (hc : Complete g)
include hg hc

/-- What the check for a read means. -/
theorem noCycleFrom_of_valid_read (h : g.getEventLabel r = some lab) (hread : lab.isRead = true)
    (hv : isExecutionValid g r = true) (hnext : NoCycleFrom (OrderEdge g) r.next) :
    NoCycleFrom (OrderEdge g) r := by
  rw [isExecutionValid, h, Option.any_some, Bool.or_eq_true] at hv
  rcases hv with hmax | hcons
  · -- only the next label can come after it
    have hrf : lab.rf = some (g.coMax lab.addr) := by simpa [hread] using hmax
    refine noCycleFrom_of_succ fun b hb => ?_
    rcases hg.orderEdge_read h hread hb with rfl | ⟨hmem, w, hw, hafter⟩
    · exact hnext
    · obtain rfl := Option.some.inj (hrf.symm.trans hw)
      exact absurd hafter (hg.not_after_coMax hmem)
  · exact (hg.isConsistent_iff hc (isSome_of_eq h)).1 (of_decide_eq_true hcons)

/-- What the check for a write means. -/
theorem noCycleFrom_of_valid_write (h : g.getEventLabel w = some lab) (hw : lab.isWrite = true)
    (hv : isExecutionValid g w = true) : NoCycleFrom (OrderEdge g) w := by
  have hread : lab.isRead = false := by
    by_contra hne
    rw [Bool.not_eq_false] at hne
    rw [EventLabel.isWrite, EventLabelKind.not_isWrite_of_isRead hne] at hw
    cases hw
  rw [isExecutionValid, h, Option.any_some, hread, Bool.false_and, Bool.false_or] at hv
  exact (hg.isConsistent_iff hc (isSome_of_eq h)).1 (of_decide_eq_true hv)

end Valid

theorem noCycleFrom_of_absent (hg : GraphInv g) (h : g.getEventLabel e = none) :
    NoCycleFrom (OrderEdge g) e :=
  noCycleFrom_of_succ fun b hb => by
    have := (hg.isSome_of_orderEdge hb).1
    rw [h] at this
    cases this

/-! ## The newest write -/

/-- The writes after a write in coherence. -/
def Later (g : ExecutionGraph) (z e : Event) : Prop := ∃ y, Before (g.co y) z e

/-- A write that is newer than all labels, begins apart. -/
structure Newest (z : Event) (g : ExecutionGraph) : Prop where
  write : ∃ zLab, g.getEventLabel z = some zLab ∧ zLab.isWrite = true
  newest : ∀ e, 0 < e.index → (g.getEventLabel e).isSome → ¬ Before g.insertionOrder z e

/-- An edge that avoids the writes after `z`. -/
def EdgeBefore (z : Event) (g : ExecutionGraph) (a b : Event) : Prop :=
  OrderEdge g a b ∧ ¬ Later g z a ∧ ¬ Later g z b

namespace Newest

variable (hn : Newest z g) (hg : GraphInv g)
include hn hg

theorem next_eq_none : g.getEventLabel z.next = none := by
  rw [← Option.not_isSome_iff_eq_none]
  intro h
  exact hn.newest z.next (Nat.succ_pos _) h (hg.threaded.po h)

theorem ne_init : z ≠ Event.getInit := by
  obtain ⟨zLab, hz, hw⟩ := hn.write
  exact hg.ne_init_of_isWrite hz hw

/-- A read of the newest write comes last in its thread. -/
theorem next_reader_eq_none (h : g.getEventLabel r = some lab) (hread : lab.isRead = true)
    (hrf : lab.rf = some z) : g.getEventLabel r.next = none := by
  rw [← Option.not_isSome_iff_eq_none]
  intro hnext
  exact hn.newest r.next (Nat.succ_pos _) hnext
    ((hg.settled r lab z h hread hrf hnext).resolve_left (hn.ne_init hg))

/-- All that comes after a read of the newest write is later in coherence. -/
theorem noCycleFrom_reader (h : g.getEventLabel r = some lab) (hread : lab.isRead = true)
    (hrf : lab.rf = some z) : NoCycleFrom (EdgeBefore z g) r := by
  refine noCycleFrom_of_succ fun b hb => ?_
  rcases hg.orderEdge_read h hread hb.1 with rfl | ⟨-, w, hw, hafter⟩
  · have := (hg.isSome_of_orderEdge hb.1).2
    rw [hn.next_reader_eq_none hg h hread hrf] at this
    cases this
  · obtain rfl := Option.some.inj (hrf.symm.trans hw)
    exact absurd ⟨_, hafter.resolve_left (hn.ne_init hg)⟩ hb.2.2

theorem noCycleFrom : NoCycleFrom (EdgeBefore z g) z := by
  obtain ⟨zLab, hz, hw⟩ := hn.write
  refine noCycleFrom_of_succ fun b hb => ?_
  rcases hg.orderEdge_write hz hw hb.1 with rfl | ⟨rLab, hr, hread, hrf⟩ | hlater
  · have := (hg.isSome_of_orderEdge hb.1).2
    rw [hn.next_eq_none hg] at this
    cases this
  · exact hn.noCycleFrom_reader hg hr hread hrf
  · exact absurd ⟨_, hlater⟩ hb.2.2

/-- **Where the cycles are** when they go through the newest write or come before it. -/
theorem cyclesAt_later (h : CyclesAt p q g) (hq : ∀ e, q e → e = z ∨ Later g z e)
    (hp : ∀ e, p e → e = z ∨ (NoCycleFrom (EdgeBefore z g) e ∧
      ∀ wLab, g.getEventLabel e = some wLab → wLab.isWrite = false) ∧ e ≠ Event.getInit) :
    CyclesAt (fun _ => False) (Later g z) g := by
  have hmono : CyclesAt p q g → Acyclic (EdgeBefore z g) := fun h => by
    refine acyclic_of_changesAt (p := fun e => Touches g p e ∨ q e) h
      (fun a b hab ha hb => .single ⟨hab.1, ha, hb⟩) fun e he hcycle => ?_
    rcases he with (he | ⟨lab, w, hlab, hread, hrf, hw⟩) | he
    · rcases hp e he with rfl | ⟨⟨hno, -⟩, -⟩
      · exact hn.noCycleFrom hg e .refl hcycle
      · exact hno e .refl hcycle
    · rcases hp w hw with rfl | ⟨⟨-, hnw⟩, hne⟩
      · exact hn.noCycleFrom_reader hg hlab hread hrf e .refl hcycle
      · -- only writes are read from
        obtain ⟨wLab, hwLab, hwrite, -⟩ := (hg.source e lab w hlab hread hrf).resolve_left hne
        rw [hnw wLab hwLab] at hwrite
        cases hwrite
    · rcases hq e he with rfl | hlater
      · exact hn.noCycleFrom hg e .refl hcycle
      · obtain ⟨b, hb, -⟩ := TransGen.head'_iff.1 hcycle
        exact hb.2.1 hlater
  refine (hmono h).mono fun a b hab => ⟨hab.1, fun ha => hab.2.1 (.inr ha), fun hb =>
    hab.2.2 (.inr hb)⟩

end Newest

/-! ## Revisiting in place -/

/-- A read that a write can revisit where it is: it comes last in its thread, but for a block. -/
structure CanRevisitInPlace (g : ExecutionGraph) (w r : Event) : Prop where
  read : ∃ rLab, g.getEventLabel r = some rLab ∧ rLab.isRead = true ∧ Source g rLab w
  last : g.getEventLabel r.next = none ∨ ∃ bLab, g.getLastThreadLabel r.thread = some bLab ∧
    bLab.pos = r.next ∧ bLab.isBlock = true

/-- One revisit in place. -/
inductive RevisitsInPlace (env : Environment) (w : Event) (g : ExecutionGraph) :
    ExecutionGraph → Prop
  | read {r : Event} (h : CanRevisitInPlace g w r) :
    RevisitsInPlace env w g (revisitInPlace env w g r)

/-- What is left of a graph after its thread `r` has been unblocked. -/
structure Unblocked (g g' : ExecutionGraph) : Prop where
  graphInv : GraphInv g'
  complete : Complete g'
  co : ∀ y, g'.co y = g.co y
  insertionOrder : g'.insertionOrder.Sublist g.insertionOrder
  edge : ∀ a b, OrderEdge g' a b → OrderEdge g a b
  forth : ∀ e lab, g.getEventLabel e = some lab → lab.isBlock = false →
    ∃ lab', g'.getEventLabel e = some lab' ∧ lab'.kind = lab.kind ∧ lab'.addr = lab.addr ∧
      lab'.rf = lab.rf
  back : ∀ e lab', g'.getEventLabel e = some lab' → ∃ lab, g.getEventLabel e = some lab ∧
    lab'.kind = lab.kind ∧ lab'.addr = lab.addr ∧ lab'.rf = lab.rf

theorem Unblocked.refl (hg : GraphInv g) (hc : Complete g) : Unblocked g g :=
  ⟨hg, hc, fun _ => rfl, List.Sublist.refl _, fun _ _ h => h,
    fun _ lab h _ => ⟨lab, h, rfl, rfl, rfl⟩, fun _ lab h => ⟨lab, h, rfl, rfl, rfl⟩⟩

theorem unblocked_removeLast {t : ℕ} (hg : GraphInv g) (hc : Complete g)
    (hlast : g.getLastThreadLabel t = some lab) (hb : lab.isBlock = true) :
    Unblocked g (g.removeLast t) := by
  obtain ⟨hlab, -⟩ := getEventLabel_of_last hg hlast
  have hrem := FreshBlock.removable hg hlab hb
  have hr := restricts_removeLast hg hlast hrem
  obtain ⟨-, hco, -⟩ := removeLast_frame hlast
  have hsame : ∀ l : EventLabel, (g.unlinked lab l).kind = l.kind ∧
      (g.unlinked lab l).addr = l.addr ∧ (g.unlinked lab l).rf = l.rf := fun l =>
    ⟨rfl, rfl, if_neg fun h => by rw [hrem.1] at h; exact Bool.false_ne_true h.1⟩
  refine ⟨hg.removeLast hlast hrem,
    complete_removeLast hg hlast hrem (fun r rLab h hread _ => hc.rf r rLab h hread) hc.write,
    fun y => by rw [ExecutionGraph.co, hco, ExecutionGraph.co], hr.insertionOrder,
    fun a b => hr.orderEdge hg, fun e l hl hnb => ?_, fun e l' h => ?_⟩
  · have hne : e ≠ lab.pos := by
      rintro rfl
      rw [Option.some.inj (hl.symm.trans hlab), hb] at hnb
      cases hnb
    refine ⟨g.unlinked lab l, ?_, hsame l⟩
    rw [getEventLabel_removeLast_of_ne hg hlast hne, hl, Option.map_some]
  · obtain ⟨-, l, hl, rfl⟩ := of_getEventLabel_removeLast hg hlast h
    exact ⟨l, hl, hsame l⟩

/-- What a revisit in place changes: what the read reads from. -/
structure RevisitedInPlace (w r : Event) (g g' : ExecutionGraph) : Prop where
  graphInv : GraphInv g'
  complete : Complete g'
  co : ∀ y, g'.co y = g.co y
  insertionOrder : g'.insertionOrder.Sublist g.insertionOrder
  edge : ∀ a b, OrderEdge g' a b → a ≠ r → b ≠ r → OrderEdge g a b
  read : ∃ rLab, g'.getEventLabel r = some rLab ∧ rLab.isRead = true ∧ rLab.rf = some w
  next : g'.getEventLabel r.next = none
  forth : ∀ e lab, g.getEventLabel e = some lab → lab.isBlock = false →
    ∃ lab', g'.getEventLabel e = some lab' ∧ lab'.kind = lab.kind ∧ lab'.addr = lab.addr ∧
      (e ≠ r → lab'.rf = lab.rf)
  back : ∀ e lab', g'.getEventLabel e = some lab' → ∃ lab, g.getEventLabel e = some lab ∧
    lab'.kind = lab.kind ∧ lab'.addr = lab.addr ∧ (e ≠ r → lab'.rf = lab.rf)

theorem not_isBlock_of_isMemAccess (hm : lab.isMemAccess = true) : lab.isBlock = false := by
  by_contra hb
  rw [FreshBlock.not_isMemAccess_of_isBlock (Bool.not_eq_false _ ▸ hb)] at hm
  cases hm

/-- **Revisiting a read in place.** -/
theorem CanRevisitInPlace.revisited (env : Environment) (h : CanRevisitInPlace g w r)
    (hg : GraphInv g)
    (hc : Complete g) : RevisitedInPlace w r g (revisitInPlace env w g r) := by
  obtain ⟨rLab, hr, hread, hsrc⟩ := h.read
  set g₁ := if (g.getEventLabel r.next).isSome then g.removeLast r.thread else g with hg₁
  obtain ⟨hun, hnext⟩ : Unblocked g g₁ ∧ g₁.getEventLabel r.next = none := by
    rcases h.last with hnone | ⟨bLab, hlast, hpos, hb⟩
    · rw [hg₁, hnone]
      exact ⟨.refl hg hc, hnone⟩
    · obtain ⟨hbLab, -⟩ := getEventLabel_of_last hg hlast
      rw [hpos] at hbLab
      rw [hg₁, hbLab]
      refine ⟨unblocked_removeLast hg hc hlast hb, ?_⟩
      rw [← hpos]
      exact getEventLabel_removeLast_pos hg hlast
  obtain ⟨rLab₁, hr₁, hk₁, haddr₁, -⟩ :=
    hun.forth r rLab hr (not_isBlock_of_isMemAccess (EventLabel.isMemAccess_of_isRead hread))
  have hread₁ : rLab₁.isRead = true := by
    rw [EventLabel.isRead, hk₁]
    exact hread
  have hsrc₁ : Source g₁ rLab₁ w := by
    refine hsrc.imp_right ?_
    rintro ⟨wLab, hw, hwrite, haddr⟩
    obtain ⟨wLab', hw', hk, ha, -⟩ :=
      hun.forth w wLab hw (not_isBlock_of_isMemAccess (EventLabel.isMemAccess_of_isWrite hwrite))
    refine ⟨wLab', hw', ?_, ha.trans (haddr.trans haddr₁.symm)⟩
    rw [EventLabel.isWrite, hk]
    exact hwrite
  have hg₂ := hun.graphInv.setRf hr₁ hread₁ hsrc₁ hnext
  have hrel : Relabels (g₁.setRf r (some w)) (revisitInPlace env w g r) :=
    relabels_modify _ fun l => ⟨⟨rfl, rfl, rfl, rfl, rfl⟩, rfl, rfl, rfl, rfl, rfl, rfl, rfl⟩
  have hjoin : ∀ e l l', (g₁.setRf r (some w)).getEventLabel e = some l →
      (revisitInPlace env w g r).getEventLabel e = some l' → l'.parentJoin = l.parentJoin := by
    intro e l l' hl hl'
    have := getEventLabel_modify (g := g₁.setRf r (some w)) r (fun rLab =>
      { rLab with prefixView := env.calculatePrefixView (g₁.setRf r (some w)) r,
                  maximal := true }) e
    rw [hl, Option.map_some] at this
    obtain rfl := Option.some.inj (hl'.symm.trans this)
    split <;> rfl
  refine ⟨hrel.graphInv_of hjoin hg₂, hrel.complete ⟨fun e eLab he heread => ?_,
    fun v vLab hv hvw => ?_⟩, fun y => ?_, ?_, fun a b hab ha hb => ?_, ?_, ?_,
    fun e l hl hb => ?_, fun e l' hl' => ?_⟩
  · obtain ⟨l, rs, m, hl, rfl⟩ := of_setRf hun.graphInv hr₁ he
    show (if e = r then some w else l.rf).isSome = true
    split
    · rfl
    · exact hun.complete.rf e l hl heread
  · obtain ⟨l, rs, m, hl, rfl⟩ := of_setRf hun.graphInv hr₁ hv
    rw [co_setRf]
    exact hun.complete.write v l hl hvw
  · rw [hrel.co, co_setRf, hun.co]
  · rw [hrel.insertionOrder, insertionOrder_setRf]
    exact hun.insertionOrder
  · exact hun.edge a b (changes_setRf hun.graphInv hr₁ a b (hrel.orderEdge_of hjoin hab) ha hb)
  · obtain ⟨rs, m, hr₂⟩ := to_setRf hun.graphInv hr₁ (w := w) hr₁
    obtain ⟨l, hl, hsame⟩ := hrel.forth hr₂
    exact ⟨l, hl, hsame.isRead.trans hread₁, hsame.rf.trans (if_pos rfl)⟩
  · rw [← Option.not_isSome_iff_eq_none, hrel.isSome, isSome_setRf hr₁, hnext]
    exact Bool.false_ne_true
  · obtain ⟨l₁, hl₁, hk, ha, hrf⟩ := hun.forth e l hl hb
    obtain ⟨rs, m, hl₂⟩ := to_setRf hun.graphInv hr₁ (w := w) hl₁
    obtain ⟨l₃, hl₃, hsame⟩ := hrel.forth hl₂
    refine ⟨l₃, hl₃, hsame.kind.trans hk, hsame.addr.trans ha, fun hne => ?_⟩
    exact hsame.rf.trans ((if_neg hne).trans hrf)
  · obtain ⟨l₂, hl₂, hsame⟩ := hrel.back hl'
    obtain ⟨l₁, rs, m, hl₁, rfl⟩ := of_setRf hun.graphInv hr₁ hl₂
    obtain ⟨l, hl, hk, ha, hrf⟩ := hun.back e l₁ hl₁
    refine ⟨l, hl, hsame.kind.trans hk, hsame.addr.trans ha, fun hne => ?_⟩
    exact hsame.rf.trans ((if_neg hne).trans hrf)

/-- A revisit in place makes no cycles but through the write. -/
theorem RevisitedInPlace.cyclesAt (hr : RevisitedInPlace w r g g') (hp : p w)
    (h : CyclesAt p q g) : CyclesAt p q g' := by
  obtain ⟨rLab, hrLab, hread, hrf⟩ := hr.read
  have hne : ∀ {e}, ¬ (Touches g' p e ∨ q e) → e ≠ r := by
    rintro e he rfl
    exact he (.inl (.inr ⟨rLab, w, hrLab, hread, hrf, hp⟩))
  have htouch : ∀ {e}, (g'.getEventLabel e).isSome → ¬ (Touches g' p e ∨ q e) →
      ¬ (Touches g p e ∨ q e) := by
    intro e he hno hyes
    refine hno (hyes.imp_left ?_)
    rintro (hpe | ⟨lab, v, hlab, hlread, hv, hpv⟩)
    · exact .inl hpe
    · obtain ⟨lab', hlab'⟩ := Option.isSome_iff_exists.1 he
      obtain ⟨lab₀, hlab₀, hk, -, hsame⟩ := hr.back e lab' hlab'
      obtain rfl := Option.some.inj (hlab.symm.trans hlab₀)
      refine .inr ⟨lab', v, hlab', ?_, (hsame (hne hno)).trans hv, hpv⟩
      rw [EventLabel.isRead, hk]
      exact hlread
  refine h.mono ?_
  rintro a b ⟨hab, ha, hb⟩
  obtain ⟨hsa, hsb⟩ := hr.graphInv.isSome_of_orderEdge hab
  exact ⟨hr.edge a b hab (hne ha) (hne hb), htouch hsa ha, htouch hsb hb⟩

theorem RevisitedInPlace.newest (hr : RevisitedInPlace w r g g') (h : Newest z g) :
    Newest z g' := by
  obtain ⟨zLab, hz, hw⟩ := h.write
  have hnb : zLab.isBlock = false :=
    not_isBlock_of_isMemAccess (EventLabel.isMemAccess_of_isWrite hw)
  obtain ⟨zLab', hz', hk, -⟩ := hr.forth z zLab hz hnb
  refine ⟨⟨zLab', hz', ?_⟩, fun e hi he hb => ?_⟩
  · rw [EventLabel.isWrite, hk]
    exact hw
  · obtain ⟨lab', hlab'⟩ := Option.isSome_iff_exists.1 he
    obtain ⟨lab, hlab, -⟩ := hr.back e lab' hlab'
    exact h.newest e hi (isSome_of_eq hlab)
      (before_iff_sublist.2 ((before_iff_sublist.1 hb).trans hr.insertionOrder))

/-! ## Moving a write -/

/-- A graph in which a write has been placed anew. -/
structure Moved (w : Event) (g : ExecutionGraph) : Prop where
  graphInv : GraphInv g
  complete : Complete g
  cycles : CyclesAt (· = w) (fun _ => False) g
  newest : Newest w g

namespace Moved

/-- **The check of the write is enough.** -/
theorem acyclic (h : Moved w g) (hv : isRevisitValid g w = true) : Acyclic (OrderEdge g) := by
  obtain ⟨wLab, hw, hwrite⟩ := h.newest.write
  rw [isRevisitValid, hw, Option.all_some, EventLabel.isMemAccess_of_isWrite hwrite] at hv
  have hno := noCycleFrom_of_valid_write h.graphInv h.complete hw hwrite
    ((Bool.and_eq_true _ _).mp hv).1
  refine h.cycles.acyclic (fun hi => h.newest.ne_init h.graphInv hi.symm) ?_ fun _ => False.elim
  rintro x y rfl hxy
  exact hno y hxy

/-- A move that is not valid has left its cycles before the later writes. -/
theorem cyclesAt_later (h : Moved w g) : CyclesAt (fun _ => False) (Later g w) g :=
  h.newest.cyclesAt_later h.graphInv h.cycles (fun _ => False.elim) fun _ he => .inl he

theorem revisitsInPlace (h : Moved w g) (hr : RevisitsInPlace env w g g') : Moved w g' := by
  obtain ⟨hcan⟩ := hr
  have hrev := hcan.revisited env h.graphInv h.complete
  exact ⟨hrev.graphInv, hrev.complete, hrev.cyclesAt rfl h.cycles, hrev.newest h.newest⟩

end Moved

theorem mem_insertAfter (pred w : Event) (l : List Event) : w ∈ insertAfter pred w l := by
  obtain ⟨l₁, l₂, -, heq, -⟩ := insertAfter_split pred w l
  rw [heq]
  simp

/-- Placing a write leaves no write without a place. -/
theorem Places.complete (hp : Places w g g') (hw : g.getEventLabel w = some lab)
    (hrf : ∀ r rLab, g.getEventLabel r = some rLab → rLab.isRead = true → rLab.rf.isSome)
    (hco : ∀ v vLab, g.getEventLabel v = some vLab → vLab.isWrite = true → v ≠ w →
      v ∈ g.co vLab.addr) (hmem : w ∈ g'.co lab.addr) : Complete g' := by
  refine ⟨fun r rLab' hr hread => ?_, fun v vLab' hv hvw => ?_⟩
  · obtain ⟨rLab, m, hr', rfl⟩ := hp.back hr
    exact hrf r rLab hr' hread
  · obtain ⟨vLab, m, hv', rfl⟩ := hp.back hv
    by_cases hne : v = w
    · subst hne
      obtain rfl := Option.some.inj (hw.symm.trans hv')
      exact hmem
    · exact (hp.mem_co_iff hne).2 (hco v vLab hv' hvw hne)

/-- **Moving a write.** -/
theorem moved_moveCo (hg : GraphInv g) (hc : Complete g) (hn : Newest w g)
    (hw : g.getEventLabel w = some lab) (h : CyclesAt (· = w) (fun _ => False) g)
    (pred : Event) : Moved w (g.moveCo w pred lab.addr) := by
  obtain ⟨wLab, hw', hwrite⟩ := hn.write
  obtain rfl := Option.some.inj (hw.symm.trans hw')
  have hp := places_moveCo hg hw hwrite pred
  have hmem : w ∈ (g.moveCo w pred lab.addr).co lab.addr := by
    rw [co_moveCo, if_pos rfl]
    exact mem_insertAfter _ _ _
  obtain ⟨m, hw''⟩ := hp.forth hw
  refine ⟨hp.graphInv hg, hp.complete hw hc.rf (fun v vLab hv hvw _ => hc.write v vLab hv hvw) hmem,
    h.mono ?_, ⟨⟨_, hw'', hwrite⟩, fun e hi he hb => ?_⟩⟩
  · rintro a b ⟨hab, ha, hb⟩
    have htouch : ∀ {e}, (g.getEventLabel e).isSome →
        ¬ (Touches (g.moveCo w pred lab.addr) (· = w) e ∨ False) →
          ¬ (Touches g (· = w) e ∨ False) := by
      rintro e - hno ((rfl | ⟨l, v, hl, hread, hrf, rfl⟩) | hf)
      · exact hno (.inl (.inl rfl))
      · obtain ⟨m', hl'⟩ := hp.forth hl
        exact hno (.inl (.inr ⟨_, _, hl', hread, hrf, rfl⟩))
      · exact hf
    obtain ⟨hsa, hsb⟩ := (hp.graphInv hg).isSome_of_orderEdge hab
    rw [hp.isSome] at hsa hsb
    refine ⟨hp.orderEdge hab (fun h' => ha (.inl (.inl h'))) (fun h' => hb (.inl (.inl h')))
      fun rLab hr hread hrf => ?_, htouch hsa ha, htouch hsb hb⟩
    obtain ⟨m', hr'⟩ := hp.forth hr
    exact ha (.inl (.inr ⟨_, _, hr', hread, hrf, rfl⟩))
  · rw [hp.isSome] at he
    rw [hp.insertionOrder] at hb
    exact hn.newest e hi he hb

/-! ## Revisiting a read -/

/-- The read at `r` has been completed by its write, which comes right after what it reads from. -/
structure Completes (r w : Event) (g : ExecutionGraph) : Prop where
  newest : Newest r.next g
  rmw : ∃ rLab, g.getEventLabel r = some rLab ∧ g.isRMWRead rLab = true
  after : ∀ rLab c, g.getEventLabel r = some rLab → c ∈ g.co rLab.addr →
    (w = Event.getInit ∨ Before (g.co rLab.addr) w c) →
      c = r.next ∨ Before (g.co rLab.addr) r.next c

/-- A graph in which a read has been revisited by `w`. -/
structure Revisited (q : Event → Prop) (r w : Event) (g : ExecutionGraph) : Prop where
  graphInv : GraphInv g
  complete : Complete g
  cycles : CyclesAt (fun e => e = r ∨ e = r.next) q g
  read : ∃ rLab, g.getEventLabel r = some rLab ∧ rLab.isRead = true ∧ rLab.rf = some w
  next : ((∀ b, ¬ OrderEdge g r.next b) ∧
    ∀ lab, g.getEventLabel r.next = some lab → lab.isWrite = false) ∨ Completes r w g

/-- The later writes come after a read. -/
theorem orderEdge_of_later (hg : GraphInv g) (hr : g.getEventLabel r = some lab)
    (hread : lab.isRead = true) (hrf : lab.rf = some w) (h : Later g w e) : OrderEdge g r e := by
  obtain ⟨y, hb⟩ := h
  obtain ⟨wLab, hw, hwrite, rfl⟩ := hg.co y w hb.mem_left
  obtain ⟨wLab', hw', -, haddr⟩ := (hg.source r lab w hr hread hrf).resolve_left
    (hg.ne_init_of_isWrite hw hwrite)
  obtain rfl := Option.some.inj (hw.symm.trans hw')
  rw [haddr] at hb
  exact .fr hr hread hrf hb.mem_right (.inr hb)

namespace Revisited

theorem ne_init (h : Revisited q r w g) : r ≠ Event.getInit := by
  obtain ⟨rLab, hr, hread, -⟩ := h.read
  exact h.graphInv.readerInv.ne_init hr (EventLabel.isMemAccess_of_isRead hread)

/-- **The check of the read, and of the write that completes it, is enough.** -/
theorem acyclic (h : Revisited q r w g) (hv : isRevisitValid g r = true)
    (hq : ∀ e, q e → Later g w e) : Acyclic (OrderEdge g) := by
  obtain ⟨rLab, hr, hread, hrf⟩ := h.read
  rw [isRevisitValid, hr, Option.all_some, EventLabel.isMemAccess_of_isRead hread, hread] at hv
  obtain ⟨hvr, hvn⟩ := (Bool.and_eq_true _ _).mp hv
  have hnext : NoCycleFrom (OrderEdge g) r.next := by
    rcases h.next with ⟨hlast, -⟩ | hcomp
    · exact noCycleFrom_of_succ fun b hb => absurd hb (hlast b)
    · obtain ⟨rLab', hr', hrmw⟩ := hcomp.rmw
      obtain rfl := Option.some.inj (hr.symm.trans hr')
      obtain ⟨zLab, hz, hwrite⟩ := hcomp.newest.write
      rw [hrmw] at hvn
      exact noCycleFrom_of_valid_write h.graphInv h.complete hz hwrite hvn
  have hno := noCycleFrom_of_valid_read h.graphInv h.complete hr hread hvr hnext
  refine h.cycles.acyclic ?_ ?_ fun y hy => ?_
  · rintro (hi | hi)
    · exact h.ne_init hi.symm
    · exact absurd (congrArg Event.index hi) (Nat.succ_ne_zero _).symm
  · rintro x y (rfl | rfl) hxy
    · exact hno y hxy
    · exact hnext y hxy
  · exact hno y (.single (orderEdge_of_later h.graphInv hr hread hrf (hq y hy)))

/-- A revisit that is not valid has left its cycles before the writes after the one it added. -/
theorem cyclesAt_later (h : Revisited q r w g) (hz : g.getEventLabel r.next = some lab)
    (hwrite : lab.isWrite = true) (hq : ∀ e, q e → Later g w e) :
    CyclesAt (fun _ => False) (Later g r.next) g := by
  obtain ⟨rLab, hr, hread, hrf⟩ := h.read
  have hcomp : Completes r w g := h.next.resolve_left fun hlast => by
    rw [hlast.2 lab hz] at hwrite
    cases hwrite
  have hlater : ∀ {e}, OrderEdge g r e → e = r.next ∨ Later g r.next e := by
    intro e he
    rcases h.graphInv.orderEdge_read hr hread he with rfl | ⟨hmem, v, hv, hafter⟩
    · exact .inl rfl
    · obtain rfl := Option.some.inj (hrf.symm.trans hv)
      exact (hcomp.after rLab e hr hmem hafter).imp_right fun hb => ⟨_, hb⟩
  refine hcomp.newest.cyclesAt_later h.graphInv h.cycles
    (fun e he => hlater (orderEdge_of_later h.graphInv hr hread hrf (hq e he))) ?_
  rintro e (rfl | rfl)
  · refine .inr ⟨⟨noCycleFrom_of_succ fun b hb => ?_, fun l hl => ?_⟩, h.ne_init⟩
    · rcases hlater hb.1 with rfl | hlat
      · exact hcomp.newest.noCycleFrom h.graphInv
      · exact absurd hlat hb.2.2
    · obtain rfl := Option.some.inj (hr.symm.trans hl)
      exact EventLabelKind.not_isWrite_of_isRead hread
  · exact .inl rfl

/-- The write that completes the read revisits other reads in place. -/
theorem revisitsInPlace (h : Revisited q r w g) (hcomp : Completes r w g)
    (hr : RevisitsInPlace env r.next g g') : Revisited q r w g' ∧ Completes r w g' := by
  obtain ⟨hcan⟩ := hr
  rename_i r'
  have hrev := hcan.revisited env h.graphInv h.complete
  obtain ⟨zLab, hz, hwrite⟩ := hcomp.newest.write
  obtain ⟨rLab, hrLab, hread, hrf⟩ := h.read
  have hnb := not_isBlock_of_isMemAccess (EventLabel.isMemAccess_of_isWrite hwrite)
  have hne : r ≠ r' := by
    rintro rfl
    rcases hcan.last with hnone | ⟨bLab, hlast, hpos, hb⟩
    · rw [hz] at hnone
      cases hnone
    · have hbLab := (getEventLabel_of_last h.graphInv hlast).1
      rw [hpos, hz] at hbLab
      rw [Option.some.inj hbLab, hb] at hnb
      cases hnb
  obtain ⟨rLab', hrLab', hk, haddr, hrf'⟩ := hrev.forth r rLab hrLab
    (not_isBlock_of_isMemAccess (EventLabel.isMemAccess_of_isRead hread))
  have hcomp' : Completes r w (revisitInPlace env r.next g r') := by
    refine ⟨hrev.newest hcomp.newest, ⟨rLab', hrLab', ?_⟩, fun l c hl hc hafter => ?_⟩
    · obtain ⟨l, hl, hrmw⟩ := hcomp.rmw
      obtain rfl := Option.some.inj (hrLab.symm.trans hl)
      obtain ⟨zLab', hz', hzk, hza, -⟩ := hrev.forth r.next zLab hz hnb
      have hpos := h.graphInv.threaded.slots r rLab hrLab
      have hpos' := hrev.graphInv.threaded.slots r rLab' hrLab'
      rw [isRMWRead, poImmSucc, hpos, hz, Option.any_some] at hrmw
      rw [isRMWRead, poImmSucc, hpos', hz', Option.any_some, hk, EventLabel.isWrite, hzk,
        EventLabel.isRMW, hzk, hza, haddr]
      exact hrmw
    · obtain rfl := Option.some.inj (hrLab'.symm.trans hl)
      rw [hrev.co, haddr] at hc hafter ⊢
      exact hcomp.after rLab c hrLab hc hafter
  refine ⟨⟨hrev.graphInv, hrev.complete, hrev.cyclesAt (.inr rfl) h.cycles,
    ⟨rLab', hrLab', ?_, (hrf' hne).trans hrf⟩, .inr hcomp'⟩, hcomp'⟩
  rw [EventLabel.isRead, hk]
  exact hread

theorem run_revisitsInPlace (h : Revisited q r w g) (hcomp : Completes r w g)
    (hrun : ReflTransGen (RevisitsInPlace env r.next) g g') :
    Revisited q r w g' ∧ Completes r w g' ∧ ∀ y, g'.co y = g.co y := by
  induction hrun with
  | refl => exact ⟨h, hcomp, fun _ => rfl⟩
  | tail _ hstep ih =>
    obtain ⟨ih₁, ih₂, hco⟩ := ih
    obtain ⟨h', hcomp'⟩ := ih₁.revisitsInPlace ih₂ hstep
    obtain ⟨hcan⟩ := hstep
    have hrev := hcan.revisited env ih₁.graphInv ih₁.complete
    exact ⟨h', hcomp', fun y => (hrev.co y).trans (hco y)⟩

end Revisited

/-- The write that completes a read. -/
structure Counterpart (rLab sLab : EventLabel) : Prop where
  pos : sLab.pos = rLab.pos.next
  write : sLab.isWrite = true
  rmw : sLab.isRMW = true
  addr : sLab.addr = rLab.addr
  read : (rLab.kind.isCasRead || rLab.kind.isFaiRead) = true

/-- What `revisitRead` makes of a graph: the read reads from `w`, and may be completed by its write,
which may revisit other reads in place.  A wait at a barrier may be blocked. -/
inductive RevisitRead (env : Environment) (r w : Event) (g : ExecutionGraph) :
    ExecutionGraph → Prop
  | plain : RevisitRead env r w g (g.setRf r (some w))
  | rmw {g' : ExecutionGraph} {rLab sLab : EventLabel} (hr : g.getEventLabel r = some rLab)
      (hs : Counterpart rLab sLab) (hn : NewLabel (g.setRf r (some w)) sLab)
      (hin : ReflTransGen (RevisitsInPlace env sLab.pos)
        ((g.setRf r (some w)).completeRevisitedRMW sLab w) g') : RevisitRead env r w g g'
  | barrier {bLab : EventLabel} (hb : FreshBlock bLab) (ha : Added (g.setRf r (some w)) bLab)
      (hpos : bLab.pos = r.next) : RevisitRead env r w g ((g.setRf r (some w)).blockThread bLab)

/-- The order of the writes that are there does not change. -/
theorem before_insertAfter {l : List Event} (pred w : Event) (h : Before l a b) :
    Before (insertAfter pred w l) a b := by
  obtain ⟨l₁, l₂, rfl, heq, -⟩ := insertAfter_split pred w l
  rw [heq]
  rw [before_iff_sublist] at h ⊢
  exact h.trans (List.Sublist.append_left (List.sublist_cons_self w l₂) l₁)

/-- Placing a write right after `pred`. -/
theorem after_insertAfter {l : List Event} {pred c : Event}
    (hnodup : (insertAfter pred w l).Nodup) (hi : Event.getInit ∉ l)
    (hc : c ∈ insertAfter pred w l)
    (h : pred = Event.getInit ∨ Before (insertAfter pred w l) pred c) :
    c = w ∨ Before (insertAfter pred w l) w c := by
  obtain ⟨l₁, l₂, hsplit, heq, hpred⟩ := insertAfter_split pred w l
  rw [heq] at hc h hnodup ⊢
  rcases List.mem_append.1 hc with hc₁ | hc₂
  · -- nothing comes before the write but what `pred` comes after
    rcases hpred with ⟨-, rfl⟩ | ⟨l₀, rfl⟩
    · exact absurd hc₁ List.not_mem_nil
    · have hpl : pred ∈ l := by
        rw [hsplit]
        simp
      have hb := h.resolve_left fun hi' => hi (hi' ▸ hpl)
      rcases List.mem_append.1 hc₁ with hc₀ | hc₀
      · have hcb : Before (l₀ ++ [pred] ++ w :: l₂) c pred :=
          ⟨l₀, w :: l₂, by simp, hc₀⟩
        exact absurd hb (not_before_symm hnodup hcb)
      · exact absurd (List.mem_singleton.1 hc₀).symm (hb.ne hnodup)
  · rcases List.mem_cons.1 hc₂ with rfl | hc₂
    · exact .inl rfl
    · obtain ⟨k₁, k₂, rfl⟩ := List.append_of_mem hc₂
      exact .inr ⟨l₁ ++ w :: k₁, k₂, by simp, by simp⟩

/-- There may be cycles in more places. -/
theorem CyclesAt.weaken (h : CyclesAt p q g) (hg : GraphInv g) {p' q' : Event → Prop}
    (hp : ∀ e, (g.getEventLabel e).isSome → p e → p' e)
    (hq : ∀ e, (g.getEventLabel e).isSome → q e → q' e) : CyclesAt p' q' g := by
  have hsource : ∀ {e l v}, g.getEventLabel e = some l → l.isRead = true → l.rf = some v →
      (g.getEventLabel v).isSome := by
    intro e l v hl hread hrf
    rcases hg.source e l v hl hread hrf with rfl | ⟨vLab, hv, -⟩
    · obtain ⟨iLab, hi, -⟩ := hg.threaded.main
      exact isSome_of_eq hi
    · exact isSome_of_eq hv
  have hweak : ∀ {e}, (g.getEventLabel e).isSome → ¬ (Touches g p' e ∨ q' e) →
      ¬ (Touches g p e ∨ q e) := by
    rintro e hsome hno ((he | ⟨l, v, hl, hread, hrf, hv⟩) | he)
    · exact hno (.inl (.inl (hp e hsome he)))
    · exact hno (.inl (.inr ⟨l, v, hl, hread, hrf, hp v (hsource hl hread hrf) hv⟩))
    · exact hno (.inr (hq e hsome he))
  refine h.mono ?_
  rintro a b ⟨hab, ha, hb⟩
  obtain ⟨hsa, hsb⟩ := hg.isSome_of_orderEdge hab
  exact ⟨hab, hweak hsa ha, hweak hsb hb⟩

/-- An operation that touches one label, and leaves alone what the others read from. -/
theorem CyclesAt.of_changes (h : CyclesAt p q g) (hg' : GraphInv g') (hc : Changes x g g')
    (hp : p x) (hread : ∀ e lab w, e ≠ x → g.getEventLabel e = some lab → lab.isRead = true →
      lab.rf = some w → (g'.getEventLabel e).isSome →
        ∃ lab', g'.getEventLabel e = some lab' ∧ lab'.isRead = true ∧ lab'.rf = some w) :
    CyclesAt p q g' := by
  have hne : ∀ {e}, ¬ (Touches g' p e ∨ q e) → e ≠ x := by
    rintro e he rfl
    exact he (.inl (.inl hp))
  have htouch : ∀ {e}, (g'.getEventLabel e).isSome → ¬ (Touches g' p e ∨ q e) →
      ¬ (Touches g p e ∨ q e) := by
    rintro e hsome hno ((he | ⟨l, v, hl, hlread, hrf, hv⟩) | he)
    · exact hno (.inl (.inl he))
    · obtain ⟨l', hl', hlread', hrf'⟩ := hread e l v (hne hno) hl hlread hrf hsome
      exact hno (.inl (.inr ⟨l', v, hl', hlread', hrf', hv⟩))
    · exact hno (.inr he)
  refine h.mono ?_
  rintro a b ⟨hab, ha, hb⟩
  obtain ⟨hsa, hsb⟩ := hg'.isSome_of_orderEdge hab
  exact ⟨hc a b hab (hne ha) (hne hb), htouch hsa ha, htouch hsb hb⟩

theorem Extends.cyclesAt (hx : Extends lab g g') (hg' : GraphInv g') (hp : p lab.pos)
    (h : CyclesAt p q g) : CyclesAt p q g' :=
  h.of_changes hg' hx.changes hp fun _ l _ _ hl hread hrf _ => ⟨l, hx.old hl, hread, hrf⟩

/-- A read that gets a source is not unfinished any more. -/
theorem complete_setRf {rLab : EventLabel} (hg : GraphInv g) (hr : g.getEventLabel r = some rLab)
    (hrf : ∀ e eLab, e ≠ r → g.getEventLabel e = some eLab → eLab.isRead = true → eLab.rf.isSome)
    (hw : ∀ v vLab, g.getEventLabel v = some vLab → vLab.isWrite = true → v ∈ g.co vLab.addr) :
    Complete (g.setRf r (some w)) := by
  refine ⟨fun e eLab he heread => ?_, fun v vLab hv hvw => ?_⟩
  · obtain ⟨l, rs, m, hl, rfl⟩ := of_setRf hg hr he
    show (if e = r then some w else l.rf).isSome = true
    split
    · rfl
    · rename_i hne
      exact hrf e l hne hl heread
  · obtain ⟨l, rs, m, hl, rfl⟩ := of_setRf hg hr hv
    rw [co_setRf]
    exact hw v l hl hvw

section Revisit

variable {rLab : EventLabel} (hg : GraphInv g) (hc : Complete g)
  (hr : g.getEventLabel r = some rLab) (hread : rLab.isRead = true) (hsrc : Source g rLab w)
  (hlast : g.getEventLabel r.next = none) (hcyc : CyclesAt (· = r) q g)
include hg hc hr hread hsrc hlast hcyc

/-- The read reads from `w`. -/
theorem revisited_setRf : Revisited q r w (g.setRf r (some w)) := by
  have hg' := hg.setRf hr hread hsrc hlast
  obtain ⟨rs, m, hr'⟩ := to_setRf hg hr (w := w) hr
  have hnone : (g.setRf r (some w)).getEventLabel r.next = none := by
    rw [← Option.not_isSome_iff_eq_none, isSome_setRf hr, hlast]
    exact Bool.false_ne_true
  refine ⟨hg', complete_setRf hg hr (fun e l _ => hc.rf e l) hc.write, ?_,
    ⟨_, hr', hread, if_pos rfl⟩,
    .inl ⟨fun b hb => ?_, fun l hl => ?_⟩⟩
  · refine CyclesAt.weaken (hcyc.of_changes hg' (changes_setRf hg hr) rfl ?_) hg'
      (fun _ _ => .inl) fun _ _ => id
    intro e l v hne hl hlread hrf _
    obtain ⟨rs', m', hl'⟩ := to_setRf hg hr (w := w) hl
    exact ⟨_, hl', hlread, (if_neg hne).trans hrf⟩
  · have := (hg'.isSome_of_orderEdge hb).1
    rw [hnone] at this
    cases this
  · rw [hnone] at hl
    cases hl

/-- **A wait at a barrier that is blocked.** -/
theorem revisited_barrier {bLab : EventLabel} (hb : FreshBlock bLab)
    (ha : Added (g.setRf r (some w)) bLab) (hpos : bLab.pos = r.next) :
    Revisited q r w ((g.setRf r (some w)).blockThread bLab) := by
  have h := revisited_setRf hg hc hr hread hsrc hlast hcyc
  have hn := hb.newLabel ha
  have hx := hn.extends h.graphInv
  have hg' := h.graphInv.addLabelToGraph hn h.complete
  have hm : bLab.isMemAccess = false := FreshBlock.not_isMemAccess_of_isBlock hb.block
  have hkind : (stamped (g.setRf r (some w)) bLab).kind ≠ .ThreadCreate :=
    FreshBlock.kind_ne_of_isBlock hb.block rfl
  obtain ⟨rLab', hr', hread', hrf'⟩ := h.read
  rw [blockThread_eq_add h.graphInv.threaded.slots.seated ha.index]
  refine ⟨hg', hx.complete h.complete hm, hx.cyclesAt hg' (.inr hpos) h.cycles,
    ⟨rLab', hx.old hr', hread', hrf'⟩, .inl ⟨fun b hbe => ?_, fun l hl => ?_⟩⟩
  · rw [← hpos] at hbe
    exact hx.last h.graphInv (fun hk => absurd hk hkind) b hbe
  · rw [← hpos] at hl
    obtain rfl := Option.some.inj (hx.self.symm.trans hl)
    have hw : bLab.isWrite = false := by
      rw [EventLabel.isMemAccess, EventLabelKind.isMemAccess_eq, Bool.or_eq_false_iff] at hm
      exact hm.2
    exact hw

/-- **A read-modify-write is completed.** -/
theorem revisited_rmw {sLab : EventLabel} (hs : Counterpart rLab sLab)
    (hn : NewLabel (g.setRf r (some w)) sLab) :
    Revisited q r w ((g.setRf r (some w)).completeRevisitedRMW sLab w) ∧
      Completes r w ((g.setRf r (some w)).completeRevisitedRMW sLab w) := by
  have h := revisited_setRf hg hc hr hread hsrc hlast hcyc
  obtain ⟨rs, m, hr₁⟩ := to_setRf hg hr (w := w) hr
  have hx := hn.extends h.graphInv
  have hg₁ := h.graphInv.addLabelToGraph hn h.complete
  have hp : Places sLab.pos ((g.setRf r (some w)).addLabelToGraph sLab)
      ((g.setRf r (some w)).completeRevisitedRMW sLab w) :=
    hn.places h.graphInv h.complete hs.write w
  have hg' := hp.graphInv hg₁
  have hpos : sLab.pos = r.next := by
    rw [hs.pos, hg.threaded.slots r rLab hr]
  have hnotRead : sLab.isRead = false := by
    by_contra hne
    rw [Bool.not_eq_false] at hne
    have hw := hs.write
    rw [EventLabel.isWrite, EventLabelKind.not_isWrite_of_isRead hne] at hw
    cases hw
  have hco : ((g.setRf r (some w)).completeRevisitedRMW sLab w).co sLab.addr =
      insertAfter w sLab.pos ((g.setRf r (some w)).co sLab.addr) := by
    rw [completeRevisitedRMW, co_addCo, if_pos rfl, hx.co]
  obtain ⟨m₂, hr₂⟩ := hp.forth (hx.old hr₁)
  obtain ⟨m₃, hz⟩ := hp.forth hx.self
  have hcomp : Completes r w ((g.setRf r (some w)).completeRevisitedRMW sLab w) := by
    refine ⟨⟨?_, fun e hi he hb => ?_⟩, ⟨_, hr₂, ?_⟩, fun l c hl hc' hafter => ?_⟩
    · rw [← hpos]
      exact ⟨_, hz, hs.write⟩
    · rw [hp.insertionOrder, hx.insertionOrder, ← hpos] at hb
      have hnodup := hg₁.threaded.order
      rw [hx.insertionOrder] at hnodup
      have hnotin : sLab.pos ∉ (g.setRf r (some w)).insertionOrder := fun hin => by
        have := (h.graphInv.threaded.inserted _).1 hin
        have hnew : (g.setRf r (some w)).getEventLabel sLab.pos = none := hx.new
        rw [hnew] at this
        cases this
      rcases (before_concat_iff hnodup).1 hb with hb | ⟨hin, -⟩
      · exact hnotin hb.mem_left
      · exact hnotin hin
    · have hslot : rLab.pos = r := hg.threaded.slots r rLab hr
      rw [show (stamped (g.setRf r (some w)) sLab).pos = r.next from hpos] at hz
      show ((rLab.kind.isCasRead || rLab.kind.isFaiRead) &&
        (((g.setRf r (some w)).completeRevisitedRMW sLab w).getEventLabel rLab.pos.next).any
          fun sLab' => sLab'.isWrite && sLab'.isRMW && decide (sLab'.addr = rLab.addr)) = true
      rw [hslot, hz, Option.any_some, hs.read]
      show (true && (sLab.isWrite && sLab.isRMW && decide (sLab.addr = rLab.addr))) = true
      rw [hs.write, hs.rmw, hs.addr, decide_eq_true rfl]
      rfl
    · obtain rfl := Option.some.inj (hr₂.symm.trans hl)
      have hnodup := hp.nodup sLab.addr
      rw [hco] at hnodup
      show c = r.next ∨ Before (ExecutionGraph.co _ rLab.addr) r.next c
      have hc'' : c ∈ ((g.setRf r (some w)).completeRevisitedRMW sLab w).co rLab.addr := hc'
      have hafter' : w = Event.getInit ∨
        Before (((g.setRf r (some w)).completeRevisitedRMW sLab w).co rLab.addr) w c := hafter
      rw [← hs.addr, hco] at hc'' hafter' ⊢
      rw [← hpos]
      exact after_insertAfter hnodup
        (fun hi => h.graphInv.ne_init_of_mem_co hi rfl) hc'' hafter'
  refine ⟨⟨hg', hp.complete hx.self (fun e l hl hlread => ?_) (fun v l hl hlw hne => ?_) ?_, ?_,
    ⟨_, hr₂, hread, if_pos rfl⟩, .inr hcomp⟩, hcomp⟩
  · rcases hx.cases hl with ⟨-, rfl⟩ | ⟨-, hl⟩
    · exact absurd (hnotRead.symm.trans hlread) Bool.false_ne_true
    · exact h.complete.rf e l hl hlread
  · rw [hx.co]
    exact h.complete.write v l ((hx.cases hl).resolve_left fun h' => hne h'.1).2 hlw
  · show sLab.pos ∈ ((g.setRf r (some w)).completeRevisitedRMW sLab w).co sLab.addr
    rw [hco]
    exact mem_insertAfter _ _ _
  · refine (hx.cyclesAt hg₁ (.inr hpos) h.cycles).of_changes hg'
      (hp.changes fun e l he heread => hx.rf_ne h.graphInv he heread) (.inr hpos) ?_
    intro e l v _ hl hlread hrf _
    obtain ⟨m', hl'⟩ := hp.forth hl
    exact ⟨_, hl', hlread, hrf⟩

/-- **Revisiting a read.** -/
theorem RevisitRead.revisited (h : RevisitRead env r w g g') :
    Revisited q r w g' ∧ ∀ e, Later g w e → Later g' w e := by
  cases h with
  | plain =>
    refine ⟨revisited_setRf hg hc hr hread hsrc hlast hcyc, fun e he => ?_⟩
    obtain ⟨y, hb⟩ := he
    refine ⟨y, ?_⟩
    rw [co_setRf]
    exact hb
  | @rmw _ rLab' sLab hr' hs hn hin =>
    obtain rfl := Option.some.inj (hr.symm.trans hr')
    obtain ⟨hrev, hcomp⟩ := revisited_rmw hg hc hr hread hsrc hlast hcyc hs hn
    have hpos : sLab.pos = r.next := by
      rw [hs.pos, hg.threaded.slots r rLab hr]
    rw [hpos] at hin
    obtain ⟨hrev', -, hco⟩ := hrev.run_revisitsInPlace hcomp hin
    refine ⟨hrev', fun e he => ?_⟩
    obtain ⟨y, hb⟩ := he
    have hx := hn.extends (revisited_setRf hg hc hr hread hsrc hlast hcyc).graphInv
    refine ⟨y, ?_⟩
    rw [hco, completeRevisitedRMW, co_addCo]
    split
    · rename_i hy
      rw [hx.co, co_setRf, ← hy]
      exact before_insertAfter _ _ hb
    · rw [hx.co, co_setRf]
      exact hb
  | @barrier bLab hb ha hpos =>
    refine ⟨revisited_barrier hg hc hr hread hsrc hlast hcyc hb ha hpos, fun e he => ?_⟩
    obtain ⟨y, hbe⟩ := he
    have h := revisited_setRf hg hc hr hread hsrc hlast hcyc
    refine ⟨y, ?_⟩
    rw [blockThread_eq_add h.graphInv.threaded.slots.seated ha.index,
      ((hb.newLabel ha).extends h.graphInv).co, co_setRf]
    exact hbe

end Revisit

end SCChecker
end GenMC
