import GenMC.Consistency.Runs

/-!
# Explorations

When a run of the program is over, the driver takes up what was left last: it goes back to the
newest label of a revisit, revisits a read or a write, and runs the program again if the graph is
valid then.  Otherwise it takes up the next revisit, from the graph as it is.  A read that is
revisited by a newer write goes on in a copy of the graph, and the driver comes back to the graph
when it is done with the copy.

* `Explores` are the steps of the driver, and `Sane` is what they keep: the graph is sound while the
  program runs, and what is left to do will do away with all cycles of the graphs that were found
  not to be valid.
* **`consistent_of_explores`**: whenever the driver runs the program, its graph is sequentially
  consistent.

Steps are left out where they may go wrong.  A revisit that blocks a compare-and-swap is not
checked, and taken up from consistent graphs only (`BackwardRevisits.blocked`); the source takes it
up from any graph.  Reads wait for no barrier, and only the last write in coherence revisits a
blocked read in place (`RunStep`).
-/

set_option autoImplicit false

namespace GenMC

open ListOrder Relation ExecutionGraph SCChecker

variable {g g' : ExecutionGraph} {a b e r w x z : Event} {lab lab' sLab : EventLabel}
  {p q s : Event → Prop} {env : Environment} {i : Revisit} {l new : List Revisit}

/-! ## Steps of the driver -/

/-- Revisits of reads by a write. -/
def RevisitsBy (z : Event) (g : ExecutionGraph) (new : List Revisit) : Prop :=
  ∀ i ∈ new, ∃ r, i = .backward r z ∧ i.WellFormed g

/-- A revisit in the order of the program, of a graph that has gone back. -/
inductive ForwardRevisits (env : Environment) (g : ExecutionGraph) :
    Revisit → ExecutionGraph → List Revisit → Prop
  | read {x w : Event} {g' : ExecutionGraph} {new : List Revisit} (h : RevisitRead env x w g g')
      (hnew : RevisitsBy x.next g' new) : ForwardRevisits env g (.read x w) g' new
  | write {x pred : Event} {wLab : EventLabel} {g' : ExecutionGraph} {new : List Revisit}
      (hw : g.getEventLabel x = some wLab)
      (hin : ReflTransGen (RevisitsInPlace env x) (g.moveCo x pred wLab.addr) g')
      (hnew : RevisitsBy x g' new) : ForwardRevisits env g (.write x pred) g' new
  | optional {x : Event} : ForwardRevisits env g (.optional x) (g.revisitOptional x) []

/-- What is left of a graph when a write revisits a read. -/
def ExecutionGraph.revisitCopy (r : Event) (sLab : EventLabel) (g : ExecutionGraph) :
    ExecutionGraph :=
  (g.copyGraph sLab.prefixView (g.getRevisitView r sLab)).repairDanglingReads

/-- The write can revisit the read: it does not depend on it. -/
structure CanRevisit (g : ExecutionGraph) (r : Event) (sLab : EventLabel) : Prop where
  prefixView : PrefixView g sLab.prefixView
  write : sLab.prefixView.contains sLab.pos = true
  read : sLab.prefixView.contains r = false
  creations : InCreationOrder g (g.getRevisitView r sLab)

/-- A revisit by a newer write, of a graph that has gone back. -/
inductive BackwardRevisits (env : Environment) (r : Event) (sLab : EventLabel)
    (g : ExecutionGraph) : ExecutionGraph → List Revisit → Prop
  | read {g' : ExecutionGraph} {new : List Revisit}
      (h : RevisitRead env r sLab.pos (g.revisitCopy r sLab) g')
      (hnew : RevisitsBy r.next g' new) : BackwardRevisits env r sLab g g' new
  /-- A compare-and-swap that blocks is taken out: `removeCASReadIfBlocks`.  The driver does not ask
  whether the graph is consistent. -/
  | blocked {bLab : EventLabel} (hcons : isConsistentGraph g = some true) (hb : FreshBlock bLab)
      (hpos : bLab.pos = r) : BackwardRevisits env r sLab g
        (((g.revisitCopy r sLab).setRf r (some sLab.pos)).blockThread bLab) []

/-- A graph, and what is left to do for it, the last addition first. -/
structure Execution where
  graph : ExecutionGraph
  workqueue : List Revisit

/-- The executions that the driver works on, the last one first, and whether the program runs. -/
structure Exploration where
  running : Bool
  execStack : List Execution

/-- The program has not begun yet. -/
def Exploration.init : Exploration := ⟨true, [⟨ExecutionGraph.init, []⟩]⟩

/-- A step of the driver: a step of the program, or one of `done`, but for those left out. -/
inductive Explores (env : Environment) : Exploration → Exploration → Prop
  | run {g g' : ExecutionGraph} {l new : List Revisit} {execs : List Execution}
      (h : RunStep env g g' new) :
      Explores env ⟨true, ⟨g, l⟩ :: execs⟩ ⟨true, ⟨g', new ++ l⟩ :: execs⟩
  | stop {execs : List Execution} : Explores env ⟨true, execs⟩ ⟨false, execs⟩
  | pop {g : ExecutionGraph} {execs : List Execution} :
      Explores env ⟨false, ⟨g, []⟩ :: execs⟩ ⟨false, execs⟩
  | forward {g g' : ExecutionGraph} {i : Revisit} {l new : List Revisit} {execs : List Execution}
      {valid : Bool} (h : ForwardRevisits env (g.restrict (g.stampAt i.newest)) i g' new)
      (hv : valid = true → isRevisitValid g' i.newest = true) :
      Explores env ⟨false, ⟨g, i :: l⟩ :: execs⟩ ⟨valid, ⟨g', new ++ l⟩ :: execs⟩
  | backward {g g₁ g' : ExecutionGraph} {r w : Event} {sLab : EventLabel} {l new : List Revisit}
      {execs : List Execution} {valid : Bool} (hg₁ : g₁ = g.restrict (g.stampAt w))
      (hw : g₁.getEventLabel w = some sLab) (hcan : CanRevisit g₁ r sLab)
      (h : BackwardRevisits env r sLab g₁ g' new)
      (hv : valid = true → isRevisitValid g' r = true) :
      Explores env ⟨false, ⟨g, .backward r w :: l⟩ :: execs⟩
        ⟨valid, ⟨g', new⟩ :: ⟨g₁, l⟩ :: execs⟩

namespace SCChecker

/-! ## Going back -/

section Restrict

variable (hg : GraphInv g) (hc : Complete g) (hl : Worklist g (i :: l))
include hg hc hl

/-- The graph goes back to the newest label of the next revisit. -/
theorem goesBack_newest : GoesBack ((g.getViewFromStamp (g.stampAt i.newest)).contains ·) g
    (g.restrict (g.stampAt i.newest)) ∧
      Worklist (g.restrict (g.stampAt i.newest)) (i :: l) := by
  have hb := hg.goesBack_restrict (g.stampAt i.newest) hc
  have hx := chosen_newest (hl.wellFormed i List.mem_cons_self)
  obtain ⟨-, hle⟩ := hl.tail
  refine ⟨hb, hl.goesBack hg hb fun j hj e he hej => ?_⟩
  obtain ⟨xLab, hxLab, -⟩ := hx
  obtain ⟨eLab, heLab, -⟩ := id he
  rw [hg.contains_stampAt_iff (isSome_of_eq hxLab) (isSome_of_eq heLab) (hg.index_of_chosen he)]
  rcases List.mem_cons.1 hj with rfl | hj
  · exact hej
  · rcases hle j hj with heq | hbefore
    · rw [heq] at hej
      exact hej
    · refine .inr ?_
      rcases hej with rfl | hej
      · exact hbefore
      · exact hej.trans hg.threaded.order hbefore

/-- Nothing is newer than this label any more. -/
theorem not_after_newest (he : ((g.restrict (g.stampAt i.newest)).getEventLabel e).isSome) :
    ¬ After (g.restrict (g.stampAt i.newest)) i.newest e := by
  obtain ⟨hb, -⟩ := goesBack_newest hg hc hl
  rintro ⟨hi, hbefore⟩
  obtain ⟨lab', hlab'⟩ := Option.isSome_iff_exists.1 he
  obtain ⟨hkeep, lab, hlab, -⟩ := hb.back e lab' hi hlab'
  obtain ⟨xLab, hxLab, -⟩ := chosen_newest (hl.wellFormed i List.mem_cons_self)
  have hbefore' : Before g.insertionOrder i.newest e :=
    before_iff_sublist.2 ((before_iff_sublist.1 hbefore).trans hb.insertionOrder)
  rcases (hg.contains_stampAt_iff (isSome_of_eq hxLab) (isSome_of_eq hlab) hi).1 hkeep with rfl | h
  · exact hbefore'.ne hg.threaded.order rfl
  · exact not_before_symm hg.threaded.order hbefore' h

end Restrict

/-! ## What a revisit leaves alone -/

theorem Revisited.keeps_run (h : Revisited q r w g) (hcomp : Completes r w g)
    (hrun : ReflTransGen (RevisitsInPlace env r.next) g g') : Keeps (Chosen g) g g' := by
  induction hrun with
  | refl => exact .of_eq rfl fun e l hl => ⟨l, hl, rfl, rfl⟩
  | tail hrun hstep ih =>
    obtain ⟨h', -, -⟩ := h.run_revisitsInPlace hcomp hrun
    obtain ⟨hcan⟩ := hstep
    exact ih.trans_chosen ((hcan.revisited env h'.graphInv h'.complete).keeps h'.graphInv)

theorem Moved.run (h : Moved x g) (hrun : ReflTransGen (RevisitsInPlace env x) g g') :
    Moved x g' ∧ Keeps (Chosen g) g g' := by
  induction hrun with
  | refl => exact ⟨h, .of_eq rfl fun e l hl => ⟨l, hl, rfl, rfl⟩⟩
  | tail hrun hstep ih =>
    obtain ⟨h', hk⟩ := ih
    refine ⟨h'.revisitsInPlace hstep, ?_⟩
    obtain ⟨hcan⟩ := hstep
    exact hk.trans_chosen
      ((hcan.revisited env h'.graphInv h'.complete).keeps h'.graphInv)

section RevisitRead

variable {rLab : EventLabel} (hg : GraphInv g) (hc : Complete g)
  (hr : g.getEventLabel r = some rLab) (hread : rLab.isRead = true) (hsrc : Source g rLab w)
  (hlast : g.getEventLabel r.next = none) (hcyc : CyclesAt (· = r) q g)
include hg hc hr hread hsrc hlast hcyc

theorem RevisitRead.keeps (h : RevisitRead env r w g g') : Keeps (Chosen g) g g' := by
  have hset := revisited_setRf hg hc hr hread hsrc hlast hcyc
  cases h with
  | plain => exact keeps_setRf hg hr
  | @rmw _ rLab' sLab hr' hs hn hin =>
    obtain rfl := Option.some.inj (hr.symm.trans hr')
    obtain ⟨hrev, hcomp⟩ := revisited_rmw hg hc hr hread hsrc hlast hcyc hs hn
    have hpos : sLab.pos = r.next := by
      rw [hs.pos, hg.threaded.slots r rLab hr]
    rw [hpos] at hin
    have hk : Keeps (Chosen g) g ((g.setRf r (some w)).completeRevisitedRMW sLab w) :=
      ((keeps_setRf hg hr).trans (hn.extends hset.graphInv).keeps fun _ => id).trans
        (hn.places hset.graphInv hset.complete hs.write w).keeps fun _ => id
    exact hk.trans_chosen (hrev.keeps_run hcomp hin)
  | @barrier bLab hb ha hpos =>
    rw [blockThread_eq_add hset.graphInv.threaded.slots.seated ha.index]
    exact (keeps_setRf hg hr).trans ((hb.newLabel ha).extends hset.graphInv).keeps fun _ => id

end RevisitRead

/-! ## Revisits in the order of the program -/

section Forward

variable (hg : GraphInv g) (hc : Complete g)
include hg hc

/-- **Revisiting a read in the order of the program**, whatever the outcome. -/
theorem outcome_read (hl : Worklist g (.read x w :: l))
    (hafter : ∀ e, (g.getEventLabel e).isSome → ¬ After g x e) (h : RevisitRead env x w g g')
    (hnew : RevisitsBy x.next g' new) :
    GraphInv g' ∧ Complete g' ∧ Worklist g' (new ++ l) ∧
      (isRevisitValid g' x = true → Acyclic (OrderEdge g')) := by
  obtain ⟨rLab, hr, hread, hsrc, -⟩ := hl.wellFormed _ List.mem_cons_self
  obtain ⟨htail, hle⟩ := hl.tail
  have hnext : g.getEventLabel x.next = none := by
    rw [← Option.not_isSome_iff_eq_none]
    exact fun h => hafter _ h ⟨Nat.succ_pos _, hg.threaded.po h⟩
  have hcyc : CyclesAt (· = x) (fun _ => False) g :=
    (hl.cyclesLeft _ List.mem_cons_self).weaken hg
      (fun e he h => h.resolve_right (hafter e he)) fun _ _ => id
  obtain ⟨hrev, -⟩ := h.revisited hg hc hr hread hsrc hnext hcyc
  have hk := h.keeps hg hc hr hread hsrc hnext hcyc
  have hg' := hrev.graphInv
  have hx := chosen_of_isRead hr hread
  obtain ⟨rLab', hr', hread', -⟩ := hrev.read
  -- what comes after the label at `x` is its write
  have hpx : ∀ e, (g'.getEventLabel e).isSome → e = x ∨ e = x.next → e = x ∨ After g' x e := by
    rintro e he (rfl | rfl)
    · exact .inl rfl
    · exact .inr ⟨Nat.succ_pos _, hg'.threaded.po he⟩
  have hw' : Worklist g' l := by
    refine htail.of_cyclesAt hle hk hg' hx ⟨rLab', hr', EventLabel.isMemAccess_of_isRead hread'⟩
      (hrev.cycles.weaken hg' hpx fun _ _ => id) fun lab hlab hwrite => ?_
    obtain rfl := Option.some.inj (hr'.symm.trans hlab)
    have hnw : rLab'.isWrite = false := EventLabelKind.not_isWrite_of_isRead hread'
    rw [hnw] at hwrite
    cases hwrite
  refine ⟨hg', hrev.complete, ?_, fun hv => hrev.acyclic hv fun _ => False.elim⟩
  by_cases hnil : new = []
  · rw [hnil]
    exact hw'
  · -- a new revisit is one by the write that completes the read
    have hz : ∃ zLab, g'.getEventLabel x.next = some zLab ∧ zLab.isWrite = true := by
      obtain ⟨i, hi⟩ := List.exists_mem_of_ne_nil new hnil
      obtain ⟨r, rfl, hwf⟩ := hnew i hi
      obtain ⟨-, zLab, -, -, hz, hzw, -⟩ := hwf
      exact ⟨zLab, hz, hzw⟩
    obtain ⟨zLab, hz, hzw⟩ := hz
    refine hw'.push (x := x.next) (fun i hi => .inr ?_) fun i hi => ?_
    · have hpo := hg'.threaded.po (isSome_of_eq hz)
      rcases hle.of_keeps hk htail hx i hi with heq | hbefore
      · rw [heq]
        exact hpo
      · exact hbefore.trans hg'.threaded.order hpo
    · obtain ⟨r, rfl, hwf⟩ := hnew i hi
      exact ⟨rfl, hwf, (hrev.cyclesAt_later hz hzw fun _ => False.elim).weaken hg'
        (fun _ _ => False.elim) fun _ _ => id⟩

/-- **Placing a write anew**, whatever the outcome. -/
theorem outcome_write {pred : Event} {wLab : EventLabel} (hl : Worklist g (.write x pred :: l))
    (hafter : ∀ e, (g.getEventLabel e).isSome → ¬ After g x e) (hw : g.getEventLabel x = some wLab)
    (hin : ReflTransGen (RevisitsInPlace env x) (g.moveCo x pred wLab.addr) g')
    (hnew : RevisitsBy x g' new) :
    GraphInv g' ∧ Complete g' ∧ Worklist g' (new ++ l) ∧
      (isRevisitValid g' x = true → Acyclic (OrderEdge g')) := by
  obtain ⟨wLab', hw', hwrite⟩ := hl.wellFormed _ List.mem_cons_self
  obtain rfl := Option.some.inj (hw.symm.trans hw')
  obtain ⟨htail, hle⟩ := hl.tail
  have hcyc : CyclesAt (· = x) (fun _ => False) g :=
    (hl.cyclesLeft _ List.mem_cons_self).weaken hg
      (fun e he h => h.resolve_right (hafter e he)) fun _ _ => id
  have hn : Newest x g := ⟨⟨wLab, hw, hwrite⟩, fun e hi he hb => hafter e he ⟨hi, hb⟩⟩
  have hk₁ : Keeps (Chosen g) g (g.moveCo x pred wLab.addr) :=
    (places_moveCo hg hw hwrite pred).keeps
  obtain ⟨hmoved, hk₂⟩ := (moved_moveCo hg hc hn hw hcyc pred).run hin
  have hk := hk₁.trans_chosen hk₂
  have hg' := hmoved.graphInv
  have hx := chosen_of_isWrite hw hwrite
  obtain ⟨wLab', hw', hwrite'⟩ := hmoved.newest.write
  have hworklist : Worklist g' l :=
    htail.of_cyclesAt hle hk hg' hx ⟨wLab', hw', EventLabel.isMemAccess_of_isWrite hwrite'⟩
      (hmoved.cycles.weaken hg' (fun _ _ => .inl) fun _ _ => id) fun _ _ _ => hmoved.cyclesAt_later
  refine ⟨hg', hmoved.complete, hworklist.push (hle.of_keeps hk htail hx) fun i hi => ?_,
    hmoved.acyclic⟩
  obtain ⟨r, rfl, hwf⟩ := hnew i hi
  exact ⟨rfl, hwf, hmoved.cyclesAt_later.weaken hg' (fun _ _ => False.elim) fun _ _ => id⟩

/-- Taking the alternative of an optional block. -/
theorem outcome_optional (hl : Worklist g (.optional x :: l))
    (hafter : ∀ e, (g.getEventLabel e).isSome → ¬ After g x e) : Sound (g.revisitOptional x) ∧
      Worklist (g.revisitOptional x) l := by
  have hcyc : CyclesAt (fun _ => False) (fun _ => False) g :=
    (hl.cyclesLeft _ List.mem_cons_self).weaken hg hafter fun _ _ => id
  have h : Sound g := ⟨hg, hc, hcyc.acyclic id (fun _ _ => False.elim) fun _ => False.elim⟩
  have hrel : Relabels g (g.revisitOptional x) :=
    relabels_modify x fun l => ⟨⟨rfl, rfl, rfl, rfl, rfl⟩, rfl, rfl, rfl, rfl, rfl, rfl, rfl⟩
  have hs : Sound (g.revisitOptional x) := by
    refine hrel.sound h fun e lab lab' hlab hlab' => ?_
    have := getEventLabel_modify (g := g) x (fun l => { l with expanded := true }) e
    rw [hlab, Option.map_some] at this
    obtain rfl := Option.some.inj (hlab'.symm.trans this)
    split <;> rfl
  exact ⟨hs, hl.tail.1.of_acyclic hrel.keeps hs.acyclic⟩

end Forward

/-! ## Revisits by a newer write -/

/-- A copy in which a read can be revisited. -/
structure Prepared (r w : Event) (g : ExecutionGraph) : Prop where
  graphInv : GraphInv g
  complete : Complete g
  read : ∃ rLab, g.getEventLabel r = some rLab ∧ rLab.isRead = true ∧ Source g rLab w
  next : g.getEventLabel r.next = none
  cycles : CyclesAt (· = r) (Later g w) g

section Backward

variable (hg : GraphInv g) (hc : Complete g) (hthr : g.ThreadInv)
  (hw : g.getEventLabel w = some sLab) (hcan : CanRevisit g r sLab)
include hg hc hthr hcan

theorem goesBack_revisitCopy : GoesBack ((g.getRevisitView r sLab).contains ·) g
    (g.revisitCopy r sLab) :=
  hg.goesBack_copyGraph hc hthr hcan.prefixView (g.stampAt r) hcan.creations

include hw

/-- **The copy has the read and the write**, and its cycles go through the read, or through the
writes after the one that revisits. -/
theorem prepared_revisitCopy (hl : Worklist g (.backward r w :: l))
    (hafter : ∀ e, (g.getEventLabel e).isSome → ¬ After g w e) :
    Prepared r w (g.revisitCopy r sLab) := by
  have hb := goesBack_revisitCopy hg hc hthr hcan
  obtain ⟨rLab, wLab, hr, hread, hw', hwrite, haddr, hbefore⟩ :=
    hl.wellFormed _ List.mem_cons_self
  obtain rfl := Option.some.inj (hw.symm.trans hw')
  have hri := hg.index_of_chosen (chosen_of_isRead hr hread)
  have hwi := hg.index_of_chosen (chosen_of_isWrite hw hwrite)
  have hpos : sLab.pos = w := hg.threaded.slots w sLab hw
  have hkr : (g.getRevisitView r sLab).contains r = true := by
    rw [getRevisitView, View.contains_update, Bool.or_eq_true]
    exact .inl ((hg.contains_stampAt_iff (isSome_of_eq hr) (isSome_of_eq hr) hri).2 (.inl rfl))
  have hkw : (g.getRevisitView r sLab).contains w = true := by
    rw [getRevisitView, View.contains_update, Bool.or_eq_true, ← hpos]
    exact .inr hcan.write
  have hk := hb.keeps hg
  obtain ⟨rLab', hr', hrk, hra⟩ := hk.label r rLab ⟨hri, hkr⟩ hr
  obtain ⟨wLab', hw₂, hwk, hwa⟩ := hk.label w sLab ⟨hwi, hkw⟩ hw
  refine ⟨hb.graphInv, hb.complete, ⟨rLab', hr', ?_, .inr ⟨wLab', hw₂, ?_, ?_⟩⟩, ?_, ?_⟩
  · rw [EventLabel.isRead, hrk]
    exact hread
  · rw [EventLabel.isWrite, hwk]
    exact hwrite
  · rw [hwa, haddr, hra]
  · -- neither the labels before the read nor the prefix of the write have it
    rw [← Option.not_isSome_iff_eq_none]
    intro hnext
    obtain ⟨nLab', hn'⟩ := Option.isSome_iff_exists.1 hnext
    obtain ⟨hkeep, nLab, hn, -⟩ := hb.back r.next nLab' (Nat.succ_pos _) hn'
    have hpo := hg.threaded.po (isSome_of_eq hn)
    rw [getRevisitView, View.contains_update, Bool.or_eq_true] at hkeep
    rcases hkeep with hkeep | hkeep
    · rcases (hg.contains_stampAt_iff (isSome_of_eq hr) (isSome_of_eq hn)
        (Nat.succ_pos _)).1 hkeep with heq | hbef
      · exact Nat.succ_ne_self _ (congrArg Event.index heq)
      · exact not_before_symm hg.threaded.order hpo hbef
    · have hcontains : sLab.prefixView.contains r = true := by
        rw [View.contains_iff] at hkeep ⊢
        exact (Nat.le_succ _).trans hkeep
      rw [hcan.read] at hcontains
      cases hcontains
  · refine hb.cycles _ _ _ _ (hl.cyclesLeft _ List.mem_cons_self) (fun e he hae => ?_)
      fun e he => hb.later hg hkw he
    obtain ⟨lab', hlab'⟩ := Option.isSome_iff_exists.1 he
    obtain ⟨-, lab, hlab, -⟩ := hb.back e lab' hae.1 hlab'
    exact absurd hae (hafter e (isSome_of_eq hlab))

end Backward

/-- **Revisiting a read by a newer write**, whatever the outcome. -/
theorem outcome_backward (hp : Prepared r w g) (h : RevisitRead env r w g g')
    (hnew : RevisitsBy r.next g' new) : GraphInv g' ∧ Complete g' ∧ Worklist g' new ∧
      (isRevisitValid g' r = true → Acyclic (OrderEdge g')) := by
  obtain ⟨rLab, hr, hread, hsrc⟩ := hp.read
  obtain ⟨hrev, hlater⟩ :=
    h.revisited hp.graphInv hp.complete hr hread hsrc hp.next hp.cycles
  have hw : Worklist g' (new ++ []) := by
    refine Worklist.nil.push (x := r.next) (fun i hi => absurd hi List.not_mem_nil) fun i hi => ?_
    obtain ⟨r', rfl, hwf⟩ := hnew i hi
    obtain ⟨-, zLab, -, -, hz, hzw, -⟩ := id hwf
    exact ⟨rfl, hwf, (hrev.cyclesAt_later hz hzw hlater).weaken hrev.graphInv
      (fun _ _ => False.elim) fun _ _ => id⟩
  rw [List.append_nil] at hw
  exact ⟨hrev.graphInv, hrev.complete, hw, fun hv => hrev.acyclic hv hlater⟩

/-- **Blocking a compare-and-swap instead**: it takes what its new source has changed with it. -/
theorem sound_blocked {bLab : EventLabel} (hp : Prepared r w g) (hac : Acyclic (OrderEdge g))
    (hb : FreshBlock bLab) (hpos : bLab.pos = r) :
    Sound ((g.setRf r (some w)).blockThread bLab) := by
  obtain ⟨rLab, hr, hread, hsrc⟩ := hp.read
  have hrev := revisited_setRf hp.graphInv hp.complete hr hread hsrc hp.next hp.cycles
  have hg' := hrev.graphInv
  obtain ⟨lab, hlab, hread', -⟩ := hrev.read
  have hslot : lab.pos = r := hg'.threaded.slots r lab hlab
  have hnext : (g.setRf r (some w)).getEventLabel r.next = none := by
    rw [← Option.not_isSome_iff_eq_none, isSome_setRf hr, hp.next]
    exact Bool.false_ne_true
  have hlast : (g.setRf r (some w)).getLastThreadLabel bLab.pos.thread = some lab := by
    rw [hpos]
    exact getLastThreadLabel_of_next hlab hnext
  have hne : ∀ k : EventLabelKind, k.isRead = false → lab.kind ≠ k := by
    rintro k hk rfl
    rw [EventLabel.isRead, hk] at hread'
    cases hread'
  have hrem : Removable lab :=
    ⟨EventLabelKind.not_isWrite_of_isRead hread', hne _ rfl, hne _ rfl, by
    rw [hslot]
    exact hg'.index_of_chosen (chosen_of_isRead hlab hread')⟩
  have hg₁ := hg'.removeLast hlast hrem
  have hs : Sound ((g.setRf r (some w)).removeLast bLab.pos.thread) := by
    refine ⟨hg₁, complete_removeLast hg' hlast hrem
      (fun e l hl hlr _ => hrev.complete.rf e l hl hlr) hrev.complete.write, ?_⟩
    have hgone := getEventLabel_removeLast_pos hg' hlast
    rw [hslot] at hgone
    have habsent : ∀ {e}, (((g.setRf r (some w)).removeLast bLab.pos.thread).getEventLabel
        e).isSome → e ≠ r := by
      rintro e he rfl
      rw [hgone] at he
      cases he
    refine hac.mono fun a b hab => ?_
    obtain ⟨ha, hb'⟩ := hg₁.isSome_of_orderEdge hab
    exact changes_setRf hp.graphInv hr a b
      ((restricts_removeLast hg' hlast hrem).orderEdge hg' hab) (habsent ha) (habsent hb')
  rw [blockThread_eq_replace hlast (hslot.trans hpos.symm)]
  exact hb.sound hs (added_removeLast hg' hlast hrem (hpos.trans hslot.symm) hb.stamp)

/-! ## Explorations -/

/-- What an execution on the stack of the driver is like. -/
structure SaneExecution (x : Execution) : Prop where
  graphInv : GraphInv x.graph
  complete : Complete x.graph
  worklist : Worklist x.graph x.workqueue

/-- **The invariant of the driver.** -/
structure Sane (s : Exploration) : Prop where
  execs : ∀ x ∈ s.execStack, SaneExecution x
  running : s.running = true → ∀ x ∈ s.execStack.head?, Acyclic (OrderEdge x.graph)

/-- The label of the initial graph. -/
theorem of_getEventLabel_init (h : ExecutionGraph.init.getEventLabel e = some lab) :
    e = Event.getInit ∧ lab = freshInit := by
  obtain ⟨t, i⟩ := e
  cases t with
  | zero =>
    cases i with
    | zero => exact ⟨rfl, (Option.some.inj h).symm⟩
    | succ i => cases h
  | succ t => cases h

theorem sound_init : Sound ExecutionGraph.init := by
  have hlabel : ∀ {e l}, ExecutionGraph.init.getEventLabel e = some l →
      e.index = 0 ∧ l = freshInit :=
    fun h => (of_getEventLabel_init h).imp_left (congrArg Event.index)
  have hmem : ∀ {e l}, ExecutionGraph.init.getEventLabel e = some l → l.isRead = false ∧
      l.isWrite = false ∧ tjSucc l = none ∧ l.kind ≠ .ThreadCreate := by
    intro e l h
    obtain ⟨-, rfl⟩ := hlabel h
    exact ⟨rfl, rfl, rfl, by decide⟩
  have hread : ∀ {e l}, ExecutionGraph.init.getEventLabel e = some l → l.isRead ≠ true :=
    fun h => by
      rw [(hmem h).1]
      exact Bool.false_ne_true
  have hwrite : ∀ {e l}, ExecutionGraph.init.getEventLabel e = some l → l.isWrite ≠ true :=
    fun h => by
      rw [(hmem h).2.1]
      exact Bool.false_ne_true
  refine ⟨⟨threadInv_init.threaded (.refl _), threadInv_init.stampsUp, readerInv_init,
    fun _ => List.nodup_nil, fun _ _ hw => absurd hw List.not_mem_nil,
    fun r l w h hr => absurd hr (hread h), fun r l h hr => absurd hr (hread h),
    fun r l w h hr => absurd hr (hread h), fun e l j h hj => ?_, fun e l h => ?_⟩,
    ⟨fun r l h hr => absurd hr (hread h), fun w l h hw => absurd hw (hwrite h)⟩,
    fun x hx => ?_⟩
  · rw [(hmem h).2.2.1] at hj
    cases hj
  · obtain ⟨-, rfl⟩ := hlabel h
    rfl
  · obtain ⟨b, hb, -⟩ := TransGen.head'_iff.1 hx
    cases hb with
    | po h =>
      obtain ⟨l, hl⟩ := Option.isSome_iff_exists.1 h
      exact absurd (hlabel hl).1 (Nat.succ_ne_zero _)
    | tc h hk _ => exact (hmem h).2.2.2 hk
    | tj h hj =>
      rw [(hmem h).2.2.1] at hj
      cases hj
    | rf h hr => exact hread h hr
    | co h => exact absurd h.mem_left List.not_mem_nil
    | fr h hr => exact hread h hr

/-- Only the first execution changes. -/
theorem Sane.cons {execs : List Execution} {running valid : Bool} {x y : Execution}
    (h : Sane ⟨running, x :: execs⟩) (hy : SaneExecution y)
    (hac : valid = true → Acyclic (OrderEdge y.graph)) : Sane ⟨valid, y :: execs⟩ := by
  refine ⟨fun z hz => ?_, fun hv z hz => ?_⟩
  · rcases List.mem_cons.1 hz with rfl | hz
    · exact hy
    · exact h.execs z (List.mem_cons_of_mem _ hz)
  · obtain rfl := Option.some.inj hz
    exact hac hv

/-- A step of the program. -/
theorem SaneExecution.run (h : SaneExecution ⟨g, l⟩) (hac : Acyclic (OrderEdge g))
    (hs : RunStep env g g' new) : SaneExecution ⟨g', new ++ l⟩ ∧ Acyclic (OrderEdge g') := by
  have hsound : Sound g := ⟨h.graphInv, h.complete, hac⟩
  have hsound' := hs.sound hsound
  have hl : Worklist g' l := h.worklist.of_acyclic (hs.keeps hsound) hsound'.acyclic
  refine ⟨⟨hsound'.graphInv, hsound'.complete, ?_⟩, hsound'.acyclic⟩
  rcases hs.pushes hsound with rfl | ⟨x, hx, hnew⟩
  · exact hl
  · refine hl.push (fun i hi => .inr (hx _ ?_)) fun i hi =>
      ⟨(hnew i hi).1, (hnew i hi).2, cyclesLeft_of_acyclic hsound'.acyclic i⟩
    obtain ⟨lab, hlab, -⟩ := chosen_newest (h.worklist.wellFormed i hi)
    exact isSome_of_eq hlab

/-- A revisit in the order of the program. -/
theorem SaneExecution.forward (h : SaneExecution ⟨g, i :: l⟩)
    (hs : ForwardRevisits env (g.restrict (g.stampAt i.newest)) i g' new) :
    SaneExecution ⟨g', new ++ l⟩ ∧
      (isRevisitValid g' i.newest = true → Acyclic (OrderEdge g')) := by
  obtain ⟨hg, hc, hl⟩ := h
  obtain ⟨hb, hl₁⟩ := goesBack_newest hg hc hl
  have hafter := fun e => not_after_newest (e := e) hg hc hl
  cases hs with
  | read hrev hnew =>
    obtain ⟨h₁, h₂, h₃, h₄⟩ := outcome_read hb.graphInv hb.complete hl₁ hafter hrev hnew
    exact ⟨⟨h₁, h₂, h₃⟩, h₄⟩
  | write hw hin hnew =>
    obtain ⟨h₁, h₂, h₃, h₄⟩ := outcome_write hb.graphInv hb.complete hl₁ hafter hw hin hnew
    exact ⟨⟨h₁, h₂, h₃⟩, h₄⟩
  | optional =>
    obtain ⟨h₁, h₂⟩ := outcome_optional hb.graphInv hb.complete hl₁ hafter
    exact ⟨⟨h₁.graphInv, h₁.complete, h₂⟩, fun _ => h₁.acyclic⟩

/-- A revisit by a newer write. -/
theorem SaneExecution.backward {g₁ : ExecutionGraph} (h : SaneExecution ⟨g, .backward r w :: l⟩)
    (hg₁ : g₁ = g.restrict (g.stampAt w)) (hw : g₁.getEventLabel w = some sLab)
    (hcan : CanRevisit g₁ r sLab) (hs : BackwardRevisits env r sLab g₁ g' new) :
    SaneExecution ⟨g₁, l⟩ ∧ SaneExecution ⟨g', new⟩ ∧
      (isRevisitValid g' r = true → Acyclic (OrderEdge g')) := by
  obtain ⟨hg, hc, hl⟩ := h
  obtain ⟨hg', hc', hthr, hl₁, hafter⟩ : GraphInv g₁ ∧ Complete g₁ ∧ g₁.ThreadInv ∧
      Worklist g₁ (.backward r w :: l) ∧
        ∀ e, (g₁.getEventLabel e).isSome → ¬ After g₁ w e := by
    have hnewest : (Revisit.backward r w).newest = w := rfl
    obtain ⟨hb, hl₁⟩ := goesBack_newest hg hc hl
    have hafter := fun e => not_after_newest (e := e) hg hc hl
    rw [hnewest, ← hg₁] at hb hl₁ hafter
    exact ⟨hb.graphInv, hb.complete, hg₁ ▸ hg.threadInv_restrict _, hl₁, hafter⟩
  have hp := prepared_revisitCopy hg' hc' hthr hw hcan hl₁ hafter
  have hpos : sLab.pos = w := hg'.threaded.slots w sLab hw
  refine ⟨⟨hg', hc', hl₁.tail.1⟩, ?_⟩
  cases hs with
  | read hrev hnew =>
    rw [hpos] at hrev
    obtain ⟨h₁, h₂, h₃, h₄⟩ := outcome_backward hp hrev hnew
    exact ⟨⟨h₁, h₂, h₃⟩, h₄⟩
  | blocked hcons hbl hpos' =>
    have hac := (hg'.isConsistentGraph_iff hc').1 hcons
    have hac₂ : CyclesAt (fun _ => False) (fun _ => False) (g₁.revisitCopy r sLab) :=
      (goesBack_revisitCopy hg' hc' hthr hcan).cycles (fun _ => False) (fun _ => False) _ _
        (cyclesAt_of_acyclic hac) (fun _ _ => id) fun _ _ => id
    rw [hpos]
    have hs := sound_blocked hp
      (hac₂.acyclic id (fun _ _ => False.elim) fun _ => False.elim) hbl hpos'
    exact ⟨⟨hs.graphInv, hs.complete, .nil⟩, fun _ => hs.acyclic⟩

/-- **Each step of the driver keeps the invariant.** -/
theorem Sane.step {s s' : Exploration} (h : Sane s) (hs : Explores env s s') : Sane s' := by
  cases hs with
  | run hext =>
    obtain ⟨h₁, h₂⟩ := (h.execs _ List.mem_cons_self).run (h.running rfl _ rfl) hext
    exact h.cons h₁ fun _ => h₂
  | stop => exact ⟨h.execs, fun hr => absurd hr Bool.false_ne_true⟩
  | pop =>
    exact ⟨fun x hx => h.execs x (List.mem_cons_of_mem _ hx),
      fun hr => absurd hr Bool.false_ne_true⟩
  | forward hrev hv =>
    obtain ⟨h₁, h₂⟩ := (h.execs _ List.mem_cons_self).forward hrev
    exact h.cons h₁ fun hvalid => h₂ (hv hvalid)
  | backward hg₁ hw hcan hrev hv =>
    obtain ⟨h₁, h₂, h₃⟩ := (h.execs _ List.mem_cons_self).backward hg₁ hw hcan hrev
    have hold : Sane ⟨false, _ :: _⟩ := h.cons h₁ fun hr => absurd hr Bool.false_ne_true
    refine ⟨fun x hx => ?_, fun hvalid x hx => ?_⟩
    · rcases List.mem_cons.1 hx with rfl | hx
      · exact h₂
      · exact hold.execs x hx
    · obtain rfl := Option.some.inj hx
      exact h₃ (hv hvalid)

theorem sane_init : Sane Exploration.init := by
  refine ⟨fun x hx => ?_, fun _ x hx => ?_⟩
  · obtain rfl := List.mem_singleton.1 hx
    exact ⟨sound_init.graphInv, sound_init.complete, .nil⟩
  · obtain rfl := Option.some.inj hx
    exact sound_init.acyclic

theorem sane_of_explores {s : Exploration}
    (h : ReflTransGen (Explores env) Exploration.init s) : Sane s := by
  induction h with
  | refl => exact sane_init
  | tail _ hstep ih => exact ih.step hstep

/-- **The driver is sound**: whenever it runs the program, its graph is sequentially consistent, and
the labels of the graph can be performed one after the other. -/
theorem consistent_of_explores {s : Exploration} {x : Execution} {execs : List Execution}
    (h : ReflTransGen (Explores env) Exploration.init s) (hrun : s = ⟨true, x :: execs⟩) :
    isConsistentGraph x.graph = some true ∧ ∃ l, Interleaving x.graph l := by
  obtain ⟨hg, hc, -⟩ := (sane_of_explores h).execs x (by rw [hrun]; exact List.mem_cons_self)
  have hac := (sane_of_explores h).running (by rw [hrun]) x (by rw [hrun]; rfl)
  have hcons := (hg.isConsistentGraph_iff hc).2 hac
  refine ⟨hcons, ?_⟩
  rw [isConsistentGraph_eq_some_true_iff hg.searchable] at hcons
  exact (acyclic_iff_exists_interleaving hg.searchable (hg.executed hc)).1 hcons

/-- The main thread creates a thread and writes `x`, and the thread writes `x`, too. -/
def bothWrite : ExecutionGraph :=
  ((((ExecutionGraph.init.afterCreation ⟨0, 1⟩).addLabelToGraph
    { kind := .Write, pos := ⟨0, 2⟩ }).addCo ⟨0, 2⟩ Event.getInit 0).addLabelToGraph
      { kind := .Write, pos := ⟨1, 1⟩ }).addCo ⟨1, 1⟩ ⟨0, 2⟩ 0

/-- The main thread reads `x` and writes `y`. -/
def readAndWriteOther : ExecutionGraph :=
  (((bothWrite.addLabelToGraph { kind := .Read, pos := ⟨0, 3⟩ }).findConsistentRf ⟨0, 3⟩ ⟨0, 2⟩
    [⟨1, 1⟩]).1.addLabelToGraph { kind := .Write, pos := ⟨0, 4⟩, addr := 8 }).addCo ⟨0, 4⟩
      Event.getInit 8

/-- The created thread reads `y`. -/
def bothRead : ExecutionGraph :=
  ((readAndWriteOther.addLabelToGraph { kind := .Read, pos := ⟨1, 2⟩, addr := 8 }).findConsistentRf
    ⟨1, 2⟩ Event.getInit [⟨0, 4⟩]).1

/-- The graph after the second revisit of the example. -/
def readsOther : ExecutionGraph :=
  (bothRead.restrict (bothRead.stampAt ⟨1, 2⟩)).setRf ⟨1, 2⟩ (some ⟨0, 4⟩)

/-- The main thread reads from the first write it finds, and the created thread first from the
initializer.  The last revisit is taken up. -/
theorem explores_readsOther (env : Environment) :
    ReflTransGen (Explores env) Exploration.init ⟨true, [⟨readsOther,
      [.read ⟨0, 3⟩ ⟨1, 1⟩, .write ⟨1, 1⟩ Event.getInit]⟩]⟩ := by
  have hc : RunStep env ExecutionGraph.init (ExecutionGraph.init.afterCreation ⟨0, 1⟩) [] :=
    @RunStep.createThread env ExecutionGraph.init (creationAt ⟨0, 1⟩) none _
      ⟨⟨by decide, by decide, by decide, rfl⟩, rfl, rfl, rfl, rfl⟩ rfl rfl
  have hw := @RunStep.store env (ExecutionGraph.init.afterCreation ⟨0, 1⟩)
    { kind := .Write, pos := ⟨0, 2⟩ } [] []
    ⟨⟨by decide, by decide, by decide, rfl⟩, rfl, rfl, rfl, rfl⟩ rfl
    fun _ h => absurd h List.not_mem_nil
  have hw' : RunStep env _ bothWrite [.write ⟨1, 1⟩ Event.getInit] :=
    @RunStep.store env ((((ExecutionGraph.init.afterCreation ⟨0, 1⟩).addLabelToGraph
      { kind := .Write, pos := ⟨0, 2⟩ }).addCo ⟨0, 2⟩ Event.getInit 0))
      { kind := .Write, pos := ⟨1, 1⟩ } [Event.getInit] []
      ⟨⟨by decide, by decide, by decide, rfl⟩, rfl, rfl, rfl, rfl⟩ rfl
      fun _ h => absurd h List.not_mem_nil
  have hr := @RunStep.load env bothWrite { kind := .Read, pos := ⟨0, 3⟩ } ⟨0, 2⟩ [⟨1, 1⟩]
    ⟨⟨by decide, by decide, by decide, rfl⟩, rfl, rfl, rfl, rfl⟩ rfl (fun v hv => by
      rcases List.mem_cons.1 hv with rfl | hv
      · exact .inr ⟨_, rfl, rfl, rfl⟩
      · obtain rfl := List.mem_singleton.1 hv
        exact .inr ⟨_, rfl, rfl, rfl⟩) (by decide)
  have hleft : ((bothWrite.addLabelToGraph { kind := .Read, pos := ⟨0, 3⟩ }).findConsistentRf
      ⟨0, 3⟩ ⟨0, 2⟩ [⟨1, 1⟩]).2 = [⟨1, 1⟩] := by decide
  have hy : RunStep env _ readAndWriteOther [] :=
    @RunStep.store env _ { kind := .Write, pos := ⟨0, 4⟩, addr := 8 } [] []
      ⟨⟨by decide, by decide, by decide, rfl⟩, rfl, rfl, rfl, rfl⟩ rfl
      fun _ h => absurd h List.not_mem_nil
  have hr' := @RunStep.load env readAndWriteOther { kind := .Read, pos := ⟨1, 2⟩, addr := 8 }
    Event.getInit [⟨0, 4⟩]
    ⟨⟨by decide, by decide, by decide, rfl⟩, rfl, rfl, rfl, rfl⟩ rfl (fun v hv => by
      rcases List.mem_cons.1 hv with rfl | hv
      · exact .inl rfl
      · obtain rfl := List.mem_singleton.1 hv
        exact .inr ⟨_, rfl, rfl, rfl⟩) (by decide)
  have hleft' : ((readAndWriteOther.addLabelToGraph
      { kind := .Read, pos := ⟨1, 2⟩, addr := 8 }).findConsistentRf
        ⟨1, 2⟩ Event.getInit [⟨0, 4⟩]).2 = [⟨0, 4⟩] := by decide
  simp only [hleft, hleft', List.map_cons, List.map_nil] at hr hr'
  have hrun : ReflTransGen (Explores env) Exploration.init ⟨false, [⟨bothRead,
      [.read ⟨1, 2⟩ ⟨0, 4⟩, .read ⟨0, 3⟩ ⟨1, 1⟩, .write ⟨1, 1⟩ Event.getInit]⟩]⟩ :=
    ((((((ReflTransGen.single (@Explores.run env _ _ [] _ [] hc)).tail (.run hw)).tail
      (.run hw')).tail (.run hr)).tail (.run hy)).tail (.run hr')).tail .stop
  -- the revisit that was left last
  have hforward : ForwardRevisits env (bothRead.restrict (bothRead.stampAt ⟨1, 2⟩))
      (.read ⟨1, 2⟩ ⟨0, 4⟩) readsOther [] := .read .plain fun _ h => absurd h List.not_mem_nil
  exact hrun.tail (@Explores.forward env _ _ _ _ [] [] true hforward fun _ => by decide)

/-- The program goes on after the revisit. -/
theorem consistent_of_explores_readsOther :
    (readsOther.getEventLabel ⟨1, 2⟩).bind (·.rf) = some ⟨0, 4⟩ ∧
      isConsistentGraph readsOther = some true ∧ ∃ l, Interleaving readsOther l := by
  have h := consistent_of_explores
    (explores_readsOther ⟨fun _ _ _ => true, fun _ _ => View.empty, fun _ _ _ => 0⟩) rfl
  exact ⟨by decide, h⟩

/-! ## The check after a revisit -/

/-- A consistent graph passes the check of any label. -/
theorem isRevisitValid_of_acyclic (hg : GraphInv g) (hc : Complete g)
    (hac : Acyclic (OrderEdge g)) (e : Event) : isRevisitValid g e = true := by
  have hvalid : ∀ {x}, (g.getEventLabel x).isSome → isExecutionValid g x = true := by
    intro x hx
    rw [isExecutionValid, Bool.or_eq_true]
    refine .inr (decide_eq_true ((hg.isConsistent_iff hc hx).2 fun y _ => hac y))
  cases he : g.getEventLabel e with
  | none => rw [isRevisitValid, he, Option.all_none]
  | some lab =>
    have hpos : lab.pos = e := hg.threaded.slots e lab he
    rw [isRevisitValid, he, Option.all_some, Bool.or_eq_true, Bool.and_eq_true]
    refine .inr ⟨hvalid (isSome_of_eq he), ?_⟩
    by_cases hrmw : lab.isRead = true ∧ g.isRMWRead lab = true
    · rw [Bool.or_eq_true]
      refine .inr (hvalid ?_)
      rw [isRMWRead, Bool.and_eq_true, poImmSucc, hpos] at hrmw
      obtain ⟨zLab, hz, -⟩ := (Option.any_eq_true _ _).1 hrmw.2.2
      exact isSome_of_eq hz
    · rw [Bool.or_eq_true, Bool.not_eq_true', ← Bool.not_eq_true, Bool.and_eq_true]
      exact .inl hrmw

/-- The graph that the driver makes when it takes up a revisit. -/
inductive TakesUp (env : Environment) (g : ExecutionGraph) : Revisit → ExecutionGraph → Prop
  | forward {i : Revisit} {g' : ExecutionGraph} {new : List Revisit}
      (h : ForwardRevisits env (g.restrict (g.stampAt i.newest)) i g' new) : TakesUp env g i g'
  | backward {g₁ g' : ExecutionGraph} {r w : Event} {sLab : EventLabel} {new : List Revisit}
      (hg₁ : g₁ = g.restrict (g.stampAt w)) (hw : g₁.getEventLabel w = some sLab)
      (hcan : CanRevisit g₁ r sLab) (h : BackwardRevisits env r sLab g₁ g' new) :
      TakesUp env g (.backward r w) g'

/-- **The check after a revisit is exact**: it looks at one or two labels, and accepts if the whole
graph is consistent, and only then.  This is so even if the revisits before were not valid, but for
a revisit that blocks a compare-and-swap. -/
theorem isRevisitValid_iff_isConsistentGraph {execs : List Execution}
    (h : ReflTransGen (Explores env) Exploration.init ⟨false, ⟨g, i :: l⟩ :: execs⟩)
    (ht : TakesUp env g i g') :
    isRevisitValid g' i.pos = true ↔ isConsistentGraph g' = some true := by
  have hsane := (sane_of_explores h).execs _ List.mem_cons_self
  obtain ⟨hg', hc', hvalid⟩ : GraphInv g' ∧ Complete g' ∧
      (isRevisitValid g' i.pos = true → Acyclic (OrderEdge g')) := by
    cases ht with
    | forward hs =>
      obtain ⟨⟨h₁, h₂, -⟩, h₃⟩ := hsane.forward hs
      refine ⟨h₁, h₂, ?_⟩
      cases hs with
      | read => exact h₃
      | write => exact h₃
      | optional => exact h₃
    | backward hg₁ hw hcan hs =>
      obtain ⟨-, ⟨h₁, h₂, -⟩, h₃⟩ := hsane.backward hg₁ hw hcan hs
      exact ⟨h₁, h₂, h₃⟩
  rw [hg'.isConsistentGraph_iff hc']
  exact ⟨hvalid, fun hac => isRevisitValid_of_acyclic hg' hc' hac i.pos⟩

/-- Two writes of a thread.  Placing the second one before the first one is found not to be
consistent. -/
theorem isRevisitValid_iff_isConsistentGraph_twoWrites :
    ∃ (env : Environment) (g g' : ExecutionGraph), TakesUp env g (.write ⟨0, 2⟩ Event.getInit) g' ∧
      isRevisitValid g' ⟨0, 2⟩ = false ∧
        (isRevisitValid g' ⟨0, 2⟩ = true ↔ isConsistentGraph g' = some true) := by
  have hw : NewLabel ExecutionGraph.init { kind := .Write, pos := ⟨0, 1⟩, value := 1 } :=
    ⟨⟨by decide, by decide, by decide, rfl⟩, rfl, rfl, rfl, rfl⟩
  have hw' : NewLabel ((ExecutionGraph.init.addLabelToGraph
      { kind := .Write, pos := ⟨0, 1⟩, value := 1 }).addCo ⟨0, 1⟩ Event.getInit 0)
        { kind := .Write, pos := ⟨0, 2⟩, value := 2 } :=
    ⟨⟨by decide, by decide, by decide, rfl⟩, rfl, rfl, rfl, rfl⟩
  have hstore := @RunStep.store ⟨fun _ _ _ => true, fun _ _ => View.empty, fun _ _ _ => 0⟩
    _ _ [] [] hw rfl fun _ h => absurd h List.not_mem_nil
  have hstore' : RunStep ⟨fun _ _ _ => true, fun _ _ => View.empty, fun _ _ _ => 0⟩ _
      ((((ExecutionGraph.init.addLabelToGraph
        { kind := .Write, pos := ⟨0, 1⟩, value := 1 }).addCo ⟨0, 1⟩ Event.getInit
          0).addLabelToGraph { kind := .Write, pos := ⟨0, 2⟩, value := 2 }).addCo ⟨0, 2⟩ ⟨0, 1⟩ 0)
      [.write ⟨0, 2⟩ Event.getInit] :=
    @RunStep.store _ _ _ [Event.getInit] [] hw' rfl fun _ h => absurd h List.not_mem_nil
  generalize hg : ((((ExecutionGraph.init.addLabelToGraph
    { kind := .Write, pos := ⟨0, 1⟩, value := 1 }).addCo ⟨0, 1⟩ Event.getInit
      0).addLabelToGraph { kind := .Write, pos := ⟨0, 2⟩, value := 2 }).addCo ⟨0, 2⟩ ⟨0, 1⟩ 0) = g
      at hstore'
  have hrun := ((ReflTransGen.single (@Explores.run _ _ _ [] _ [] hstore)).tail
    (.run hstore')).tail .stop
  obtain ⟨wLab, hw₂, haddr⟩ : ∃ wLab,
      (g.restrict (g.stampAt ⟨0, 2⟩)).getEventLabel ⟨0, 2⟩ = some wLab ∧ wLab.addr = 0 :=
    Option.map_eq_some_iff.1 (by subst hg; decide)
  have hmove : TakesUp ⟨fun _ _ _ => true, fun _ _ => View.empty, fun _ _ _ => 0⟩ g
      (.write ⟨0, 2⟩ Event.getInit)
      ((g.restrict (g.stampAt ⟨0, 2⟩)).moveCo ⟨0, 2⟩ Event.getInit wLab.addr) :=
    .forward (.write hw₂ .refl fun _ h => absurd h List.not_mem_nil)
  have hiff := isRevisitValid_iff_isConsistentGraph hrun hmove
  refine ⟨_, _, _, hmove, ?_, hiff⟩
  rw [haddr]
  subst hg
  decide

/-! ## The worklist -/

/-- **What is left to do stays possible**, whatever has been done in the meantime: a revisit is
about a read and a write of the same location, a write, or an optional block, and all of these are
still in its graph.  The revisits that are taken up later go back further. -/
theorem workqueue_wellFormed_of_explores {s : Exploration} {x : Execution}
    (h : ReflTransGen (Explores env) Exploration.init s) (hx : x ∈ s.execStack) :
    (∀ i ∈ x.workqueue, i.WellFormed x.graph) ∧
      x.workqueue.Pairwise fun i j =>
        j.newest = i.newest ∨ Before x.graph.insertionOrder j.newest i.newest :=
  ⟨((sane_of_explores h).execs x hx).worklist.wellFormed,
    ((sane_of_explores h).execs x hx).worklist.sorted⟩

/-- After two writes of `x`, and a read that takes up its second candidate: what is left is that
another read reads from the second write, and that this write comes first. -/
theorem workqueue_wellFormed_of_explores_readsOther :
    (∀ i ∈ [Revisit.read ⟨0, 3⟩ ⟨1, 1⟩, .write ⟨1, 1⟩ Event.getInit], i.WellFormed readsOther) ∧
      [Revisit.read ⟨0, 3⟩ ⟨1, 1⟩, .write ⟨1, 1⟩ Event.getInit].Pairwise fun i j =>
        j.newest = i.newest ∨ Before readsOther.insertionOrder j.newest i.newest :=
  workqueue_wellFormed_of_explores
    (explores_readsOther ⟨fun _ _ _ => true, fun _ _ => View.empty, fun _ _ _ => 0⟩)
      List.mem_cons_self

end SCChecker
end GenMC
