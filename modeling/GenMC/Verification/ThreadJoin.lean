import GenMC.Execution.LabelRemoval
import GenMC.Verification.ThreadCreation

/-!
# Joining threads

A thread that joins another one is blocked until the other has ended, and `handleThreadFinish`
relieves all threads that wait for the one that ends.  A join on the joining thread itself, or on a
thread that does not exist, is an error.  `handleThreadJoin` has a check for that, but blocks the
thread before it gets there: only the thread that is joined can have ended by then.

* `handleThreadJoin` and `handleThreadFinish` are the handlers, and `Step` a step of the driver as
  far as blocks and ends of threads are concerned.
* `JoinInv` is what steps keep.  Blocks of joins and ends of threads are the last labels of their
  threads, and no thread waits for one that has ended.
* `Shrinks` relates a graph to one from which blocks and ends have been removed, as the operations
  do that take labels away.
* `joins_iff`: the error is reported exactly when it should be, if and only if it need not be.
-/

set_option autoImplicit false

namespace GenMC

/-- A block of a join, or the end of a thread. -/
def EventLabel.IsEnding (lab : EventLabel) : Prop :=
  lab.kind = .JoinBlock ∨ lab.kind = .ThreadFinish

theorem EventLabel.IsEnding.of_kind_eq {lab lab' : EventLabel} (h : lab'.IsEnding)
    (hk : lab.kind = lab'.kind) : lab.IsEnding := by
  rwa [EventLabel.IsEnding, hk]

namespace ExecutionGraph

variable {g g' : ExecutionGraph}

/-! ## The model -/

/-- What `handleThreadJoin` returns: the thread is blocked, the join is invalid, the execution is
ignored from now on, or what the joined thread returns. -/
inductive JoinResult
  | reset
  | invalidJoin (message : String)
  | moot
  | value (v : SVal)

/-- The message of an invalid join. -/
def invalidTid (lab : EventLabel) : String :=
  "ERROR: Invalid TID in pthread_join(): " ++ toString lab.childId ++
    (if lab.childId = lab.pos.thread then " (TID cannot be the same as the calling thread)" else "")

/-- `setParentJoin`. -/
def setParentJoin (e j : Event) (g : ExecutionGraph) : ExecutionGraph :=
  g.modify e fun eLab => { eLab with parentJoin := some j }

/-- Adds a join to its thread, or a block.  Nothing is returned if the source stops, or looks for
the labels of a thread that does not exist. -/
def handleThreadJoin (exceedsBound : ExecutionGraph → Bool) (lab : EventLabel)
    (g : ExecutionGraph) : Option (JoinResult × ExecutionGraph) :=
  if g.getNumThreads ≤ lab.childId then none
  else if !(g.getLastThreadLabel lab.childId).any (·.kind = .ThreadFinish) then
    some (.reset, g.blockThread { kind := .JoinBlock, pos := lab.pos, childId := lab.childId })
  else
    let g₁ := g.addLabelToGraph lab
    match (g₁.getLastThreadLabel lab.childId).filter (·.kind = .ThreadFinish) with
    | none => none
    | some eLab =>
      let g₂ := g₁.setParentJoin eLab.pos lab.pos
      if g₂.getNumThreads ≤ lab.childId ∨ lab.childId = lab.pos.thread then
        some (.invalidJoin (invalidTid lab), g₂)
      else if exceedsBound g₂ then some (.moot, g₂)
      else some (.value eLab.value, g₂)

/-- Unblocks thread `i` if it waits for thread `c`. -/
def relieve (c : ℕ) (g : ExecutionGraph) (i : ℕ) : Option ExecutionGraph :=
  match (g.getLastThreadLabel i).filter (·.kind = .JoinBlock) with
  | none => some g
  | some pLab => if pLab.childId = c then g.unblockThread pLab.pos else some g

/-- Adds the end of a thread, and unblocks the threads that wait for it. -/
def handleThreadFinish (eLab : EventLabel) (g : ExecutionGraph) : Option ExecutionGraph :=
  let g₁ := g.addLabelToGraph eLab
  (List.range g₁.getNumThreads).foldlM (relieve eLab.pos.thread) g₁

/-- The thread of a label that is added is not blocked, and has not ended. -/
structure Issued (g : ExecutionGraph) (lab : EventLabel) : Prop extends Added g lab where
  running : ∀ l, g.getLastThreadLabel lab.pos.thread = some l → l.isTerminator = false

/-- One step of the driver as far as blocks and ends of threads are concerned.  `removeLast` is also
what unblocks a thread, and `change` covers all that happens to references between labels.

A copy files the clone of a label under the thread the label was created for, so `copyGraphUpTo`
is only meaningful on a graph whose labels sit in their own slots. -/
inductive JoinStep (exceedsBound : ExecutionGraph → Bool) (g : ExecutionGraph) :
    ExecutionGraph → Prop
  | addLabel {lab : EventLabel} (h : Issued g lab) (hk : ¬ lab.IsEnding) :
      JoinStep exceedsBound g (g.addLabelToGraph lab)
  | createThread {g' : ExecutionGraph} {tcLab : EventLabel} {symm : Option ℕ} (h : Issued g tcLab)
      (hk : tcLab.kind = .ThreadCreate) (hstep : g.handleThreadCreate tcLab symm = some g') :
      JoinStep exceedsBound g g'
  | join {g' : ExecutionGraph} {lab : EventLabel} {r : JoinResult} (h : Issued g lab)
      (hk : lab.kind = .ThreadJoin) (hstep : g.handleThreadJoin exceedsBound lab = some (r, g')) :
      JoinStep exceedsBound g g'
  | finish {g' : ExecutionGraph} {eLab : EventLabel} (h : Issued g eLab)
      (hk : eLab.kind = .ThreadFinish) (hstep : g.handleThreadFinish eLab = some g') :
      JoinStep exceedsBound g g'
  | block {bLab : EventLabel} (h : Issued g bLab) (hb : bLab.isBlock = true)
      (hk : bLab.kind ≠ .JoinBlock) : JoinStep exceedsBound g (g.blockThread bLab)
  | replace {bLab l : EventLabel} (hlast : g.getLastThreadLabel bLab.pos.thread = some l)
      (hpos : l.pos = bLab.pos) (hi : 0 < bLab.pos.index) (hb : bLab.isBlock = true)
      (hk : bLab.kind ≠ .JoinBlock) : JoinStep exceedsBound g (g.blockThread bLab)
  | removeLast (t : ℕ) : JoinStep exceedsBound g (g.removeLast t)
  | change {g' : ExecutionGraph} (f : EventLabel → EventLabel)
      (hf : ∀ lab, (f lab).pos = lab.pos ∧ (f lab).kind = lab.kind ∧
        (f lab).childId = lab.childId ∧ (f lab).stamp = lab.stamp)
      (h : ∀ e, g'.getEventLabel e = (g.getEventLabel e).map f) : JoinStep exceedsBound g g'
  | cutToStamp (stamp : ℕ) : JoinStep exceedsBound g (g.cutToStamp stamp)
  | copyGraphUpTo (v : View) (hs : g.Slots) : JoinStep exceedsBound g (g.copyGraphUpTo v)

/-- The graphs reached from the graph that has only the initializer. -/
def JoinReaches (exceedsBound : ExecutionGraph → Bool) (g : ExecutionGraph) : Prop :=
  Relation.ReflTransGen (JoinStep exceedsBound) init g

/-- No thread waits for one that has ended. -/
def Unstuck (g : ExecutionGraph) : Prop :=
  ∀ t lab lab', g.getLastThreadLabel t = some lab → lab.kind = .JoinBlock →
    g.getLastThreadLabel lab.childId = some lab' → lab'.kind ≠ .ThreadFinish

/-! ## The invariant -/

/-- Blocks of joins and ends of threads come last. -/
structure EndInv (g : ExecutionGraph) : Prop where
  seated : g.Seated
  stamped : g.Stamped
  last : ∀ e lab, g.getEventLabel e = some lab → lab.IsEnding →
    0 < e.index ∧ g.getEventLabel e.next = none

/-- No thread waits for one that has ended. -/
structure JoinInv (g : ExecutionGraph) : Prop extends EndInv g where
  apart : ∀ e e' lab lab', g.getEventLabel e = some lab → lab.kind = .JoinBlock →
    g.getEventLabel e' = some lab' → lab'.kind = .ThreadFinish → lab.childId ≠ e'.thread

/-- Nothing is in `g'` that was not in `g`, begins apart. -/
structure Shrinks (g g' : ExecutionGraph) : Prop where
  seated : g'.Seated
  stamped : g'.Stamped
  label : ∀ e lab', 0 < e.index → g'.getEventLabel e = some lab' → ∃ lab,
    g.getEventLabel e = some lab ∧ lab.kind = lab'.kind ∧ lab.childId = lab'.childId
  begins : ∀ t lab', g'.getEventLabel ⟨t, 0⟩ = some lab' → lab'.IsEnding →
    ∃ t₀ lab, g.getEventLabel ⟨t₀, 0⟩ = some lab ∧ lab.kind = lab'.kind

/-- A label is the last one of its thread if there is none after it. -/
theorem getLastThreadLabel_of_next {e : Event} {lab : EventLabel}
    (hlab : g.getEventLabel e = some lab) (hnext : g.getEventLabel e.next = none) :
    g.getLastThreadLabel e.thread = some lab := by
  have hlt := lt_getThreadSize_of_getEventLabel hlab
  have hge : g.getThreadSize e.thread ≤ e.index + 1 := by
    by_contra hlt'
    rw [not_le] at hlt'
    rw [getEventLabel, List.getElem?_eq_none_iff] at hnext
    exact absurd hlt' (not_lt.2 hnext)
  have hi : g.getThreadSize e.thread - 1 = e.index := by omega
  rw [getLastThreadLabel_eq_some]
  exact ⟨by omega, by rw [hi]; exact hlab⟩

theorem JoinInv.unstuck (h : JoinInv g) : Unstuck g := by
  intro t lab lab' hlab hk hlab' hk'
  obtain ⟨-, h1⟩ := getLastThreadLabel_eq_some.1 hlab
  obtain ⟨-, h2⟩ := getLastThreadLabel_eq_some.1 hlab'
  exact h.apart _ _ lab lab' h1 hk h2 hk' rfl

/-- A label that is still there, if it is a block of a join or the end of a thread. -/
theorem EndInv.label_of_shrinks (h : EndInv g) (hs : Shrinks g g') {e : Event} {lab' : EventLabel}
    (hlab' : g'.getEventLabel e = some lab') (hend : lab'.IsEnding) : 0 < e.index ∧ ∃ lab,
      g.getEventLabel e = some lab ∧ lab.kind = lab'.kind ∧ lab.childId = lab'.childId := by
  have hi : 0 < e.index := by
    by_contra h0
    obtain ⟨t, i⟩ := e
    obtain rfl : i = 0 := Nat.eq_zero_of_not_pos h0
    obtain ⟨t₀, lab, hlab, hk⟩ := hs.begins t lab' hlab' hend
    exact lt_irrefl _ (h.last _ _ hlab (hend.of_kind_eq hk)).1
  exact ⟨hi, hs.label e lab' hi hlab'⟩

theorem EndInv.shrink (h : EndInv g) (hs : Shrinks g g') : EndInv g' := by
  refine ⟨hs.seated, hs.stamped, fun e lab' hlab' hend => ?_⟩
  obtain ⟨hi, lab, hlab, hk, -⟩ := h.label_of_shrinks hs hlab' hend
  refine ⟨hi, ?_⟩
  by_contra hne
  obtain ⟨lab₁, hlab₁⟩ := Option.ne_none_iff_exists'.1 hne
  obtain ⟨lab₂, hlab₂, -⟩ := hs.label e.next lab₁ (Nat.succ_pos _) hlab₁
  rw [(h.last e lab hlab (hend.of_kind_eq hk)).2] at hlab₂
  cases hlab₂

/-- **Labels may be taken away.** -/
theorem JoinInv.shrink (h : JoinInv g) (hs : Shrinks g g') : JoinInv g' := by
  refine ⟨h.toEndInv.shrink hs, fun e e' lab₁ lab₁' hlab₁ hk hlab₁' hk' => ?_⟩
  obtain ⟨-, lab, hlab, hk₁, hc⟩ := h.label_of_shrinks hs hlab₁ (.inl hk)
  obtain ⟨-, lab', hlab', hk₂, -⟩ := h.label_of_shrinks hs hlab₁' (.inr hk')
  rw [← hc]
  exact h.apart e e' lab lab' hlab (hk₁.trans hk) hlab' (hk₂.trans hk')

theorem EndInv.shrinks_refl (h : EndInv g) : Shrinks g g :=
  ⟨h.seated, h.stamped, fun _ lab _ hlab => ⟨lab, hlab, rfl, rfl⟩,
    fun t lab hlab _ => ⟨t, lab, hlab, rfl⟩⟩

theorem Shrinks.trans {g₁ g₂ : ExecutionGraph} (h : Shrinks g g₁) (h' : Shrinks g₁ g₂) :
    Shrinks g g₂ := by
  refine ⟨h'.seated, h'.stamped, fun e lab₂ hi h2 => ?_, fun t lab₂ h2 hend => ?_⟩
  · obtain ⟨lab₁, h1, hk₁, hc₁⟩ := h'.label e lab₂ hi h2
    obtain ⟨lab, h0, hk, hc⟩ := h.label e lab₁ hi h1
    exact ⟨lab, h0, hk.trans hk₁, hc.trans hc₁⟩
  · obtain ⟨t₁, lab₁, h1, hk₁⟩ := h'.begins t lab₂ h2 hend
    obtain ⟨t₀, lab, h0, hk⟩ := h.begins t₁ lab₁ h1 (hend.of_kind_eq hk₁)
    exact ⟨t₀, lab, h0, hk.trans hk₁⟩

/-! ## Operations that take labels away -/

/-- Labels are changed, and some of them removed. -/
theorem EndInv.shrinks_of_same (h : EndInv g)
    (hlabel : ∀ e lab', g'.getEventLabel e = some lab' → ∃ lab, g.getEventLabel e = some lab ∧
      lab'.pos = lab.pos ∧ lab'.kind = lab.kind ∧ lab'.childId = lab.childId ∧
        lab'.stamp = lab.stamp) : Shrinks g g' := by
  refine ⟨fun e lab' h' => ?_, fun e lab' h' => ?_, fun e lab' _ h' => ?_, fun t lab' h' _ => ?_⟩
  · obtain ⟨lab, hlab, hpos, -⟩ := hlabel e lab' h'
    rw [hpos]
    exact h.seated e lab hlab
  · obtain ⟨lab, hlab, -, -, -, hst⟩ := hlabel e lab' h'
    rw [hst]
    exact h.stamped e lab hlab
  · obtain ⟨lab, hlab, -, hk, hc, -⟩ := hlabel e lab' h'
    exact ⟨lab, hlab, hk.symm, hc.symm⟩
  · obtain ⟨lab, hlab, -, hk, -⟩ := hlabel _ lab' h'
    exact ⟨t, lab, hlab, hk.symm⟩

theorem EndInv.shrinks_removeLast (h : EndInv g) (t : ℕ) : Shrinks g (g.removeLast t) := by
  cases hlast : g.getLastThreadLabel t with
  | none =>
    rw [ExecutionGraph.removeLast, hlast]
    exact h.shrinks_refl
  | some lab =>
    refine h.shrinks_of_same fun e lab' h' => ?_
    rw [getEventLabel_removeLast_eq hlast] at h'
    split at h'
    · cases h'
    · obtain ⟨r, hr, rfl⟩ := Option.map_eq_some_iff.1 h'
      exact ⟨r, hr, rfl, rfl, rfl, rfl⟩

theorem EndInv.shrinks_cutToStamp (h : EndInv g) (stamp : ℕ) :
    Shrinks g (g.cutToStamp stamp) := by
  obtain ⟨io, hget⟩ := getEventLabel_cutToStamp h.seated stamp
  have hsome : ∀ e lab', 0 < e.index → (g.cutToStamp stamp).getEventLabel e = some lab' → ∃ lab,
      g.getEventLabel e = some lab ∧
        lab' = restampLabel io 0 (dropPointers (g.getViewFromStamp stamp) lab) := by
    intro e lab' hi h'
    rw [hget e hi] at h'
    split at h'
    · obtain ⟨lab, hlab, rfl⟩ := Option.map_eq_some_iff.1 h'
      exact ⟨lab, hlab, rfl⟩
    · cases h'
  refine ⟨h.seated.cutToStamp stamp, fun e lab' h' => ?_, fun e lab' hi h' => ?_,
    fun t lab' h' _ => ?_⟩
  · obtain ⟨t, i⟩ := e
    rcases Nat.eq_zero_or_pos i with rfl | hi
    · obtain ⟨t₀, lab, hlab, -, hst⟩ := begin_cutToStamp h.seated stamp h'
      exact hst (h.stamped _ lab hlab)
    · obtain ⟨lab, hlab, rfl⟩ := hsome _ lab' hi h'
      exact restamp_isSome (h.stamped _ lab hlab)
  · obtain ⟨lab, hlab, rfl⟩ := hsome e lab' hi h'
    exact ⟨lab, hlab, rfl, rfl⟩
  · obtain ⟨t₀, lab, hlab, hk, -⟩ := begin_cutToStamp h.seated stamp h'
    exact ⟨t₀, lab, hlab, hk.symm⟩

/-- What the copy has above the begins. -/
theorem label_copyGraphUpTo (hs : g.Slots) (hst : g.Stamped) (v : View) {e : Event}
    {lab' : EventLabel} (hi : 0 < e.index) (h' : (g.copyGraphUpTo v).getEventLabel e = some lab') :
    ∃ lab, g.getEventLabel e = some lab ∧ lab.kind = lab'.kind ∧ lab.childId = lab'.childId ∧
      lab'.stamp.isSome := by
  rw [copyGraphUpTo_eq] at h'
  change ((g.orderedCopy v).mapLabels _).getEventLabel e = _ at h'
  rw [getEventLabel_mapLabels, getEventLabel_orderedCopy,
    getEventLabel_cleanedCopy hs hst v hi] at h'
  split at h'
  · obtain ⟨lab₂, h2, rfl⟩ := Option.map_eq_some_iff.1 h'
    obtain ⟨lab₁, h1, rfl⟩ := Option.map_eq_some_iff.1 h2
    obtain ⟨lab, hlab, rfl⟩ := Option.map_eq_some_iff.1 h1
    refine ⟨lab, hlab, ?_⟩
    have hstamp : (restamp (g.copiedOrder (g.cleanedCopy v)) 0 lab.pos lab.stamp).isSome :=
      restamp_isSome (hst e lab hlab)
    split
    · exact ⟨rfl, rfl, hstamp⟩
    · exact ⟨rfl, rfl, hstamp⟩
  · cases h'

theorem EndInv.shrinks_copyGraphUpTo (h : EndInv g) (hs : g.Slots) (v : View) :
    Shrinks g (g.copyGraphUpTo v) := by
  refine ⟨seated_copyGraphUpTo hs h.stamped v, fun e lab' h' => ?_, fun e lab' hi h' => ?_,
    fun t lab' h' hend => ?_⟩
  · obtain ⟨t, i⟩ := e
    rcases Nat.eq_zero_or_pos i with rfl | hi
    · exact (begin_copyGraphUpTo hs h.stamped v h').2
    · obtain ⟨-, -, -, -, hst⟩ := label_copyGraphUpTo hs h.stamped v hi h'
      exact hst
  · obtain ⟨lab, hlab, hk, hc, -⟩ := label_copyGraphUpTo hs h.stamped v hi h'
    exact ⟨lab, hlab, hk, hc⟩
  · rcases (begin_copyGraphUpTo hs h.stamped v h').1 with hk | ⟨t₀, lab, hlab, hk⟩
    · rw [EventLabel.IsEnding, hk] at hend
      simp at hend
    · exact ⟨t₀, lab, hlab, hk.symm⟩

/-! ## Adding labels -/

section Add

variable {lab : EventLabel} (ht : lab.pos.thread < g.getNumThreads)
  (hi : lab.pos.index = g.getThreadSize lab.pos.thread)
include ht hi

/-- A label of the graph with one more label. -/
theorem label_addLabelToGraph (hs : g.Seated) {e : Event} {l : EventLabel}
    (hl : (g.addLabelToGraph lab).getEventLabel e = some l) :
    (e = lab.pos ∧ l.kind = lab.kind ∧ l.childId = lab.childId ∧ l.stamp.isSome) ∨
      g.getEventLabel e = some l := by
  rw [getEventLabel_addLabelToGraph hs ht hi] at hl
  split at hl
  · rename_i he
    obtain rfl := Option.some.inj hl
    refine .inl ⟨he, ?_⟩
    rw [stampLabel]
    split
    · rename_i hst
      exact ⟨rfl, rfl, hst⟩
    · exact ⟨rfl, rfl, rfl⟩
  · exact .inr hl

variable (hrun : ∀ l, g.getLastThreadLabel lab.pos.thread = some l → ¬ l.IsEnding)
  (hbegun : lab.IsEnding → 0 < lab.pos.index)
include hrun hbegun

/-- A label is added to a thread that goes on. -/
theorem EndInv.add (h : EndInv g) : EndInv (g.addLabelToGraph lab) := by
  have hget := getEventLabel_addLabelToGraph h.seated ht hi
  have hnext : g.getEventLabel lab.pos.next = none :=
    getEventLabel_of_index_ge (by
      show g.getThreadSize lab.pos.thread ≤ lab.pos.index + 1
      omega)
  refine ⟨h.seated.addLabelToGraph ht hi, fun e l hl => ?_, fun e l hl hend => ?_⟩
  · rcases label_addLabelToGraph ht hi h.seated hl with ⟨-, -, -, hst⟩ | hl
    · exact hst
    · exact h.stamped e l hl
  · rcases label_addLabelToGraph ht hi h.seated hl with ⟨rfl, hk, -⟩ | hl
    · refine ⟨hbegun (hend.of_kind_eq hk.symm), ?_⟩
      rw [hget, if_neg (fun h => by simpa [Event.next] using congrArg Event.index h), hnext]
    · obtain ⟨h1, h2⟩ := h.last e l hl hend
      refine ⟨h1, ?_⟩
      rw [hget, if_neg ?_, h2]
      -- the thread would have come to its end
      intro hpos
      have hlast := getLastThreadLabel_of_next hl h2
      exact hrun l (by rw [← hpos]; exact hlast) hend

/-- A label that is not the end of a thread is added.  If it is a block, it must not wait for a
thread that has ended. -/
theorem JoinInv.add (h : JoinInv g) (hfinish : lab.kind ≠ .ThreadFinish)
    (hblock : lab.kind = .JoinBlock → ∀ e' lab', g.getEventLabel e' = some lab' →
      lab'.kind = .ThreadFinish → lab.childId ≠ e'.thread) : JoinInv (g.addLabelToGraph lab) := by
  refine ⟨h.toEndInv.add ht hi hrun hbegun, fun e e' l l' hl hk hl' hk' => ?_⟩
  have hl' : g.getEventLabel e' = some l' := by
    refine (label_addLabelToGraph ht hi h.seated hl').resolve_left ?_
    rintro ⟨-, hk, -⟩
    exact hfinish (hk.symm.trans hk')
  rcases label_addLabelToGraph ht hi h.seated hl with ⟨-, hk₁, hc, -⟩ | hl
  · rw [hc]
    exact hblock (hk₁.symm.trans hk) e' l' hl' hk'
  · exact h.apart e e' l l' hl hk hl' hk'

end Add

theorem not_isEnding_of_not_isTerminator {lab : EventLabel} (h : lab.isTerminator = false) :
    ¬ lab.IsEnding := by
  rw [EventLabel.isTerminator] at h
  rintro (hk | hk)
  · rw [hk] at h
    cases h
  · rw [hk] at h
    cases h

theorem Issued.not_isEnding {lab : EventLabel} (h : Issued g lab) :
    ∀ l, g.getLastThreadLabel lab.pos.thread = some l → ¬ l.IsEnding :=
  fun l hl => not_isEnding_of_not_isTerminator (h.running l hl)

theorem JoinInv.addLabelToGraph (h : JoinInv g) {lab : EventLabel} (ha : Issued g lab)
    (hk : ¬ lab.IsEnding) : JoinInv (g.addLabelToGraph lab) :=
  h.add ha.thread ha.index ha.not_isEnding (fun _ => ha.begun) (fun h => hk (.inr h))
    fun h => absurd (.inl h) hk

/-- A block that is not put over another label. -/
theorem blockThread_eq_add (hs : g.Seated) {bLab : EventLabel}
    (hi : bLab.pos.index = g.getThreadSize bLab.pos.thread) :
    g.blockThread bLab = g.addLabelToGraph bLab := by
  rw [blockThread, if_neg]
  intro hany
  obtain ⟨l, hlast, hpos⟩ := (Option.any_eq_true _ _).1 hany
  obtain ⟨hsize, hl⟩ := getLastThreadLabel_eq_some.1 hlast
  have h1 := (hs _ l hl).1
  rw [of_decide_eq_true hpos] at h1
  simp only at h1
  omega

/-! ## The handlers -/

/-- The thread has not ended. -/
theorem JoinInv.not_finished (h : JoinInv g) {c : ℕ}
    (hc : (g.getLastThreadLabel c).any (·.kind = .ThreadFinish) = false) (e' : Event)
    (lab' : EventLabel) (hlab' : g.getEventLabel e' = some lab') (hk : lab'.kind = .ThreadFinish) :
    c ≠ e'.thread := by
  rintro rfl
  have hlast := getLastThreadLabel_of_next hlab' (h.last e' lab' hlab' (.inr hk)).2
  rw [hlast] at hc
  simp [hk] at hc

theorem JoinInv.handleThreadJoin (h : JoinInv g) {exceedsBound : ExecutionGraph → Bool}
    {lab : EventLabel} {r : JoinResult} (ha : Issued g lab) (hk : lab.kind = .ThreadJoin)
    (hstep : g.handleThreadJoin exceedsBound lab = some (r, g')) : JoinInv g' := by
  have hend : ¬ lab.IsEnding := by simp [EventLabel.IsEnding, hk]
  -- what becomes of the graph if the join is added
  have hadd : ∀ e, JoinInv ((g.addLabelToGraph lab).setParentJoin e lab.pos) := by
    intro e
    have h₁ := h.addLabelToGraph ha hend
    refine h₁.shrink (h₁.shrinks_of_same fun x lab' h' => ?_)
    rw [setParentJoin, getEventLabel_modify] at h'
    obtain ⟨l, hl, rfl⟩ := Option.map_eq_some_iff.1 h'
    refine ⟨l, hl, ?_⟩
    split <;> exact ⟨rfl, rfl, rfl, rfl⟩
  rw [ExecutionGraph.handleThreadJoin] at hstep
  split at hstep
  · cases hstep
  · split at hstep
    · rename_i hc
      obtain ⟨-, rfl⟩ := Prod.mk.inj (Option.some.inj hstep)
      rw [Bool.not_eq_true'] at hc
      set bLab : EventLabel := { kind := .JoinBlock, pos := lab.pos, childId := lab.childId }
      have heq : g.blockThread bLab = g.addLabelToGraph bLab := blockThread_eq_add h.seated ha.index
      rw [heq]
      exact h.add ha.thread ha.index ha.not_isEnding (fun _ => ha.begun)
        nofun fun _ => h.not_finished hc
    · simp only at hstep
      split at hstep
      · cases hstep
      · split at hstep
        · obtain ⟨-, rfl⟩ := Prod.mk.inj (Option.some.inj hstep)
          exact hadd _
        · split at hstep
          · obtain ⟨-, rfl⟩ := Prod.mk.inj (Option.some.inj hstep)
            exact hadd _
          · obtain ⟨-, rfl⟩ := Prod.mk.inj (Option.some.inj hstep)
            exact hadd _

/-- Thread `i` does not wait for thread `c` when it has been relieved. -/
theorem EndInv.relieve (h : EndInv g) {c i : ℕ} (hstep : relieve c g i = some g') :
    Shrinks g g' ∧ ∀ e lab, e.thread = i → g'.getEventLabel e = some lab →
      lab.kind = .JoinBlock → lab.childId ≠ c := by
  have hlast : ∀ {e lab}, e.thread = i → g.getEventLabel e = some lab → lab.kind = .JoinBlock →
      g.getLastThreadLabel i = some lab := by
    rintro e lab rfl hlab hk
    exact getLastThreadLabel_of_next hlab (h.last e lab hlab (.inl hk)).2
  rw [ExecutionGraph.relieve] at hstep
  split at hstep
  · rename_i hnone
    obtain rfl := Option.some.inj hstep
    refine ⟨h.shrinks_refl, fun e lab he hlab hk => ?_⟩
    rw [hlast he hlab hk] at hnone
    simp [hk] at hnone
  · rename_i pLab hsome
    obtain ⟨hp, hpk⟩ := Option.filter_eq_some_iff.1 hsome
    split at hstep
    · obtain ⟨hsize, hpe⟩ := getLastThreadLabel_eq_some.1 hp
      have hend : pLab.IsEnding := .inl (of_decide_eq_true hpk)
      have hthread : pLab.pos.thread = i := (h.seated _ pLab hpe).2 (h.last _ pLab hpe hend).1
      rw [unblockThread, hthread] at hstep
      split at hstep
      · obtain rfl := Option.some.inj hstep
        have hs := h.shrinks_removeLast i
        refine ⟨hs, fun e lab he hlab hk => ?_⟩
        -- the block that is left would have been the last label before
        obtain ⟨hi, lab₀, hlab₀, hk₀, -⟩ := h.label_of_shrinks hs hlab (.inl hk)
        obtain ⟨hsize, hl⟩ := getLastThreadLabel_eq_some.1 (hlast he hlab₀ (hk₀.trans hk))
        have hnext := (h.last e lab₀ hlab₀ (.inl (hk₀.trans hk))).2
        have hle : g.getThreadSize e.thread ≤ e.index + 1 := by
          rw [getEventLabel, List.getElem?_eq_none_iff] at hnext
          exact hnext
        have hlt := lt_getThreadSize_of_getEventLabel hlab₀
        rw [getEventLabel_removeLast_eq hp, if_pos ⟨he, by rw [← he]; omega⟩] at hlab
        cases hlab
      · cases hstep
    · rename_i hc
      obtain rfl := Option.some.inj hstep
      refine ⟨h.shrinks_refl, fun e lab he hlab hk => ?_⟩
      obtain rfl := Option.some.inj ((hlast he hlab hk).symm.trans hp)
      exact hc

/-- **Going over the threads relieves all of them.** -/
theorem EndInv.foldlM_relieve {c : ℕ} {is : List ℕ} (h : EndInv g)
    (hstep : is.foldlM (ExecutionGraph.relieve c) g = some g') :
    Shrinks g g' ∧ ∀ e lab, e.thread ∈ is → g'.getEventLabel e = some lab →
      lab.kind = .JoinBlock → lab.childId ≠ c := by
  induction is generalizing g with
  | nil =>
    obtain rfl := Option.some.inj hstep
    exact ⟨h.shrinks_refl, fun e lab he => absurd he List.not_mem_nil⟩
  | cons i is ih =>
    rw [List.foldlM_cons, Option.bind_eq_bind] at hstep
    obtain ⟨g₀, h0, hstep⟩ := Option.bind_eq_some_iff.1 hstep
    obtain ⟨hs₀, hrel⟩ := h.relieve h0
    have hg₀ := h.shrink hs₀
    obtain ⟨hs, hrest⟩ := ih hg₀ hstep
    refine ⟨hs₀.trans hs, fun e lab he hlab hk => ?_⟩
    rcases List.mem_cons.1 he with he | he
    · obtain ⟨-, lab₀, hlab₀, hk₀, hc⟩ := hg₀.label_of_shrinks hs hlab (.inl hk)
      rw [← hc]
      exact hrel e lab₀ he hlab₀ (hk₀.trans hk)
    · exact hrest e lab he hlab hk

theorem JoinInv.handleThreadFinish (h : JoinInv g) {eLab : EventLabel} (ha : Issued g eLab)
    (hkind : eLab.kind = .ThreadFinish) (hstep : g.handleThreadFinish eLab = some g') :
      JoinInv g' := by
  have h₁ := h.toEndInv.add ha.thread ha.index ha.not_isEnding fun _ => ha.begun
  obtain ⟨hs, hrel⟩ := h₁.foldlM_relieve hstep
  refine ⟨h₁.shrink hs, fun e e' lab lab' hlab hk hlab' hk' => ?_⟩
  obtain ⟨-, l, hl, hk₁, hc⟩ := h₁.label_of_shrinks hs hlab (.inl hk)
  obtain ⟨-, l', hl', hk₂, -⟩ := h₁.label_of_shrinks hs hlab' (.inr hk')
  rcases label_addLabelToGraph ha.thread ha.index h.seated hl' with ⟨rfl, -⟩ | hl'
  · exact hrel e lab (List.mem_range.2 (lt_getNumThreads_of_getEventLabel hl)) hlab hk
  · rcases label_addLabelToGraph ha.thread ha.index h.seated hl with ⟨rfl, hk₃, -⟩ | hl
    · exact absurd (hk₃.symm.trans (hk₁.trans hk)) (by rw [hkind]; decide)
    · rw [← hc]
      exact h.apart e e' l l' hl (hk₁.trans hk) hl' (hk₂.trans hk')

theorem JoinInv.handleThreadCreate (h : JoinInv g) {tcLab : EventLabel} {symm : Option ℕ}
    (ha : Issued g tcLab) (hk : tcLab.kind = .ThreadCreate)
    (hstep : g.handleThreadCreate tcLab symm = some g') : JoinInv g' := by
  rw [ExecutionGraph.handleThreadCreate] at hstep
  simp only at hstep
  split at hstep
  · rename_i hcid
    obtain rfl := Option.some.inj hstep
    set tcLab' : EventLabel := { tcLab with childId := g.findChild tcLab.pos }
    have h₁ : JoinInv (g.addLabelToGraph tcLab') :=
      h.add ha.thread ha.index ha.not_isEnding (fun _ => ha.begun)
        (by simp [tcLab', hk]) (by simp [tcLab', hk])
    set g₁ := g.addLabelToGraph tcLab' with hg₁
    have h₂ : JoinInv g₁.addNewThread := h₁.shrink (h₁.shrinks_of_same fun e lab hlab => by
      rw [getEventLabel_addNewThread] at hlab
      exact ⟨lab, hlab, rfl, rfl, rfl, rfl⟩)
    have hempty : g₁.addNewThread.events.getD (g.findChild tcLab.pos) [] = [] := by
      rw [hcid, addNewThread, getNumThreads, List.getD_eq_getElem?_getD,
        List.getElem?_concat_length]
      rfl
    have h₃ : JoinInv (g₁.addNewThread.addLabelToGraph
        { kind := .ThreadStart, pos := ⟨g.findChild tcLab.pos, 0⟩, ordering := .Acquire
          createId := tcLab.pos, create := some tcLab.pos, symmPredTid := symm }) := h₂.add
      (by
        show g.findChild tcLab.pos < (g₁.events ++ [[]]).length
        rw [hcid, getNumThreads, List.length_append]
        exact Nat.lt_succ_self _)
      (by
        show 0 = (g₁.addNewThread.events.getD (g.findChild tcLab.pos) []).length
        rw [hempty]
        rfl)
      (fun l hl => by
        rw [getLastThreadLabel, hempty] at hl
        cases hl)
      (by simp [EventLabel.IsEnding]) (by simp) (by simp)
    refine h₃.shrink (h₃.shrinks_of_same fun e lab hlab => ?_)
    obtain ⟨f, hf, heq⟩ := getEventLabel_setSymmSuccTid symm (g.findChild tcLab.pos) e
    rw [heq] at hlab
    obtain ⟨l, hl, rfl⟩ := Option.map_eq_some_iff.1 hlab
    obtain ⟨s, hs⟩ := hf l
    rw [hs]
    exact ⟨l, hl, rfl, rfl, rfl, rfl⟩
  · cases hstep

/-- A block that is put over another label. -/
theorem JoinInv.replace (h : JoinInv g) {bLab l : EventLabel}
    (hlast : g.getLastThreadLabel bLab.pos.thread = some l) (hpos : l.pos = bLab.pos)
    (hi : 0 < bLab.pos.index) (hend : ¬ bLab.IsEnding) : JoinInv (g.blockThread bLab) := by
  have h₁ := h.shrink (h.shrinks_removeLast bLab.pos.thread)
  obtain ⟨hsize, hl⟩ := getLastThreadLabel_eq_some.1 hlast
  have hindex : bLab.pos.index + 1 = g.getThreadSize bLab.pos.thread := by
    have h1 := (h.seated _ l hl).1
    rw [hpos] at h1
    simp only at h1
    omega
  have hsize' := getThreadSize_removeLast hlast
  rw [blockThread, if_pos (by rw [hlast]; simpa using hpos)]
  refine h₁.add ?_ (by omega) (fun l' hl' hend' => ?_) (fun _ => hi) (fun hk => hend (.inr hk))
    fun hk => absurd (.inl hk) hend
  · rw [getNumThreads_removeLast]
    have hlt := lt_getNumThreads_of_getEventLabel hl
    exact hlt
  · -- the label before the last one is not the last one
    obtain ⟨hpos', hl'⟩ := getLastThreadLabel_eq_some.1 hl'
    obtain ⟨-, l₀, hl₀, hk, -⟩ := h.label_of_shrinks (h.shrinks_removeLast _) hl' hend'
    have hnext := (h.last _ l₀ hl₀ (hend'.of_kind_eq hk)).2
    have hplace : (⟨bLab.pos.thread, (g.removeLast bLab.pos.thread).getThreadSize bLab.pos.thread -
        1⟩ : Event).next = ⟨bLab.pos.thread, g.getThreadSize bLab.pos.thread - 1⟩ :=
      Event.ext_iff'.2 ⟨rfl, by
        show (g.removeLast bLab.pos.thread).getThreadSize bLab.pos.thread - 1 + 1 =
          g.getThreadSize bLab.pos.thread - 1
        omega⟩
    rw [hplace, hl] at hnext
    cases hnext

/-- **A step keeps the invariant.** -/
theorem JoinInv.step (h : JoinInv g) {exceedsBound : ExecutionGraph → Bool}
    (hstep : JoinStep exceedsBound g g') : JoinInv g' := by
  have hblock : ∀ {bLab : EventLabel}, bLab.isBlock = true → bLab.kind ≠ .JoinBlock →
      ¬ bLab.IsEnding := by
    intro bLab hb hk hend
    rw [EventLabel.isBlock, hend.resolve_left hk] at hb
    cases hb
  cases hstep with
  | addLabel ha hk => exact h.addLabelToGraph ha hk
  | createThread ha hk hstep => exact h.handleThreadCreate ha hk hstep
  | join ha hk hstep => exact h.handleThreadJoin ha hk hstep
  | finish ha hk hstep => exact h.handleThreadFinish ha hk hstep
  | block ha hb hk =>
    rw [blockThread_eq_add h.seated ha.index]
    exact h.addLabelToGraph ha (hblock hb hk)
  | replace hlast hpos hi hb hk => exact h.replace hlast hpos hi (hblock hb hk)
  | removeLast t => exact h.shrink (h.shrinks_removeLast t)
  | change f hf hlabel =>
    refine h.shrink (h.shrinks_of_same fun e lab hlab => ?_)
    rw [hlabel] at hlab
    obtain ⟨l, hl, rfl⟩ := Option.map_eq_some_iff.1 hlab
    exact ⟨l, hl, hf l⟩
  | cutToStamp stamp => exact h.shrink (h.shrinks_cutToStamp stamp)
  | copyGraphUpTo v hs => exact h.shrink (h.shrinks_copyGraphUpTo hs v)

theorem joinInv_init : JoinInv init where
  seated := threadInv_init.slots.seated
  stamped := threadInv_init.stamped
  last e lab hlab hend := by
    obtain ⟨t, i⟩ := e
    match t, i, hlab with
    | 0, 0, hlab =>
      obtain rfl := Option.some.inj hlab
      exact absurd hend (by simp [EventLabel.IsEnding, initLabel, stampLabel])
    | 0, _ + 1, hlab => cases hlab
    | _ + 1, _, hlab => cases hlab
  apart e e' lab lab' hlab hk := by
    obtain ⟨t, i⟩ := e
    match t, i, hlab with
    | 0, 0, hlab =>
      obtain rfl := Option.some.inj hlab
      exact absurd hk (by decide)
    | 0, _ + 1, hlab => cases hlab
    | _ + 1, _, hlab => cases hlab

theorem joinInv_of_reaches {exceedsBound : ExecutionGraph → Bool}
    (h : JoinReaches exceedsBound g) : JoinInv g := by
  induction h with
  | refl => exact joinInv_init
  | tail _ hstep ih => exact ih.step hstep

/-! ## When joins are validated -/

/-- The id is that of another thread of the graph. -/
def JoinsOther (g : ExecutionGraph) (lab : EventLabel) : Prop :=
  lab.childId < g.getNumThreads ∧ lab.childId ≠ lab.pos.thread

/-- A thread has ended. -/
def Finished (g : ExecutionGraph) (c : ℕ) : Prop :=
  ∃ lab, g.getLastThreadLabel c = some lab ∧ lab.kind = .ThreadFinish

/-- The error is reported if and only if the id is not that of another thread, and otherwise the
joining thread is blocked if and only if the other thread has not ended. -/
def Validates (exceedsBound : ExecutionGraph → Bool) (g : ExecutionGraph) (lab : EventLabel) :
    Prop :=
  ((∃ message g', g.handleThreadJoin exceedsBound lab = some (.invalidJoin message, g')) ↔
    ¬ JoinsOther g lab) ∧
  (JoinsOther g lab → ((∃ g', g.handleThreadJoin exceedsBound lab = some (.reset, g')) ↔
    ¬ Finished g lab.childId))

section Validation

variable {exceedsBound : ExecutionGraph → Bool} {lab : EventLabel}

theorem any_finish_iff {c : ℕ} :
    (g.getLastThreadLabel c).any (·.kind = .ThreadFinish) = true ↔ Finished g c := by
  rw [Option.any_eq_true]
  simp [Finished]

/-- The thread that joins has not ended. -/
theorem Issued.not_finished (ha : Issued g lab) : ¬ Finished g lab.pos.thread := by
  rintro ⟨l, hl, hk⟩
  have hrun := ha.running l hl
  rw [EventLabel.isTerminator, hk] at hrun
  cases hrun

/-- A thread that has ended is another one. -/
theorem Issued.joinsOther (ha : Issued g lab) (hfin : Finished g lab.childId) :
    JoinsOther g lab := by
  refine ⟨?_, fun heq => ?_⟩
  · obtain ⟨l, hl, -⟩ := hfin
    obtain ⟨-, hl⟩ := getLastThreadLabel_eq_some.1 hl
    exact lt_getNumThreads_of_getEventLabel hl
  · exact ha.not_finished (heq ▸ hfin)

/-- A join on a thread that has not ended blocks. -/
theorem handleThreadJoin_of_not_finished (hlt : lab.childId < g.getNumThreads)
    (hfin : ¬ Finished g lab.childId) : g.handleThreadJoin exceedsBound lab = some (.reset,
      g.blockThread { kind := .JoinBlock, pos := lab.pos, childId := lab.childId }) := by
  rw [handleThreadJoin, if_neg (not_le.2 hlt), if_pos]
  rw [Bool.not_eq_true', ← Bool.not_eq_true]
  exact mt any_finish_iff.1 hfin

variable (exceedsBound) in
/-- A join on a thread that has ended is added. -/
theorem JoinInv.handleThreadJoin_of_finished (h : JoinInv g) (ha : Issued g lab)
    (hfin : Finished g lab.childId) : ∃ g', g.handleThreadJoin exceedsBound lab = some (.moot, g') ∨
      ∃ v, g.handleThreadJoin exceedsBound lab = some (.value v, g') := by
  obtain ⟨hlt, hne⟩ := ha.joinsOther hfin
  obtain ⟨eLab, he, hk⟩ := hfin
  have hlast : (g.addLabelToGraph lab).getLastThreadLabel lab.childId = some eLab := by
    rw [addLabelToGraph_eq h.seated ha.index, getLastThreadLabel]
    show ((g.events.modify _ _).getD lab.childId []).getLast? = some eLab
    rw [getD_modify, if_neg fun h => hne h.1]
    exact he
  have hnum : ∀ e, ((g.addLabelToGraph lab).setParentJoin e lab.pos).getNumThreads =
      g.getNumThreads := by
    intro e
    rw [setParentJoin, modify, getNumThreads_mapLabels]
    exact getNumThreads_addLabelToGraph h.seated ha.index
  have hfilter : (some eLab).filter (fun l => decide (l.kind = .ThreadFinish)) = some eLab :=
    Option.filter_some_pos (decide_eq_true hk)
  refine ⟨(g.addLabelToGraph lab).setParentJoin eLab.pos lab.pos, ?_⟩
  rw [ExecutionGraph.handleThreadJoin, if_neg (not_le.2 hlt), if_neg (by simp [he, hk])]
  simp only [hlast, hfilter, hnum, not_le.2 hlt, hne, or_self, if_false]
  split
  · exact .inl rfl
  · exact .inr ⟨_, rfl⟩

/-- **The error is never reported.** -/
theorem JoinInv.handleThreadJoin_ne (h : JoinInv g) (ha : Issued g lab) (message : String)
    (g' : ExecutionGraph) :
      g.handleThreadJoin exceedsBound lab ≠ some (.invalidJoin message, g') := by
  intro heq
  by_cases hlt : lab.childId < g.getNumThreads
  · by_cases hfin : Finished g lab.childId
    · obtain ⟨_, h' | ⟨_, h'⟩⟩ := h.handleThreadJoin_of_finished exceedsBound ha hfin
      · cases h'.symm.trans heq
      · cases h'.symm.trans heq
    · cases (handleThreadJoin_of_not_finished hlt hfin).symm.trans heq
  · rw [ExecutionGraph.handleThreadJoin, if_pos (not_lt.1 hlt)] at heq
    cases heq

end Validation

/-- **Joins are validated if and only if they are valid**: a join on an id that is not that of
another thread is never reported.  In every graph, no thread waits for one that has ended. -/
theorem joins_iff (exceedsBound : ExecutionGraph → Bool) (g : ExecutionGraph)
    (h : JoinReaches exceedsBound g) : Unstuck g ∧ ∀ lab, Issued g lab → lab.kind = .ThreadJoin →
      (Validates exceedsBound g lab ↔ JoinsOther g lab) := by
  have hinv := joinInv_of_reaches h
  refine ⟨hinv.unstuck, fun lab ha _ => ⟨fun hval => ?_, fun hother => ⟨?_, fun _ => ?_⟩⟩⟩
  · by_contra hno
    obtain ⟨message, g', heq⟩ := hval.1.2 hno
    exact hinv.handleThreadJoin_ne ha message g' heq
  · refine iff_of_false ?_ (not_not.2 hother)
    rintro ⟨message, g', heq⟩
    exact hinv.handleThreadJoin_ne ha message g' heq
  · refine ⟨?_, ?_⟩
    · rintro ⟨g', heq⟩ hfin
      obtain ⟨_, h' | ⟨_, h'⟩⟩ := hinv.handleThreadJoin_of_finished exceedsBound ha hfin
      · cases h'.symm.trans heq
      · cases h'.symm.trans heq
    · exact fun hfin => ⟨_, handleThreadJoin_of_not_finished hother.1 hfin⟩

/-- The main thread joins itself. -/
def selfJoin : EventLabel := { kind := .ThreadJoin, pos := ⟨0, 1⟩, childId := 0 }

theorem selfJoin_issued : Issued init selfJoin where
  thread := by decide
  index := by decide
  begun := by decide
  stamp := rfl
  running l hl := by
    obtain rfl := Option.some.inj hl
    rfl

/-- It is blocked. -/
theorem selfJoin_not_validates :
    JoinReaches (fun _ => false) init ∧ Issued init selfJoin ∧ selfJoin.kind = .ThreadJoin ∧
      ¬ Validates (fun _ => false) init selfJoin := by
  refine ⟨.refl, selfJoin_issued, rfl, fun hval => ?_⟩
  obtain ⟨message, g', heq⟩ := hval.1.2 fun h => h.2 rfl
  exact joinInv_init.handleThreadJoin_ne selfJoin_issued message g' heq

/-- The main thread creates a thread and waits for it. -/
def waitingParent : ExecutionGraph :=
  (afterCreation init ⟨0, 1⟩).blockThread { kind := .JoinBlock, pos := ⟨0, 2⟩, childId := 1 }

/-- The thread ends. -/
def relievedParent : ExecutionGraph :=
  (waitingParent.handleThreadFinish { kind := .ThreadFinish, pos := ⟨1, 1⟩ }).getD init

/-- A thread is running if its last label does not end it. -/
theorem issued_of_all {lab : EventLabel} (ha : Added g lab)
    (hall : (g.getLastThreadLabel lab.pos.thread).all (fun l => !l.isTerminator) = true) :
    Issued g lab where
  toAdded := ha
  running l hl := by
    rw [hl] at hall
    simpa using hall

theorem relievedParent_reaches : JoinReaches (fun _ => false) relievedParent := by
  obtain ⟨g₁, h1⟩ := Option.isSome_iff_exists.1
    (show (init.handleThreadCreate (creationAt ⟨0, 1⟩) none).isSome by decide)
  have hg₁ : init.afterCreation ⟨0, 1⟩ = g₁ := by rw [afterCreation, h1]; rfl
  have hcreate : JoinStep (fun _ => false) init (init.afterCreation ⟨0, 1⟩) :=
    .createThread (issued_of_all ⟨by decide, by decide, by decide, rfl⟩ (by decide)) rfl (hg₁ ▸ h1)
  have hissued : Issued (init.afterCreation ⟨0, 1⟩)
      { kind := .ThreadJoin, pos := ⟨0, 2⟩, childId := 1 } :=
    issued_of_all ⟨by decide, by decide, by decide, rfl⟩ (by decide)
  have hjoin : JoinStep (fun _ => false) (init.afterCreation ⟨0, 1⟩) waitingParent :=
    .join (r := .reset) hissued rfl rfl
  obtain ⟨g₂, h2⟩ := Option.isSome_iff_exists.1 (show
    (waitingParent.handleThreadFinish { kind := .ThreadFinish, pos := ⟨1, 1⟩ }).isSome by decide)
  have hg₂ : relievedParent = g₂ := by rw [relievedParent, h2]; rfl
  have hfinish : JoinStep (fun _ => false) waitingParent relievedParent :=
    .finish (issued_of_all ⟨by decide, by decide, by decide, rfl⟩ (by decide)) rfl (hg₂ ▸ h2)
  exact ((Relation.ReflTransGen.single hcreate).tail hjoin).tail hfinish

theorem joins_iff_relievedParent :
    Unstuck relievedParent ∧ ∀ lab, Issued relievedParent lab → lab.kind = .ThreadJoin →
      (Validates (fun _ => false) relievedParent lab ↔ JoinsOther relievedParent lab) :=
  joins_iff (fun _ => false) relievedParent relievedParent_reaches

end ExecutionGraph
end GenMC
