import GenMC.Execution.Readers
import GenMC.Library.ListOrder
import Mathlib.Data.List.Sort
import Mathlib.Data.List.MinMax

/-!
# Backward revisits

When a write `w` has been placed in coherence, `calcRevisits` looks for reads that are to read from
it instead, at the price of all events that were added after the read and are not in the prefix of
`w`.  Candidates are found in one of two ways (`getRevisitable`): if the coherence-maximal write
beside `w` is in the prefix of `w`, they are the readers of that write (`fastLoads`); otherwise they
are all reads of the location (`slowLoads`).  They are queued from the newest to the oldest one, up
to the first one whose revisit would delete something that was not added maximally.

* `isMaximalExtension_of_late`: a read that reads from before a write of the prefix stands in the
  way of its own revisit, and of that of every older read.
* `Placed.takeWhile_filter`: hence only readers of the previous write can be queued.
* `calcRevisitsFrom_slowLoads`: the two ways queue the same revisits, unless the reads that only the
  slow way finds are changed before they are looked at: a read whose assume has failed is revisited
  in place (`tryOptimizeIPRs`), and does not stand in the way of anything afterwards.
* `staleRead_slow_ne_fast`: the fast way leaves such a read alone, and then queues less.
-/

set_option autoImplicit false

namespace GenMC

namespace EventLabel

def getStamp (lab : EventLabel) : ℕ := lab.stamp.getD 0

def isCasRead (lab : EventLabel) : Bool := lab.kind.isCasRead

/-- Whether a write is the second half of a read-modify-write. -/
def isRMW (lab : EventLabel) : Bool := lab.kind.isCasWrite || lab.kind.isFaiWrite

def isConfirming (lab : EventLabel) : Bool :=
  lab.kind = .ConfirmingRead || lab.kind = .ConfirmingCasRead

def isSC (lab : EventLabel) : Bool := lab.ordering = .SequentiallyConsistent

/-- Whether a label was added maximally. -/
def wasAddedMaximally (lab : EventLabel) : Bool :=
  if lab.isMemAccess then lab.maximal
  else if lab.kind = .Optional then !lab.expanded
  else true

end EventLabel

/-- The options of the driver that matter here. -/
structure RevisitConfig where
  ipr : Bool
  confirmation : Bool
  disableBAM : Bool
  /-- Estimation or random mode. -/
  inSamplingMode : Bool
deriving DecidableEq, Repr

/-- What the driver asks the memory model, and the state of memory. -/
structure Environment where
  /-- Whether a write may revisit a read as far as coherence is concerned: what
  `filterCoherentRevisits` keeps. -/
  coherentRevisit : ExecutionGraph → EventLabel → Event → Bool
  calculatePrefixView : ExecutionGraph → Event → View
  /-- The value a write, or the initializer, has for an access to a location. -/
  resolveAccessValue : ExecutionGraph → Event → SAddr → SVal

/-- A revisit of a read by a newer write, and what remains of the graph. -/
structure BackwardRevisit where
  pos : Event
  rev : Event
  view : View

namespace ExecutionGraph

/-! ## Candidates -/

def poImmPred (g : ExecutionGraph) (lab : EventLabel) : Option EventLabel :=
  if lab.pos.index = 0 then none else g.getEventLabel ⟨lab.pos.thread, lab.pos.index - 1⟩

def poImmSucc (g : ExecutionGraph) (lab : EventLabel) : Option EventLabel :=
  g.getEventLabel lab.pos.next

/-- `ReadLabel::isRMW`: the read has its write. -/
def isRMWRead (g : ExecutionGraph) (rLab : EventLabel) : Bool :=
  (rLab.kind.isCasRead || rLab.kind.isFaiRead) &&
    (g.poImmSucc rLab).any fun nLab => nLab.isWrite && nLab.isRMW && nLab.addr = rLab.addr

def getMinimumStampLabel (labs : List EventLabel) : Option EventLabel :=
  labs.argmin EventLabel.getStamp

/-- The oldest write of another read-modify-write that reads from the same write as `sLab`'s. -/
def findPendingRMW (g : ExecutionGraph) (sLab : EventLabel) : Option EventLabel :=
  if !sLab.isRMW then none
  else
    match g.poImmPred sLab with
    | none => none
    | some pLab =>
      let conflicting := (g.readersOf (pLab.rf.getD Event.getInit) pLab.addr).filterMap fun r =>
        (g.getEventLabel r).filter fun rLab => g.isRMWRead rLab && rLab.pos ≠ pLab.pos
      getMinimumStampLabel (conflicting.filterMap g.poImmSucc)

/-- Erases loads in between conflicting read-modify-writes. -/
def eraseConflictingLoads (g : ExecutionGraph) (sLab : EventLabel) (loads : List Event) :
    List Event :=
  match g.findPendingRMW sLab with
  | none => loads
  | some confLab => loads.filter fun r =>
      (g.getEventLabel r).any fun eLab => eLab.getStamp ≤ confLab.getStamp

/-- A read that can be revisited by a write with some prefix. -/
def isRevisitableLoad (g : ExecutionGraph) (before : View) (r : Event) : Bool :=
  (g.getEventLabel r).any fun rLab => !rLab.isStable && !before.contains r

/-- The last write in coherence beside `sLab`. -/
def prevCoMax (g : ExecutionGraph) (sLab : EventLabel) : Option Event :=
  (g.co sLab.addr).reverse.find? fun w => w ≠ sLab.pos

/-- The fast path: the readers of one write. -/
def fastLoads (g : ExecutionGraph) (sLab : EventLabel) (prev : Event) : List Event :=
  g.eraseConflictingLoads sLab
    (((g.getEventLabel prev).map (·.readers)).getD [] |>.filter
      (g.isRevisitableLoad sLab.prefixView))

/-- The slow path: all reads of the location, from the newest to the oldest one. -/
def slowLoads (g : ExecutionGraph) (sLab : EventLabel) : List Event :=
  let older := (g.insertionOrder.takeWhile (· ≠ sLab.pos)).reverse.takeWhile (· ≠ Event.getInit)
  g.eraseConflictingLoads sLab <| older.filter fun r =>
    (g.getEventLabel r).any (fun rLab => rLab.isRead && rLab.addr = sLab.addr) &&
      g.isRevisitableLoad sLab.prefixView r

def getRevisitable (g : ExecutionGraph) (sLab : EventLabel) : List Event :=
  match g.prevCoMax sLab with
  | some prev =>
    if sLab.prefixView.contains prev then g.fastLoads sLab prev else g.slowLoads sLab
  | none => g.slowLoads sLab

/-- The stamp of the label at a position. -/
def stampAt (g : ExecutionGraph) (e : Event) : ℕ :=
  ((g.getEventLabel e).map (·.getStamp)).getD 0

/-- What `getRevisitableApproximation` makes of the candidates: those that are coherent, from the
newest to the oldest one. -/
def approximation (env : Environment) (g : ExecutionGraph) (sLab : EventLabel)
    (loads : List Event) : List Event :=
  (loads.filter (env.coherentRevisit g sLab)).insertionSort fun r r' => g.stampAt r' ≤ g.stampAt r

/-! ## Which revisits are maximal -/

def getPredsView (g : ExecutionGraph) (e : Event) : View := g.getViewFromStamp (g.stampAt e)

/-- What remains of the graph when `sLab` revisits a read. -/
def getRevisitView (g : ExecutionGraph) (r : Event) (sLab : EventLabel) : View :=
  (g.getPredsView r).update sLab.prefixView

def constructBackwardRevisit (g : ExecutionGraph) (sLab : EventLabel) (r : Event) :
    BackwardRevisit :=
  { pos := r, rev := sLab.pos, view := g.getRevisitView r sLab }

/-- Whether the access, or what it reads from, is before a write that remains. -/
def isCoBeforeSavedPrefix (g : ExecutionGraph) (br : BackwardRevisit) (lab : EventLabel) : Bool :=
  lab.isMemAccess &&
    (if lab.isRead then g.frSuccs lab else g.coSuccs lab).any fun s =>
      s ≠ br.rev && br.view.contains s

def coherenceSuccRemainInGraph (g : ExecutionGraph) (br : BackwardRevisit) : Bool :=
  (g.getEventLabel br.rev).all fun wLab =>
    wLab.isRMW ||
      match g.coSuccs wLab with
      | [] => true
      | s :: _ => br.view.contains s

def isMaximalExtension (g : ExecutionGraph) (br : BackwardRevisit) : Bool :=
  g.coherenceSuccRemainInGraph br &&
    g.labels.all fun lab =>
      (lab.pos ≠ br.pos && br.view.contains lab.pos) ||
        (lab.revisitable && lab.wasAddedMaximally && !g.isCoBeforeSavedPrefix br lab)

/-! ## Optimizations -/

/-- A read whose assume has failed, other than that of a CAS. -/
def isBlockedRead (env : Environment) (g : ExecutionGraph) (rLab : EventLabel) : Bool :=
  !rLab.isCasRead && rLab.annot.any fun annot =>
    !annot (env.resolveAccessValue g (rLab.rf.getD Event.getInit) rLab.addr)

/-- Makes a read read from a write where it is, after its thread was unblocked. -/
def revisitInPlace (env : Environment) (w : Event) (g : ExecutionGraph) (r : Event) :
    ExecutionGraph :=
  let g₁ := if (g.getEventLabel r.next).isSome then g.removeLast r.thread else g
  let g₂ := g₁.setRf r (some w)
  g₂.modify r fun rLab =>
    { rLab with prefixView := env.calculatePrefixView g₂ r, maximal := true }

/-- Whether a read stands between two conflicting read-modify-writes (and is annotated). -/
def isBetweenRMWs (g : ExecutionGraph) (sLab : EventLabel) (r : Event) : Bool :=
  (g.getEventLabel r).any fun rLab =>
    rLab.annot.isSome && rLab.rf.any fun w =>
      rLab.getStamp < g.stampAt w && !sLab.prefixView.contains w

/-- Revisits blocked reads in place, and erases some of the others. -/
def tryOptimizeIPRs (conf : RevisitConfig) (env : Environment) (g : ExecutionGraph)
    (sLab : EventLabel) (loads : List Event) : ExecutionGraph × List Event :=
  if !conf.ipr then (g, loads)
  else
    let blocked := fun r => (g.getEventLabel r).any (isBlockedRead env g)
    let g' := (loads.filter blocked).foldl (revisitInPlace env sLab.pos) g
    let loads := loads.filter fun r => !blocked r
    match g'.findPendingRMW sLab with
    | none => (g', loads)
    | some _ => (g', loads.filter fun r => !g'.isBetweenRMWs sLab r)

/-- Whether the speculation that a confirming read confirms is followed by an SC label, or is one
itself. -/
def isConfirmed (g : ExecutionGraph) (r : Event) : Bool :=
  (g.getEventLabel r).any fun rLab =>
    let before := ((g.events.getD r.thread []).take r.index).reverse
    let isMatch : EventLabel → Bool := fun lab =>
      lab.kind = .SpeculativeRead && lab.addr = rLab.addr
    (before.takeWhile fun lab => !isMatch lab).any EventLabel.isSC ||
      (before.find? isMatch).any EventLabel.isSC

/-- Does not bother with revisits that would not be confirmed. -/
def optimizeUnconfirmedRevisits (conf : RevisitConfig) (g : ExecutionGraph) (loads : List Event) :
    List Event :=
  if !conf.confirmation then loads
  else loads.filter fun r =>
    !((g.getEventLabel r).any EventLabel.isConfirming && !g.isConfirmed r)

/-- The revisits that are queued, of some candidates. -/
def calcRevisitsFrom (conf : RevisitConfig) (env : Environment) (g : ExecutionGraph)
    (sLab : EventLabel) (loads : List Event) : List BackwardRevisit :=
  -- barriers are revisited in place, whatever the candidates are
  if !conf.disableBAM && sLab.kind = .BIncFaiWrite then []
  else
    let (g', loads) := tryOptimizeIPRs conf env g sLab (approximation env g sLab loads)
    let loads := optimizeUnconfirmedRevisits conf g' loads
    if conf.inSamplingMode then []
    else (loads.map (g'.constructBackwardRevisit sLab)).takeWhile g'.isMaximalExtension

/-- The revisits that are queued when a write was placed. -/
def calcRevisits (conf : RevisitConfig) (env : Environment) (g : ExecutionGraph)
    (sLab : EventLabel) : List BackwardRevisit :=
  calcRevisitsFrom conf env g sLab (g.getRevisitable sLab)

/-! ## What is rejected -/

/-- Stamps grow along program order. -/
def PoStamps (g : ExecutionGraph) : Prop :=
  ∀ t i j lab lab', i ≤ j → g.getEventLabel ⟨t, i⟩ = some lab →
    g.getEventLabel ⟨t, j⟩ = some lab' → lab.getStamp ≤ lab'.getStamp

variable {env : Environment} {conf : RevisitConfig} {g g' : ExecutionGraph} {sLab rLab : EventLabel}
  {r r' prev : Event} {loads : List Event}

theorem stampAt_eq (h : g.getEventLabel r = some rLab) : g.stampAt r = rLab.getStamp := by
  rw [stampAt, h]
  rfl

/-- A view of the labels up to a stamp contains nothing newer. -/
theorem stampAt_le_of_contains (hpo : g.PoStamps) {stamp : ℕ} (hr : 0 < r.index)
    (h : g.getEventLabel r = some rLab) (hmem : (g.getViewFromStamp stamp).contains r = true) :
    g.stampAt r ≤ stamp := by
  rw [View.contains_iff, getViewFromStamp] at hmem
  cases hfind : (List.range (g.getThreadSize r.thread)).reverse.find? fun j =>
      (g.getEventLabel ⟨r.thread, j⟩).any fun lab => lab.stamp.any (· ≤ stamp) with
  | none =>
    simp only [hfind, Option.getD_none] at hmem
    omega
  | some j =>
    simp only [hfind, Option.getD_some] at hmem
    have hj := List.find?_some hfind
    obtain ⟨lab, hlab, hstamp⟩ := (Option.any_eq_true _ _).1 hj
    obtain ⟨s, hs, hle⟩ := (Option.any_eq_true _ _).1 hstamp
    have hlab' : lab.getStamp ≤ stamp := by
      rw [EventLabel.getStamp, hs]
      exact of_decide_eq_true hle
    rw [stampAt_eq h]
    exact (hpo r.thread r.index j rLab lab hmem h hlab).trans hlab'

/-- **A read that reads from before a write of the prefix** stands in the way of its own revisit and
of the revisit of every older read. -/
theorem isMaximalExtension_of_late (hpo : g.PoStamps) (hr : 0 < r.index)
    (h : g.getEventLabel r = some rLab) (hpos : rLab.pos = r) (hread : rLab.isRead = true)
    (hprev : prev ∈ g.frSuccs rLab) (hne : prev ≠ sLab.pos)
    (hsaved : sLab.prefixView.contains prev = true) (hout : sLab.prefixView.contains r = false)
    (hold : r' = r ∨ g.stampAt r' < g.stampAt r) :
    g.isMaximalExtension (g.constructBackwardRevisit sLab r') = false := by
  have hbefore : g.isCoBeforeSavedPrefix (g.constructBackwardRevisit sLab r') rLab = true := by
    rw [isCoBeforeSavedPrefix, EventLabel.isMemAccess_of_isRead hread, if_pos hread,
      Bool.true_and, List.any_eq_true]
    refine ⟨prev, hprev, ?_⟩
    simp only [constructBackwardRevisit, getRevisitView, View.contains_update, hsaved,
      Bool.or_true, Bool.and_true]
    exact decide_eq_true hne
  have hdeleted : (decide (rLab.pos ≠ r') &&
      (g.getRevisitView r' sLab).contains rLab.pos) = false := by
    rcases hold with rfl | hlt
    · simp [hpos]
    · rw [hpos, getRevisitView, View.contains_update, hout, Bool.or_false, Bool.and_eq_false_iff]
      refine .inr (Bool.eq_false_iff.2 fun hmem => ?_)
      have := stampAt_le_of_contains hpo hr h hmem
      omega
  rw [isMaximalExtension, Bool.and_eq_false_iff]
  refine .inr (List.all_eq_false.2 ⟨rLab, mem_labels.2 ⟨r, h⟩, ?_⟩)
  simp only [hbefore, Bool.not_true, Bool.and_false, Bool.or_false]
  rw [Bool.not_eq_true]
  exact hdeleted

/-! ## The two ways find the same readers of the previous write -/

/-- A graph in which a write has just been placed: it is the newest label, stamps are different and
grow along program order, coherence lists the writes of each location, every read reads from one of
them, and a read whose assume has failed is followed by a block at most. -/
structure Placed (env : Environment) (g : ExecutionGraph) (sLab : EventLabel) : Prop where
  inv : g.ReaderInv
  label : g.getEventLabel sLab.pos = some sLab
  write : sLab.isWrite = true
  order : g.insertionOrder.Nodup
  newest : ∃ l, g.insertionOrder = Event.getInit :: (l ++ [sLab.pos])
  po : g.PoStamps
  distinct : ∀ e e', (g.getEventLabel e).isSome → (g.getEventLabel e').isSome →
    g.stampAt e = g.stampAt e' → e = e'
  co : ∀ a w, w ∈ g.co a → ∃ lab, g.getEventLabel w = some lab ∧ lab.isWrite = true ∧ lab.addr = a
  rf : ∀ e lab, g.getEventLabel e = some lab → lab.isRead = true →
    ∃ w, lab.rf = some w ∧ (w = Event.getInit ∨ w ∈ g.co lab.addr)
  blocked : ∀ e lab nLab, g.getEventLabel e = some lab → lab.isRead = true →
    g.isBlockedRead env lab = true → g.getEventLabel e.next = some nLab →
    nLab.isBlock = true ∧ g.getEventLabel e.next.next = none

/-- Whether the read at a position reads from `prev`. -/
def readsFrom (g : ExecutionGraph) (prev r : Event) : Bool :=
  (g.getEventLabel r).any fun rLab => rLab.rf = some prev

/-- All writes after the previous one are the write itself. -/
theorem co_of_prevCoMax (h : g.prevCoMax sLab = some prev) :
    prev ≠ sLab.pos ∧ ∃ pre post, g.co sLab.addr = pre ++ prev :: post ∧
      ∀ w ∈ post, w = sLab.pos := by
  rw [prevCoMax, List.find?_eq_some_iff_append] at h
  obtain ⟨hne, as, bs, hco, has⟩ := h
  refine ⟨of_decide_eq_true hne, bs.reverse, as.reverse, ?_, fun w hw => ?_⟩
  · rw [← List.reverse_inj, hco]
    simp
  · simpa using has w (List.mem_reverse.1 hw)

/-- A read of the location that reads neither from the previous write nor from the write itself,
reads from before the previous write. -/
theorem mem_frSuccs_of_prevCoMax (h : g.prevCoMax sLab = some prev) (hread : rLab.isRead = true)
    (haddr : rLab.addr = sLab.addr) {w : Event} (hrf : rLab.rf = some w)
    (hmem : w = Event.getInit ∨ w ∈ g.co rLab.addr) (hprev : w ≠ prev) (hself : w ≠ sLab.pos) :
    prev ∈ g.frSuccs rLab := by
  obtain ⟨-, pre, post, hco, hpost⟩ := co_of_prevCoMax h
  rw [← haddr] at hco
  rw [frSuccs, if_pos hread, hrf]
  by_cases hi : w = Event.getInit
  · have hnone : (some w).filter (fun e => !e.isInitializer) = none := by
      simp [hi, Option.filter]
    rw [hnone, hco]
    simp
  · have hsome : (some w).filter (fun e => !e.isInitializer) = some w := by
      simp [hi, Option.filter, Event.isInitializer]
    rw [hsome, hco]
    -- the write is in front of the previous one
    have hpre : w ∈ pre := by
      have := hmem.resolve_left hi
      rw [hco, List.mem_append, List.mem_cons] at this
      rcases this with hpre | hprev' | hpost'
      · exact hpre
      · exact absurd hprev' hprev
      · exact absurd (hpost w hpost') hself
    have hidx : (pre ++ prev :: post).idxOf w < pre.length := by
      rw [List.idxOf_append_of_mem hpre]
      exact List.idxOf_lt_length_of_mem hpre
    simp only
    rw [List.drop_append_of_le_length hidx]
    exact List.mem_append_right _ List.mem_cons_self

/-- What comes after a read of a write comes after the write. -/
theorem frSuccs_of_rf (hread : rLab.isRead = true) (hwrite : sLab.isWrite = true)
    (haddr : rLab.addr = sLab.addr) (hne : sLab.pos ≠ Event.getInit)
    (hrf : rLab.rf = some sLab.pos) : g.frSuccs rLab = g.coSuccs sLab := by
  have hsome : (some sLab.pos).filter (fun e => !e.isInitializer) = some sLab.pos := by
    simp [hne, Option.filter, Event.isInitializer]
  rw [frSuccs, if_pos hread, hrf, hsome, coSuccs, if_pos hwrite, haddr]

theorem exists_eraseConflictingLoads (g : ExecutionGraph) (sLab : EventLabel) :
    ∃ p : Event → Bool, ∀ loads, g.eraseConflictingLoads sLab loads = loads.filter p := by
  cases hconf : g.findPendingRMW sLab with
  | none =>
    refine ⟨fun _ => true, fun loads => ?_⟩
    rw [eraseConflictingLoads, hconf, List.filter_true]
  | some confLab =>
    refine ⟨fun r => (g.getEventLabel r).any fun eLab => eLab.getStamp ≤ confLab.getStamp,
      fun loads => ?_⟩
    rw [eraseConflictingLoads, hconf]

/-- What the slow path goes over. -/
theorem Placed.older (hg : Placed env g sLab) : ∃ l : List Event,
    (g.insertionOrder.takeWhile (· ≠ sLab.pos)).reverse.takeWhile (· ≠ Event.getInit) = l ∧
      l.Nodup ∧ ∀ e, e ∈ l ↔ e ∈ g.insertionOrder ∧ e ≠ Event.getInit ∧ e ≠ sLab.pos := by
  obtain ⟨l, hl⟩ := hg.newest
  have hnodup := hg.order
  rw [hl] at hnodup
  have hinit : Event.getInit ∉ l ++ [sLab.pos] := (List.nodup_cons.1 hnodup).1
  obtain ⟨hnl, -, hw⟩ := List.nodup_append.1 (List.nodup_cons.1 hnodup).2
  have hw' : ∀ e ∈ Event.getInit :: l, e ≠ sLab.pos := by
    intro e he
    rcases List.mem_cons.1 he with rfl | he
    · exact fun hc => hinit (by simp [hc])
    · exact hw e he _ (List.mem_singleton_self _)
  have htake : g.insertionOrder.takeWhile (· ≠ sLab.pos) = Event.getInit :: l := by
    rw [hl, ← List.cons_append,
      List.takeWhile_append_of_pos (fun e he => decide_eq_true (hw' e he)),
      List.takeWhile_cons_of_neg (by simp), List.append_nil]
  refine ⟨l.reverse, ?_, List.nodup_reverse.2 hnl, fun e => ?_⟩
  · rw [htake, List.reverse_cons, List.takeWhile_append_of_pos,
      List.takeWhile_cons_of_neg (by simp), List.append_nil]
    exact fun e he => decide_eq_true fun hc => hinit (by simp [← hc, List.mem_reverse.1 he])
  · rw [hl, List.mem_reverse, List.mem_cons, List.mem_append, List.mem_singleton]
    refine ⟨fun he => ?_, ?_⟩
    · exact ⟨.inr (.inl he), fun hc => hinit (by simp [← hc, he]),
        hw' e (List.mem_cons_of_mem _ he)⟩
    · rintro ⟨he | he | he, hi, hs⟩
      · exact absurd he hi
      · exact he
      · exact absurd he hs

/-- The candidates of the slow path. -/
theorem Placed.slowLoads_spec (hg : Placed env g sLab) : (g.slowLoads sLab).Nodup ∧
    ∀ r ∈ g.slowLoads sLab, ∃ rLab, g.getEventLabel r = some rLab ∧ rLab.isRead = true ∧
      rLab.addr = sLab.addr ∧ sLab.prefixView.contains r = false := by
  obtain ⟨p, hp⟩ := exists_eraseConflictingLoads g sLab
  obtain ⟨l, hl, hnodup, -⟩ := hg.older
  rw [slowLoads, hp, hl]
  refine ⟨(hnodup.filter _).filter _, fun r hr => ?_⟩
  have hr := (List.mem_filter.1 (List.mem_filter.1 hr).1).2
  obtain ⟨hread, hrev⟩ := Bool.and_eq_true_iff.1 hr
  obtain ⟨rLab, hlab, hread⟩ := (Option.any_eq_true _ _).1 hread
  obtain ⟨rLab', hlab', hrev⟩ := (Option.any_eq_true _ _).1 hrev
  rw [Bool.and_eq_true_iff] at hread hrev
  exact ⟨rLab, hlab, hread.1, of_decide_eq_true hread.2, by simpa using hrev.2⟩

/-- **The fast path finds what the slow path finds**, as far as it reads from the previous write. -/
theorem Placed.fastLoads_perm (hg : Placed env g sLab) (hprev : g.prevCoMax sLab = some prev) :
    (g.fastLoads sLab prev).Perm ((g.slowLoads sLab).filter (g.readsFrom prev)) := by
  obtain ⟨p, hp⟩ := exists_eraseConflictingLoads g sLab
  obtain ⟨l, hl, hnodup, hmem⟩ := hg.older
  have hprevco : prev ∈ g.co sLab.addr := by
    obtain ⟨-, pre, post, hco, -⟩ := co_of_prevCoMax hprev
    simp [hco]
  obtain ⟨wLab, hwLab, hwrite, -⟩ := hg.co _ prev hprevco
  obtain ⟨hreaders, hrf⟩ := hg.inv.readers prev wLab hwLab hwrite
  rw [fastLoads, slowLoads, hp, hp, hl, hwLab, Option.map_some, Option.getD_some]
  refine (List.perm_ext_iff_of_nodup ((hreaders.filter _).filter _)
    (((hnodup.filter _).filter _).filter _)).2 fun r => ?_
  simp only [List.mem_filter, Bool.and_eq_true]
  refine ⟨?_, ?_⟩
  · rintro ⟨⟨hr, hrev⟩, hpr⟩
    obtain ⟨rLab, hlab, hread, hfrom⟩ := hrf r hr
    have hindex := hg.inv.above r rLab hlab (EventLabel.isMemAccess_of_isRead hread)
    have haddr : rLab.addr = sLab.addr := by
      obtain ⟨w, hw, hmem⟩ := hg.rf r rLab hlab hread
      obtain rfl := Option.some.inj (hfrom.symm.trans hw)
      rcases hmem with hi | hco
      · exact absurd hi (hg.inv.ne_init hwLab (EventLabel.isMemAccess_of_isWrite hwrite))
      · obtain ⟨lab, h1, -, h2⟩ := hg.co _ _ hco
        obtain ⟨lab', h1', -, h2'⟩ := hg.co _ _ hprevco
        obtain rfl := Option.some.inj (h1.symm.trans h1')
        exact h2.symm.trans h2'
    refine ⟨⟨⟨(hmem r).2 ⟨hg.inv.inserted r hindex (by rw [hlab]; rfl), ?_, ?_⟩, ?_, hrev⟩,
      hpr⟩, ?_⟩
    · rintro rfl
      exact absurd hindex (lt_irrefl _)
    · rintro rfl
      obtain rfl := Option.some.inj (hlab.symm.trans hg.label)
      have hwrite := EventLabelKind.not_isWrite_of_isRead hread
      exact absurd (hg.write.symm.trans hwrite) (by decide)
    · rw [hlab]
      simp [hread, haddr]
    · rw [readsFrom, hlab]
      exact decide_eq_true hfrom
  · rintro ⟨⟨⟨-, hread, hrev⟩, hpr⟩, hfrom⟩
    obtain ⟨rLab, hlab, hread⟩ := (Option.any_eq_true _ _).1 hread
    rw [readsFrom, hlab] at hfrom
    have hfrom : rLab.rf = some prev := of_decide_eq_true hfrom
    have hread := (Bool.and_eq_true_iff.1 hread).1
    rcases hg.inv.rf r rLab prev hlab hread hfrom with ⟨hi, -⟩ | ⟨wLab', hwLab', -, hr⟩
    · exact absurd hi (hg.inv.ne_init hwLab (EventLabel.isMemAccess_of_isWrite hwrite))
    · obtain rfl := Option.some.inj (hwLab.symm.trans hwLab')
      exact ⟨⟨hr, hrev⟩, hpr⟩

theorem mem_approximation : r ∈ approximation env g sLab loads ↔
    r ∈ loads ∧ env.coherentRevisit g sLab r = true := by
  rw [approximation, List.mem_insertionSort, List.mem_filter]

theorem pairwise_approximation (env : Environment) (g : ExecutionGraph) (sLab : EventLabel)
    (loads : List Event) :
    (approximation env g sLab loads).Pairwise fun a b => g.stampAt b ≤ g.stampAt a := by
  have : Std.Total fun a b => g.stampAt b ≤ g.stampAt a := ⟨fun a b => le_total _ _⟩
  have : IsTrans Event fun a b => g.stampAt b ≤ g.stampAt a := ⟨fun _ _ _ h h' => h'.trans h⟩
  exact List.pairwise_insertionSort _ _

/-- Candidates of the slow path, from the newest to the oldest one. -/
theorem Placed.pairwise_slowLoads (hg : Placed env g sLab) :
    (approximation env g sLab (g.slowLoads sLab)).Pairwise fun a b =>
      g.stampAt b < g.stampAt a := by
  obtain ⟨hnodup, hspec⟩ := hg.slowLoads_spec
  have hsome : ∀ r ∈ approximation env g sLab (g.slowLoads sLab), (g.getEventLabel r).isSome := by
    intro r hr
    obtain ⟨rLab, hlab, -⟩ := hspec r (mem_approximation.1 hr).1
    rw [hlab]
    rfl
  have hne : (approximation env g sLab (g.slowLoads sLab)).Nodup :=
    (List.perm_insertionSort _ _).nodup_iff.2 (hnodup.filter _)
  refine ((pairwise_approximation env g sLab _).and hne).imp_of_mem fun ha hb h => ?_
  exact lt_of_le_of_ne h.1 fun heq => h.2 (hg.distinct _ _ (hsome _ hb) (hsome _ ha) heq).symm

/-- **Sorting** keeps the relation between the two ways. -/
theorem Placed.approximation_fastLoads (hg : Placed env g sLab)
    (hprev : g.prevCoMax sLab = some prev) :
    approximation env g sLab (g.fastLoads sLab prev) =
      (approximation env g sLab (g.slowLoads sLab)).filter (g.readsFrom prev) := by
  have hperm := hg.fastLoads_perm hprev
  have hsome : ∀ r ∈ g.slowLoads sLab, (g.getEventLabel r).isSome := by
    intro r hr
    obtain ⟨rLab, hlab, -⟩ := hg.slowLoads_spec.2 r hr
    rw [hlab]
    rfl
  have hmem : ∀ r, r ∈ approximation env g sLab (g.fastLoads sLab prev) →
      r ∈ g.slowLoads sLab := by
    intro r hr
    exact (List.mem_filter.1 (hperm.subset (mem_approximation.1 hr).1)).1
  refine List.Perm.eq_of_pairwise (fun a b ha hb hab hba => ?_)
    (pairwise_approximation env g sLab _) ((pairwise_approximation env g sLab _).filter _) ?_
  · exact hg.distinct a b (hsome a (hmem a ha))
      (hsome b (mem_approximation.1 (List.mem_filter.1 hb).1).1) (le_antisymm hba hab)
  · rw [approximation, approximation]
    refine (List.perm_insertionSort _ _).trans (((hperm.filter _).trans ?_).trans
      ((List.perm_insertionSort _ _).filter _).symm)
    rw [List.filter_filter, List.filter_filter]
    exact List.Perm.of_eq (List.filter_congr fun r _ => Bool.and_comm _ _)

/-! ## In-place revisits -/

/-- What in-place revisits of some reads leave alone: coherence, and everything about labels that is
looked at here, except that blocks may be gone and that the reads read from elsewhere. -/
structure Kept (inPlace : Event → Prop) (g g' : ExecutionGraph) : Prop where
  coherence : g'.coherence = g.coherence
  back : ∀ e lab', g'.getEventLabel e = some lab' → ∃ lab, g.getEventLabel e = some lab ∧
    lab'.kind = lab.kind ∧ lab'.pos = lab.pos ∧ lab'.stamp = lab.stamp
  forth : ∀ e lab, g.getEventLabel e = some lab → lab.isBlock = false →
    ∃ lab', g'.getEventLabel e = some lab' ∧ lab'.addr = lab.addr ∧
      (¬ inPlace e → lab'.rf = lab.rf)

variable {inPlace : Event → Prop}

theorem Kept.refl (g : ExecutionGraph) : Kept inPlace g g :=
  ⟨rfl, fun _ lab h => ⟨lab, h, rfl, rfl, rfl⟩, fun _ lab h _ => ⟨lab, h, rfl, fun _ => rfl⟩⟩

theorem Kept.trans {g₁ g₂ g₃ : ExecutionGraph} (h : Kept inPlace g₁ g₂) (h' : Kept inPlace g₂ g₃) :
    Kept inPlace g₁ g₃ := by
  refine ⟨h'.coherence.trans h.coherence, fun e lab'' h'' => ?_, fun e lab hlab hb => ?_⟩
  · obtain ⟨lab', hlab', hk', hp', hs'⟩ := h'.back e lab'' h''
    obtain ⟨lab, hlab, hk, hp, hs⟩ := h.back e lab' hlab'
    exact ⟨lab, hlab, hk'.trans hk, hp'.trans hp, hs'.trans hs⟩
  · obtain ⟨lab', hlab', ha, hrf⟩ := h.forth e lab hlab hb
    have hb' : lab'.isBlock = false := by
      obtain ⟨lab₁, hlab₁, hk, -⟩ := h.back e lab' hlab'
      obtain rfl := Option.some.inj (hlab.symm.trans hlab₁)
      rw [EventLabel.isBlock, hk]
      exact hb
    obtain ⟨lab'', hlab'', ha', hrf'⟩ := h'.forth e lab' hlab' hb'
    exact ⟨lab'', hlab'', ha'.trans ha, fun hin => (hrf' hin).trans (hrf hin)⟩

/-- A read that can be revisited in place: a block may come after it, and nothing else. -/
def BlockedAt (g : ExecutionGraph) (r : Event) : Prop :=
  ∃ rLab, g.getEventLabel r = some rLab ∧ rLab.pos = r ∧ rLab.isBlock = false ∧
    ∀ nLab, g.getEventLabel r.next = some nLab →
      nLab.isBlock = true ∧ g.getEventLabel r.next.next = none

theorem Kept.blockedAt (h : Kept inPlace g g') (hr : BlockedAt g r) : BlockedAt g' r := by
  obtain ⟨rLab, hlab, hpos, hb, hnext⟩ := hr
  obtain ⟨rLab', hlab', -⟩ := h.forth r rLab hlab hb
  obtain ⟨rLab₁, hlab₁, hk, hp, -⟩ := h.back r rLab' hlab'
  obtain rfl := Option.some.inj (hlab.symm.trans hlab₁)
  refine ⟨rLab', hlab', hp.trans hpos, ?_, fun nLab' hnLab' => ?_⟩
  · rw [EventLabel.isBlock, hk]
    exact hb
  · obtain ⟨nLab, hnLab, hk', -⟩ := h.back _ nLab' hnLab'
    obtain ⟨hblock, hend⟩ := hnext nLab hnLab
    refine ⟨?_, Option.eq_none_iff_forall_ne_some.2 fun lab hlab => ?_⟩
    · rw [EventLabel.isBlock, hk']
      exact hblock
    · obtain ⟨lab₁, hlab₁, -⟩ := h.back _ lab hlab
      rw [hend] at hlab₁
      exact absurd hlab₁ (Option.some_ne_none _).symm

/-- Removing a block. -/
theorem removeLast_of_block {t : ℕ} {lab : EventLabel} (hlast : g.getLastThreadLabel t = some lab)
    (hblock : lab.isBlock = true) :
    g.removeLast t = { g with
      insertionOrder := g.insertionOrder.erase lab.pos
      events := g.events.modify t List.dropLast } := by
  have hread : lab.isRead = false := by
    revert hblock
    rw [EventLabel.isBlock, EventLabel.isRead]
    cases lab.kind <;> decide
  have hwrite : lab.isWrite = false := by
    revert hblock
    rw [EventLabel.isBlock, EventLabel.isWrite]
    cases lab.kind <;> decide
  have hmem : (lab.isMemAccess || lab.isFree) = false := by
    revert hblock
    rw [EventLabel.isBlock, EventLabel.isMemAccess, EventLabel.isFree]
    cases lab.kind <;> decide
  have hcreate : lab.kind ≠ .ThreadCreate := by
    rintro hk
    rw [EventLabel.isBlock, hk] at hblock
    exact absurd hblock (by decide)
  have hjoin : lab.kind ≠ .ThreadJoin := by
    rintro hk
    rw [EventLabel.isBlock, hk] at hblock
    exact absurd hblock (by decide)
  have hunlink : g.unlinkLabel lab = g := by
    rw [unlinkLabel, hread, hwrite]
    rfl
  rw [removeLast, hlast]
  simp only [hunlink, hmem, hcreate, hjoin, if_false, Bool.false_eq_true]

theorem kept_removeLast {t : ℕ} {lab : EventLabel} (hlast : g.getLastThreadLabel t = some lab)
    (hblock : lab.isBlock = true) : Kept inPlace g (g.removeLast t) := by
  obtain ⟨hsize, hlab⟩ := getLastThreadLabel_eq_some.1 hlast
  have hget : ∀ e, (g.removeLast t).getEventLabel e =
      if e.thread = t ∧ e.index + 1 = g.getThreadSize t then none else g.getEventLabel e := by
    intro e
    rw [removeLast_of_block hlast hblock]
    exact getElem?_modify_dropLast _ t e
  refine ⟨by rw [removeLast_of_block hlast hblock], fun e lab' h' => ?_, fun e l hl hb => ?_⟩
  · rw [hget] at h'
    split at h'
    · exact absurd h' (Option.some_ne_none _).symm
    · exact ⟨lab', h', rfl, rfl, rfl⟩
  · refine ⟨l, ?_, rfl, fun _ => rfl⟩
    rw [hget, if_neg, hl]
    rintro ⟨ht, hi⟩
    have he : e = ⟨t, g.getThreadSize t - 1⟩ := by
      rw [Event.ext_iff']
      exact ⟨ht, by simp only; omega⟩
    rw [he, hlab] at hl
    obtain rfl := Option.some.inj hl
    rw [hblock] at hb
    exact absurd hb (by decide)

theorem kept_setRf (hr : g.getEventLabel r = some rLab) (hpos : rLab.pos = r) (hin : inPlace r)
    (hseated : g.Seated) (hri : 0 < r.index) (rf : Option Event) :
    Kept inPlace g (g.setRf r rf) := by
  obtain ⟨f, hf, hf'⟩ := rewiredBy_setRf hr hpos rf
  refine ⟨coherence_setRf r rf, fun e lab' h' => ?_, fun e lab hlab _ => ?_⟩
  · rw [hf] at h'
    obtain ⟨lab, hlab, rfl⟩ := Option.map_eq_some_iff.1 h'
    exact ⟨lab, hlab, (hf' lab).kind, (hf' lab).pos, (hf' lab).stamp⟩
  · refine ⟨f lab, by rw [hf, hlab]; rfl, (hf' lab).addr, fun hne => (hf' lab).rf.trans ?_⟩
    refine if_neg fun hp => hne ?_
    have hei : 0 < e.index := by
      rw [← (hseated e lab hlab).1, hp]
      exact hri
    rw [← hseated.pos_eq hlab hei, hp]
    exact hin

theorem Kept.seated (h : Kept inPlace g g') (hs : g.Seated) : g'.Seated := by
  intro e lab' h'
  obtain ⟨lab, hlab, -, hp, -⟩ := h.back e lab' h'
  rw [hp]
  exact hs e lab hlab

theorem kept_modify (r : Event) {f : EventLabel → EventLabel}
    (hf : ∀ lab, (f lab).kind = lab.kind ∧ (f lab).pos = lab.pos ∧ (f lab).stamp = lab.stamp ∧
      (f lab).addr = lab.addr ∧ (f lab).rf = lab.rf) : Kept inPlace g (g.modify r f) := by
  have hif : ∀ lab : EventLabel, (if lab.pos = r then f lab else lab) = f lab ∨
      (if lab.pos = r then f lab else lab) = lab := by
    intro lab
    split
    · exact .inl rfl
    · exact .inr rfl
  refine ⟨rfl, fun e lab' h' => ?_, fun e lab hlab _ => ?_⟩
  · rw [getEventLabel_modify] at h'
    obtain ⟨lab, hlab, rfl⟩ := Option.map_eq_some_iff.1 h'
    refine ⟨lab, hlab, ?_⟩
    rcases hif lab with h | h
    · rw [h]
      exact ⟨(hf lab).1, (hf lab).2.1, (hf lab).2.2.1⟩
    · rw [h]
      exact ⟨rfl, rfl, rfl⟩
  · rw [getEventLabel_modify, hlab]
    refine ⟨if lab.pos = r then f lab else lab, rfl, ?_⟩
    rcases hif lab with h | h
    · rw [h]
      exact ⟨(hf lab).2.2.2.1, fun _ => (hf lab).2.2.2.2⟩
    · rw [h]
      exact ⟨rfl, fun _ => rfl⟩

/-- **One in-place revisit.** -/
theorem kept_revisitInPlace (env : Environment) (hseated : g.Seated) (hri : 0 < r.index)
    (hr : BlockedAt g r)
    (hin : inPlace r) (w : Event) : Kept inPlace g (g.revisitInPlace env w r) := by
  obtain ⟨rLab, hlab, hpos, hb, hnext⟩ := hr
  -- the block is removed
  obtain ⟨g₁, hg₁, hkept₁⟩ : ∃ g₁, (if (g.getEventLabel r.next).isSome then g.removeLast r.thread
      else g) = g₁ ∧ Kept inPlace g g₁ := by
    refine ⟨_, rfl, ?_⟩
    split
    · rename_i hsome
      obtain ⟨nLab, hnLab⟩ := Option.isSome_iff_exists.1 hsome
      obtain ⟨hblock, hend⟩ := hnext nLab hnLab
      refine kept_removeLast (getLastThreadLabel_eq_some.2 ?_) hblock
      have hsize : g.getThreadSize r.thread = r.index + 2 := by
        have hlt : r.index + 1 < g.getThreadSize r.thread := by
          obtain ⟨h, -⟩ := List.getElem?_eq_some_iff.1 hnLab
          exact h
        have hge : g.getThreadSize r.thread ≤ r.index + 2 := List.getElem?_eq_none_iff.1 hend
        omega
      rw [hsize]
      exact ⟨by omega, hnLab⟩
    · exact Kept.refl g
  obtain ⟨rLab₁, hlab₁, -, -⟩ := hkept₁.forth r rLab hlab hb
  have hseated₁ := hkept₁.seated hseated
  have hkept₂ := kept_setRf hlab₁ (hseated₁.pos_eq hlab₁ hri) hin hseated₁ hri (some w)
  rw [revisitInPlace]
  simp only [hg₁]
  exact (hkept₁.trans hkept₂).trans (kept_modify r fun _ => ⟨rfl, rfl, rfl, rfl, rfl⟩)

/-- **All in-place revisits.** -/
theorem kept_foldl_revisitInPlace (hseated : g.Seated) (w : Event) {rs : List Event}
    (hrs : ∀ r ∈ rs, 0 < r.index ∧ BlockedAt g r ∧ inPlace r) :
    Kept inPlace g (rs.foldl (revisitInPlace env w) g) := by
  induction rs generalizing g with
  | nil => exact Kept.refl g
  | cons r rs ih =>
    obtain ⟨hri, hr, hin⟩ := hrs r List.mem_cons_self
    have hkept := kept_revisitInPlace env hseated hri hr hin w
    refine hkept.trans (ih (hkept.seated hseated) fun r' hr' => ?_)
    obtain ⟨hri', hr', hin'⟩ := hrs r' (List.mem_cons_of_mem r hr')
    exact ⟨hri', hkept.blockedAt hr', hin'⟩

theorem Kept.poStamps (h : Kept inPlace g g') (hpo : g.PoStamps) : g'.PoStamps := by
  intro t i j lab₁ lab₂ hij h₁ h₂
  obtain ⟨lab, hlab, -, -, hs⟩ := h.back _ lab₁ h₁
  obtain ⟨lab', hlab', -, -, hs'⟩ := h.back _ lab₂ h₂
  rw [EventLabel.getStamp, hs, EventLabel.getStamp, hs']
  exact hpo t i j lab lab' hij hlab hlab'

theorem Kept.stampAt (h : Kept inPlace g g') (hr : g.getEventLabel r = some rLab)
    (hb : rLab.isBlock = false) : g'.stampAt r = g.stampAt r := by
  obtain ⟨rLab', hr', -⟩ := h.forth r rLab hr hb
  obtain ⟨lab, hlab, -, -, hs⟩ := h.back r rLab' hr'
  rw [stampAt_eq hr', stampAt_eq hlab, EventLabel.getStamp, EventLabel.getStamp, hs]

theorem not_isBlock_of_isRead (h : rLab.isRead = true) : rLab.isBlock = false := by
  revert h
  rw [EventLabel.isRead, EventLabel.isBlock]
  cases rLab.kind <;> decide

/-- **Reads from before the previous write are rejected**, before and after in-place revisits of
other reads, and so are older ones. -/
theorem Placed.isMaximalExtension_of_late (hg : Placed env g sLab)
    (hprev : g.prevCoMax sLab = some prev) (hsaved : sLab.prefixView.contains prev = true)
    (hkept : Kept inPlace g g') (hr : r ∈ g.slowLoads sLab) (hrf : g.readsFrom prev r = false)
    (hself : g.readsFrom sLab.pos r = true → prev ∈ g.coSuccs sLab) (hin : ¬ inPlace r)
    (hold : r' = r ∨ r' ∈ g.slowLoads sLab ∧ g.stampAt r' < g.stampAt r) :
    g'.isMaximalExtension (g'.constructBackwardRevisit sLab r') = false := by
  obtain ⟨rLab, hlab, hread, haddr, hout⟩ := hg.slowLoads_spec.2 r hr
  have hindex := hg.inv.above r rLab hlab (EventLabel.isMemAccess_of_isRead hread)
  obtain ⟨w, hw, hmem⟩ := hg.rf r rLab hlab hread
  have hne : w ≠ prev := by
    rintro rfl
    rw [readsFrom, hlab] at hrf
    exact absurd hw (of_decide_eq_false hrf)
  have hsucc : prev ∈ g.frSuccs rLab := by
    by_cases hw' : w = sLab.pos
    · -- the write was put before the previous one after it had been read
      subst hw'
      rw [frSuccs_of_rf hread hg.write haddr
        (hg.inv.ne_init hg.label (EventLabel.isMemAccess_of_isWrite hg.write)) hw]
      refine hself ?_
      rw [readsFrom, hlab]
      exact decide_eq_true hw
    · exact mem_frSuccs_of_prevCoMax hprev hread haddr hw hmem hne hw'
  have hb := not_isBlock_of_isRead hread
  -- the read is the same after the in-place revisits
  obtain ⟨rLab', hlab', haddr', hrf'⟩ := hkept.forth r rLab hlab hb
  obtain ⟨lab, hlab₁, hkind, hpos, -⟩ := hkept.back r rLab' hlab'
  obtain rfl := Option.some.inj (hlab.symm.trans hlab₁)
  have hread' : rLab'.isRead = true := by
    rw [EventLabel.isRead, hkind]
    exact hread
  have hsucc' : prev ∈ g'.frSuccs rLab' := by
    rw [frSuccs, if_pos hread', hrf' hin, haddr', ExecutionGraph.co, hkept.coherence]
    rw [frSuccs, if_pos hread] at hsucc
    exact hsucc
  refine ExecutionGraph.isMaximalExtension_of_late (hkept.poStamps hg.po) hindex hlab'
    (hpos.trans (hg.inv.seated.pos_eq hlab hindex)) hread' hsucc' (co_of_prevCoMax hprev).1 hsaved
    hout (hold.imp id ?_)
  rintro ⟨hr', hlt⟩
  obtain ⟨lab', hlab', hread', -⟩ := hg.slowLoads_spec.2 r' hr'
  rw [hkept.stampAt hlab' (not_isBlock_of_isRead hread'), hkept.stampAt hlab hb]
  exact hlt

/-! ## The two ways queue the same revisits -/

/-- In-place revisits are the same for a part of the candidates that has all blocked ones. -/
theorem tryOptimizeIPRs_filter (sLab : EventLabel) {q : Event → Bool}
    (hq : conf.ipr = true → ∀ r ∈ loads,
      (g.getEventLabel r).any (isBlockedRead env g) = true → q r = true) :
    tryOptimizeIPRs conf env g sLab (loads.filter q) =
      ((tryOptimizeIPRs conf env g sLab loads).1,
        (tryOptimizeIPRs conf env g sLab loads).2.filter q) := by
  have hcomm : ∀ (l : List Event) (p : Event → Bool),
      (l.filter q).filter p = (l.filter p).filter q := by
    intro l p
    rw [List.filter_filter, List.filter_filter]
    exact List.filter_congr fun r _ => Bool.and_comm _ _
  rw [tryOptimizeIPRs, tryOptimizeIPRs]
  split
  · rfl
  · rename_i hipr
    have hipr : conf.ipr = true := by simpa using hipr
    have hblocked : (loads.filter q).filter (fun r =>
        (g.getEventLabel r).any (isBlockedRead env g)) = loads.filter fun r =>
          (g.getEventLabel r).any (isBlockedRead env g) := by
      rw [List.filter_filter]
      refine List.filter_congr fun r hr => ?_
      cases hb : (g.getEventLabel r).any (isBlockedRead env g) with
      | true => rw [hq hipr r hr hb, Bool.and_true]
      | false => rw [Bool.false_and]
    simp only [hblocked, hcomm]
    split
    · rfl
    · rfl

theorem optimizeUnconfirmedRevisits_filter {q : Event → Bool} :
    optimizeUnconfirmedRevisits conf g (loads.filter q) =
      (optimizeUnconfirmedRevisits conf g loads).filter q := by
  rw [optimizeUnconfirmedRevisits, optimizeUnconfirmedRevisits]
  split
  · rfl
  · rw [List.filter_filter, List.filter_filter]
    exact List.filter_congr fun r _ => Bool.and_comm _ _

theorem sublist_optimizeUnconfirmedRevisits (conf : RevisitConfig) (g : ExecutionGraph)
    (loads : List Event) : (optimizeUnconfirmedRevisits conf g loads).Sublist loads := by
  rw [optimizeUnconfirmedRevisits]
  split
  · exact List.Sublist.refl _
  · exact List.filter_sublist

theorem optimizeUnconfirmedRevisits_nil : optimizeUnconfirmedRevisits conf g [] = [] :=
  List.sublist_nil.1 (sublist_optimizeUnconfirmedRevisits conf g [])

/-- Blocked reads, if these are revisited in place. -/
def InPlace (conf : RevisitConfig) (env : Environment) (g : ExecutionGraph) (r : Event) : Prop :=
  conf.ipr = true ∧ (g.getEventLabel r).any (isBlockedRead env g) = true

/-- Whether a candidate for a revisit is revisited in place. -/
def isRevisitedInPlace (conf : RevisitConfig) (env : Environment) (g : ExecutionGraph)
    (sLab : EventLabel) (r : Event) : Bool :=
  conf.ipr && (conf.disableBAM || sLab.kind ≠ .BIncFaiWrite) && env.coherentRevisit g sLab r &&
    (g.getEventLabel r).any (isBlockedRead env g)

theorem Placed.kept_tryOptimizeIPRs (conf : RevisitConfig) (hg : Placed env g sLab)
    (hloads : ∀ r ∈ loads, r ∈ g.slowLoads sLab) :
    Kept (InPlace conf env g) g (tryOptimizeIPRs conf env g sLab loads).1 ∧
      (tryOptimizeIPRs conf env g sLab loads).2.Sublist loads := by
  rw [tryOptimizeIPRs]
  split
  · exact ⟨Kept.refl g, List.Sublist.refl _⟩
  · rename_i hipr
    have hkept : Kept (InPlace conf env g) g ((loads.filter fun r =>
        (g.getEventLabel r).any (isBlockedRead env g)).foldl (revisitInPlace env sLab.pos) g) := by
      refine kept_foldl_revisitInPlace hg.inv.seated sLab.pos fun r hr => ?_
      obtain ⟨hr, hb⟩ := List.mem_filter.1 hr
      obtain ⟨rLab, hlab, hread, -⟩ := hg.slowLoads_spec.2 r (hloads r hr)
      have hindex := hg.inv.above r rLab hlab (EventLabel.isMemAccess_of_isRead hread)
      refine ⟨hindex, ⟨rLab, hlab, hg.inv.seated.pos_eq hlab hindex, not_isBlock_of_isRead hread,
        fun nLab hnLab => ?_⟩, by simpa using hipr, hb⟩
      rw [hlab] at hb
      exact hg.blocked r rLab nLab hlab hread hb hnLab
    simp only
    split
    · exact ⟨hkept, List.filter_sublist⟩
    · exact ⟨hkept, List.filter_sublist.trans List.filter_sublist⟩

theorem calcRevisits_eq_fast (conf : RevisitConfig) (hprev : g.prevCoMax sLab = some prev)
    (hsaved : sLab.prefixView.contains prev = true) : calcRevisits conf env g sLab =
      calcRevisitsFrom conf env g sLab (g.fastLoads sLab prev) := by
  rw [calcRevisits, getRevisitable, hprev]
  simp only [hsaved, if_true]

/-- What is left after in-place revisits was not revisited. -/
theorem not_inPlace_of_mem_tryOptimizeIPRs (h : r ∈ (tryOptimizeIPRs conf env g sLab loads).2) :
    ¬ InPlace conf env g r := by
  rintro ⟨hipr, hb⟩
  have hunblocked : r ∈ loads.filter fun r => !(g.getEventLabel r).any (isBlockedRead env g) := by
    rw [tryOptimizeIPRs, hipr] at h
    simp only [Bool.not_true, Bool.false_eq_true, if_false] at h
    split at h
    · exact h
    · exact (List.mem_filter.1 h).1
  have hno := (List.mem_filter.1 hunblocked).2
  rw [hb] at hno
  exact Bool.noConfusion hno

/-- Whatever is revisited in place, **of the reads that are left only those of the previous write
can be queued**: one that reads from before it is rejected, and so is everything after it. -/
theorem Placed.takeWhile_filter (hg : Placed env g sLab) (hprev : g.prevCoMax sLab = some prev)
    (hsaved : sLab.prefixView.contains prev = true)
    (hself : ∀ r ∈ g.slowLoads sLab, g.readsFrom prev r = false →
      g.readsFrom sLab.pos r = true → prev ∈ g.coSuccs sLab)
    (hkept : Kept inPlace g g')
    (hrest : loads.Sublist (approximation env g sLab (g.slowLoads sLab)))
    (hstay : ∀ r ∈ loads, ¬ inPlace r) :
    ((loads.filter (g.readsFrom prev)).map (g'.constructBackwardRevisit sLab)).takeWhile
        g'.isMaximalExtension =
      (loads.map (g'.constructBackwardRevisit sLab)).takeWhile g'.isMaximalExtension := by
  have hslow : ∀ r ∈ loads, r ∈ g.slowLoads sLab :=
    fun r hr => (mem_approximation.1 (hrest.subset hr)).1
  have hlate : ∀ x ∈ loads, g.readsFrom prev x = false → ∀ r', r' = x ∨
      r' ∈ g.slowLoads sLab ∧ g.stampAt r' < g.stampAt x →
        g'.isMaximalExtension (g'.constructBackwardRevisit sLab r') = false :=
    fun x hx hrf r' hold => hg.isMaximalExtension_of_late hprev hsaved hkept (hslow x hx) hrf
      (hself x (hslow x hx) hrf) (hstay x hx) hold
  have hsorted : loads.Pairwise fun x y => g.readsFrom prev x = false →
      g'.isMaximalExtension (g'.constructBackwardRevisit sLab y) = false := by
    refine (hg.pairwise_slowLoads.sublist hrest).imp_of_mem fun hx hy hlt hrf => ?_
    exact hlate _ hx hrf _ (.inr ⟨hslow _ hy, hlt⟩)
  rw [List.takeWhile_map, List.takeWhile_map]
  congr 1
  exact ListOrder.takeWhile_filter_of_stops
    (fun x hx hrf => hlate x hx hrf x (.inl rfl)) hsorted

/-- If all reads of some kind are revisited in place, none of them is left, with or without the
others. -/
theorem Placed.filter_tryOptimizeIPRs (hg : Placed env g sLab) {P : Event → Bool}
    (hslow : ∀ r ∈ loads, r ∈ g.slowLoads sLab)
    (hall : ∀ r ∈ loads, P r = true → InPlace conf env g r) :
    (tryOptimizeIPRs conf env g sLab loads).2.filter P = [] ∧
      (tryOptimizeIPRs conf env g sLab (loads.filter P)).2 = [] := by
  refine ⟨List.filter_eq_nil_iff.2 fun r hr hP => ?_,
    List.eq_nil_iff_forall_not_mem.2 fun r hr => ?_⟩
  · have hmem := (hg.kept_tryOptimizeIPRs conf hslow).2.subset hr
    exact not_inPlace_of_mem_tryOptimizeIPRs hr (hall r hmem hP)
  · have hmem := List.mem_filter.1 ((hg.kept_tryOptimizeIPRs conf fun r hr =>
      hslow r (List.mem_filter.1 hr).1).2.subset hr)
    exact not_inPlace_of_mem_tryOptimizeIPRs hr (hall r hmem.1 hmem.2)

/-- **The two ways queue the same revisits.**  The reads that only the slow path finds are rejected,
unless they read already from the write although that is the last one in coherence.  What is queued
is the same if none of them is revisited in place, or if nothing would be queued anyway: in sampling
mode, and if the fast path revisits all its candidates in place. -/
theorem calcRevisitsFrom_slowLoads (conf : RevisitConfig) (hg : Placed env g sLab)
    (hprev : g.prevCoMax sLab = some prev) (hsaved : sLab.prefixView.contains prev = true)
    (hself : ∀ r ∈ g.slowLoads sLab, r ∉ g.fastLoads sLab prev →
      g.readsFrom sLab.pos r = true → prev ∈ g.coSuccs sLab)
    (homitted : conf.inSamplingMode = true ∨
      (∀ r ∈ g.fastLoads sLab prev, env.coherentRevisit g sLab r = true →
        isRevisitedInPlace conf env g sLab r = true) ∨
      ∀ r ∈ g.slowLoads sLab, r ∉ g.fastLoads sLab prev →
        isRevisitedInPlace conf env g sLab r = false) :
    (∀ r ∈ g.slowLoads sLab, r ∉ g.fastLoads sLab prev →
      g.isMaximalExtension (g.constructBackwardRevisit sLab r) = false) ∧
    calcRevisitsFrom conf env g sLab (g.slowLoads sLab) = calcRevisits conf env g sLab := by
  have hfast : ∀ r ∈ g.slowLoads sLab, r ∉ g.fastLoads sLab prev ↔ g.readsFrom prev r = false := by
    intro r hr
    rw [(hg.fastLoads_perm hprev).mem_iff, List.mem_filter, Bool.eq_false_iff]
    exact ⟨fun h hf => h ⟨hr, hf⟩, fun h hf => h hf.2⟩
  have hself' : ∀ r ∈ g.slowLoads sLab, g.readsFrom prev r = false →
      g.readsFrom sLab.pos r = true → prev ∈ g.coSuccs sLab :=
    fun r hr hrf => hself r hr ((hfast r hr).2 hrf)
  refine ⟨fun r hr hnot => ?_, ?_⟩
  · exact hg.isMaximalExtension_of_late hprev hsaved (Kept.refl g : Kept (fun _ => False) g g)
      hr ((hfast r hr).1 hnot) (hself r hr hnot) id (.inl rfl)
  · set loads := approximation env g sLab (g.slowLoads sLab) with hloads
    have hslow : ∀ r ∈ loads, r ∈ g.slowLoads sLab := by
      intro r hr
      exact (mem_approximation.1 hr).1
    rw [calcRevisits_eq_fast conf hprev hsaved, calcRevisitsFrom, calcRevisitsFrom,
      hg.approximation_fastLoads hprev, ← hloads]
    split
    · rfl
    · rename_i hbarrier
      have hbarrier : (conf.disableBAM || decide (sLab.kind ≠ .BIncFaiWrite)) = true := by
        cases hb : conf.disableBAM with
        | true => rfl
        | false => simpa [hb] using hbarrier
      have hinPlace : ∀ r ∈ loads, isRevisitedInPlace conf env g sLab r = true ↔
          InPlace conf env g r := by
        intro r hr
        rw [isRevisitedInPlace, hbarrier, (mem_approximation.1 hr).2, Bool.and_true, Bool.and_true,
          Bool.and_eq_true]
        rfl
      cases hsampling : conf.inSamplingMode with
      | true => simp only [if_true]
      | false =>
        simp only [Bool.false_eq_true, if_false]
        obtain ⟨hkept, hsub⟩ := hg.kept_tryOptimizeIPRs conf hslow
        -- the slow path queues readers of the previous write only
        have hqueue := hg.takeWhile_filter hprev hsaved hself' hkept
          ((sublist_optimizeUnconfirmedRevisits conf
            (tryOptimizeIPRs conf env g sLab loads).1 _).trans hsub)
          fun r hr => not_inPlace_of_mem_tryOptimizeIPRs
            ((sublist_optimizeUnconfirmedRevisits _ _ _).subset hr)
        rw [← hqueue, ← optimizeUnconfirmedRevisits_filter]
        rcases homitted with h | h | h
        · rw [hsampling] at h
          cases h
        · -- all of these are revisited in place, by both paths
          have hall : ∀ r ∈ loads, g.readsFrom prev r = true → InPlace conf env g r := by
            intro r hr hrf
            obtain ⟨hrs, hcoh⟩ := mem_approximation.1 hr
            exact (hinPlace r hr).1 (h r (by
              rw [(hg.fastLoads_perm hprev).mem_iff, List.mem_filter]
              exact ⟨hrs, hrf⟩) hcoh)
          obtain ⟨hslowNil, hfastNil⟩ := hg.filter_tryOptimizeIPRs hslow hall
          rw [hslowNil, hfastNil]
          simp only [optimizeUnconfirmedRevisits_nil, List.map_nil, List.takeWhile_nil]
        · -- reads that only the slow path finds are not revisited in place
          rw [tryOptimizeIPRs_filter sLab fun hipr r hr hb => by_contra fun hrf =>
            Bool.eq_false_iff.1 (h r (hslow r hr) ((hfast r (hslow r hr)).2
              (Bool.eq_false_iff.2 hrf))) ((hinPlace r hr).2 ⟨hipr, hb⟩)]

/-- The value of a write as it is, and everything in coherence allowed. -/
def plainEnvironment : Environment where
  coherentRevisit _ _ _ := true
  calculatePrefixView g e :=
    match g.getEventLabel e with
    | none => View.empty
    | some lab =>
      let before := ((g.poImmPred lab).map (·.prefixView)).getD View.empty
      let source := ((lab.rf.bind g.getEventLabel).map (·.prefixView)).getD View.empty
      (before.update source).updateIdx e
  resolveAccessValue g w _ := ((g.getEventLabel w).map (·.value)).getD 0

/-- A write of ten to `x`, by a thread that has written one to `x` and then waited for `y`. -/
def lastWrite : EventLabel :=
  { kind := .Write, pos := ⟨1, 3⟩, stamp := some 16, addr := 7, value := 10
    prefixView := ⟨fun t => if t = 0 then 4 else if t = 1 then 3 else if t = 4 then 2 else 0⟩ }

/-- The fourth thread writes two to `x`, in coherence before the write of one, and then to `y`.  The
second thread has read one, and the third one has waited for ten and read two. -/
def staleRead : ExecutionGraph where
  events :=
    [[{ kind := .Init, pos := ⟨0, 0⟩, stamp := some 0 },
      { kind := .ThreadCreate, pos := ⟨0, 1⟩, stamp := some 1, childId := 1 },
      { kind := .ThreadCreate, pos := ⟨0, 2⟩, stamp := some 3, childId := 2 },
      { kind := .ThreadCreate, pos := ⟨0, 3⟩, stamp := some 5, childId := 3 },
      { kind := .ThreadCreate, pos := ⟨0, 4⟩, stamp := some 7, childId := 4 }],
     [{ kind := .ThreadStart, pos := ⟨1, 0⟩, stamp := some 2, create := some ⟨0, 1⟩ },
      { kind := .Write, pos := ⟨1, 1⟩, stamp := some 9, addr := 7, value := 1
        readers := [⟨2, 1⟩] },
      { kind := .Read, pos := ⟨1, 2⟩, stamp := some 10, addr := 8, rf := some ⟨4, 2⟩ },
      lastWrite],
     [{ kind := .ThreadStart, pos := ⟨2, 0⟩, stamp := some 4, create := some ⟨0, 2⟩ },
      { kind := .Read, pos := ⟨2, 1⟩, stamp := some 11, addr := 7, rf := some ⟨1, 1⟩ }],
     [{ kind := .ThreadStart, pos := ⟨3, 0⟩, stamp := some 6, create := some ⟨0, 3⟩ },
      { kind := .Read, pos := ⟨3, 1⟩, stamp := some 12, addr := 7, rf := some ⟨4, 1⟩
        annot := some fun v => v = 10 },
      { kind := .UserBlock, pos := ⟨3, 2⟩, stamp := some 14 }],
     [{ kind := .ThreadStart, pos := ⟨4, 0⟩, stamp := some 8, create := some ⟨0, 4⟩ },
      { kind := .Write, pos := ⟨4, 1⟩, stamp := some 13, addr := 7, value := 2, maximal := false
        readers := [⟨3, 1⟩] },
      { kind := .Write, pos := ⟨4, 2⟩, stamp := some 15, addr := 8, value := 1
        readers := [⟨1, 2⟩] }]]
  insertionOrder :=
    [⟨0, 0⟩, ⟨0, 1⟩, ⟨1, 0⟩, ⟨0, 2⟩, ⟨2, 0⟩, ⟨0, 3⟩, ⟨3, 0⟩, ⟨0, 4⟩, ⟨4, 0⟩, ⟨1, 1⟩, ⟨1, 2⟩,
      ⟨2, 1⟩, ⟨3, 1⟩, ⟨4, 1⟩, ⟨3, 2⟩, ⟨4, 2⟩, ⟨1, 3⟩]
  timestamp := 17
  coherence := fun a =>
    if a = 7 then some [⟨4, 1⟩, ⟨1, 1⟩, ⟨1, 3⟩] else if a = 8 then some [⟨4, 2⟩] else none
  initRfs := fun _ => none
  accessMap := fun a =>
    if a = 7 then some [⟨1, 1⟩, ⟨2, 1⟩, ⟨3, 1⟩, ⟨4, 1⟩, ⟨1, 3⟩]
    else if a = 8 then some [⟨1, 2⟩, ⟨4, 2⟩] else none
  initVals := fun _ => none

theorem staleRead_readerInv : staleRead.ReaderInv where
  seated := forall_label_iff.2 (by decide)
  stamped := forall_label_iff.2 (by decide)
  inserted e _ he := by
    have h : ∀ e ∈ staleRead.positions, e ∈ staleRead.insertionOrder := by decide
    exact h e (mem_positions.2 he)
  above := by
    have h := (forall_label_iff (g := staleRead) (p := fun e lab => lab.isMemAccess = true →
      0 < e.index)).2 (by decide)
    exact h
  tracked := by
    have h := (forall_label_iff (g := staleRead) (p := fun _ lab => lab.isMemAccess = true →
      (staleRead.coherence lab.addr).isSome)).2 (by decide)
    exact h
  rf := by
    have h := (forall_label_iff (g := staleRead) (p := fun r rLab => rLab.isRead = true →
      ∀ w ∈ rLab.rf, ∃ wLab ∈ staleRead.getEventLabel w, wLab.isWrite = true ∧
        r ∈ wLab.readers)).2 (by decide)
    intro r rLab w hlab hread hw
    exact .inr (h r rLab hlab hread w hw)
  readers := by
    have h := (forall_label_iff (g := staleRead) (p := fun w wLab => wLab.isWrite = true →
      wLab.readers.Nodup ∧ ∀ r ∈ wLab.readers, ∃ rLab ∈ staleRead.getEventLabel r,
        rLab.isRead = true ∧ rLab.rf = some w)).2 (by decide)
    exact h
  initReaders a := ⟨List.nodup_nil, fun r hr => absurd hr List.not_mem_nil⟩

theorem staleRead_placed : Placed plainEnvironment staleRead lastWrite where
  inv := staleRead_readerInv
  label := rfl
  write := rfl
  order := by decide
  newest := ⟨[⟨0, 1⟩, ⟨1, 0⟩, ⟨0, 2⟩, ⟨2, 0⟩, ⟨0, 3⟩, ⟨3, 0⟩, ⟨0, 4⟩, ⟨4, 0⟩, ⟨1, 1⟩, ⟨1, 2⟩,
    ⟨2, 1⟩, ⟨3, 1⟩, ⟨4, 1⟩, ⟨3, 2⟩, ⟨4, 2⟩], rfl⟩
  po := by
    have h : ∀ e ∈ staleRead.positions, ∀ e' ∈ staleRead.positions, e.thread = e'.thread →
        e.index ≤ e'.index → staleRead.stampAt e ≤ staleRead.stampAt e' := by decide
    intro t i j lab lab' hij hlab hlab'
    have := h ⟨t, i⟩ (mem_positions.2 (by rw [hlab]; rfl)) ⟨t, j⟩
      (mem_positions.2 (by rw [hlab']; rfl)) rfl hij
    rwa [stampAt_eq hlab, stampAt_eq hlab'] at this
  distinct := by
    have h : ∀ e ∈ staleRead.positions, ∀ e' ∈ staleRead.positions,
        staleRead.stampAt e = staleRead.stampAt e' → e = e' := by decide
    exact fun e e' he he' => h e (mem_positions.2 he) e' (mem_positions.2 he')
  co a w hw := by
    have h : ∀ w ∈ staleRead.co 7, ∃ lab ∈ staleRead.getEventLabel w,
        lab.isWrite = true ∧ lab.addr = 7 := by decide
    have h' : ∀ w ∈ staleRead.co 8, ∃ lab ∈ staleRead.getEventLabel w,
        lab.isWrite = true ∧ lab.addr = 8 := by decide
    by_cases ha : a = 7
    · rw [ha] at hw ⊢
      exact h w hw
    · by_cases ha' : a = 8
      · rw [ha'] at hw ⊢
        exact h' w hw
      · simp [ExecutionGraph.co, staleRead, ha, ha'] at hw
  rf := by
    have h := (forall_label_iff (g := staleRead) (p := fun _ lab => lab.isRead = true →
      ∃ w ∈ lab.rf, w = Event.getInit ∨ w ∈ staleRead.co lab.addr)).2 (by decide)
    exact h
  blocked := by
    have h := (forall_label_iff (g := staleRead) (p := fun e lab => lab.isRead = true →
      staleRead.isBlockedRead plainEnvironment lab = true →
      (∀ nLab ∈ staleRead.getEventLabel e.next, nLab.isBlock = true ∧
        (staleRead.getEventLabel e.next.next).isNone))).2 (by decide)
    intro e lab nLab hlab hread hb hnext
    obtain ⟨h1, h2⟩ := h e lab hlab hread hb nLab hnext
    exact ⟨h1, Option.isNone_iff_eq_none.1 h2⟩

/-- Without in-place revisits, the third thread's read is in the way whichever path is taken. -/
theorem staleRead_slow_eq_fast :
    ⟨3, 1⟩ ∈ staleRead.slowLoads lastWrite ∧ ⟨3, 1⟩ ∉ staleRead.fastLoads lastWrite ⟨1, 1⟩ ∧
      calcRevisitsFrom ⟨false, true, false, false⟩ plainEnvironment staleRead lastWrite
          (staleRead.slowLoads lastWrite) =
        calcRevisits ⟨false, true, false, false⟩ plainEnvironment staleRead lastWrite :=
  ⟨by decide, by decide,
    (calcRevisitsFrom_slowLoads _ staleRead_placed
      (show staleRead.prevCoMax lastWrite = some ⟨1, 1⟩ by decide) (by decide) (by decide)
      (.inr (.inr (by decide)))).2⟩

/-- **With in-place revisits**, the slow path gets the third thread's read out of the way and queues
a revisit of the second thread's read.  The fast path does neither. -/
theorem staleRead_slow_ne_fast :
    Placed plainEnvironment staleRead lastWrite ∧ staleRead.prevCoMax lastWrite = some ⟨1, 1⟩ ∧
      lastWrite.prefixView.contains ⟨1, 1⟩ = true ∧
      (calcRevisitsFrom ⟨true, false, false, false⟩ plainEnvironment staleRead lastWrite
        (staleRead.slowLoads lastWrite)).map (·.pos) = [⟨2, 1⟩] ∧
      (calcRevisits ⟨true, false, false, false⟩ plainEnvironment staleRead lastWrite).map
        (·.pos) = [] :=
  ⟨staleRead_placed, by decide, by decide, by decide, by decide⟩

end ExecutionGraph
end GenMC
