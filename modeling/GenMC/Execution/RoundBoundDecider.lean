import GenMC.ADT.SignedView
import GenMC.Execution.ContextBoundDecider
import GenMC.Execution.Operations
import GenMC.Library.RoundRobin

/-!
# Bounding round-robin rounds

An exploration can also be bounded by the number of round-robin rounds.  The decider replays a graph
round by round: a round goes over the threads once, and performs of each thread what it can, in view
of reads-from, coherence, from-read, thread creations and joins.  `doesExecutionExceedBound` stops
when the bound is used up; `calculate` counts the rounds.

The two start from different views.  For `calculate` the begins of all threads have been performed,
so that creations do not count.  `doesExecutionExceedBound` takes the begins of all threads but the
main one back, but a view forgets this for the first thread (`getMax_startView`), and so creations
of the threads from the second one on count.  Moreover it insists that the first round performs
something.  The result is `none` where a check of the source fails, and where `calculate` runs out
of the number of rounds it is given; rounds and bounds are natural numbers.

* `RoundEdge`: what an event waits for, by which the number of rounds is explained.
* `round_spec`: **a round leads from one level of events to the next.**
* `calculate_spec` and `doesExecutionExceedBound_spec`: what the two functions compute.
* `agree_iff`: **when they agree**: there is something to perform, and creations do not make a chain
  of events exceed the bound that otherwise does not.
-/

set_option autoImplicit false

namespace GenMC
namespace RoundBoundDecider

open ContextBoundDecider (fullView)

/-! ## The code -/

/-- `co_imm_pred`: the write before a write in coherence. -/
def coImmPred (g : ExecutionGraph) (lab : EventLabel) : Option Event :=
  ((g.co lab.addr).take ((g.co lab.addr).idxOf lab.pos)).getLast?

/-- `fr_imm_preds`: the readers of what a write overwrites. -/
def frImmPreds (g : ExecutionGraph) (lab : EventLabel) : List Event :=
  match coImmPred g lab with
  | none => g.initReaders lab.addr
  | some p => (g.getEventLabel p).elim [] (·.readers)

/-- Whether an event is in a view. -/
def sees (v : SignedView) (e : Event) : Bool := v.contains e.thread e.index

/-- Whether a view has what an event waits for in other threads. -/
def areSCPredsInView (g : ExecutionGraph) (v : SignedView) (e : Event) : Option Bool := do
  let lab ← g.getEventLabel e
  if lab.isThreadStart then lab.create.map (sees v)
  else if lab.kind = .ThreadJoin then (g.tjPred lab).map fun fLab => sees v fLab.pos
  else if !lab.isMemAccess then some true
  else if lab.isRead then lab.rf.map (sees v)
  else if lab.isWrite then
    if (coImmPred g lab).any fun p => !sees v p then some false
    else some ((frImmPreds g lab).all (sees v))
  else none

/-- The view of a replay, and the two flags of a round. -/
structure Round where
  curr : SignedView
  found : Bool
  done : Bool

/-- The loop over the events of a thread, which has `n` events left after index `j`. -/
def eventLoop (g : ExecutionGraph) (i : ℕ) : ℕ → ℤ → Round → Option Round
  | 0, _, r => some r
  | n + 1, j, r => do
    if ← areSCPredsInView g r.curr ⟨i, (j + 1).toNat⟩ then
      eventLoop g i n (j + 1) { r with curr := r.curr.updateIdx i (j + 1), found := true }
    else some { r with done := false }

/-- The loop over the threads. -/
def threadLoop (g : ExecutionGraph) : List ℕ → Round → Option Round
  | [], r => some r
  | i :: rest, r => do
    let j := r.curr.getMax i
    threadLoop g rest (← eventLoop g i ((fullView g).getMax i - j).toNat j r)

/-- One round. -/
def round (g : ExecutionGraph) (curr : SignedView) : Option Round :=
  threadLoop g (List.range g.getNumThreads) ⟨curr, false, true⟩

/-- The view before the first round of `doesExecutionExceedBound`. -/
def startView (n : ℕ) : SignedView :=
  (List.range' 1 (n - 1)).foldl (fun curr i => curr.setMax i (-1)) .empty

/-- The loop of `doesExecutionExceedBound`.  Nothing is returned where the source stops because a
round performs nothing. -/
def boundLoop (g : ExecutionGraph) : ℕ → SignedView → Option Bool
  | 0, curr => do
    let r ← round g curr
    if r.found then some !r.done else none
  | bound + 1, curr => do
    let r ← round g curr
    if r.found then
      if r.done then some false else boundLoop g bound r.curr
    else none

def doesExecutionExceedBound (g : ExecutionGraph) (bound : ℕ) : Option Bool :=
  boundLoop g bound (startView g.getNumThreads)

/-- The loop of `calculate`, for at most so many rounds. -/
def countLoop (g : ExecutionGraph) : ℕ → SignedView → ℕ → Option ℕ
  | 0, _, _ => none
  | fuel + 1, curr, bound => do
    let r ← round g curr
    if r.done then some bound
    else if r.found then countLoop g fuel r.curr (bound + 1)
    else none

def calculate (g : ExecutionGraph) : Option ℕ :=
  countLoop g (g.positions.length + 1) .empty 0

/-! ## What an event waits for -/

/-- A sequentially consistent graph in which every thread but the main one has been created. -/
structure SpawnConsistent (g : ExecutionGraph) : Prop extends g.SeqConsistent where
  starts : ∀ e lab, g.getEventLabel e = some lab → lab.isThreadStart = true → e.index = 0
  created : ∀ t, 0 < t → t < g.getNumThreads → ∃ lab c cLab, g.getEventLabel ⟨t, 0⟩ = some lab ∧
    lab.create = some c ∧ g.getEventLabel c = some cLab ∧ cLab.kind = .ThreadCreate ∧
      cLab.childId = t

/-- The events of other threads that `areSCPredsInView` looks for. -/
def scPreds (g : ExecutionGraph) (e : Event) : List Event :=
  match g.getEventLabel e with
  | none => []
  | some lab =>
    if lab.isThreadStart then lab.create.toList
    else if lab.kind = .ThreadJoin then ((g.tjPred lab).map (·.pos)).toList
    else if lab.isRead then lab.rf.toList
    else if lab.isWrite then (coImmPred g lab).toList ++ frImmPreds g lab
    else []

/-- The events to be performed: all but the begins that have been performed at the start. -/
def pending (g : ExecutionGraph) (begins : ℕ → Prop) : Set Event :=
  {e | (g.getEventLabel e).isSome ∧ (0 < e.index ∨ begins e.thread)}

/-- One event waits for another one: the one before it in its thread, the write it reads from, the
write before it in coherence and the reads of that, the creation of its thread, or the end of the
thread it joins. -/
def RoundEdge (g : ExecutionGraph) (begins : ℕ → Prop) (p e : Event) : Prop :=
  p ∈ pending g begins ∧ e ∈ pending g begins ∧ (e = p.next ∨ p ∈ scPreds g e)

/-- The events to which no chain has `k` steps to an earlier thread: what is performed in `k`
rounds. -/
abbrev stage (g : ExecutionGraph) (begins : ℕ → Prop) (k : ℕ) : Set Event :=
  RoundRobin.level (RoundEdge g begins) Event.thread (pending g begins) k

/-- What is performed in `k` rounds and the turns of the threads before `i`. -/
abbrev stageBefore (g : ExecutionGraph) (begins : ℕ → Prop) (k i : ℕ) : Set Event :=
  RoundRobin.partway (RoundEdge g begins) Event.thread (pending g begins) k i

/-- Some chain of events that wait for each other has more than `b` steps to an earlier thread. -/
def ChainExceeds (g : ExecutionGraph) (begins : ℕ → Prop) (b : ℕ) : Prop :=
  RoundRobin.Exceeds (RoundEdge g begins) Event.thread (pending g begins) b

variable {g : ExecutionGraph} {begins : ℕ → Prop}

theorem coImmPred_eq_some {lab : EventLabel} {p : Event} (h : coImmPred g lab = some p) :
    ∃ k, (g.co lab.addr).drop k = p :: (g.co lab.addr).drop ((g.co lab.addr).idxOf lab.pos) := by
  rw [coImmPred, List.getLast?_eq_some_iff] at h
  obtain ⟨ys, hys⟩ := h
  refine ⟨ys.length, ?_⟩
  have hsplit := List.take_append_drop ((g.co lab.addr).idxOf lab.pos) (g.co lab.addr)
  rw [hys, List.append_assoc] at hsplit
  conv_lhs => rw [← hsplit]
  rw [List.drop_left]
  rfl

/-- A begin other than the initializer is not of the main thread. -/
theorem thread_pos_of_ne_init {e : Event} (he : e ≠ Event.getInit) (hi : e.index = 0) :
    0 < e.thread := by
  rw [Nat.pos_iff_ne_zero]
  exact fun h0 => he (Event.ext_iff'.2 ⟨h0, hi⟩)

section Consistent

variable (hg : SpawnConsistent g)
include hg

/-- A write comes right after its predecessor in coherence. -/
theorem SpawnConsistent.mem_drop_of_coImmPred {e p : Event} {lab : EventLabel}
    (h : g.getEventLabel e = some lab) (hw : lab.isWrite = true) (hp : coImmPred g lab = some p) :
    p ∈ g.co lab.addr ∧ e ∈ (g.co lab.addr).drop ((g.co lab.addr).idxOf p + 1) := by
  obtain ⟨k, hk⟩ := coImmPred_eq_some hp
  refine ⟨List.mem_of_mem_drop (hk ▸ List.mem_cons_self ..), ?_⟩
  have hlt : (g.co lab.addr).idxOf e < (g.co lab.addr).length :=
    List.idxOf_lt_length_of_mem (hg.write e lab h hw)
  rw [ExecutionGraph.drop_idxOf_succ (hg.coNodup _) hk, hg.slots e lab h,
    List.drop_eq_getElem_cons hlt, List.getElem_idxOf]
  exact List.mem_cons_self ..

/-- The reads of what a write overwrites come before the write. -/
theorem SpawnConsistent.scEdge_of_mem_frImmPreds {e p : Event} {lab : EventLabel}
    (h : g.getEventLabel e = some lab) (hw : lab.isWrite = true) (hp : p ∈ frImmPreds g lab) :
    g.ScEdge p e := by
  rw [frImmPreds] at hp
  cases hpred : coImmPred g lab with
  | none =>
    rw [hpred] at hp
    obtain ⟨rLab, hrLab, hr, ha, hrf⟩ := hg.initReaders lab.addr p hp
    refine .fr hrLab ?_
    rw [ExecutionGraph.frSuccs, if_pos hr, hrf, ha]
    exact hg.write e lab h hw
  | some w =>
    rw [hpred] at hp
    obtain ⟨hmem, hdrop⟩ := hg.mem_drop_of_coImmPred h hw hpred
    obtain ⟨wLab, hwLab, hwrite, hwa⟩ := hg.co _ w hmem
    simp only [hwLab, Option.elim_some] at hp
    obtain ⟨rLab, hrLab, hr, hrf⟩ := hg.readers w wLab hwLab hwrite p hp
    have hpos : 0 < w.index := hg.index_pos_of_mem_co hmem
    have hinit : w ≠ Event.getInit := fun heq => by simp [heq, Event.getInit] at hpos
    have ha : rLab.addr = lab.addr := by
      obtain ⟨w', hw', ⟨rfl, -⟩ | ⟨wLab', hwLab', -, ha', -⟩⟩ := hg.rf p rLab hrLab hr
      · exact absurd (Option.some.inj (hrf.symm.trans hw')) hinit
      · obtain rfl := Option.some.inj (hrf.symm.trans hw')
        obtain rfl := Option.some.inj (hwLab.symm.trans hwLab')
        exact ha'.symm.trans hwa
    refine .fr hrLab ?_
    rw [ExecutionGraph.frSuccs, if_pos hr, hrf, Option.filter_some,
      if_pos (by simp [Event.isInitializer, hinit]), ha]
    exact hdrop

/-- What is looked for comes before the event in every linearization. -/
theorem SpawnConsistent.scEdge_of_mem_scPreds {p e : Event} (he : 0 < e.index)
    (hp : p ∈ scPreds g e) : g.ScEdge p e := by
  rw [scPreds] at hp
  split at hp
  · cases hp
  · rename_i lab h
    split_ifs at hp with hs hj hr hw
    · exact absurd (hg.starts e lab h hs) he.ne'
    · obtain ⟨fLab, hf, rfl⟩ := Option.map_eq_some_iff.1 (Option.mem_toList.1 hp)
      exact .join h hf
    · exact .rf h hr (Option.mem_toList.1 hp)
    · rcases List.mem_append.1 hp with hp | hp
      · have hpred : coImmPred g lab = some p := Option.mem_toList.1 hp
        obtain ⟨hmem, hdrop⟩ := hg.mem_drop_of_coImmPred h hw hpred
        obtain ⟨pLab, hpLab, hpw, ha⟩ := hg.co _ p hmem
        refine .co hpLab ?_
        rw [ExecutionGraph.coSuccs, if_pos hpw, hg.slots p pLab hpLab, ha]
        exact hdrop
      · exact hg.scEdge_of_mem_frImmPreds h hw hp
    · cases hp

/-- A begin waits for the creation of its thread. -/
theorem SpawnConsistent.create_of_mem_scPreds {p : Event} {t : ℕ} (ht : 0 < t)
    (hp : p ∈ scPreds g ⟨t, 0⟩) : ∃ cLab, g.getEventLabel p = some cLab ∧
      cLab.kind = .ThreadCreate ∧ cLab.childId = t ∧ 0 < p.index := by
  rw [scPreds] at hp
  split at hp
  · cases hp
  · rename_i lab h
    obtain ⟨lab', c, cLab, hlab', hc, hcLab, hk, hchild⟩ :=
      hg.created t ht (ExecutionGraph.lt_getNumThreads_of_getEventLabel h)
    obtain rfl := Option.some.inj (h.symm.trans hlab')
    rw [if_pos (hg.begins t lab h), hc] at hp
    obtain rfl : p = c := List.mem_singleton.1 hp
    exact ⟨cLab, hcLab, hk, hchild,
      hg.index_pos hcLab (by rw [EventLabel.isThreadStart, hk]; rfl)⟩

/-- **The check looks for the events that `scPreds` lists.** -/
theorem SpawnConsistent.areSCPredsInView_eq (v : SignedView) {e : Event}
    (he : (g.getEventLabel e).isSome) (hne : e ≠ Event.getInit) :
    areSCPredsInView g v e = some ((scPreds g e).all (sees v)) := by
  obtain ⟨lab, h⟩ := Option.isSome_iff_exists.1 he
  rw [areSCPredsInView, scPreds, h, Option.bind_eq_bind, Option.bind_some]
  simp only
  by_cases hs : lab.isThreadStart = true
  · rw [if_pos hs, if_pos hs]
    have ht : 0 < e.thread := thread_pos_of_ne_init hne (hg.starts e lab h hs)
    obtain ⟨lab', c, -, hlab', hc, -⟩ :=
      hg.created e.thread ht (ExecutionGraph.lt_getNumThreads_of_getEventLabel h)
    rw [show (⟨e.thread, 0⟩ : Event) = e from
      Event.ext_iff'.2 ⟨rfl, (hg.starts e lab h hs).symm⟩] at hlab'
    obtain rfl := Option.some.inj (h.symm.trans hlab')
    simp [hc]
  rw [if_neg hs, if_neg hs]
  by_cases hj : lab.kind = .ThreadJoin
  · rw [if_pos hj, if_pos hj]
    obtain ⟨fLab, hf, -⟩ := hg.join e lab h hj
    simp [Option.mem_def.1 hf]
  rw [if_neg hj, if_neg hj]
  have hmem : lab.isMemAccess = (lab.isRead || lab.isWrite) := EventLabelKind.isMemAccess_eq _
  by_cases hr : lab.isRead = true
  · obtain ⟨w, hw, -⟩ := hg.rf e lab h hr
    simp [hmem, hr, Option.mem_def.1 hw]
  by_cases hw : lab.isWrite = true
  · cases hpred : coImmPred g lab with
    | none => simp [hmem, hr, hw]
    | some p => cases hsee : sees v p <;> simp [hmem, hr, hw, hsee]
  · simp [hmem, hr, hw]

/-! ## Events do not wait for themselves -/

/-- After a begin comes the next event of its thread, and nothing else. -/
theorem SpawnConsistent.eq_next_of_scEdge {p e : Event} (h : g.ScEdge p e) (hp : p.index = 0)
    (ht : 0 < p.thread) : e = p.next := by
  have hpos : ∀ {lab : EventLabel}, g.getEventLabel p = some lab → lab.isThreadStart = true := by
    intro lab hlab
    by_contra hs
    exact absurd (hg.index_pos hlab (by simpa using hs)) (by omega)
  have hno : ∀ {lab : EventLabel}, g.getEventLabel p = some lab → lab.isMemAccess ≠ true := by
    intro lab hlab hmem
    have hs := ExecutionGraph.not_isThreadStart_of_isMemAccess hmem
    rw [hpos hlab] at hs
    cases hs
  cases h with
  | po => exact Event.ext_iff'.2 ⟨rfl, by simp [Event.next]⟩
  | rf hlab hr hw =>
    obtain ⟨w, hrf, ⟨rfl, -⟩ | ⟨wLab, hwLab, hwrite, -⟩⟩ := hg.rf _ _ hlab hr
    · obtain rfl := Option.some.inj (hw.symm.trans hrf)
      exact absurd ht (Nat.lt_irrefl 0)
    · obtain rfl := Option.some.inj (hw.symm.trans hrf)
      exact absurd (EventLabel.isMemAccess_of_isWrite hwrite) (hno hwLab)
  | co hlab hw =>
    exact absurd (EventLabel.isMemAccess_of_isWrite (ExecutionGraph.isWrite_of_mem_coSuccs hw))
      (hno hlab)
  | fr hlab hw =>
    exact absurd (EventLabel.isMemAccess_of_isRead (ExecutionGraph.isRead_of_mem_frSuccs hw))
      (hno hlab)
  | create hlab hc =>
    have hs := hpos hlab
    rw [EventLabel.isThreadStart, hc] at hs
    exact absurd hs (by decide)
  | join hlab hf =>
    have hs := hpos (hg.getEventLabel_of_tjPred hf)
    rw [EventLabel.isThreadStart, (ExecutionGraph.tjPred_eq_some hf).2.2] at hs
    exact absurd hs (by decide)

/-- What is looked for is in the graph, or the initializer. -/
theorem SpawnConsistent.isSome_of_mem_scPreds {p e : Event} (he : e ≠ Event.getInit)
    (hp : p ∈ scPreds g e) : p = Event.getInit ∨ (g.getEventLabel p).isSome := by
  rcases Nat.eq_zero_or_pos e.index with hi | hi
  · have ht : 0 < e.thread := thread_pos_of_ne_init he hi
    rw [show e = ⟨e.thread, 0⟩ from Event.ext_iff'.2 ⟨rfl, hi⟩] at hp
    obtain ⟨cLab, hcLab, -⟩ := hg.create_of_mem_scPreds ht hp
    exact .inr (by rw [hcLab]; rfl)
  · have hedge := hg.scEdge_of_mem_scPreds hi hp
    obtain ⟨hpsome, -, hesome⟩ := hg.scEdge_isSome hedge
    rcases hpsome with hp0 | hsome
    · rcases Nat.eq_zero_or_pos p.thread with ht | ht
      · exact .inl (Event.ext_iff'.2 ⟨ht, hp0⟩)
      · have hnext := hg.eq_next_of_scEdge hedge hp0 ht
        rw [hnext] at hesome
        exact .inr (ExecutionGraph.getEventLabel_isSome_of_le hesome rfl (Nat.le_succ _))
    · exact .inr hsome

/-- What comes after an event other than a begin comes after it in every linearization. -/
theorem SpawnConsistent.scEdge_of_roundEdge {p e : Event} (h : RoundEdge g begins p e)
    (he : 0 < e.index) : g.ScEdge p e := by
  obtain ⟨-, ⟨hsome, -⟩, rfl | hp⟩ := h
  · exact .po hsome
  · exact hg.scEdge_of_mem_scPreds he hp

section Acyclic

variable (hbegins : ∀ t, begins t → 0 < t)
include hbegins

/-- A begin waits for an event that comes before the first event of the thread. -/
theorem SpawnConsistent.scEdge_of_begin {p e : Event} (h : RoundEdge g begins p e)
    (he : e.index = 0) :
    0 < p.index ∧ ((g.getEventLabel e.next).isSome → g.ScEdge p e.next) := by
  obtain ⟨-, ⟨-, hpend⟩, hp⟩ := h
  obtain ⟨t, i⟩ := e
  obtain rfl : i = 0 := he
  have ht : 0 < t := hbegins t (hpend.resolve_left (Nat.lt_irrefl 0))
  rcases hp with heq | hp
  · exact absurd (Event.ext_iff'.1 heq).2 (by simp [Event.next])
  · obtain ⟨cLab, hcLab, hk, rfl, hpos⟩ := hg.create_of_mem_scPreds ht hp
    exact ⟨hpos, fun hfirst => .create hcLab hk hfirst⟩

/-- Only the next event of the thread waits for a begin. -/
theorem SpawnConsistent.eq_next_of_roundEdge {p e : Event} (h : RoundEdge g begins p e)
    (hp : p.index = 0) : 0 < e.index ∧ e = p.next := by
  have ht : 0 < p.thread := hbegins _ (h.1.2.resolve_left (by omega))
  have he : 0 < e.index := by
    by_contra he
    have := (hg.scEdge_of_begin hbegins h (Nat.eq_zero_of_not_pos he)).1
    omega
  exact ⟨he, hg.eq_next_of_scEdge (hg.scEdge_of_roundEdge h he) hp ht⟩

/-- A chain of events is also one of a linearization, where the begin of a thread is replaced by the
first event of the thread. -/
theorem SpawnConsistent.transGen_scEdge {a b : Event}
    (h : Relation.TransGen (RoundEdge g begins) a b) :
    (0 < b.index → Relation.TransGen g.ScEdge a b) ∧
      (b.index = 0 → (g.getEventLabel b.next).isSome → Relation.TransGen g.ScEdge a b.next) := by
  induction h with
  | single h =>
    exact ⟨fun hb => .single (hg.scEdge_of_roundEdge h hb),
      fun hb hfirst => .single ((hg.scEdge_of_begin hbegins h hb).2 hfirst)⟩
  | @tail p b _ h ih =>
    refine ⟨fun hb => ?_, fun hb hfirst => ?_⟩
    · rcases Nat.eq_zero_or_pos p.index with hp | hp
      · obtain ⟨-, rfl⟩ := hg.eq_next_of_roundEdge hbegins h hp
        exact ih.2 hp h.2.1.1
      · exact (ih.1 hp).tail (hg.scEdge_of_roundEdge h hb)
    · obtain ⟨hp, hedge⟩ := hg.scEdge_of_begin hbegins h hb
      exact (ih.1 hp).tail (hedge hfirst)

theorem SpawnConsistent.acyclic_roundEdge (e : Event) :
    ¬ Relation.TransGen (RoundEdge g begins) e e := by
  intro h
  rcases Nat.eq_zero_or_pos e.index with he | he
  · obtain ⟨x, hex, hxe⟩ := Relation.TransGen.head'_iff.1 h
    have hx := (hg.eq_next_of_roundEdge hbegins hex he).1
    exact hg.acyclic x ((hg.transGen_scEdge hbegins (.tail' hxe hex)).1 hx)
  · exact hg.acyclic e ((hg.transGen_scEdge hbegins h).1 he)

end Acyclic

end Consistent

/-! ## What a turn performs -/

theorem finite_pending : (pending g begins).Finite :=
  (List.finite_toSet g.positions).subset fun _ he => ExecutionGraph.mem_positions.2 he.1

theorem ncard_pending_le : (pending g begins).ncard ≤ g.positions.length := by
  have hsub : pending g begins ⊆ (g.positions.toFinset : Set Event) := fun e he =>
    Finset.mem_coe.2 (List.mem_toFinset.2 (ExecutionGraph.mem_positions.2 he.1))
  have hle := Set.ncard_le_ncard hsub g.positions.toFinset.finite_toSet
  rw [Set.ncard_coe_finset] at hle
  exact hle.trans (List.toFinset_card_le _)

/-- The events that have been performed. -/
def performed (g : ExecutionGraph) (begins : ℕ → Prop) (v : SignedView) : Set Event :=
  {e ∈ pending g begins | sees v e = true}

/-- A view of a replay: only the begins that are to be performed may be missing. -/
structure Fits (g : ExecutionGraph) (begins : ℕ → Prop) (v : SignedView) : Prop where
  settled : v.Settled
  begun : ∀ t, ¬ begins t → 0 ≤ v.getMax t
  low : ∀ t, -1 ≤ v.getMax t
  high : ∀ t, v.getMax t ≤ (fullView g).getMax t

theorem sees_iff {v : SignedView} {e : Event} :
    sees v e = true ↔ (e.index : ℤ) ≤ v.getMax e.thread := by
  rw [sees, SignedView.contains, decide_eq_true_eq]

/-- What the loop over the events of thread `i` does. -/
structure Advance (g : ExecutionGraph) (begins : ℕ → Prop) (i : ℕ) (r r' : Round) : Prop where
  fits : Fits g begins r'.curr
  others : ∀ u, u ≠ i → r'.curr.getMax u = r.curr.getMax u
  le : r.curr.getMax i ≤ r'.curr.getMax i
  waited : ∀ k : ℕ, r.curr.getMax i < k → (k : ℤ) ≤ r'.curr.getMax i →
    ∀ p ∈ scPreds g ⟨i, k⟩, sees r'.curr p = true
  stopped : r'.curr.getMax i < (fullView g).getMax i →
    ∃ p ∈ scPreds g ⟨i, (r'.curr.getMax i + 1).toNat⟩, ¬ sees r'.curr p = true
  found : r'.found = true ↔ r.found = true ∨ r.curr.getMax i < r'.curr.getMax i
  done : r'.done = true ↔ r.done = true ∧ r'.curr.getMax i = (fullView g).getMax i

theorem Advance.getMax_le {i : ℕ} {r r' : Round} (h : Advance g begins i r r') (u : ℕ) :
    r.curr.getMax u ≤ r'.curr.getMax u := by
  by_cases hu : u = i
  · subst hu
    exact h.le
  · exact (h.others u hu).ge

theorem Advance.sees_of_sees {i : ℕ} {r r' : Round} (h : Advance g begins i r r') {e : Event}
    (he : sees r.curr e = true) : sees r'.curr e = true :=
  sees_iff.2 ((sees_iff.1 he).trans (h.getMax_le _))

section Rounds

variable (hg : SpawnConsistent g) (hbegins : ∀ t, begins t → 0 < t)
include hg hbegins

/-- The next event of a thread that is not complete is in the graph. -/
theorem next_mem_pending {v : SignedView} (hv : Fits g begins v) {i : ℕ}
    (hi : i < g.getNumThreads) (hlt : v.getMax i < (fullView g).getMax i) :
    (⟨i, (v.getMax i + 1).toNat⟩ : Event) ∈ pending g begins := by
  have hlow := hv.low i
  rcases hlow.eq_or_lt with heq | hpos
  · have hb : begins i := by
      by_contra hb
      have := hv.begun i hb
      omega
    obtain ⟨lab, -, -, hlab, -⟩ := hg.created i (hbegins i hb) hi
    rw [← heq]
    exact ⟨by rw [show ((-1 : ℤ) + 1).toNat = 0 from rfl, hlab]; rfl, .inr hb⟩
  · have hindex : 0 < (v.getMax i + 1).toNat := by omega
    refine ⟨?_, .inl hindex⟩
    rw [ContextBoundDecider.isSome_iff_le_fullView hg.toSeqConsistent hindex, View.contains_iff]
    show (v.getMax i + 1).toNat ≤ (fullView g).getMax i
    omega

omit hg in
theorem ne_init_of_mem_pending {e : Event} (he : e ∈ pending g begins) : e ≠ Event.getInit := by
  rintro rfl
  rcases he.2 with h | h
  · exact Nat.lt_irrefl 0 h
  · exact Nat.lt_irrefl 0 (hbegins _ h)

/-- **The loop over the events of a thread** goes on until the thread is complete or its next event
has to wait. -/
theorem eventLoop_spec {i : ℕ} (hi : i < g.getNumThreads) : ∀ (n : ℕ) (r : Round),
    Fits g begins r.curr → ((fullView g).getMax i : ℤ) - r.curr.getMax i = n →
      ∃ r', eventLoop g i n (r.curr.getMax i) r = some r' ∧ Advance g begins i r r' := by
  intro n
  induction n with
  | zero =>
    intro r hr hn
    have hfull : r.curr.getMax i = (fullView g).getMax i := by omega
    exact ⟨r, rfl,
      { fits := hr
        others := fun _ _ => rfl
        le := le_rfl
        waited := fun k hlt hle => by omega
        stopped := fun hlt => by omega
        found := (or_iff_left (lt_irrefl _)).symm
        done := (and_iff_left hfull).symm }⟩
  | succ n ih =>
    intro r hr hn
    have hmem := next_mem_pending hg hbegins hr hi (by omega)
    have hcheck := hg.areSCPredsInView_eq r.curr hmem.1 (ne_init_of_mem_pending hbegins hmem)
    rw [eventLoop, hcheck, Option.bind_eq_bind, Option.bind_some]
    by_cases hall : (scPreds g ⟨i, (r.curr.getMax i + 1).toNat⟩).all (sees r.curr) = true
    · rw [if_pos hall]
      obtain ⟨hsettled, hget⟩ := SignedView.getMax_updateIdx hr.settled
        (lt_add_one (r.curr.getMax i))
      obtain ⟨r₁, hr₁⟩ : ∃ r₁ : Round, r₁ =
          { r with curr := r.curr.updateIdx i (r.curr.getMax i + 1), found := true } := ⟨_, rfl⟩
      have hcurr : ∀ u, r₁.curr.getMax u =
          if u = i then r.curr.getMax i + 1 else r.curr.getMax u := hr₁ ▸ hget
      have hself : r₁.curr.getMax i = r.curr.getMax i + 1 := by rw [hcurr, if_pos rfl]
      have hle : ∀ u, r.curr.getMax u ≤ r₁.curr.getMax u := by
        intro u
        rw [hcurr]
        split_ifs with hu
        · rw [hu]
          exact (lt_add_one _).le
        · exact le_rfl
      have hfits : Fits g begins r₁.curr :=
        { settled := hr₁ ▸ hsettled
          begun := fun t ht => (hr.begun t ht).trans (hle t)
          low := fun t => (hr.low t).trans (hle t)
          high := fun t => by
            rw [hcurr]
            split_ifs with ht
            · rw [ht]
              omega
            · exact hr.high t }
      obtain ⟨r', heq, hadv⟩ := ih r₁ hfits (by omega)
      rw [hself, hr₁] at heq
      refine ⟨r', heq,
        { fits := hadv.fits
          others := fun u hu => (hadv.others u hu).trans (by rw [hcurr, if_neg hu])
          le := (hle i).trans hadv.le
          waited := fun k hlt hk p hp => ?_
          stopped := hadv.stopped
          found := ?_
          done := hadv.done.trans (by rw [hr₁]) }⟩
      · rcases (show r.curr.getMax i + 1 ≤ k by omega).eq_or_lt with heq | hgt
        · have hp' : p ∈ scPreds g ⟨i, (r.curr.getMax i + 1).toNat⟩ := by
            rwa [heq, Int.toNat_natCast]
          have hsees := sees_iff.1 (List.all_eq_true.1 hall p hp')
          exact hadv.sees_of_sees (sees_iff.2 (hsees.trans (hle _)))
        · exact hadv.waited k (by omega) hk p hp
      · have := hadv.le
        exact iff_of_true (hadv.found.2 (.inl (hr₁ ▸ rfl))) (.inr (by omega))
    · rw [if_neg hall]
      obtain ⟨p, hp, hnot⟩ : ∃ p ∈ scPreds g ⟨i, (r.curr.getMax i + 1).toNat⟩,
          ¬ sees r.curr p = true := by simpa using hall
      exact ⟨_, rfl,
        { fits := hr
          others := fun _ _ => rfl
          le := le_rfl
          waited := fun k hlt hle => absurd (hlt.trans_le hle) (lt_irrefl _)
          stopped := fun _ => ⟨p, hp, hnot⟩
          found := (or_iff_left (lt_irrefl _)).symm
          done := iff_of_false Bool.false_ne_true fun hdone => by
            have heq : r.curr.getMax i = (fullView g).getMax i := hdone.2
            omega }⟩

/-- What the loop over the events of a thread does is a turn of the thread. -/
theorem Advance.turn {i : ℕ} {r r' : Round} (h : Advance g begins i r r') :
    RoundRobin.Turn (RoundEdge g begins) Event.thread (pending g begins) i
      (performed g begins r.curr) (performed g begins r'.curr) where
  subset := fun e he => ⟨he.1, h.sees_of_sees he.2⟩
  events := fun e he => he.1
  mine := fun e he => by
    by_cases ht : e.thread = i
    · exact .inr ht
    · refine .inl ⟨he.1, sees_iff.2 ?_⟩
      rw [← h.others _ ht]
      exact sees_iff.1 he.2
  waited := fun e he => by
    by_cases hold : sees r.curr e = true
    · exact .inl ⟨he.1, hold⟩
    · refine .inr fun p hp => ⟨hp.1, ?_⟩
      have hsees := sees_iff.1 he.2
      rw [sees_iff, not_le] at hold
      have ht : e.thread = i := by
        by_contra ht
        rw [← h.others _ ht] at hold
        omega
      rcases hp.2.2 with rfl | hpred
      · rw [sees_iff]
        have hindex : ((p.next).index : ℤ) = p.index + 1 := by simp [Event.next]
        exact (by omega : (p.index : ℤ) ≤ (p.next).index).trans hsees
      · rw [ht] at hold hsees
        refine h.waited e.index hold hsees p ?_
        rwa [show (⟨i, e.index⟩ : Event) = e from Event.ext_iff'.2 ⟨ht.symm, rfl⟩]
  stopped := fun e he ht hnot => by
    have hlt : r'.curr.getMax i < e.index := by
      rw [← ht, ← not_le, ← sees_iff]
      exact fun hsees => hnot ⟨he, hsees⟩
    have hunseen : ∀ p, (g.getEventLabel p).isSome → ¬ sees r'.curr p = true →
        p ∈ pending g begins ∧ p ∉ performed g begins r'.curr := by
      intro p hsome hp
      refine ⟨⟨hsome, ?_⟩, fun hmem => hp hmem.2⟩
      by_contra hb
      obtain ⟨hindex, hb⟩ := not_or.1 hb
      have hbegun := h.fits.begun _ hb
      exact hp (sees_iff.2 (by omega))
    have hlow := h.fits.low i
    rcases (show (r'.curr.getMax i + 1).toNat ≤ e.index by omega).eq_or_lt with heq | hgt
    · -- the first event that is left
      have hfull : r'.curr.getMax i < (fullView g).getMax i := by
        rcases Nat.eq_zero_or_pos e.index with hindex | hindex
        · omega
        · have hle := View.contains_iff.1
            ((ContextBoundDecider.isSome_iff_le_fullView hg.toSeqConsistent hindex).1 he.1)
          rw [ht] at hle
          omega
      obtain ⟨p, hp, hnsees⟩ := h.stopped hfull
      rw [show (⟨i, (r'.curr.getMax i + 1).toNat⟩ : Event) = e from
        Event.ext_iff'.2 ⟨ht.symm, heq⟩] at hp
      have hsome : (g.getEventLabel p).isSome := by
        refine (hg.isSome_of_mem_scPreds (ne_init_of_mem_pending hbegins he) hp).resolve_left ?_
        rintro rfl
        exact hnsees (sees_iff.2 (h.fits.begun 0 fun hb => Nat.lt_irrefl 0 (hbegins 0 hb)))
      obtain ⟨hpend, hnperf⟩ := hunseen p hsome hnsees
      exact ⟨p, ⟨hpend, he, .inr hp⟩, hnperf⟩
    · -- a later one waits for the one before it
      have hnext : e = (⟨i, e.index - 1⟩ : Event).next :=
        Event.ext_iff'.2 ⟨ht, (Nat.sub_add_cancel (by omega)).symm⟩
      have hsome : (g.getEventLabel ⟨i, e.index - 1⟩).isSome :=
        ExecutionGraph.getEventLabel_isSome_of_le he.1 ht.symm (Nat.sub_le _ _)
      obtain ⟨hpend, hnperf⟩ := hunseen _ hsome (by
        rw [sees_iff, not_le]
        show r'.curr.getMax i < (e.index - 1 : ℕ)
        omega)
      exact ⟨_, ⟨hpend, he, .inl hnext⟩, hnperf⟩

theorem wellFounded_roundEdge : WellFounded (RoundEdge g begins) :=
  RoundRobin.wellFounded_of_acyclic finite_pending (fun _ _ h => ⟨h.1, h.2.1⟩)
    (hg.acyclic_roundEdge hbegins)

/-- After the turn of `i`, the events of `i` have been performed that are on the next level. -/
theorem Advance.partway {i k : ℕ} {r r' : Round} (h : Advance g begins i r r')
    (hr : performed g begins r.curr = stageBefore g begins k i) :
    performed g begins r'.curr = stageBefore g begins k (i + 1) := by
  have hturn := h.turn hg hbegins
  rw [hr] at hturn
  exact hturn.partway_succ (wellFounded_roundEdge hg hbegins) fun _ _ h => h.1

/-- The turn performs something if the index of the thread increases. -/
theorem Advance.lt_iff {i : ℕ} (hi : i < g.getNumThreads) {r r' : Round}
    (hr : Fits g begins r.curr) (h : Advance g begins i r r') :
    r.curr.getMax i < r'.curr.getMax i ↔
      ∃ e ∈ performed g begins r'.curr, e ∉ performed g begins r.curr ∧ e.thread = i := by
  refine ⟨fun hlt => ?_, ?_⟩
  · have hlow := hr.low i
    have hmem := next_mem_pending hg hbegins hr hi (hlt.trans_le (h.fits.high i))
    refine ⟨_, ⟨hmem, sees_iff.2 ?_⟩, fun hold => ?_, rfl⟩
    · show (((r.curr.getMax i + 1).toNat : ℕ) : ℤ) ≤ r'.curr.getMax i
      omega
    · have hle : (((r.curr.getMax i + 1).toNat : ℕ) : ℤ) ≤ r.curr.getMax i := sees_iff.1 hold.2
      omega
  · rintro ⟨e, he, hold, rfl⟩
    refine lt_of_lt_of_le ?_ (sees_iff.1 he.2)
    rw [← not_le, ← sees_iff]
    exact fun hsees => hold ⟨he.1, hsees⟩

/-- The thread is complete if all its events have been performed. -/
theorem Advance.eq_iff {i : ℕ} (hi : i < g.getNumThreads) {r r' : Round}
    (h : Advance g begins i r r') : r'.curr.getMax i = (fullView g).getMax i ↔
      ∀ e ∈ pending g begins, e.thread = i → e ∈ performed g begins r'.curr := by
  refine ⟨?_, fun hall => ?_⟩
  · rintro heq e he rfl
    refine ⟨he, sees_iff.2 ?_⟩
    rw [heq]
    rcases Nat.eq_zero_or_pos e.index with hindex | hindex
    · omega
    · exact_mod_cast View.contains_iff.1
        ((ContextBoundDecider.isSome_iff_le_fullView hg.toSeqConsistent hindex).1 he.1)
  · by_contra hne
    have hlow := h.fits.low i
    have hmem := next_mem_pending hg hbegins h.fits hi (lt_of_le_of_ne (h.fits.high i) hne)
    have hle : (((r'.curr.getMax i + 1).toNat : ℕ) : ℤ) ≤ r'.curr.getMax i :=
      sees_iff.1 (hall _ hmem rfl).2
    omega

open RoundRobin in
/-- The loop over the threads, from thread `i` on. -/
theorem threadLoop_spec (k : ℕ) : ∀ (m i : ℕ) (r : Round), i + m = g.getNumThreads →
    Fits g begins r.curr → performed g begins r.curr = stageBefore g begins k i →
    ∃ r', threadLoop g (List.range' i m) r = some r' ∧ Fits g begins r'.curr ∧
      performed g begins r'.curr = stage g begins (k + 1) ∧
      (r'.found = true ↔ r.found = true ∨
        ∃ e ∈ stage g begins (k + 1), e ∉ stage g begins k ∧ i ≤ e.thread) ∧
      (r'.done = true ↔ r.done = true ∧
        ∀ e ∈ pending g begins, i ≤ e.thread → e ∈ stage g begins (k + 1)) := by
  intro m
  induction m with
  | zero =>
    intro i r hi hr hperf
    have hthread : ∀ e ∈ pending g begins, e.thread < i := fun e he => by
      obtain ⟨lab, hlab⟩ := Option.isSome_iff_exists.1 he.1
      have := ExecutionGraph.lt_getNumThreads_of_getEventLabel hlab
      omega
    refine ⟨r, rfl, hr, ?_, ?_, ?_⟩
    · exact hperf.trans (partway_of_forall_lt hthread k)
    · refine (or_iff_left ?_).symm
      rintro ⟨e, he, -, hle⟩
      exact absurd (hthread e he.1) (not_lt.2 hle)
    · exact (and_iff_left fun e he hle => absurd (hthread e he) (not_lt.2 hle)).symm
  | succ m ih =>
    intro i r hi hr hperf
    have hlt : i < g.getNumThreads := by omega
    have hhigh := hr.high i
    obtain ⟨r₁, heq₁, hadv⟩ :=
      eventLoop_spec hg hbegins hlt ((fullView g).getMax i - r.curr.getMax i).toNat r hr (by omega)
    have hperf₁ := hadv.partway hg hbegins hperf
    obtain ⟨r', heq, hfits, hlevel, hfound, hdone⟩ := ih (i + 1) r₁ (by omega) hadv.fits hperf₁
    refine ⟨r', ?_, hfits, hlevel, ?_, ?_⟩
    · rw [List.range'_succ, threadLoop]
      simp only [heq₁, Option.bind_eq_bind, Option.bind_some]
      exact heq
    · rw [hfound, hadv.found, hadv.lt_iff hg hbegins hlt hr, hperf, hperf₁, or_assoc]
      refine or_congr_right ⟨?_, ?_⟩
      · rintro (⟨e, he, hnot, rfl⟩ | ⟨e, he, hnot, hle⟩)
        · exact ⟨e, (mem_partway_of_lt (Nat.lt_succ_self _)).1 he,
            fun h => hnot ((mem_partway_of_le le_rfl).2 h), le_rfl⟩
        · exact ⟨e, he, hnot, by omega⟩
      · rintro ⟨e, he, hnot, hle⟩
        rcases hle.eq_or_lt with rfl | hgt
        · exact .inl ⟨e, (mem_partway_of_lt (Nat.lt_succ_self _)).2 he,
            fun h => hnot ((mem_partway_of_le le_rfl).1 h), rfl⟩
        · exact .inr ⟨e, he, hnot, hgt⟩
    · rw [hdone, hadv.done, hadv.eq_iff hg hbegins hlt, hperf₁, and_assoc]
      refine and_congr_right fun _ => ⟨?_, fun hall => ⟨?_, ?_⟩⟩
      · rintro ⟨hmine, hrest⟩ e he hle
        rcases hle.eq_or_lt with rfl | hgt
        · exact (mem_partway_of_lt (Nat.lt_succ_self _)).1 (hmine e he rfl)
        · exact hrest e he hgt
      · rintro e he rfl
        exact (mem_partway_of_lt (Nat.lt_succ_self _)).2 (hall e he le_rfl)
      · exact fun e he hle => hall e he (by omega)

/-- **A round leads from one stage to the next**; it performs something if the stages differ, and it
is the last one if nothing is left. -/
theorem round_spec {k : ℕ} {curr : SignedView} (hv : Fits g begins curr)
    (hperf : performed g begins curr = stage g begins k) :
    ∃ r, round g curr = some r ∧ Fits g begins r.curr ∧
      performed g begins r.curr = stage g begins (k + 1) ∧
      (r.found = true ↔ ¬ pending g begins ⊆ stage g begins k) ∧
      (r.done = true ↔ ¬ ChainExceeds g begins k) := by
  obtain ⟨r, heq, hfits, hlevel, hfound, hdone⟩ :=
    threadLoop_spec hg hbegins k g.getNumThreads 0 ⟨curr, false, true⟩ (Nat.zero_add _) hv
      (hperf.trans (RoundRobin.partway_zero k).symm)
  refine ⟨r, ?_, hfits, hlevel, ?_, ?_⟩
  · rw [round, List.range_eq_range']
    exact heq
  · rw [hfound, or_iff_right Bool.false_ne_true]
    refine ⟨?_, fun hk => ?_⟩
    · rintro ⟨e, he, hnot, -⟩ hsub
      exact hnot (hsub he.1)
    · obtain ⟨e, he, hnot⟩ := RoundRobin.exists_mem_level_succ (wellFounded_roundEdge hg hbegins)
        (fun _ _ h => h.1) hk
      exact ⟨e, he, hnot, Nat.zero_le _⟩
  · rw [hdone, and_iff_right rfl, ChainExceeds, ← RoundRobin.subset_level_iff]
    exact ⟨fun h e he => h e he (Nat.zero_le _), fun h e he _ => h he⟩

/-- The loop of `doesExecutionExceedBound`, after `k` rounds. -/
theorem boundLoop_spec : ∀ (bound k : ℕ) (curr : SignedView), Fits g begins curr →
    performed g begins curr = stage g begins k → ¬ pending g begins ⊆ stage g begins k →
      ∃ x, boundLoop g bound curr = some x ∧ (x = true ↔ ChainExceeds g begins (k + bound)) := by
  intro bound
  induction bound with
  | zero =>
    intro k curr hv hperf hleft
    obtain ⟨r, heq, -, -, hfound, hdone⟩ := round_spec hg hbegins hv hperf
    refine ⟨!r.done, ?_, ?_⟩
    · rw [boundLoop, heq, Option.bind_eq_bind, Option.bind_some, if_pos (hfound.2 hleft)]
    · rw [Bool.not_eq_true', ← Bool.not_eq_true, hdone, not_not, Nat.add_zero]
  | succ bound ih =>
    intro k curr hv hperf hleft
    obtain ⟨r, heq, hfits, hperf', hfound, hdone⟩ := round_spec hg hbegins hv hperf
    rw [boundLoop, heq, Option.bind_eq_bind, Option.bind_some, if_pos (hfound.2 hleft)]
    by_cases hd : r.done = true
    · rw [if_pos hd]
      refine ⟨false, rfl, iff_of_false Bool.false_ne_true fun h => ?_⟩
      exact hdone.1 hd (h.mono (Nat.le_add_right _ _))
    · rw [if_neg hd]
      have hexceeds : ChainExceeds g begins k := not_not.1 fun h => hd (hdone.2 h)
      have hleft' : ¬ pending g begins ⊆ stage g begins (k + 1) := fun hsub =>
        RoundRobin.subset_level_iff.1 hsub hexceeds
      obtain ⟨x, hx, hiff⟩ := ih (k + 1) r.curr hfits hperf' hleft'
      exact ⟨x, hx, by rw [hiff, Nat.add_right_comm, Nat.add_assoc]⟩

/-- The loop of `calculate`, after `k` rounds. -/
theorem countLoop_spec : ∀ (fuel k : ℕ) (curr : SignedView), Fits g begins curr →
    performed g begins curr = stage g begins k → (∀ b < k, ChainExceeds g begins b) →
    (pending g begins).ncard < k + fuel →
      ∃ c, countLoop g fuel curr k = some c ∧ ∀ b, b < c ↔ ChainExceeds g begins b := by
  intro fuel
  induction fuel with
  | zero =>
    intro k curr hv hperf hexceeds hfuel
    refine absurd (hexceeds _ hfuel) (RoundRobin.subset_level_iff.1 ?_)
    exact (RoundRobin.subset_level_ncard (wellFounded_roundEdge hg hbegins) (fun _ _ h => h.1)
      finite_pending).trans (RoundRobin.level_mono (Nat.le_succ _))
  | succ fuel ih =>
    intro k curr hv hperf hexceeds hfuel
    obtain ⟨r, heq, hfits, hperf', hfound, hdone⟩ := round_spec hg hbegins hv hperf
    rw [countLoop, heq, Option.bind_eq_bind, Option.bind_some]
    by_cases hd : r.done = true
    · rw [if_pos hd]
      refine ⟨k, rfl, fun b => ⟨hexceeds b, fun hb => ?_⟩⟩
      by_contra hlt
      exact hdone.1 hd (hb.mono (not_lt.1 hlt))
    · have hk : ChainExceeds g begins k := not_not.1 fun h => hd (hdone.2 h)
      have hleft : ¬ pending g begins ⊆ stage g begins k := fun hsub =>
        RoundRobin.subset_level_iff.1 (hsub.trans (RoundRobin.level_mono (Nat.le_succ k))) hk
      rw [if_neg hd, if_pos (hfound.2 hleft)]
      refine ih (k + 1) r.curr hfits hperf' (fun b hb => ?_) (by omega)
      exact hk.mono (Nat.lt_succ_iff.1 hb)

end Rounds

/-! ## The two functions -/

/-- **`calculate` finds the largest number of times that a chain of events goes to an earlier
thread**, where creations do not count. -/
theorem calculate_spec (hg : SpawnConsistent g) :
    ∃ c, calculate g = some c ∧ ∀ b, b < c ↔ ChainExceeds g (fun _ => False) b := by
  have hzero : ∀ t, SignedView.empty.getMax t = 0 := SignedView.getMax_empty
  have hfits : Fits g (fun _ => False) .empty :=
    { settled := SignedView.settled_empty
      begun := fun t _ => (hzero t).ge
      low := fun t => by rw [hzero]; decide
      high := fun t => by rw [hzero]; exact Int.natCast_nonneg _ }
  refine countLoop_spec hg (fun _ h => h.elim) _ 0 _ hfits ?_ (fun b hb => absurd hb (by omega)) ?_
  · refine (Set.eq_empty_of_forall_notMem fun e he => ?_).trans RoundRobin.level_zero.symm
    have hle := sees_iff.1 he.2
    rw [hzero] at hle
    have := he.1.2.resolve_right id
    omega
  · have hle : (pending g fun _ => False).ncard ≤ g.positions.length := ncard_pending_le
    omega

/-- From the second thread on, the view has a base and remembers that begins are missing. -/
theorem getMax_startView_add_three (n : ℕ) :
    (startView (n + 3)).Settled ∧ (startView (n + 3)).base.isSome ∧
      ∀ t, (startView (n + 3)).getMax t = if 2 ≤ t ∧ t < n + 3 then -1 else 0 := by
  induction n with
  | zero =>
    have hstart : startView 3 = ⟨some [0, 0, -1], (0, 0)⟩ := by decide
    rw [hstart]
    refine ⟨fun _ => rfl, rfl, fun t => ?_⟩
    rw [SignedView.getMax_of_base (fun _ => rfl) rfl]
    match t with
    | 0 | 1 | 2 => rfl
    | t + 3 => simp
  | succ n ih =>
    have hstep : startView (n + 1 + 3) = (startView (n + 3)).setMax (n + 3) (-1) := by
      rw [startView, startView, show n + 1 + 3 - 1 = n + 2 + 1 by omega, List.range'_1_concat,
        List.foldl_append, show n + 3 - 1 = n + 2 by omega, show 1 + (n + 2) = n + 3 by omega]
      rfl
    obtain ⟨hsettled, hbase, hget⟩ := SignedView.getMax_setMax_of_base ih.1 ih.2.1 (n + 3) (-1)
    rw [hstep]
    refine ⟨hsettled, hbase, fun t => ?_⟩
    rw [hget, ih.2.2]
    split_ifs <;> first | rfl | omega

/-- The view that `doesExecutionExceedBound` starts from has forgotten about the first thread. -/
theorem getMax_startView (n : ℕ) : (startView n).Settled ∧
    ∀ t, (startView n).getMax t = if 2 ≤ t ∧ t < n then -1 else 0 := by
  match n with
  | 0 | 1 =>
    refine ⟨fun h => absurd h Bool.false_ne_true, fun t => ?_⟩
    rw [if_neg (by omega)]
    rfl
  | 2 =>
    have hstart : startView 2 = ⟨none, (1, -1)⟩ := by decide
    refine ⟨fun h => absurd h (by rw [hstart]; exact Bool.false_ne_true), fun t => ?_⟩
    rw [hstart, SignedView.getMax_of_base_none rfl, if_neg (show ¬ (2 ≤ t ∧ t < 2) by omega)]
    simp
  | n + 3 => exact ⟨(getMax_startView_add_three n).1, (getMax_startView_add_three n).2.2⟩

/-- **`doesExecutionExceedBound` looks for a chain of events that goes to an earlier thread more
often than the bound**, where the creations of all threads but the first count.  It stops if there
is nothing to perform. -/
theorem doesExecutionExceedBound_spec (hg : SpawnConsistent g) (bound : ℕ) :
    ((pending g (2 ≤ ·)).Nonempty → ∃ x, doesExecutionExceedBound g bound = some x ∧
      (x = true ↔ ChainExceeds g (2 ≤ ·) bound)) ∧
    (¬ (pending g (2 ≤ ·)).Nonempty → doesExecutionExceedBound g bound = none) := by
  obtain ⟨hsettled, hget⟩ := getMax_startView g.getNumThreads
  have hbegins : ∀ t, 2 ≤ t → 0 < t := fun t ht => Nat.zero_lt_of_lt ht
  have hfits : Fits g (2 ≤ ·) (startView g.getNumThreads) :=
    { settled := hsettled
      begun := fun t ht => by rw [hget, if_neg (fun h => ht h.1)]
      low := fun t => by rw [hget]; split_ifs <;> decide
      high := fun t => by rw [hget]; split_ifs <;> omega }
  have hperf : performed g (2 ≤ ·) (startView g.getNumThreads) = stage g (2 ≤ ·) 0 := by
    refine (Set.eq_empty_of_forall_notMem fun e he => ?_).trans RoundRobin.level_zero.symm
    obtain ⟨lab, hlab⟩ := Option.isSome_iff_exists.1 he.1.1
    have hlt := ExecutionGraph.lt_getNumThreads_of_getEventLabel hlab
    have hle := sees_iff.1 he.2
    have hpend : 0 < e.index ∨ 2 ≤ e.thread := he.1.2
    rw [hget] at hle
    split_ifs at hle <;> omega
  refine ⟨fun hne => ?_, fun hempty => ?_⟩
  · obtain ⟨x, hx, hiff⟩ := boundLoop_spec hg hbegins bound 0 _ hfits hperf
      (RoundRobin.nonempty_iff_not_subset_level.1 hne)
    exact ⟨x, hx, by rw [hiff, Nat.zero_add]⟩
  · obtain ⟨r, heq, -, -, hfound, -⟩ := round_spec hg hbegins hfits hperf
    have hnot : ¬ r.found = true := fun h =>
      hempty (RoundRobin.nonempty_iff_not_subset_level.2 (hfound.1 h))
    rw [doesExecutionExceedBound]
    cases bound <;> rw [boundLoop, heq, Option.bind_eq_bind, Option.bind_some, if_neg hnot]

/-- Creations can only make chains longer. -/
theorem ChainExceeds.with_creations {b : ℕ} (h : ChainExceeds g (fun _ => False) b) :
    ChainExceeds g (2 ≤ ·) b := by
  have hpend : ∀ e, e ∈ pending g (fun _ => False) → e ∈ pending g (2 ≤ ·) := fun e he =>
    ⟨he.1, .inl (he.2.resolve_right id)⟩
  obtain ⟨e, he, d, hd, hlt⟩ := h
  refine ⟨e, hpend e he, d, hd.mono fun p e hpe => ?_, hlt⟩
  exact ⟨hpend p hpe.1, hpend e hpe.2.1, hpe.2.2⟩

/-- The main thread creates a thread, reads what that thread writes, and creates a second thread, of
which the first one reads. -/
def readBetweenCreates : ExecutionGraph :=
  { ExecutionGraph.init with
    events :=
      [[{ ExecutionGraph.initLabel with stamp := some 0 },
        { kind := .ThreadCreate, pos := ⟨0, 1⟩, stamp := some 1, childId := 1 },
        { kind := .Read, pos := ⟨0, 2⟩, stamp := some 4, addr := 8, rf := some ⟨1, 1⟩ },
        { kind := .ThreadCreate, pos := ⟨0, 3⟩, stamp := some 5, childId := 2 }],
       [{ kind := .ThreadStart, pos := ⟨1, 0⟩, stamp := some 2, create := some ⟨0, 1⟩ },
        { kind := .Write, pos := ⟨1, 1⟩, stamp := some 3, addr := 8, readers := [⟨0, 2⟩] },
        { kind := .Read, pos := ⟨1, 2⟩, stamp := some 8, addr := 16, rf := some ⟨2, 1⟩ }],
       [{ kind := .ThreadStart, pos := ⟨2, 0⟩, stamp := some 6, create := some ⟨0, 3⟩ },
        { kind := .Write, pos := ⟨2, 1⟩, stamp := some 7, addr := 16, readers := [⟨1, 2⟩] }]]
    insertionOrder :=
      [⟨0, 0⟩, ⟨0, 1⟩, ⟨1, 0⟩, ⟨1, 1⟩, ⟨0, 2⟩, ⟨0, 3⟩, ⟨2, 0⟩, ⟨2, 1⟩, ⟨1, 2⟩]
    timestamp := 9
    coherence := fun a => if a = 8 then some [⟨1, 1⟩] else if a = 16 then some [⟨2, 1⟩] else none
    initRfs := fun a => if a = 8 ∨ a = 16 then some [] else none }

theorem readBetweenCreates_spawnConsistent : SpawnConsistent readBetweenCreates where
  toSeqConsistent :=
    ExecutionGraph.seqConsistent_of_rank (fun e => readBetweenCreates.insertionOrder.idxOf e)
      [8, 16] (by decide +kernel) (by decide +kernel) (by decide +kernel) fun a ha => by
        simp only [List.mem_cons, List.not_mem_nil, or_false, not_or] at ha
        simp [readBetweenCreates, ExecutionGraph.co, ExecutionGraph.initReaders, ha]
  starts := ExecutionGraph.forall_label_iff.2 (by decide)
  created := by
    intro t ht htn
    have hn : t < 3 := htn
    obtain rfl | rfl : t = 1 ∨ t = 2 := by omega
    · exact ⟨_, _, _, rfl, rfl, rfl, rfl, rfl⟩
    · exact ⟨_, _, _, rfl, rfl, rfl, rfl, rfl⟩

/-- **When the two functions agree on a bound**: there is something to perform, and if some chain of
events exceeds the bound, then so does one without creations. -/
theorem agree_iff (g : ExecutionGraph) (hg : SpawnConsistent g) (bound : ℕ) :
    doesExecutionExceedBound g bound = (calculate g).map (fun c => decide (bound < c)) ↔
      (pending g (2 ≤ ·)).Nonempty ∧
        (ChainExceeds g (2 ≤ ·) bound → ChainExceeds g (fun _ => False) bound) := by
  obtain ⟨c, hc, hiff⟩ := calculate_spec hg
  obtain ⟨hsome, hnone⟩ := doesExecutionExceedBound_spec hg bound
  rw [hc, Option.map_some]
  by_cases hne : (pending g (2 ≤ ·)).Nonempty
  · obtain ⟨x, hx, hxiff⟩ := hsome hne
    rw [hx, and_iff_right hne, Option.some_inj, Bool.eq_iff_iff, hxiff, decide_eq_true_eq, hiff]
    exact ⟨fun h => h.1, fun h => ⟨h, fun h' => h'.with_creations⟩⟩
  · rw [hnone hne]
    exact iff_of_false (Option.some_ne_none _).symm fun h => hne h.1

theorem readBetweenCreates_agree_iff :
    doesExecutionExceedBound readBetweenCreates 0 =
        (calculate readBetweenCreates).map (fun c => decide (0 < c)) ↔
      (pending readBetweenCreates (2 ≤ ·)).Nonempty ∧
        (ChainExceeds readBetweenCreates (2 ≤ ·) 0 →
          ChainExceeds readBetweenCreates (fun _ => False) 0) :=
  agree_iff readBetweenCreates readBetweenCreates_spawnConsistent 0

/-- The second thread starts in the second round, and what the first one reads from it takes a
third. -/
theorem readBetweenCreates_disagree :
    SpawnConsistent readBetweenCreates ∧
      doesExecutionExceedBound readBetweenCreates 1 = some true ∧
      (calculate readBetweenCreates).map (fun c => decide (1 < c)) = some false :=
  ⟨readBetweenCreates_spawnConsistent, by decide +kernel, by decide +kernel⟩

end RoundBoundDecider
end GenMC
