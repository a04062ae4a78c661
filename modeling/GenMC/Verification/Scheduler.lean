import GenMC.Execution.WellFormed
import GenMC.Library.ChainDFS

/-!
# The replay schedule

When the exploration moves to another graph, the threads are run again along it, in an order in
which every event comes after the events it depends on.  `calculateReplaySchedule` computes that
order by a depth-first traversal from the last event of each thread, `calcPorfReplay`.

The traversal is the one of `ChainDFS`, with threads as chains and everything of index `0` taken
from the start, because an empty view contains the begin of every thread.  So begins are never
looked at, and *the case that would serve the creation of a thread is never reached*.

* `calcPorfReplay_eq_visit` is that correspondence.
* `mem_preliminarySchedule` and `before_of_past` are what holds of every schedule: each non-block
  event of index at least one is there, and after everything in its `Past`, that is, after its
  predecessors in program order, after the write it reads from and after the end of the thread it
  joins.
* `Requests g S e` says, from the graph alone, that the traversal asks for `e` when `S` has been
  asked for.  `replay_respects_causality_iff` says exactly when threads also come after their
  creation: whenever a thread is asked for, its creation has been asked for before, or is
  something the first event of the thread depends on by reads and joins.
-/

set_option autoImplicit false

namespace GenMC

/-- The options that the replay schedule depends on. -/
structure Config where
  replayCompletedThreads : Bool
  disableRaceDetection : Bool

namespace Scheduler

open ExecutionGraph

/-! ## The schedule -/

/-- The label that `calcPorfReplay` serves before it schedules `pLab`. -/
def replayDep (g : ExecutionGraph) (pLab : EventLabel) : Option Event :=
  if pLab.isRead then pLab.rf
  else if pLab.kind = .ThreadJoin then (g.getLastThreadLabel pLab.childId).map (·.pos)
  else if pLab.isThreadStart then pLab.create
  else none

/-- Schedules a label and what it depends on.  The fuel bounds the depth of the recursion. -/
def calcPorfReplay (g : ExecutionGraph) : ℕ → Option Event → View × List Event → View × List Event
  | 0, _, st => st
  | _ + 1, none, st => st
  | fuel + 1, some e, st =>
    if st.1.contains e then st
    else
      (List.range' (st.1.getMax e.thread + 1) (e.index - st.1.getMax e.thread)).foldl
        (fun st j =>
          match g.getEventLabel ⟨e.thread, j⟩ with
          | none => st
          | some pLab =>
            let st' := calcPorfReplay g fuel (replayDep g pLab) st
            if pLab.isBlock then st' else (st'.1, st'.2 ++ [pLab.pos]))
        (st.1.updateIdx e, st.2)

/-- Whether a thread can take a step. -/
def isSchedulable (g : ExecutionGraph) (t : ℕ) : Bool :=
  !((g.getLastThreadLabel t).any (·.isTerminator))

/-- The order of the events before any is filtered out.  No chain of requests is longer than the
number of labels. -/
def preliminarySchedule (g : ExecutionGraph) : List Event :=
  ((List.range g.getNumThreads).foldl
    (fun st i => calcPorfReplay g (g.labels.length + 1) ((g.getLastThreadLabel i).map (·.pos)) st)
    (View.empty, [])).2

/-- The schedule, last event first.  When an error is replayed, its event is moved to the end;
there is no schedule if it is not an event of the graph. -/
def calculateReplaySchedule (g : ExecutionGraph) (conf : Config) (errorEvent : Option Event) :
    Option (List Event) := do
  let result := preliminarySchedule g
  let result ← match errorEvent with
    | none => some result
    | some e => if e ∈ result then some (result.erase e ++ [e]) else none
  let result :=
    if !conf.replayCompletedThreads && errorEvent.isNone then
      result.filter fun pos => !(!isSchedulable g pos.thread &&
        !((g.getLastThreadLabel pos.thread).any (·.isBlock)))
    else result
  let result :=
    if !conf.disableRaceDetection then
      result.filter fun pos => !((g.getEventLabel pos).any (·.isNotAtomic))
    else result
  return result.reverse

/-! ## The schedule as a traversal of chains -/

/-- Threads are chains of events. -/
def threads : ChainDFS.Chains Event ℕ where
  chain := Event.thread
  idx := Event.index
  node := Event.mk
  chain_node _ _ := rfl
  idx_node _ _ := rfl
  node_eta _ := rfl

/-- What an event waits for. -/
def waitsFor (g : ExecutionGraph) (e : Event) : Option Event :=
  (g.getEventLabel e).bind (replayDep g)

/-- Begins are taken from the start. -/
def begins : ℕ → ℕ := fun _ => 1

/-- The last labels of the threads. -/
def lastEvents (g : ExecutionGraph) : List Event :=
  (List.range g.getNumThreads).filterMap fun i => (g.getLastThreadLabel i).map (·.pos)

/-- Whether an event is a label that gets scheduled. -/
def isReplayed (g : ExecutionGraph) (e : Event) : Bool := (g.getEventLabel e).any (!·.isBlock)

/-- What a state of the chain traversal is for the scheduler: a view instead of counts, and a
schedule without blocks. -/
def toReplay (g : ExecutionGraph) (st : (ℕ → ℕ) × List Event) : View × List Event :=
  (⟨fun t => st.1 t - 1⟩, st.2.filter (isReplayed g))

variable {g : ExecutionGraph}

/-- The loop of `calcPorfReplay` is the walk of a request, if the recursive calls are requests. -/
theorem foldl_replay_eq (hs : g.Slots) {fuel : ℕ} (t : ℕ)
    (ih : ∀ e st, (∀ t, 1 ≤ st.1 t) → calcPorfReplay g fuel e (toReplay g st) =
      toReplay g (ChainDFS.visit threads (waitsFor g) fuel e st))
    (l : List ℕ) (st : (ℕ → ℕ) × List Event) (hst : ∀ t, 1 ≤ st.1 t) :
    l.foldl
        (fun st j =>
          match g.getEventLabel ⟨t, j⟩ with
          | none => st
          | some pLab =>
            let st' := calcPorfReplay g fuel (replayDep g pLab) st
            if pLab.isBlock then st' else (st'.1, st'.2 ++ [pLab.pos]))
        (toReplay g st) =
      toReplay g ((l.map (threads.node t)).foldl
        (ChainDFS.serve (waitsFor g) (ChainDFS.visit threads (waitsFor g) fuel)) st) := by
  induction l generalizing st with
  | nil => rfl
  | cons j l ihl =>
    rw [List.foldl_cons, List.map_cons, List.foldl_cons]
    have hserve : ∀ t', 1 ≤ (ChainDFS.serve (waitsFor g)
        (ChainDFS.visit threads (waitsFor g) fuel) st (threads.node t j)).1 t' :=
      fun t' => (hst t').trans (ChainDFS.le_visit _ _ _ _)
    rw [← ihl _ hserve]
    congr 1
    rcases hlab : g.getEventLabel ⟨t, j⟩ with _ | pLab
    · have hw : waitsFor g (threads.node t j) = none := by
        simp [waitsFor, threads, hlab]
      have hr : isReplayed g (threads.node t j) = false := by
        simp [isReplayed, threads, hlab]
      simp [ChainDFS.serve, hw, toReplay, hr]
    · have hw : waitsFor g (threads.node t j) = replayDep g pLab := by
        simp [waitsFor, threads, hlab]
      have hr : isReplayed g (threads.node t j) = !pLab.isBlock := by
        simp [isReplayed, threads, hlab]
      have hpos : pLab.pos = threads.node t j := hs _ _ hlab
      simp only [ih _ _ hst, ChainDFS.serve, hw, hpos]
      cases hb : pLab.isBlock
      · simp [toReplay, hr, hb]
      · simp [toReplay, hr, hb]

/-- `calcPorfReplay` is a request of the chain traversal. -/
theorem calcPorfReplay_eq_visit (hs : g.Slots) (fuel : ℕ) (e : Option Event)
    (st : (ℕ → ℕ) × List Event) (hst : ∀ t, 1 ≤ st.1 t) :
    calcPorfReplay g fuel e (toReplay g st) =
      toReplay g (ChainDFS.visit threads (waitsFor g) fuel e st) := by
  induction fuel generalizing e st with
  | zero => rfl
  | succ fuel ih =>
    cases e with
    | none => rfl
    | some e =>
      have hpos := hst e.thread
      rw [calcPorfReplay, ChainDFS.visit]
      have hcond : (toReplay g st).1.contains e = true ↔
          threads.idx e < st.1 (threads.chain e) := by
        simp only [toReplay, View.contains_iff, threads]
        omega
      by_cases hm : threads.idx e < st.1 (threads.chain e)
      · rw [if_pos hm, if_pos (hcond.2 hm)]
      · rw [if_neg hm, if_neg (fun h => hm (hcond.1 h))]
        have hlt : st.1 e.thread ≤ e.index := not_lt.1 hm
        have hmark : ((toReplay g st).1.updateIdx e, (toReplay g st).2) =
            toReplay g (ChainDFS.mark threads e st) := by
          refine Prod.ext (View.ext (funext fun t => ?_)) rfl
          rw [View.getMax_updateIdx]
          simp only [toReplay, ChainDFS.mark, threads, Function.update_apply]
          split
          · subst_vars
            omega
          · rfl
        have hrange : List.range' ((toReplay g st).1.getMax e.thread + 1)
            (e.index - (toReplay g st).1.getMax e.thread) =
            List.range' (st.1 e.thread) (e.index + 1 - st.1 e.thread) := by
          simp only [toReplay]
          congr 1 <;> omega
        rw [hrange, hmark]
        refine foldl_replay_eq hs e.thread ih _ _ fun t => ?_
        simp only [ChainDFS.mark, threads, Function.update_apply]
        split
        · omega
        · exact hst t

/-- The preliminary schedule is the traversal from the last events, without the blocks. -/
theorem preliminarySchedule_eq (hs : g.Slots) :
    preliminarySchedule g =
      (ChainDFS.visitAll threads (waitsFor g) (g.labels.length + 1) (lastEvents g)
        (begins, [])).2.filter (isReplayed g) := by
  have hfold : ∀ (l : List ℕ) (st : (ℕ → ℕ) × List Event), (∀ t, 1 ≤ st.1 t) →
      l.foldl (fun st i => calcPorfReplay g (g.labels.length + 1)
          ((g.getLastThreadLabel i).map (·.pos)) st) (toReplay g st) =
        toReplay g (ChainDFS.visitAll threads (waitsFor g) (g.labels.length + 1)
          (l.filterMap fun i => (g.getLastThreadLabel i).map (·.pos)) st) := by
    intro l
    induction l with
    | nil => exact fun _ _ => rfl
    | cons i l ih =>
      intro st hst
      rw [List.foldl_cons, calcPorfReplay_eq_visit hs _ _ _ hst,
        ih _ fun t => (hst t).trans (ChainDFS.le_visit _ _ _ _)]
      cases hlast : g.getLastThreadLabel i with
      | none => simp [hlast]
      | some lab => simp [hlast, ChainDFS.visitAll]
  have h := hfold (List.range g.getNumThreads) (begins, []) fun _ => le_rfl
  rw [preliminarySchedule, lastEvents]
  rw [show (View.empty, ([] : List Event)) = toReplay g (begins, []) from rfl, h]
  rfl

/-! ## What every schedule does -/

/-- `a` is in the past of `b`: it comes before `b` along program order, reads-from and joins, as
far as begins. -/
def Past (g : ExecutionGraph) (a b : Event) : Prop :=
  ChainDFS.Past threads (waitsFor g) begins a b

/-- The traversal asks for event `e` at a moment when `S` has been asked for. -/
def Requests (g : ExecutionGraph) (S : Event → Prop) (e : Event) : Prop :=
  ChainDFS.Asks threads (waitsFor g) begins (lastEvents g) S e

/-- What the traversal waits for is a causal edge. -/
theorem causalEdge_of_waitsFor {a b : Event} (h : waitsFor g b = some a) : CausalEdge g a b := by
  rcases hlab : g.getEventLabel b with _ | lab
  · simp [waitsFor, hlab] at h
  · simp only [waitsFor, hlab, Option.bind_some, replayDep] at h
    split at h
    · rename_i hr
      exact CausalEdge.rf hlab hr h
    · split at h
      · rename_i hj
        obtain ⟨lastLab, hlast, rfl⟩ := Option.map_eq_some_iff.1 h
        exact CausalEdge.join hlab hj hlast
      · split at h
        · rename_i hst
          exact CausalEdge.create hlab hst h
        · simp at h

/-- Precedence in the traversal is causality, for events of the graph. -/
theorem causalEdge_of_prec {base : ℕ → ℕ} {a b : Event} (hb : (g.getEventLabel b).isSome)
    (h : ChainDFS.Prec threads (waitsFor g) base a b) : CausalEdge g a b := by
  obtain ⟨-, ⟨hc, hi⟩ | hd⟩ := h
  · obtain ⟨ta, ia⟩ := a
    obtain ⟨tb, ib⟩ := b
    obtain rfl : ta = tb := hc
    obtain rfl : ia + 1 = ib := hi
    exact CausalEdge.po hb
  · exact causalEdge_of_waitsFor hd

/-- The past of an event of the graph is in the graph. -/
theorem isSome_of_past (hs : g.Slots) (hl : g.Linked) {base : ℕ → ℕ} {a b : Event}
    (hb : (g.getEventLabel b).isSome) (h : ChainDFS.Past threads (waitsFor g) base a b) :
      (g.getEventLabel a).isSome := by
  induction h using Relation.ReflTransGen.head_induction_on with
  | refl => exact hb
  | head hab _ ih => exact (causalEdge_of_prec ih hab).isSome hl hs

/-- A cycle of the traversal would be a causal cycle. -/
theorem acyclic_of_causallyAcyclic (hs : g.Slots) (hl : g.Linked) (hac : g.CausallyAcyclic)
    (base : ℕ → ℕ) : ChainDFS.Acyclic threads (waitsFor g) base := by
  intro x hx
  -- a cycle outside the graph would be a descent in program order
  by_cases hsome : (g.getEventLabel x).isSome
  · have hmono : ∀ y, Relation.TransGen (ChainDFS.Prec threads (waitsFor g) base) y x →
        Relation.TransGen (CausalEdge g) y x := by
      intro y hy
      induction hy using Relation.TransGen.head_induction_on with
      | single h => exact Relation.TransGen.single (causalEdge_of_prec hsome h)
      | head h h' ih =>
        exact Relation.TransGen.head
          (causalEdge_of_prec (isSome_of_past hs hl hsome h'.to_reflTransGen) h) ih
    exact hac x (hmono x hx)
  · have hlt : ∀ y, Relation.TransGen (ChainDFS.Prec threads (waitsFor g) base) y x →
        (g.getEventLabel y).isSome ∨ y.index < x.index ∧ y.thread = x.thread := by
      intro y hy
      induction hy using Relation.TransGen.head_induction_on with
      | single h =>
        obtain ⟨-, ⟨hc, hi⟩ | hd⟩ := h
        · right
          simp only [threads] at hc hi
          omega
        · left
          exact (causalEdge_of_waitsFor hd).isSome hl hs
      | head h h' ih =>
        obtain ⟨-, ⟨hc, hi⟩ | hd⟩ := h
        · rcases ih with ih | ih
          · exact Or.inl (getEventLabel_isSome_of_le ih hc (by simp only [threads] at hi; omega))
          · right
            simp only [threads] at hc hi
            omega
        · left
          exact (causalEdge_of_waitsFor hd).isSome hl hs
    rcases hlt x hx with h | h
    · exact hsome h
    · omega

/-- The last events are labels of the graph. -/
theorem isSome_of_mem_lastEvents (hs : g.Slots) {r : Event} (hr : r ∈ lastEvents g) :
    (g.getEventLabel r).isSome := by
  obtain ⟨i, -, hi⟩ := List.mem_filterMap.1 hr
  obtain ⟨lab, hlab, rfl⟩ := Option.map_eq_some_iff.1 hi
  have hlab' := (getLastThreadLabel_eq_some.1 hlab).2
  rw [hs _ _ hlab', hlab']
  rfl

/-- Every event of the graph is in the past of a last event. -/
theorem exists_mem_lastEvents (hs : g.Slots) {base : ℕ → ℕ} (hbase : ∀ t, base t ≤ 1) {e : Event}
    (he : (g.getEventLabel e).isSome) :
    ∃ r ∈ lastEvents g, ChainDFS.Past threads (waitsFor g) base e r := by
  obtain ⟨lab, hlab⟩ := Option.isSome_iff_exists.1 he
  obtain ⟨thr, hthr, hi⟩ := getEventLabel_eq_some.1 hlab
  have hidx : e.index < g.getThreadSize e.thread := by
    obtain ⟨h, -⟩ := List.getElem?_eq_some_iff.1 hi
    simpa [getThreadSize, List.getD_eq_getElem?_getD, hthr] using h
  have hlen : e.thread < g.getNumThreads := (List.getElem?_eq_some_iff.1 hthr).1
  obtain ⟨lastLab, hlast⟩ : ∃ lab, g.getLastThreadLabel e.thread = some lab := by
    have : (g.getEventLabel ⟨e.thread, g.getThreadSize e.thread - 1⟩).isSome := by
      simp only [getEventLabel, isSome_getElem?]
      rw [getThreadSize] at hidx ⊢
      omega
    obtain ⟨lab, h⟩ := Option.isSome_iff_exists.1 this
    exact ⟨lab, getLastThreadLabel_eq_some.2 ⟨by omega, h⟩⟩
  have hpos : lastLab.pos = ⟨e.thread, g.getThreadSize e.thread - 1⟩ :=
    hs _ _ (getLastThreadLabel_eq_some.1 hlast).2
  refine ⟨lastLab.pos, List.mem_filterMap.2 ⟨e.thread, List.mem_range.2 hlen, by simp [hlast]⟩, ?_⟩
  rw [hpos]
  refine ChainDFS.past_of_idx_le rfl ?_ ?_
  · exact (hbase _).trans (Nat.le_add_left _ _)
  · simp only [threads]
    omega

/-- No chain of requests is longer than the number of labels. -/
theorem enough_fuel (hs : g.Slots) (hl : g.Linked) (base : ℕ → ℕ) :
    ChainDFS.Enough threads (waitsFor g) base (g.labels.length + 1) (lastEvents g) := by
  refine ⟨(g.labels.map (·.pos)).toFinset, fun r hr x hx _ => ?_, ?_⟩
  · obtain ⟨lab, hlab⟩ :=
      Option.isSome_iff_exists.1 (isSome_of_past hs hl (isSome_of_mem_lastEvents hs hr) hx)
    rw [List.mem_toFinset]
    exact List.mem_map.2 ⟨lab, mem_labels.2 ⟨x, hlab⟩, hs x lab hlab⟩
  · exact Nat.lt_succ_of_le ((List.toFinset_card_le _).trans (by simp))

theorem isSome_of_isReplayed {e : Event} (h : isReplayed g e = true) :
    (g.getEventLabel e).isSome := by
  cases hlab : g.getEventLabel e with
  | none => simp [isReplayed, hlab] at h
  | some lab => rfl

/-- The traversal before blocks are left out. -/
def fullSchedule (g : ExecutionGraph) : List Event :=
  (ChainDFS.visitAll threads (waitsFor g) (g.labels.length + 1) (lastEvents g) (begins, [])).2

section

variable (hs : g.Slots) (hl : g.Linked) (hac : g.CausallyAcyclic)
include hs hl hac

theorem fullSchedule_served :
    ChainDFS.Served threads (waitsFor g) begins (fun x => ∃ r ∈ lastEvents g, Past g x r)
      (begins, []) (ChainDFS.visitAll threads (waitsFor g) (g.labels.length + 1) (lastEvents g)
        (begins, [])) :=
  ChainDFS.visitAll_spec (acyclic_of_causallyAcyclic hs hl hac begins) (enough_fuel hs hl begins)
    (List.prefix_refl _)

theorem fullSchedule_nodup : (fullSchedule g).Nodup :=
  (fullSchedule_served hs hl hac).listing.nodup

theorem preliminarySchedule_nodup : (preliminarySchedule g).Nodup := by
  rw [preliminarySchedule_eq hs]
  exact (fullSchedule_nodup hs hl hac).filter _

/-- The traversal lists the events of the graph of index at least one. -/
theorem mem_fullSchedule {e : Event} :
    e ∈ fullSchedule g ↔ (g.getEventLabel e).isSome ∧ 1 ≤ e.index := by
  rw [fullSchedule, (fullSchedule_served hs hl hac).mem_iff]
  refine ⟨?_, ?_⟩
  · rintro (h | ⟨⟨r, hr, hpast⟩, hb⟩)
    · simp at h
    · exact ⟨isSome_of_past hs hl (isSome_of_mem_lastEvents hs hr) hpast, hb⟩
  · rintro ⟨h, hb⟩
    exact Or.inr ⟨exists_mem_lastEvents hs (fun _ => le_rfl) h, hb⟩

theorem mem_preliminarySchedule {e : Event} :
    e ∈ preliminarySchedule g ↔ isReplayed g e = true ∧ 1 ≤ e.index := by
  rw [preliminarySchedule_eq hs, List.mem_filter]
  refine (and_congr_left' (mem_fullSchedule hs hl hac)).trans ?_
  refine ⟨?_, ?_⟩
  · rintro ⟨⟨-, h1⟩, h2⟩
    exact ⟨h2, h1⟩
  · rintro ⟨h1, h2⟩
    exact ⟨⟨isSome_of_isReplayed h1, h2⟩, h1⟩

omit hl hac in
theorem before_preliminarySchedule_iff {a b : Event} :
    ListOrder.Before (preliminarySchedule g) a b ↔
      ListOrder.Before (fullSchedule g) a b ∧ isReplayed g a = true ∧ isReplayed g b = true := by
  rw [preliminarySchedule_eq hs, ListOrder.before_filter_iff]
  rfl

/-- What is scheduled comes after whatever is in its past. -/
theorem before_of_past {a b : Event} (ha : a ∈ preliminarySchedule g)
    (hb : b ∈ preliminarySchedule g) (hab : Past g a b) (hne : a ≠ b) :
    ListOrder.Before (preliminarySchedule g) a b := by
  obtain ⟨ha₁, ha₂⟩ := (mem_preliminarySchedule hs hl hac).1 ha
  obtain ⟨hb₁, hb₂⟩ := (mem_preliminarySchedule hs hl hac).1 hb
  refine (before_preliminarySchedule_iff hs).2 ⟨?_, ha₁, hb₁⟩
  refine (fullSchedule_served hs hl hac).listing.before_of_past ?_ hab hne ha₂
  rw [← fullSchedule, mem_fullSchedule hs hl hac]
  exact ⟨isSome_of_isReplayed hb₁, hb₂⟩

end

/-! ## When threads come after their creation -/

/-- The order `order`, read from the first event to the last, is causal: it has every non-block
event of index at least one exactly once, after its predecessors in program order, after the write
it reads from, after the last event of the thread it joins, and after the creation of its
thread. -/
structure RespectsCausality (g : ExecutionGraph) (order : List Event) : Prop where
  once : ∀ e, order.count e = if isReplayed g e = true ∧ 1 ≤ e.index then 1 else 0
  po : ∀ a ∈ order, ∀ b ∈ order, a.thread = b.thread → a.index < b.index →
    ListOrder.Before order a b
  rf : ∀ e ∈ order, ∀ lab w, g.getEventLabel e = some lab → lab.isRead = true →
    lab.rf = some w → w ∈ order → ListOrder.Before order w e
  join : ∀ e ∈ order, ∀ lab lastLab, g.getEventLabel e = some lab → lab.kind = .ThreadJoin →
    g.getLastThreadLabel lab.childId = some lastLab → lastLab.pos ∈ order →
    ListOrder.Before order lastLab.pos e
  create : ∀ e ∈ order, ∀ bLab c, g.getFirstThreadLabel e.thread = some bLab →
    bLab.create = some c → c ∈ order → ListOrder.Before order c e

/-- Whenever a thread is asked for, its creation has been asked for before, or is in the past of
the thread's first event along reads and joins. -/
def CreatesRequestedFirst (g : ExecutionGraph) : Prop :=
  ∀ t bLab c, g.getFirstThreadLabel t = some bLab → bLab.create = some c →
    isReplayed g c = true → 1 ≤ c.index → isReplayed g ⟨t, 1⟩ = true →
    ∀ S e, Requests g S e → e.thread = t → 1 ≤ e.index → S c ∨ Past g c ⟨t, 1⟩

/-- A block ends its thread, so a thread with a scheduled event has a scheduled first event. -/
theorem isReplayed_first (hl : g.Linked) {e : Event} (he : isReplayed g e = true)
    (hi : 1 ≤ e.index) : isReplayed g ⟨e.thread, 1⟩ = true := by
  rcases hi.eq_or_lt with heq | hlt
  · rwa [show (⟨e.thread, 1⟩ : Event) = e from Event.ext_iff'.2 ⟨rfl, heq⟩]
  · have hsome := isSome_of_isReplayed he
    obtain ⟨lab, hlab⟩ := Option.isSome_iff_exists.1
      (getEventLabel_isSome_of_le (a := ⟨e.thread, 1⟩) hsome rfl hi)
    have hnext := getEventLabel_isSome_of_le (a := ⟨e.thread, 2⟩) hsome rfl hlt
    cases hb : lab.isBlock with
    | false => simp [isReplayed, hlab, hb]
    | true =>
      have := hl.block _ _ hlab hb
      rw [Event.next] at this
      simp [this] at hnext

/-- A thread cannot have been created by its own first event. -/
theorem create_ne (hac : g.CausallyAcyclic) {t : ℕ} {bLab : EventLabel} {c : Event}
    (hb : g.getFirstThreadLabel t = some bLab) (hc : bLab.create = some c)
    (h1 : (g.getEventLabel ⟨t, 1⟩).isSome) : c ≠ ⟨t, 1⟩ := by
  rintro rfl
  obtain ⟨hb₁, hb₂⟩ := Option.filter_eq_some_iff.1 hb
  exact hac ⟨t, 1⟩ (Relation.TransGen.head (CausalEdge.create hb₁ hb₂ hc)
    (Relation.TransGen.single (CausalEdge.po h1)))

/-- The first event of a thread is scheduled after the creation of the thread exactly when the
creation is requested first. -/
theorem create_before_iff (hs : g.Slots) (hl : g.Linked) (hac : g.CausallyAcyclic) {t : ℕ}
    {c : Event} (hc : isReplayed g c = true) (hci : 1 ≤ c.index)
    (h1 : isReplayed g ⟨t, 1⟩ = true) (hne : c ≠ ⟨t, 1⟩) :
    ListOrder.Before (preliminarySchedule g) c ⟨t, 1⟩ ↔
      ∀ S e, Requests g S e → e.thread = t → 1 ≤ e.index → S c ∨ Past g c ⟨t, 1⟩ := by
  rw [before_preliminarySchedule_iff hs, and_iff_left ⟨hc, h1⟩]
  refine ChainDFS.listed_before_iff (acyclic_of_causallyAcyclic hs hl hac begins)
    (enough_fuel hs hl begins) rfl ?_ hne hci
  rw [← fullSchedule, mem_fullSchedule hs hl hac]
  exact ⟨isSome_of_isReplayed h1, le_rfl⟩

/-- What every replay schedule does, whether or not threads come after their creation. -/
theorem respectsCausality_iff_create (hs : g.Slots) (hl : g.Linked) (hac : g.CausallyAcyclic) :
    RespectsCausality g (preliminarySchedule g) ↔
      ∀ e ∈ preliminarySchedule g, ∀ bLab c, g.getFirstThreadLabel e.thread = some bLab →
        bLab.create = some c → c ∈ preliminarySchedule g →
        ListOrder.Before (preliminarySchedule g) c e := by
  refine ⟨fun h => h.create, fun h => ⟨fun e => ?_, ?_, ?_, ?_, h⟩⟩
  · rw [List.Nodup.count (preliminarySchedule_nodup hs hl hac)]
    simp only [mem_preliminarySchedule hs hl hac]
  · intro a ha b hb ht hi
    refine before_of_past hs hl hac ha hb (ChainDFS.past_of_idx_le ht ?_ hi.le) ?_
    · simp [begins]
    · rintro rfl
      exact lt_irrefl _ hi
  · intro e he lab w hlab hr hw hwmem
    have hedge : waitsFor g e = some w := by simp [waitsFor, hlab, replayDep, hr, hw]
    refine before_of_past hs hl hac hwmem he ?_ ?_
    · exact ChainDFS.past_of_dep ((mem_preliminarySchedule hs hl hac).1 he).2 hedge
        (ChainDFS.Past.refl w)
    · rintro rfl
      exact hac w (Relation.TransGen.single (causalEdge_of_waitsFor hedge))
  · intro e he lab lastLab hlab hj hlast hmem
    have hr : lab.isRead = false := by simp [EventLabel.isRead, hj]; rfl
    have hedge : waitsFor g e = some lastLab.pos := by
      simp [waitsFor, hlab, replayDep, hr, hj, hlast]
    refine before_of_past hs hl hac hmem he ?_ ?_
    · exact ChainDFS.past_of_dep ((mem_preliminarySchedule hs hl hac).1 he).2 hedge
        (ChainDFS.Past.refl _)
    · rintro rfl
      exact hac _ (Relation.TransGen.single (causalEdge_of_waitsFor hedge))

/-- **When the replay schedule respects causality.**  For a graph whose causality is acyclic, the
schedule computed with all filters off is causal exactly when no thread is asked for before its
creation. -/
theorem replay_respects_causality_iff (g : ExecutionGraph) (conf : Config) (hs : g.Slots)
    (hl : g.Linked) (hac : g.CausallyAcyclic) (hconf : conf.replayCompletedThreads = true)
    (hconf' : conf.disableRaceDetection = true) :
    (∃ schedule, calculateReplaySchedule g conf none = some schedule ∧
        RespectsCausality g schedule.reverse) ↔ CreatesRequestedFirst g := by
  have hcalc : calculateReplaySchedule g conf none = some (preliminarySchedule g).reverse := by
    simp [calculateReplaySchedule, hconf, hconf']
  rw [hcalc]
  simp only [Option.some.injEq, exists_eq_left', List.reverse_reverse]
  rw [respectsCausality_iff_create hs hl hac]
  refine ⟨fun h t bLab c hb hc hcr hci h1 => ?_, fun h e he bLab c hb hc hcmem => ?_⟩
  · have hne := create_ne hac hb hc (isSome_of_isReplayed h1)
    refine (create_before_iff hs hl hac hcr hci h1 hne).1 (h _ ?_ bLab c hb hc ?_)
    · exact (mem_preliminarySchedule hs hl hac).2 ⟨h1, le_rfl⟩
    · exact (mem_preliminarySchedule hs hl hac).2 ⟨hcr, hci⟩
  · obtain ⟨he₁, he₂⟩ := (mem_preliminarySchedule hs hl hac).1 he
    obtain ⟨hcr, hci⟩ := (mem_preliminarySchedule hs hl hac).1 hcmem
    have h1 := isReplayed_first hl he₁ he₂
    have hne := create_ne hac hb hc (isSome_of_isReplayed h1)
    have hfirst := (create_before_iff hs hl hac hcr hci h1 hne).2
      (h e.thread bLab c hb hc hcr hci h1)
    rcases he₂.eq_or_lt with heq | hlt
    · rwa [show (⟨e.thread, 1⟩ : Event) = e from Event.ext_iff'.2 ⟨rfl, heq⟩] at hfirst
    · refine hfirst.trans (preliminarySchedule_nodup hs hl hac) ?_
      refine before_of_past hs hl hac ((mem_preliminarySchedule hs hl hac).2 ⟨h1, le_rfl⟩) he
        (ChainDFS.past_of_idx_le rfl ?_ he₂) ?_
      · simp [begins]
      · intro heq
        rw [← heq] at hlt
        exact lt_irrefl _ hlt

/-- The main thread creates thread 1 and reads what thread 2 writes; thread 2 is created by
thread 1. -/
def nestedCreation : ExecutionGraph :=
  { init with
    events :=
      [[{ initLabel with stamp := some 0 },
        { kind := .ThreadCreate, pos := ⟨0, 1⟩, stamp := some 1, childId := 1 },
        { kind := .Read, pos := ⟨0, 2⟩, stamp := some 6, addr := 8, rf := some ⟨2, 1⟩ }],
       [{ kind := .ThreadStart, pos := ⟨1, 0⟩, stamp := some 2, createId := ⟨0, 1⟩,
          create := some ⟨0, 1⟩ },
        { kind := .ThreadCreate, pos := ⟨1, 1⟩, stamp := some 3, childId := 2 }],
       [{ kind := .ThreadStart, pos := ⟨2, 0⟩, stamp := some 4, createId := ⟨1, 1⟩,
          create := some ⟨1, 1⟩ },
        { kind := .Write, pos := ⟨2, 1⟩, stamp := some 5, addr := 8, readers := [⟨0, 2⟩] }]]
    insertionOrder := [⟨0, 0⟩, ⟨0, 1⟩, ⟨1, 0⟩, ⟨1, 1⟩, ⟨2, 0⟩, ⟨2, 1⟩, ⟨0, 2⟩]
    timestamp := 7
    coherence := fun a => if a = 8 then some [⟨2, 1⟩] else none
    initRfs := fun a => if a = 8 then some [] else none
    accessMap := fun a => if a = 8 then some [⟨2, 1⟩, ⟨0, 2⟩] else none }

theorem nestedCreation_slots : nestedCreation.Slots := by decide

theorem nestedCreation_linked : nestedCreation.Linked := by decide

/-- Events are ranked by their place in the insertion order. -/
theorem nestedCreation_causallyAcyclic : nestedCreation.CausallyAcyclic :=
  causallyAcyclic_of_rank (fun e => nestedCreation.insertionOrder.idxOf e) (by decide)

/-- The write of thread 2 is scheduled for the read of the main thread, before thread 1 gets to
create thread 2. -/
theorem nestedCreation_schedule :
    calculateReplaySchedule nestedCreation ⟨true, true⟩ none =
      some [⟨1, 1⟩, ⟨0, 2⟩, ⟨2, 1⟩, ⟨0, 1⟩] := by
  decide

theorem nestedCreation_not_respectsCausality :
    ¬ RespectsCausality nestedCreation [⟨0, 1⟩, ⟨2, 1⟩, ⟨0, 2⟩, ⟨1, 1⟩] := by
  intro h
  have hbefore := h.create ⟨2, 1⟩ (by decide) _ ⟨1, 1⟩ rfl rfl (by decide)
  have hmem := hbefore.mem_pre (by decide) (p := [⟨0, 1⟩, ⟨2, 1⟩]) (by decide) (by decide)
  exact absurd hmem (by decide)

theorem nestedCreation_replayed_before_creation :
    nestedCreation.Slots ∧ nestedCreation.Linked ∧ nestedCreation.CausallyAcyclic ∧
      ¬ ∃ schedule, calculateReplaySchedule nestedCreation ⟨true, true⟩ none = some schedule ∧
        RespectsCausality nestedCreation schedule.reverse := by
  refine ⟨nestedCreation_slots, nestedCreation_linked, nestedCreation_causallyAcyclic, ?_⟩
  rintro ⟨schedule, hschedule, h⟩
  rw [nestedCreation_schedule] at hschedule
  cases hschedule
  exact nestedCreation_not_respectsCausality h

theorem nestedCreation_create_requested_late : ¬ CreatesRequestedFirst nestedCreation := by
  rw [← replay_respects_causality_iff nestedCreation ⟨true, true⟩ nestedCreation_slots
    nestedCreation_linked nestedCreation_causallyAcyclic rfl rfl]
  rintro ⟨schedule, hschedule, h⟩
  rw [nestedCreation_schedule] at hschedule
  cases hschedule
  exact nestedCreation_not_respectsCausality h

end Scheduler
end GenMC
