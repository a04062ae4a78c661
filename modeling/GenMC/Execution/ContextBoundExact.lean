import GenMC.Execution.ContextBoundDecider

/-!
# What the context bound counts

A linearization of an execution graph is a list of its events in an order that respects all edges.
It has a preemption where it goes on with another thread although the thread that is left has a next
event and would not have to wait for it.  The decider is meant to find out whether some
linearization stays within a bound.

The decider does not look at all linearizations, but only at the greedy ones: going backwards, it
never leaves a thread while the event before is maximal and the thread did not wait after it.  That
is a good idea as long as nobody else has to wait because of that event.  When the event is part of
a lock acquisition, another thread that waits for the lock can be left for free only as long as the
lock is taken, and following the thread backwards out of its critical section gives this up.

* `calculatePrefix_isLeast`: the search of a prefix finds the least number of preemptions in a
  greedy schedule of the prefix, as `isEnabled` tells them.
* `doesExecutionExceedBound_exact_iff`: **the bound is exact if and only if the greedy
  linearizations are within it just when any linearization is**, with the preemptions of the former
  as `isEnabled` tells them.  Where `isEnabled` tells rightly who has to wait this is about greed
  alone.
* `exact_of_noWaits`: **without lock acquisitions and barrier waits the bound is exact.**
* `testsRight_of_locksTracked`: `isEnabled` is right about locks that are only used as locks.  It
  takes a lock for taken when it was initialized by a plain store, and a barrier for closed when its
  counter is not what it was first set to.
-/

set_option autoImplicit false

namespace GenMC
namespace ContextBoundDecider

open ExecutionGraph (ScEdge)

variable {g : ExecutionGraph} {v : View} {t : ℕ}

/-! ## Linearizations -/

/-- The events of a graph, without the begins of threads. -/
def eventsOf (g : ExecutionGraph) : Set Event := {e | 0 < e.index ∧ (g.getEventLabel e).isSome}

/-- The events of a prefix. -/
def eventsIn (v : View) : Set Event := {e | 0 < e.index ∧ v.contains e = true}

theorem mem_eventsIn {e : Event} :
    e ∈ eventsIn v ↔ 0 < e.index ∧ e.index ≤ v.getMax e.thread := by
  rw [← View.contains_iff]
  exact Iff.rfl

/-- An order of some events that respects all edges. -/
structure Linearization (g : ExecutionGraph) (E : Set Event) (l : List Event) : Prop where
  nodup : l.Nodup
  mem_iff : ∀ e, e ∈ l ↔ e ∈ E
  sorted : l.Pairwise fun a b => ¬ ScEdge g b a

/-- The value of a location after a prefix. -/
def valueAt (g : ExecutionGraph) (v : View) (addr : SAddr) : SVal :=
  ((latestStore g v addr >>= g.getEventLabel).map (·.value)).getD 0

/-- The number of threads a barrier waits for, which a thread reads before it arrives there. -/
def barrierCount (g : ExecutionGraph) (e : Event) : Option SVal := do
  let irLab ← g.getEventLabel ⟨e.thread, e.index - 3⟩
  let cLab ← irLab.rf >>= g.getEventLabel
  some cLab.value

/-- A thread that waits at a barrier with event `e` may go on when the barrier has value `val`: all
threads of its round have arrived. -/
def isUnblockingValue (g : ExecutionGraph) (e : Event) (val : SVal) : Bool :=
  match g.getEventLabel ⟨e.thread, e.index - 1⟩, barrierCount g e with
  | some wLab, some i => wLab.value / i * i + (if wLab.value % i = 0 then 0 else i) ≤ val
  | _, _ => false

/-- An event does not have to wait after a prefix: a joined thread has ended, a lock is not taken,
and the round of a barrier is complete. -/
def canProceed (g : ExecutionGraph) (v : View) (lab : EventLabel) : Bool :=
  if lab.kind = .ThreadJoin then (g.tjPred lab).any fun fLab => v.contains fLab.pos
  else if isLockCasRead lab.kind then valueAt g v lab.addr = 0
  else if lab.kind = .BWaitRead then isUnblockingValue g lab.pos (valueAt g v lab.addr)
  else true

/-- A thread has a next event after a prefix, and does not have to wait for it. -/
def canGoOn (g : ExecutionGraph) (v : View) (t : ℕ) : Bool :=
  (nextLabel g v t).any (canProceed g v)

/-- A place between two events of a list: the prefix up to there, the thread of the event before and
the thread of the event after. -/
structure Switch where
  view : View
  left : ℕ
  next : ℕ

/-- The places between the events of a list that comes after a prefix. -/
def switches : View → List Event → List Switch
  | v, e :: e' :: l => ⟨v.setMax e, e.thread, e'.thread⟩ :: switches (v.setMax e) (e' :: l)
  | _, _ => []

/-- Another thread goes on although the one that is left could go on. -/
def Switch.isPreemption (g : ExecutionGraph) (s : Switch) : Bool :=
  s.left ≠ s.next && canGoOn g s.view s.left

/-- The number of preemptions of a linearization. -/
def preemptions (g : ExecutionGraph) (l : List Event) : ℕ :=
  (switches View.empty l).countP (Switch.isPreemption g)

/-- Going backwards, the last event of a thread in a prefix can be followed: it is maximal, and the
thread did not wait after it. -/
def Follows (g : ExecutionGraph) (v : View) (t : ℕ) : Prop :=
  v.getMax t ≠ 0 ∧ isSCMaximal g v t = true ∧ canBlock g v t = false

/-- A thread is only switched to when its event before cannot be followed. -/
def IsGreedy (g : ExecutionGraph) (l : List Event) : Prop :=
  ∀ s ∈ switches View.empty l, s.left ≠ s.next → ¬ Follows g s.view s.next

/-- Some linearization has at most so many preemptions. -/
def WithinBound (g : ExecutionGraph) (bound : ℕ) : Prop :=
  ∃ l, Linearization g (eventsOf g) l ∧ preemptions g l ≤ bound

/-- Some greedy linearization has at most so many preemptions. -/
def GreedyWithinBound (g : ExecutionGraph) (bound : ℕ) : Prop :=
  ∃ l, Linearization g (eventsOf g) l ∧ IsGreedy g l ∧
    preemptions g l ≤ bound

/-- The preemptions of a linearization when `isEnabled` tells whether the thread that is left could
go on. -/
def testedPreemptions (g : ExecutionGraph) (l : List Event) : ℕ :=
  (switches View.empty l).countP fun s =>
    s.left ≠ s.next && isEnabled g s.view s.left = some true

/-- Some greedy linearization has at most so many preemptions, as `isEnabled` tells them. -/
def GreedyTestedWithinBound (g : ExecutionGraph) (bound : ℕ) : Prop :=
  ∃ l, Linearization g (eventsOf g) l ∧ IsGreedy g l ∧
    testedPreemptions g l ≤ bound

/-! ## Prefixes -/

/-- A prefix of a graph: with an event it has all events that come before. -/
structure Prefix (g : ExecutionGraph) (v : View) : Prop where
  within : Within g v
  closed : ∀ a b, ScEdge g a b → v.contains b = true → v.contains a = true

theorem prefix_fullView (hg : g.SeqConsistent) : Prefix g (fullView g) where
  within := within_fullView hg
  closed := fun a b hab _ => by
    rcases (hg.scEdge_isSome hab).1 with h0 | hsome
    · exact View.contains_of_index_eq_zero _ h0
    · by_cases h0 : a.index = 0
      · exact View.contains_of_index_eq_zero _ h0
      · exact (isSome_iff_le_fullView hg (Nat.pos_of_ne_zero h0)).1 hsome

/-- What the next store after an access says about the later ones. -/
theorem not_contains_of_next (hg : g.SeqConsistent) (hv : Prefix g v) {a : SAddr} {k : ℕ}
    {l : List Event} (hl : l = (g.co a).drop k)
    (hnext : (l.head?.all fun w => !v.contains w) = true) :
    ∀ w ∈ l, v.contains w = false := by
  intro w hw
  cases l with
  | nil => exact absurd hw List.not_mem_nil
  | cons u rest =>
    have hu : v.contains u = false := by simpa using hnext
    rcases List.mem_cons.1 hw with rfl | hw
    · exact hu
    · by_contra hwv
      rw [hv.closed u w (hg.scEdge_of_drop hl.symm hw) (Bool.eq_true_of_not_eq_false hwv)] at hu
      exact Bool.noConfusion hu

/-- What the test says about a memory access. -/
theorem isSCMaximal_of_isMemAccess {lab : EventLabel}
    (hlab : g.getEventLabel ⟨t, v.getMax t⟩ = some lab) (hm : lab.isMemAccess = true) :
    isSCMaximal g v t =
      (!(lab.isWrite && lab.readers.any (v.contains ·)) &&
        ((g.co lab.addr).isEmpty || (nextStore g lab).all fun w => !v.contains w)) := by
  have hfin : lab.kind ≠ .ThreadFinish := by
    intro h
    rw [EventLabel.isMemAccess, h] at hm
    exact absurd hm (by decide)
  have hcre : lab.kind ≠ .ThreadCreate := by
    intro h
    rw [EventLabel.isMemAccess, h] at hm
    exact absurd hm (by decide)
  rw [isSCMaximal, hlab]
  simp only [if_neg hfin, if_neg hcre, hm, Bool.not_true, Bool.false_eq_true, if_false]
  split_ifs with h1 h2
  · rw [h1]
    rfl
  · simp [h1, h2]
  · simp [h1, h2]

/-- **Nothing in the prefix comes after a maximal event.** -/
theorem not_scEdge_of_isSCMaximal (hg : g.SeqConsistent) (hv : Prefix g v)
    (ht : v.getMax t ≠ 0) (h : isSCMaximal g v t = true) {b : Event} (hb : v.contains b = true) :
    ¬ ScEdge g ⟨t, v.getMax t⟩ b := by
  intro hedge
  generalize he : (⟨t, v.getMax t⟩ : Event) = e at hedge
  cases hedge with
  | @po t' i hsome =>
    cases he
    exact absurd (View.contains_iff.1 hb) (by simp)
  | @rf r w rLab hr hread hw =>
    subst he
    obtain ⟨w', hw', hcases⟩ := hg.rf _ _ hr hread
    obtain rfl : w' = _ := Option.some.inj ((Option.mem_def.1 hw').symm.trans hw)
    rcases hcases with ⟨hinit, -⟩ | ⟨wLab, hwLab, hwrite, -, hmem⟩
    · exact ht (congrArg Event.index hinit)
    · rw [isSCMaximal_of_isMemAccess hwLab (EventLabel.isMemAccess_of_isWrite hwrite), hwrite,
        List.any_eq_true.2 ⟨_, hmem, hb⟩] at h
      exact Bool.noConfusion h
  | @co e w lab hlab hw =>
    subst he
    have hwrite := ExecutionGraph.isWrite_of_mem_coSuccs hw
    rw [isSCMaximal_of_isMemAccess hlab (EventLabel.isMemAccess_of_isWrite hwrite),
      Bool.and_eq_true, Bool.or_eq_true] at h
    have hmem := ExecutionGraph.mem_co_of_mem_coSuccs hw
    obtain ⟨k, hk⟩ := ExecutionGraph.exists_coSuccs_eq_drop (g := g) hwrite
    rcases h.2 with hempty | hnext
    · rw [List.isEmpty_iff.1 hempty] at hmem
      exact absurd hmem List.not_mem_nil
    · rw [nextStore, if_pos hwrite] at hnext
      rw [not_contains_of_next hg hv hk hnext _ hw] at hb
      exact Bool.noConfusion hb
  | @fr e w lab hlab hw =>
    subst he
    have hread := ExecutionGraph.isRead_of_mem_frSuccs hw
    rw [isSCMaximal_of_isMemAccess hlab (EventLabel.isMemAccess_of_isRead hread),
      Bool.and_eq_true, Bool.or_eq_true] at h
    have hmem := ExecutionGraph.mem_co_of_mem_frSuccs hw
    obtain ⟨k, hk⟩ := ExecutionGraph.exists_frSuccs_eq_drop (g := g) hread
    have hwrite : lab.isWrite = false := EventLabelKind.not_isWrite_of_isRead hread
    rcases h.2 with hempty | hnext
    · rw [List.isEmpty_iff.1 hempty] at hmem
      exact absurd hmem List.not_mem_nil
    · rw [nextStore, if_neg (by rw [hwrite]; exact Bool.false_ne_true)] at hnext
      rw [not_contains_of_next hg hv hk hnext _ hw] at hb
      exact Bool.noConfusion hb
  | @create e lab hlab hc hs =>
    subst he
    rw [isSCMaximal, hlab] at h
    simp only [hc, reduceCtorEq, if_false, if_true, decide_eq_true_eq] at h
    rw [View.contains_iff, h] at hb
    exact absurd hb (by simp)
  | @join j jLab fLab hj hf =>
    obtain ⟨fLab', hf', hparent⟩ := hg.join b jLab hj (ExecutionGraph.tjPred_eq_some hf).1
    obtain rfl : fLab = fLab' := Option.some.inj (hf.symm.trans hf')
    have hlab := hg.getEventLabel_of_tjPred hf
    rw [← he] at hlab
    rw [isSCMaximal, hlab] at h
    simp only [(ExecutionGraph.tjPred_eq_some hf).2.2, if_true, hparent, Option.all_some, hb]
      at h
    exact Bool.noConfusion h

/-! ## Schedules -/

theorem contains_of_contains_shrink {u : ℕ} {e : Event}
    (h : (shrinkViewByOne v u).contains e = true) : v.contains e = true := by
  rw [View.contains_iff] at h ⊢
  rw [getMax_shrinkViewByOne] at h
  split at h
  · rename_i hu
    rw [hu]
    omega
  · exact h

theorem not_contains_shrink {u : ℕ} {e : Event} (h : (!v.contains e) = true) :
    (!(shrinkViewByOne v u).contains e) = true := by
  rw [Bool.not_eq_true'] at h ⊢
  by_contra hc
  rw [contains_of_contains_shrink (Bool.eq_true_of_not_eq_false hc)] at h
  exact Bool.noConfusion h

/-- A write that is read in fewer events is read. -/
theorem isRead_of_isRead_shrink {u : ℕ} {lab : EventLabel}
    (h : (lab.isWrite && lab.readers.any ((shrinkViewByOne v u).contains ·)) = true) :
    (lab.isWrite && lab.readers.any (v.contains ·)) = true := by
  rw [Bool.and_eq_true, List.any_eq_true] at h ⊢
  obtain ⟨hw, r, hr, hrv⟩ := h
  exact ⟨hw, r, hr, contains_of_contains_shrink hrv⟩

/-- Fewer events leave an event maximal. -/
theorem isSCMaximal_shrink {u : ℕ} (htu : t ≠ u) (h : isSCMaximal g v t = true) :
    isSCMaximal g (shrinkViewByOne v u) t = true := by
  have hmax : (shrinkViewByOne v u).getMax t = v.getMax t := by
    rw [getMax_shrinkViewByOne, if_neg htu]
  rw [isSCMaximal] at h ⊢
  rw [hmax]
  cases hlab : g.getEventLabel ⟨t, v.getMax t⟩ with
  | none =>
    rw [hlab] at h
    exact h
  | some lab =>
    rw [hlab] at h
    simp only at h ⊢
    split_ifs at h with hfin hcre hmem hwr hempty
    · rw [if_pos hfin]
      cases hj : lab.parentJoin with
      | none => rfl
      | some j =>
        rw [hj] at h
        exact not_contains_shrink h
    · rw [if_neg hfin, if_pos hcre, decide_eq_true_eq, getMax_shrinkViewByOne]
      rw [decide_eq_true_eq] at h
      split
      · rename_i hu
        rw [← hu, h]
      · exact h
    · rw [if_neg hfin, if_neg hcre, if_pos hmem]
    · rw [if_neg hfin, if_neg hcre, if_neg hmem, if_pos hempty]
      split_ifs with hwr'
      · exact absurd (isRead_of_isRead_shrink hwr') hwr
      · rfl
    · rw [if_neg hfin, if_neg hcre, if_neg hmem, if_neg hempty]
      split_ifs with hwr'
      · exact absurd (isRead_of_isRead_shrink hwr') hwr
      · cases hn : nextStore g lab with
        | none => rfl
        | some w =>
          rw [hn] at h
          exact not_contains_shrink h

/-- The threads of a graph as a system. -/
def system (g : ExecutionGraph) : System ℕ where
  maximal v t := isSCMaximal g ⟨v⟩ t
  mono _ _ _ htu h := isSCMaximal_shrink htu h

/-- What `unfoldPrefix` follows. -/
def follow (g : ExecutionGraph) (v : ℕ → ℕ) (t : ℕ) : Bool := !canBlock g ⟨v⟩ t

theorem takes_iff :
    (system g).Takes (follow g) v.getMax t ↔ Follows g v t := by
  rw [System.Takes, Follows, follow, Bool.not_eq_true']
  exact Iff.rfl

/-- Taking away a maximal event leaves a prefix. -/
theorem Prefix.shrink (hg : g.SeqConsistent) (hv : Prefix g v) (ht : v.getMax t ≠ 0)
    (hmax : isSCMaximal g v t = true) : Prefix g (shrinkViewByOne v t) where
  within := hv.within.shrink t
  closed := fun a b hab hb => by
    have hbv := contains_of_contains_shrink hb
    have hav := View.contains_iff.1 (hv.closed a b hab hbv)
    rw [View.contains_iff, getMax_shrinkViewByOne]
    split
    · rename_i hat
      by_contra hlt
      have ha : a = ⟨t, v.getMax t⟩ := by
        rw [hat] at hav
        exact Event.ext_iff'.2 ⟨hat, by simp only; omega⟩
      rw [ha] at hab
      exact not_scEdge_of_isSCMaximal hg hv ht hmax hbv hab
    · exact hav

theorem mem_eventsIn_shrink (ht : v.getMax t ≠ 0) (e : Event) :
    e ∈ eventsIn v ↔ e ∈ eventsIn (shrinkViewByOne v t) ∨ e = ⟨t, v.getMax t⟩ := by
  simp only [mem_eventsIn, getMax_shrinkViewByOne, Event.ext_iff']
  by_cases he : e.thread = t
  · rw [if_pos he, he]
    omega
  · rw [if_neg he]
    simp [he]

/-- The events of a schedule, from the first to the last. -/
def scheduled : View → List ℕ → List Event
  | _, [] => []
  | v, a :: σ => scheduled (shrinkViewByOne v a) σ ++ [⟨a, v.getMax a⟩]

theorem scheduled_cons (v : View) (a : ℕ) (σ : List ℕ) :
    scheduled v (a :: σ) = scheduled (shrinkViewByOne v a) σ ++ [⟨a, v.getMax a⟩] := rfl

variable {σ : List ℕ}

/-- The events of a schedule are in a possible order. -/
theorem linearization_scheduled (hg : g.SeqConsistent) (hv : Prefix g v)
    (h : (system g).Sched v.getMax σ) :
    Linearization g (eventsIn v) (scheduled v σ) := by
  induction σ generalizing v with
  | nil =>
    cases h with
    | nil hzero =>
      refine ⟨List.nodup_nil, fun e => ?_, List.Pairwise.nil⟩
      rw [mem_eventsIn, hzero e.thread]
      simp [scheduled]
      omega
  | cons a σ ih =>
    cases h with
    | cons hpos hmax h =>
      have hl := ih (hv.shrink hg hpos hmax) h
      have hlast : ∀ e ∈ scheduled (shrinkViewByOne v a) σ, e ∈ eventsIn (shrinkViewByOne v a) :=
        fun e he => (hl.mem_iff e).1 he
      have hnot : (⟨a, v.getMax a⟩ : Event) ∉ scheduled (shrinkViewByOne v a) σ := by
        intro hmem
        have := (mem_eventsIn.1 (hlast _ hmem)).2
        rw [getMax_shrinkViewByOne, if_pos rfl] at this
        simp only at this
        omega
      rw [scheduled_cons]
      refine ⟨?_, fun e => ?_, ?_⟩
      · exact List.nodup_append.2 ⟨hl.nodup, List.nodup_singleton _, fun e he e' he' => by
          rw [List.mem_singleton.1 he']
          exact fun heq => hnot (heq ▸ he)⟩
      · rw [List.mem_append, List.mem_singleton, hl.mem_iff, mem_eventsIn_shrink hpos]
      · refine List.pairwise_append.2
          ⟨hl.sorted, List.pairwise_singleton _ _, fun e he e' he' => ?_⟩
        rw [List.mem_singleton.1 he']
        refine not_scEdge_of_isSCMaximal hg hv hpos hmax ?_
        exact View.contains_iff.2 (mem_eventsIn.1
          ((mem_eventsIn_shrink hpos e).2 (Or.inl (hlast e he)))).2

/-- The last event of a linearization is the last one of its thread, and maximal. -/
theorem Linearization.last (hg : g.SeqConsistent) (hv : Prefix g v) {l : List Event} {e : Event}
    (h : Linearization g (eventsIn v) (l ++ [e])) :
    e.index = v.getMax e.thread ∧ v.getMax e.thread ≠ 0 ∧ isSCMaximal g v e.thread = true := by
  obtain ⟨hpos, hle⟩ := mem_eventsIn.1 ((h.mem_iff e).1 (by simp))
  have hbefore : ∀ b ∈ eventsIn v, b ≠ e → ¬ ScEdge g e b := by
    intro b hb hbe
    have hmem : b ∈ l := by
      have := (h.mem_iff b).2 hb
      rw [List.mem_append, List.mem_singleton] at this
      exact this.resolve_right hbe
    exact (List.pairwise_append.1 h.sorted).2.2 b hmem e (List.mem_singleton_self e)
  have hindex : e.index = v.getMax e.thread := by
    by_contra hne
    have hlt : e.index + 1 ≤ v.getMax e.thread := by omega
    refine hbefore ⟨e.thread, e.index + 1⟩ (mem_eventsIn.2 ⟨Nat.succ_pos _, hlt⟩) ?_ (.po ?_)
    · intro heq
      have := congrArg Event.index heq
      simp at this
    · exact ExecutionGraph.getEventLabel_isSome_of_le (hv.within e.thread (by omega)) rfl hlt
  have hne : v.getMax e.thread ≠ 0 := by omega
  refine ⟨hindex, hne, ?_⟩
  by_contra hmax
  obtain ⟨b, hb0, hbv, hedge⟩ :=
    exists_scEdge_of_not_isSCMaximal hg hv.within hne (Bool.eq_false_of_not_eq_true hmax)
  have he : (⟨e.thread, v.getMax e.thread⟩ : Event) = e := Event.ext_iff'.2 ⟨rfl, hindex.symm⟩
  rw [he] at hedge
  refine hbefore b (mem_eventsIn.2 ⟨hb0, View.contains_iff.1 hbv⟩) ?_ hedge
  rintro rfl
  exact hg.acyclic _ (.single hedge)

/-- Every linearization of a prefix comes from a schedule. -/
theorem exists_scheduled (hg : g.SeqConsistent) (l : List Event) : ∀ {v : View}, Prefix g v →
    Linearization g (eventsIn v) l →
      ∃ σ, (system g).Sched v.getMax σ ∧ scheduled v σ = l := by
  induction l using List.reverseRecOn with
  | nil =>
    intro v _ hl
    refine ⟨[], .nil fun t => ?_, rfl⟩
    by_contra ht
    have := (hl.mem_iff ⟨t, v.getMax t⟩).2 (mem_eventsIn.2 ⟨Nat.pos_of_ne_zero ht, le_rfl⟩)
    exact absurd this List.not_mem_nil
  | append_singleton l e ih =>
    intro v hv hl
    obtain ⟨hindex, hpos, hmax⟩ := hl.last hg hv
    have he : (⟨e.thread, v.getMax e.thread⟩ : Event) = e := Event.ext_iff'.2 ⟨rfl, hindex.symm⟩
    have hnot : e ∉ l := by
      have := (List.nodup_append.1 hl.nodup).2.2
      exact fun hmem => this e hmem e (List.mem_singleton_self e) rfl
    have hl' : Linearization g (eventsIn (shrinkViewByOne v e.thread)) l := by
      refine ⟨(List.nodup_append.1 hl.nodup).1, fun b => ?_, (List.pairwise_append.1 hl.sorted).1⟩
      have hb := hl.mem_iff b
      rw [List.mem_append, List.mem_singleton, mem_eventsIn_shrink hpos, he] at hb
      refine ⟨fun hmem => ?_, fun hmem => ?_⟩
      · exact (hb.1 (Or.inl hmem)).resolve_right fun hbe => hnot (hbe ▸ hmem)
      · refine (hb.2 (Or.inl hmem)).resolve_right fun hbe => ?_
        have := (mem_eventsIn.1 hmem).2
        rw [hbe, getMax_shrinkViewByOne, if_pos rfl, hindex] at this
        omega
    obtain ⟨σ, hσ, hl''⟩ := ih (hv.shrink hg hpos hmax) hl'
    exact ⟨e.thread :: σ, .cons hpos hmax hσ, by rw [scheduled_cons, hl'', he]⟩

/-! ## Counting preemptions -/

/-- Which threads could go on. -/
def goesOn (g : ExecutionGraph) (v : ℕ → ℕ) (t : ℕ) : Bool := canGoOn g ⟨v⟩ t

/-- The prefix that a list of events leads to. -/
theorem foldl_setMax_scheduled (h : (system g).Sched v.getMax σ) :
    (scheduled v σ).foldl View.setMax View.empty = v := by
  induction σ generalizing v with
  | nil =>
    cases h with
    | nil hzero => exact View.ext (funext fun t => (hzero t).symm)
  | cons a σ ih =>
    cases h with
    | cons hpos hmax h =>
      rw [scheduled_cons, List.foldl_append, ih (v := shrinkViewByOne v a) h]
      refine View.ext (funext fun u => ?_)
      rw [List.foldl_cons, List.foldl_nil, View.setMax]
      simp only
      by_cases hu : u = a
      · subst hu
        rw [Function.update_self]
      · rw [Function.update_of_ne hu, getMax_shrinkViewByOne, if_neg hu]

theorem switches_append (l : List Event) (e e' : Event) : ∀ v : View,
    switches v (l ++ [e, e']) = switches v (l ++ [e]) ++
      [⟨(l ++ [e]).foldl View.setMax v, e.thread, e'.thread⟩] := by
  induction l with
  | nil => exact fun v => rfl
  | cons a l ih =>
    intro v
    have hcons : ∀ (b : Event) (m : List Event),
        switches v (a :: b :: m) = ⟨v.setMax a, a.thread, b.thread⟩ ::
          switches (v.setMax a) (b :: m) := fun b m => rfl
    cases l with
    | nil => rfl
    | cons b l =>
      have := ih (v.setMax a)
      simp only [List.cons_append] at this ⊢
      rw [hcons, hcons, this]
      rfl

/-- The last switch of a schedule that thread `t` goes on after. -/
theorem switches_scheduled_cons {a : ℕ} (h : (system g).Sched v.getMax (a :: σ))
    (e : Event) :
    switches View.empty (scheduled v (a :: σ) ++ [e]) =
      switches View.empty (scheduled (shrinkViewByOne v a) σ ++ [⟨a, v.getMax a⟩]) ++
        [⟨v, a, e.thread⟩] := by
  have hfold := foldl_setMax_scheduled h
  rw [scheduled_cons] at hfold ⊢
  rw [List.append_assoc, List.singleton_append, switches_append, hfold]

/-- The preemptions of the events of a schedule, whatever tells which threads could go on. -/
theorem countP_scheduled (test : (ℕ → ℕ) → ℕ → Bool) (h : (system g).Sched v.getMax σ)
    (e : Event) :
    (switches View.empty (scheduled v σ ++ [e])).countP
        (fun s => s.left ≠ s.next && test s.view.getMax s.left) =
      System.cost test v.getMax e.thread σ := by
  induction σ generalizing v e with
  | nil => rfl
  | cons a σ ih =>
    rw [switches_scheduled_cons h, List.countP_append, System.cost, Nat.add_comm]
    cases h with
    | cons hpos hmax h =>
      have := ih (v := shrinkViewByOne v a) h ⟨a, v.getMax a⟩
      rw [this, List.countP_singleton]
      refine congrArg (· + _) ?_
      rw [System.switch]
      simp only [ne_eq, Bool.and_eq_true, decide_eq_true_eq]

/-- The greedy schedules are those with greedy events. -/
theorem greedy_scheduled_iff (h : (system g).Sched v.getMax σ) (e : Event) :
    (∀ s ∈ switches View.empty (scheduled v σ ++ [e]), s.left ≠ s.next →
        ¬ Follows g s.view s.next) ↔
      (system g).Greedy (follow g) v.getMax e.thread σ := by
  induction σ generalizing v e with
  | nil => simp [scheduled, switches, System.Greedy]
  | cons a σ ih =>
    rw [switches_scheduled_cons h, System.Greedy]
    cases h with
    | cons hpos hmax h =>
      have := ih (v := shrinkViewByOne v a) h ⟨a, v.getMax a⟩
      rw [List.forall_mem_append, this, List.forall_mem_singleton, takes_iff, and_comm]
      exact Iff.rfl

/-! ## What the searches find -/

/-- The test of the code, where it answers. -/
def enabledTest (g : ExecutionGraph) (v : ℕ → ℕ) (t : ℕ) : Bool := isEnabled g ⟨v⟩ t = some true

variable {enabled : (ℕ → ℕ) → ℕ → Bool}

theorem follows_iff : Follows g v t ↔
    v.getMax t ≠ 0 ∧ isSCMaximal g v t = true ∧ (!canBlock g v t) = true := by
  rw [Follows, Bool.not_eq_true']

/-- `unfoldPrefix` stops where the thread cannot be followed. -/
theorem not_follows_unfoldLoop : ∀ (n : ℕ) (v : View), v.getMax t ≤ n →
    ¬ Follows g (unfoldLoop g t n v) t := by
  intro n
  induction n with
  | zero =>
    intro v hn h
    exact h.1 (Nat.le_zero.1 hn)
  | succ n ih =>
    intro v hn
    rw [unfoldLoop]
    split_ifs with hc
    · refine ih _ ?_
      rw [getMax_shrinkViewByOne, if_pos rfl]
      omega
    · exact fun h => hc (follows_iff.1 h)

theorem not_follows_unfoldPrefix (v : View) (t : ℕ) : ¬ Follows g (unfoldPrefix g v t) t :=
  not_follows_unfoldLoop _ v le_rfl

/-- Following a thread does not change what greedy schedules cost. -/
theorem greedyCosts_unfoldPrefix (v : View) (t : ℕ) :
    (system g).greedyCosts (follow g) enabled (unfoldPrefix g v t).getMax t =
      (system g).greedyCosts (follow g) enabled v.getMax t := by
  refine unfoldLoop_induct (P := fun w =>
    (system g).greedyCosts (follow g) enabled w.getMax t =
      (system g).greedyCosts (follow g) enabled v.getMax t)
    (fun w hw ht hmax hblock => ?_) _ _ rfl
  rw [← hw]
  exact (System.greedyCosts_of_takes (takes_iff.2 ⟨ht, hmax, hblock⟩)).symm

theorem preempts_eq (hg : g.SeqConsistent) (v : View) (t u : ℕ) :
    ∃ p, preempts g v t u = some p ∧
      switchCost p = System.switch (enabledTest g) v.getMax t u := by
  obtain ⟨p, hp⟩ := Option.isSome_iff_exists.1 (preempts_isSome hg v t u)
  refine ⟨p, hp, ?_⟩
  rw [System.switch, enabledTest, switchCost]
  rw [preempts] at hp
  split_ifs at hp with hu
  · rw [hp]
    simp [hu]
  · cases hp
    simp [not_not.1 hu]

/-- **The search of a prefix finds the least number of preemptions in a greedy schedule.** -/
theorem calculatePrefix_isLeast (hg : g.SeqConsistent) : ∀ n v t c, Within g v →
    numEvents g v < n → calculatePrefix g n v t = some c →
      IsLeast ((system g).greedyCosts (follow g) (enabledTest g) v.getMax t) c := by
  intro n
  induction n with
  | zero => exact fun _ _ _ _ h => absurd h (Nat.not_lt_zero _)
  | succ n ih =>
    intro v t c hv hlt hc
    have hw : Within g (unfoldPrefix g v t) := hv.unfoldPrefix t
    have hle := numEvents_unfoldPrefix_le hv t
    have hstop := not_follows_unfoldPrefix (g := g) v t
    rw [← greedyCosts_unfoldPrefix]
    rw [calculatePrefix] at hc
    generalize unfoldPrefix g v t = w at hc hw hle hstop ⊢
    split_ifs at hc with hempty
    · cases hc
      exact System.isLeast_zero ((isEmpty_iff hw).1 hempty) t
    · -- the calls for the candidates, and what they return
      have hcall : ∀ u ∈ candidates g w, ∃ d, calculatePrefix g n (shrinkViewByOne w u) u = some d ∧
          IsLeast ((system g).greedyCosts (follow g) (enabledTest g)
            (System.shrink w.getMax u) u) d := by
        intro u hu
        have hpos := (mem_candidates.1 hu).2.1
        have := numEvents_shrink (hw.lt_numThreads hpos) hpos
        obtain ⟨d, hd, -⟩ := prefix_agree hg n (shrinkViewByOne w u) u (hw.shrink u) (by omega)
        exact ⟨d, hd, ih _ _ _ (hw.shrink u) (by omega) hd⟩
      have hbranch : ∀ u ∈ candidates g w, ∀ d,
          calculatePrefix g n (shrinkViewByOne w u) u = some d →
            branchCost (calculatePrefix g n) g w t u =
              some (System.switch (enabledTest g) w.getMax t u + d) := by
        intro u _ d hd
        obtain ⟨p, hp, hcost⟩ := preempts_eq hg w t u
        rw [branchCost, hd, hp, ← hcost, Nat.add_comm]
        rfl
      rw [calculateLoop_eq] at hc
      have hsome : ∀ u ∈ candidates g w,
          (branchCost (calculatePrefix g n) g w t u).isSome := by
        intro u hu
        obtain ⟨d, hd, -⟩ := hcall u hu
        rw [hbranch u hu d hd]
        rfl
      obtain ⟨⟨a, ha, hac⟩, hmin⟩ := (BoundedSearch.minLoop_eq_some_iff hsome).1 hc
      have hmem : ∀ u, w.getMax u ≠ 0 → isSCMaximal g w u = true → u ∈ candidates g w :=
        fun u hpos hmax => mem_candidates.2 ⟨hw.lt_numThreads hpos, hpos, hmax⟩
      refine System.isLeast_of_leaves (fun h => hstop (takes_iff.1 h))
        ⟨a, (mem_candidates.1 ha).2.1⟩
        (fun u => (calculatePrefix g n (shrinkViewByOne w u) u).getD 0) ?_ ?_ ?_
      · intro u hpos hmax
        obtain ⟨d, hd, hleast⟩ := hcall u (hmem u hpos hmax)
        rw [hd]
        exact hleast
      · obtain ⟨d, hd, -⟩ := hcall a ha
        refine ⟨a, (mem_candidates.1 ha).2.1, (mem_candidates.1 ha).2.2, ?_⟩
        rw [hbranch a ha d hd] at hac
        rw [hd]
        exact Option.some.inj hac
      · intro u hpos hmax
        obtain ⟨d, hd, -⟩ := hcall u (hmem u hpos hmax)
        rw [hd]
        exact hmin u (hmem u hpos hmax) _ (hbranch u (hmem u hpos hmax) d hd)

/-- What `calculate` returns: the least number of switches that leave an enabled thread, over all
greedy schedules of the graph. -/
theorem calculate_spec (hg : g.SeqConsistent) {c : ℕ} (hc : calculate g = some c) :
    (∃ i ∈ candidates g (fullView g), c ∈ (system g).greedyCosts (follow g) (enabledTest g)
      (System.shrink (fullView g).getMax i) i) ∧
    ∀ i ∈ candidates g (fullView g), ∀ d ∈ (system g).greedyCosts (follow g) (enabledTest g)
      (System.shrink (fullView g).getMax i) i, c ≤ d := by
  have hv := within_fullView hg
  have hcall : ∀ i ∈ candidates g (fullView g), ∃ d,
      calculatePrefix g (numEvents g (fullView g)) (shrinkViewByOne (fullView g) i) i = some d ∧
        IsLeast ((system g).greedyCosts (follow g) (enabledTest g)
          (System.shrink (fullView g).getMax i) i) d := by
    intro i hi
    have hpos := (mem_candidates.1 hi).2.1
    have := numEvents_shrink (hv.lt_numThreads hpos) hpos
    obtain ⟨d, hd, -⟩ := candidates_agree hg hv hi
    exact ⟨d, hd, calculatePrefix_isLeast hg _ _ _ _ (hv.shrink i) (by omega) hd⟩
  have hsome : ∀ i ∈ candidates g (fullView g),
      (calculatePrefix g (numEvents g (fullView g)) (shrinkViewByOne (fullView g) i) i).isSome := by
    intro i hi
    obtain ⟨d, hd, -⟩ := hcall i hi
    rw [hd]
    rfl
  rw [calculate, executionMinLoop_eq] at hc
  obtain ⟨⟨i, hi, hic⟩, hmin⟩ := (BoundedSearch.minLoop_eq_some_iff hsome).1 hc
  refine ⟨?_, fun j hj d hd => ?_⟩
  · obtain ⟨d, hd, hleast⟩ := hcall i hi
    obtain rfl : d = c := Option.some.inj (hd.symm.trans hic)
    exact ⟨i, hi, hleast.1⟩
  · obtain ⟨m, hm, hleast⟩ := hcall j hj
    exact (hmin j hj m hm).trans (hleast.2 hd)

/-- **The code says that the bound is not exceeded if and only if some greedy schedule stays within
it**, by its own count. -/
theorem doesExecutionExceedBound_eq_false_iff (hg : g.SeqConsistent) {bound : ℕ} :
    doesExecutionExceedBound g bound = some false ↔
      ∃ i ∈ candidates g (fullView g), ∃ σ,
        (system g).Sched (System.shrink (fullView g).getMax i) σ ∧
          (system g).Greedy (follow g) (System.shrink (fullView g).getMax i) i σ ∧
            System.cost (enabledTest g) (System.shrink (fullView g).getMax i) i σ ≤ bound := by
  rw [(doesExecutionExceedBound_eq_calculate g hg).1 bound, Option.map_eq_some_iff]
  refine ⟨?_, ?_⟩
  · rintro ⟨c, hc, hle⟩
    obtain ⟨⟨i, hi, σ, hσ, hgreedy, rfl⟩, -⟩ := calculate_spec hg hc
    exact ⟨i, hi, σ, hσ, hgreedy, not_lt.1 (of_decide_eq_false hle)⟩
  · rintro ⟨i, hi, σ, hσ, hgreedy, hle⟩
    obtain ⟨c, hc⟩ := Option.isSome_iff_exists.1
      (calculate_isSome hg ⟨i, (mem_candidates.1 hi).2.1⟩)
    have hci := (calculate_spec hg hc).2 i hi _ ⟨σ, hσ, hgreedy, rfl⟩
    exact ⟨c, hc, decide_eq_false (not_lt.2 (hci.trans hle))⟩

/-- The linearizations of a graph with events are those of its schedules. -/
theorem linearization_iff (hg : g.SeqConsistent) (hne : ∃ t, (fullView g).getMax t ≠ 0)
    {l : List Event} :
    Linearization g (eventsOf g) l ↔
      ∃ i ∈ candidates g (fullView g), ∃ σ,
        (system g).Sched (System.shrink (fullView g).getMax i) σ ∧
          l = scheduled (shrinkViewByOne (fullView g) i) σ ++ [⟨i, (fullView g).getMax i⟩] := by
  have hv := prefix_fullView hg
  have hevents : eventsOf g = eventsIn (fullView g) := by
    ext e
    exact and_congr_right fun he => isSome_iff_le_fullView hg he
  rw [hevents]
  refine ⟨fun hl => ?_, ?_⟩
  · obtain ⟨σ, hσ, rfl⟩ := exists_scheduled hg l hv hl
    cases hσ with
    | nil hzero =>
      obtain ⟨t, ht⟩ := hne
      exact absurd (hzero t) ht
    | @cons _ i σ hpos hmax hσ =>
      exact ⟨i, mem_candidates.2 ⟨hv.within.lt_numThreads hpos, hpos, hmax⟩, σ, hσ, rfl⟩
  · rintro ⟨i, hi, σ, hσ, rfl⟩
    obtain ⟨-, hpos, hmax⟩ := mem_candidates.1 hi
    exact linearization_scheduled hg hv (.cons hpos hmax hσ)

/-- The greedy linearizations within the bound, by the count of the code, are the greedy schedules
that the code finds. -/
theorem greedyTestedWithinBound_iff (hg : g.SeqConsistent)
    (hne : ∃ t, (fullView g).getMax t ≠ 0) {bound : ℕ} :
    GreedyTestedWithinBound g bound ↔ doesExecutionExceedBound g bound = some false := by
  rw [doesExecutionExceedBound_eq_false_iff hg, GreedyTestedWithinBound]
  refine ⟨?_, ?_⟩
  · rintro ⟨l, hl, hgreedy, hle⟩
    obtain ⟨i, hi, σ, hσ, rfl⟩ := (linearization_iff hg hne).1 hl
    have hgreedy' := (greedy_scheduled_iff (v := shrinkViewByOne (fullView g) i) hσ _).1 hgreedy
    refine ⟨i, hi, σ, hσ, hgreedy', ?_⟩
    exact (countP_scheduled (v := shrinkViewByOne (fullView g) i) (enabledTest g) hσ _).ge.trans hle
  · rintro ⟨i, hi, σ, hσ, hgreedy, hle⟩
    refine ⟨_, (linearization_iff hg hne).2 ⟨i, hi, σ, hσ, rfl⟩,
      (greedy_scheduled_iff (v := shrinkViewByOne (fullView g) i) hσ _).2 hgreedy, ?_⟩
    exact (countP_scheduled (v := shrinkViewByOne (fullView g) i) (enabledTest g) hσ _).le.trans hle

/-! ## Telling who has to wait -/

/-- `isEnabled` tells rightly which threads could go on, wherever a greedy linearization leaves a
thread.  The search asks nowhere else. -/
def TestsRight (g : ExecutionGraph) : Prop :=
  ∀ l, Linearization g (eventsOf g) l → IsGreedy g l → ∀ s ∈ switches View.empty l,
    s.left ≠ s.next → isEnabled g s.view s.left = some (canGoOn g s.view s.left)

/-- Then the code counts what is to be counted. -/
theorem greedyWithinBound_iff (htests : TestsRight g) {bound : ℕ} :
    GreedyTestedWithinBound g bound ↔ GreedyWithinBound g bound := by
  refine exists_congr fun l => and_congr_right fun hl => and_congr_right fun hgreedy => ?_
  have hcount : testedPreemptions g l = preemptions g l := by
    refine List.countP_congr fun s hs => ?_
    rw [Switch.isPreemption, Bool.and_eq_true, Bool.and_eq_true]
    refine and_congr_right fun hne => ?_
    rw [htests l hl hgreedy s hs (of_decide_eq_true hne)]
    simp
  rw [hcount]

/-- A thread stands between the two halves of an atomic update: it has read a location, and its next
event is the write that follows in coherence. -/
def MidUpdate (g : ExecutionGraph) (v : View) (t : ℕ) : Prop :=
  ∃ rLab, g.getEventLabel ⟨t, v.getMax t⟩ = some rLab ∧ rLab.isRead = true ∧
    (g.frSuccs rLab).head? = some ⟨t, v.getMax t + 1⟩

/-- `isEnabled` tells rightly which threads could go on, wherever no thread stands in the middle of
an atomic update. -/
def RightBetweenUpdates (g : ExecutionGraph) : Prop :=
  ∀ v, Prefix g v → (∀ t, ¬ MidUpdate g v t) → ∀ t, isEnabled g v t = some (canGoOn g v t)

/-- A thread in the middle of an atomic update is followed. -/
theorem follows_of_midUpdate (hg : g.SeqConsistent) (h : MidUpdate g v t) : Follows g v t := by
  obtain ⟨rLab, hlab, hread, hnext⟩ := h
  have hm := EventLabel.isMemAccess_of_isRead hread
  have hw : rLab.isWrite = false := EventLabelKind.not_isWrite_of_isRead hread
  have hpos := hg.index_pos hlab (ExecutionGraph.not_isThreadStart_of_isMemAccess hm)
  refine ⟨Nat.pos_iff_ne_zero.1 hpos, ?_, ?_⟩
  · rw [isSCMaximal_of_isMemAccess hlab hm, nextStore, hw, Bool.false_and, Bool.not_false,
      Bool.true_and, Bool.or_eq_true]
    right
    rw [if_neg Bool.false_ne_true, hnext]
    simp [View.contains]
  · obtain ⟨wLab, hwLab, hwrite, -⟩ :=
      hg.co _ _ (ExecutionGraph.mem_co_of_mem_frSuccs (List.mem_of_mem_head? hnext))
    rw [canBlock, nextLabel, hwLab, Option.any_some, isBlocking, isLockCasRead]
    rw [EventLabel.isWrite] at hwrite
    revert hwrite
    generalize wLab.kind = k
    cases k <;> decide

/-- No thread stands in the middle of an atomic update when all events are there. -/
theorem not_midUpdate_fullView (hg : g.SeqConsistent) : ¬ MidUpdate g (fullView g) t := by
  rintro ⟨rLab, -, -, hnext⟩
  obtain ⟨wLab, hwLab, -⟩ :=
    hg.co _ _ (ExecutionGraph.mem_co_of_mem_frSuccs (List.mem_of_mem_head? hnext))
  have := (isSome_iff_le_fullView hg (Nat.succ_pos _)).1 (by rw [hwLab]; rfl)
  rw [View.contains_iff] at this
  simp only at this
  omega

/-- Greedy schedules leave threads only where nobody is in the middle of an atomic update. -/
theorem isEnabled_of_switch (hg : g.SeqConsistent) (hright : RightBetweenUpdates g)
    (σ : List ℕ) : ∀ {v : View} (e : Event), Prefix g v →
      (∀ u, u ≠ e.thread → ¬ MidUpdate g v u) → (system g).Sched v.getMax σ →
        (system g).Greedy (follow g) v.getMax e.thread σ →
          ∀ s ∈ switches View.empty (scheduled v σ ++ [e]), s.left ≠ s.next →
            isEnabled g s.view s.left = some (canGoOn g s.view s.left) := by
  induction σ with
  | nil => exact fun _ _ _ _ _ s hs => absurd hs List.not_mem_nil
  | cons a σ ih =>
    intro v e hv hmid hσ hgreedy s hs hne
    rw [switches_scheduled_cons hσ, List.mem_append, List.mem_singleton] at hs
    obtain ⟨hleave, hgreedy⟩ := hgreedy
    -- the thread that is left was in no update before, and nobody else is afterwards
    have hmid' : ∀ u, (u ≠ a ∨ a ≠ e.thread) → ¬ MidUpdate g v u := by
      intro u hua hu
      by_cases hut : u = e.thread
      · subst hut
        exact hleave (hua.elim Ne.symm id) (takes_iff.2 (follows_of_midUpdate hg hu))
      · exact hmid u hut hu
    cases hσ with
    | cons hpos hmax hσ =>
      rcases hs with hs | rfl
      · refine ih (v := shrinkViewByOne v a) ⟨a, v.getMax a⟩ (hv.shrink hg hpos hmax) ?_ hσ hgreedy
          s hs hne
        intro u hua hu
        refine hmid' u (.inl hua) ?_
        rw [MidUpdate, getMax_shrinkViewByOne, if_neg hua] at hu
        exact hu
      · exact hright v hv (fun u => hmid' u (.inr hne)) a

/-- So it is enough to tell rightly between updates. -/
theorem testsRight_of_betweenUpdates (hg : g.SeqConsistent) (hright : RightBetweenUpdates g) :
    TestsRight g := by
  intro l hl hgreedy s hs hne
  by_cases hevents : ∃ t, (fullView g).getMax t ≠ 0
  · obtain ⟨i, hi, σ, hσ, rfl⟩ := (linearization_iff hg hevents).1 hl
    obtain ⟨-, hpos, hmax⟩ := mem_candidates.1 hi
    refine isEnabled_of_switch hg hright σ (v := shrinkViewByOne (fullView g) i)
      ⟨i, (fullView g).getMax i⟩ ((prefix_fullView hg).shrink hg hpos hmax) (fun u hui hu => ?_) hσ
      ((greedy_scheduled_iff (v := shrinkViewByOne (fullView g) i) hσ _).1 hgreedy) s hs hne
    rw [MidUpdate, getMax_shrinkViewByOne, if_neg hui] at hu
    exact not_midUpdate_fullView hg hu
  · -- without events there are no switches
    have hnil : l = [] := List.eq_nil_iff_forall_not_mem.2 fun e he => hevents <| by
      obtain ⟨hpos, hsome⟩ := (hl.mem_iff e).1 he
      have := View.contains_iff.1 ((isSome_iff_le_fullView hg hpos).1 hsome)
      exact ⟨e.thread, by omega⟩
    rw [hnil] at hs
    exact absurd hs List.not_mem_nil

theorem exists_getMax_ne_zero (hg : g.SeqConsistent) :
    (∃ t, (fullView g).getMax t ≠ 0) ↔ (eventsOf g).Nonempty := by
  refine ⟨?_, ?_⟩
  · rintro ⟨t, ht⟩
    exact ⟨⟨t, (fullView g).getMax t⟩, Nat.pos_of_ne_zero ht, within_fullView hg t ht⟩
  · rintro ⟨e, hpos, he⟩
    have := View.contains_iff.1 ((isSome_iff_le_fullView hg hpos).1 he)
    exact ⟨e.thread, by omega⟩

/-- Without events the search for the bound fails. -/
theorem doesExecutionExceedBound_of_empty (hempty : ¬ ∃ t, (fullView g).getMax t ≠ 0)
    (bound : ℕ) : doesExecutionExceedBound g bound = none := by
  have hnil : (List.range g.getNumThreads).filter (isCandidate g (fullView g)) = [] := by
    refine List.filter_eq_nil_iff.2 fun t _ h => ?_
    exact hempty ⟨t, (isCandidate_iff.1 h).1⟩
  rw [doesExecutionExceedBound, executionLoop_eq, hnil]
  rfl

/-- **When the bound is exact.**  On a sequentially consistent graph the code says that the bound is
not exceeded exactly when some linearization stays within it, if and only if the graph has an event,
and some linearization stays within the bound exactly when some greedy one does, by the count of the
code.  Where `isEnabled` tells rightly who has to wait, the code counts preemptions, and it is
enough that some greedy linearization stays within the bound as soon as any linearization does. -/
theorem doesExecutionExceedBound_exact_iff (g : ExecutionGraph) (hg : g.SeqConsistent)
    (bound : ℕ) :
    ((doesExecutionExceedBound g bound = some false ↔ WithinBound g bound) ↔
      (eventsOf g).Nonempty ∧ (WithinBound g bound ↔ GreedyTestedWithinBound g bound)) ∧
    (TestsRight g →
      ((doesExecutionExceedBound g bound = some false ↔ WithinBound g bound) ↔
        (eventsOf g).Nonempty ∧ (WithinBound g bound → GreedyWithinBound g bound))) := by
  have hexact : (doesExecutionExceedBound g bound = some false ↔ WithinBound g bound) ↔
      (eventsOf g).Nonempty ∧ (WithinBound g bound ↔ GreedyTestedWithinBound g bound) := by
    rw [← exists_getMax_ne_zero hg]
    by_cases hne : ∃ t, (fullView g).getMax t ≠ 0
    · rw [← greedyTestedWithinBound_iff hg hne]
      exact ⟨fun h => ⟨hne, h.symm⟩, fun h => h.2.symm⟩
    · rw [doesExecutionExceedBound_of_empty hne]
      refine ⟨fun h => ?_, fun h => absurd h.1 hne⟩
      have hwithin : WithinBound g bound := by
        refine ⟨[], ⟨List.nodup_nil, fun e => ?_, List.Pairwise.nil⟩, Nat.zero_le _⟩
        refine ⟨fun h => absurd h List.not_mem_nil, fun he => ?_⟩
        exact absurd ((exists_getMax_ne_zero hg).2 ⟨e, he⟩) hne
      exact absurd (h.2 hwithin) (by simp)
  refine ⟨hexact, fun htests => hexact.trans (and_congr_right fun _ => ?_)⟩
  rw [greedyWithinBound_iff htests]
  exact ⟨fun h => h.1, fun h => ⟨h, fun ⟨l, hl, _, hle⟩ => ⟨l, hl, hle⟩⟩⟩

/-! ## Graphs without waits -/

/-- A graph without lock acquisitions and barrier waits. -/
def NoWaits (g : ExecutionGraph) : Prop :=
  ∀ e lab, g.getEventLabel e = some lab → isLockCasRead lab.kind = false ∧ lab.kind ≠ .BWaitRead

theorem isEnabled_of_nextLabel (hg : g.SeqConsistent) {lab : EventLabel}
    (h : nextLabel g v t = some lab) :
    isEnabled g v t =
      if lab.kind = .ThreadJoin then (g.tjPred lab).map fun fLab => v.contains fLab.pos
      else if isLockCasRead lab.kind then some (isLockFree g v lab.addr)
      else if lab.kind = .BWaitRead then isBarrierOpen g v lab.addr
      else some true := by
  obtain ⟨llab, hl⟩ : ∃ llab, g.getEventLabel ⟨t, v.getMax t⟩ = some llab := by
    refine Option.isSome_iff_exists.1 (ExecutionGraph.getEventLabel_isSome_of_le
      (b := ⟨t, v.getMax t + 1⟩) ?_ rfl (Nat.le_succ _))
    rw [nextLabel] at h
    rw [h]
    rfl
  have hterm : llab.isTerminator = false := by
    by_contra hterm
    have := hg.terminator _ _ hl (Bool.eq_true_of_not_eq_false hterm)
    rw [nextLabel] at h
    rw [Event.next, h] at this
    exact absurd this (by simp)
  rw [isEnabled, hl, h]
  simp only [hterm, Bool.false_eq_true, if_false]

theorem isEnabled_of_nextLabel_eq_none (h : nextLabel g v t = none) :
    isEnabled g v t = some false := by
  rw [isEnabled, h]
  cases g.getEventLabel ⟨t, v.getMax t⟩ <;> rfl

/-- The test is right about joins. -/
theorem isEnabled_of_join (hg : g.SeqConsistent) {lab : EventLabel}
    (h : nextLabel g v t = some lab) (hj : lab.kind = .ThreadJoin) :
    isEnabled g v t = some (canGoOn g v t) := by
  obtain ⟨fLab, hf, -⟩ := hg.join _ _ h hj
  rw [isEnabled_of_nextLabel hg h, canGoOn, h, Option.any_some, canProceed, if_pos hj, if_pos hj,
    Option.mem_def.1 hf]
  rfl

/-- Where nobody waits for a lock or a barrier, the test is right. -/
theorem testsRight_of_noWaits (hg : g.SeqConsistent) (hw : NoWaits g) : TestsRight g := by
  refine testsRight_of_betweenUpdates hg fun v _ _ t => ?_
  cases hn : nextLabel g v t with
  | none =>
    rw [isEnabled_of_nextLabel_eq_none hn, canGoOn, hn]
    rfl
  | some lab =>
    obtain ⟨hlock, hbar⟩ := hw _ _ hn
    by_cases hj : lab.kind = .ThreadJoin
    · exact isEnabled_of_join hg hn hj
    · rw [isEnabled_of_nextLabel hg hn, canGoOn, hn, Option.any_some, canProceed, hlock,
        if_neg hj, if_neg hj, if_neg Bool.false_ne_true, if_neg Bool.false_ne_true, if_neg hbar,
        if_neg hbar]

theorem canProceed_of_not_isBlocking {lab : EventLabel} (h : isBlocking lab = false) :
    canProceed g v lab = true := by
  simp only [isBlocking, Bool.or_eq_false_iff, decide_eq_false_iff_not] at h
  rw [canProceed, if_neg h.1.1, if_neg (by rw [h.1.2]; exact Bool.false_ne_true), if_neg h.2]

/-- Without waits for locks and barriers, more events only help. -/
theorem canProceed_of_shrink {u : ℕ} {lab : EventLabel} (hlock : isLockCasRead lab.kind = false)
    (hbar : lab.kind ≠ .BWaitRead) (h : canProceed g (shrinkViewByOne v u) lab = true) :
    canProceed g v lab = true := by
  rw [canProceed, hlock, if_neg Bool.false_ne_true, if_neg hbar] at h ⊢
  split_ifs at h ⊢ with hj
  · rw [Option.any_eq_true] at h ⊢
    obtain ⟨fLab, hf, hc⟩ := h
    exact ⟨fLab, hf, contains_of_contains_shrink hc⟩
  · rfl

/-- Without waits, following a thread stands in nobody's way. -/
theorem harmless_of_noWaits (hw : NoWaits g) {v : ℕ → ℕ}
    (hnext : (g.getEventLabel ⟨t, v t + 1⟩).isSome) (h : (system g).Takes (follow g) v t) :
    (system g).Harmless (goesOn g) v t where
  free := fun w hwv => by
    obtain ⟨lab, hlab⟩ := Option.isSome_iff_exists.1 hnext
    have hblock : canBlock g ⟨v⟩ t = false := by
      have := h.2.2
      rwa [follow, Bool.not_eq_true'] at this
    have hlab' : nextLabel g ⟨v⟩ t = some lab := hlab
    have hlabw : nextLabel g ⟨w⟩ t = some lab := by
      rw [nextLabel]
      simp only
      rw [hwv.eq, hlab]
    rw [canBlock, hlab', Option.any_some] at hblock
    rw [goesOn, canGoOn, hlabw, Option.any_some]
    exact canProceed_of_not_isBlocking hblock
  opens := fun w u _ hut _ _ hgo => by
    rw [goesOn, canGoOn, Option.any_eq_true] at hgo ⊢
    obtain ⟨lab, hlab, hc⟩ := hgo
    have hlab' : nextLabel g ⟨w⟩ u = some lab := by
      rw [nextLabel] at hlab ⊢
      simp only at hlab ⊢
      rwa [System.shrink_of_ne w hut] at hlab
    obtain ⟨hlock, hbar⟩ := hw _ _ hlab'
    exact ⟨lab, hlab', canProceed_of_shrink (v := ⟨w⟩) (u := t) hlock hbar hc⟩

/-- **Without lock acquisitions and barrier waits the bound is exact.** -/
theorem exact_of_noWaits (hg : g.SeqConsistent) (hne : (eventsOf g).Nonempty) (hw : NoWaits g)
    (bound : ℕ) : doesExecutionExceedBound g bound = some false ↔ WithinBound g bound := by
  have hne' := (exists_getMax_ne_zero hg).2 hne
  rw [← greedyTestedWithinBound_iff hg hne', greedyWithinBound_iff (testsRight_of_noWaits hg hw)]
  refine ⟨?_, ?_⟩
  · rintro ⟨l, hl, -, hle⟩
    exact ⟨l, hl, hle⟩
  · rintro ⟨l, hl, hle⟩
    obtain ⟨i, hi, σ, hσ, rfl⟩ := (linearization_iff hg hne').1 hl
    have hpos := (mem_candidates.1 hi).2.1
    have hbelow : System.shrink (fullView g).getMax i ≤ (fullView g).getMax := fun u => by
      by_cases hu : u = i
      · rw [hu, System.shrink_self]
        exact Nat.sub_le _ _
      · rw [System.shrink_of_ne _ hu]
    have hlt : System.shrink (fullView g).getMax i i < (fullView g).getMax i := by
      rw [System.shrink_self]
      omega
    have hharm : ∀ w ≤ (fullView g).getMax, ∀ t, w t < (fullView g).getMax t →
        (system g).Takes (follow g) w t → (system g).Harmless (goesOn g) w t :=
      fun w _ t hwt htakes => harmless_of_noWaits hw
        ((isSome_iff_le_fullView hg (Nat.succ_pos _)).2 (View.contains_iff.2 hwt)) htakes
    obtain ⟨σ', hσ', hgreedy, hcost⟩ :=
      System.exists_greedy hharm σ.length _ i σ rfl hbelow hlt hσ
    refine ⟨_, (linearization_iff hg hne').2 ⟨i, hi, σ', hσ', rfl⟩,
      (greedy_scheduled_iff (v := shrinkViewByOne (fullView g) i) hσ' _).2 hgreedy, ?_⟩
    exact (countP_scheduled (v := shrinkViewByOne (fullView g) i) (goesOn g) hσ' _).le.trans
      (hcost.trans ((countP_scheduled (v := shrinkViewByOne (fullView g) i)
        (goesOn g) hσ _).ge.trans
        hle))

/-! ## Graphs with locks -/

/-- A read finds a lock free. -/
def ReadsFree (g : ExecutionGraph) (rLab : EventLabel) : Prop :=
  ∃ w ∈ rLab.rf, w = Event.getInit ∨
    ∃ wLab ∈ g.getEventLabel w, isUnlockWrite wLab.kind = true

instance (rLab : EventLabel) : Decidable (ReadsFree g rLab) :=
  inferInstanceAs (Decidable (∃ _, _))

/-- There are no barriers, and the locations of locks are only used as locks: what is written there
is zero when it comes from an unlock and something else otherwise, and who finds a lock free takes
it. -/
structure LocksTracked (g : ExecutionGraph) : Prop where
  noBarrier : ∀ e lab, g.getEventLabel e = some lab → lab.kind ≠ .BWaitRead
  write : ∀ e lab, g.getEventLabel e = some lab → isLockCasRead lab.kind = true →
    ∀ w ∈ g.co lab.addr, ∀ wLab ∈ g.getEventLabel w,
      (wLab.value = 0 ↔ isUnlockWrite wLab.kind = true)
  acquire : ∀ e lab, g.getEventLabel e = some lab → isLockCasRead lab.kind = true →
    ∀ r rLab, g.getEventLabel r = some rLab → rLab.isRead = true → rLab.addr = lab.addr →
      ReadsFree g rLab → (g.frSuccs rLab).head? = some r.next

/-- The latest store is the last one of the prefix in coherence. -/
theorem not_contains_after_latestStore (hg : g.SeqConsistent) {addr : SAddr} {w u : Event}
    (h : latestStore g v addr = some w)
    (hu : u ∈ (g.co addr).drop ((g.co addr).idxOf w + 1)) : v.contains u = false := by
  rw [latestStore] at h
  obtain ⟨-, as, bs, hrev, hnot⟩ := List.find?_eq_some_iff_append.1 h
  have hco : g.co addr = bs.reverse ++ w :: as.reverse := by
    have := congrArg List.reverse hrev
    rw [List.reverse_reverse] at this
    rw [this]
    simp
  have hdrop : (g.co addr).drop bs.reverse.length = w :: as.reverse := by
    rw [hco, List.drop_left]
  rw [ExecutionGraph.drop_idxOf_succ (hg.coNodup addr) hdrop, List.mem_reverse] at hu
  simpa using hnot u hu

/-- Between updates, a free lock has not been read by anybody of the prefix. -/
theorem not_contains_next_of_readsFree {r : Event} {rLab : EventLabel}
    (hmid : ¬ MidUpdate g v r.thread) (hr : g.getEventLabel r = some rLab)
    (hread : rLab.isRead = true) (hnext : (g.frSuccs rLab).head? = some r.next)
    (hv : v.contains r.next = false) : v.contains r = false := by
  by_contra hc
  have hle := View.contains_iff.1 (Bool.eq_true_of_not_eq_false hc)
  have hlt : ¬ r.next.index ≤ v.getMax r.next.thread := by
    rw [← View.contains_iff, hv]
    exact Bool.false_ne_true
  have hindex : v.getMax r.thread = r.index := by
    simp only [Event.next] at hlt
    omega
  refine hmid ⟨rLab, ?_, hread, ?_⟩
  · rw [hindex]
    exact hr
  · rw [hindex]
    exact hnext

/-- The test of a lock is right. -/
theorem isLockFree_eq (hg : g.SeqConsistent) (hl : LocksTracked g)
    (hmid : ∀ t, ¬ MidUpdate g v t) {e : Event} {lab : EventLabel}
    (he : g.getEventLabel e = some lab) (hlock : isLockCasRead lab.kind = true) :
    isLockFree g v lab.addr = decide (valueAt g v lab.addr = 0) := by
  rw [isLockFree, valueAt]
  cases hw : latestStore g v lab.addr with
  | none =>
    -- nothing has been written, and nobody is about to
    have hnone : ∀ u ∈ g.co lab.addr, v.contains u = false := by
      intro u hu
      rw [latestStore, List.find?_eq_none] at hw
      exact Bool.eq_false_of_not_eq_true (hw u (List.mem_reverse.2 hu))
    simp only [Option.bind_eq_bind, Option.bind_none, Option.map_none, Option.getD_none,
      decide_true, List.all_eq_true]
    intro r hr
    obtain ⟨rLab, hrLab, hread, haddr, hrf⟩ := hg.initReaders _ r hr
    have hnext := hl.acquire e lab he hlock r rLab hrLab hread haddr
      ⟨_, hrf, Or.inl rfl⟩
    have hmem := ExecutionGraph.mem_co_of_mem_frSuccs (List.mem_of_mem_head? hnext)
    rw [haddr] at hmem
    rw [not_contains_next_of_readsFree (hmid _) hrLab hread hnext (hnone _ hmem)]
    rfl
  | some w =>
    have hmem := mem_of_latestStore hw
    obtain ⟨wLab, hwLab, hwrite, haddr⟩ := hg.co _ w hmem
    have hvalue := hl.write e lab he hlock w hmem wLab hwLab
    simp only [Option.bind_eq_bind, Option.bind_some, hwLab, Option.any_some, Option.map_some,
      Option.getD_some]
    by_cases hunlock : isUnlockWrite wLab.kind = true
    · rw [hunlock, Bool.true_and, decide_eq_true (hvalue.2 hunlock), List.all_eq_true]
      intro r hr
      obtain ⟨rLab, hrLab, hread, hrf⟩ := hg.readers w wLab hwLab hwrite r hr
      have hpos := hg.index_pos_of_mem_co hmem
      have hraddr : rLab.addr = lab.addr := by
        obtain ⟨w', hw', hcases⟩ := hg.rf r rLab hrLab hread
        obtain rfl : w' = w := Option.some.inj ((Option.mem_def.1 hw').symm.trans hrf)
        rcases hcases with ⟨hinit, -⟩ | ⟨wLab', hwLab', -, haddr', -⟩
        · rw [hinit] at hpos
          exact absurd hpos (lt_irrefl _)
        · rw [hwLab] at hwLab'
          cases hwLab'
          exact haddr'.symm.trans haddr
      have hnext := hl.acquire e lab he hlock r rLab hrLab hread hraddr
        ⟨w, hrf, Or.inr ⟨wLab, hwLab, hunlock⟩⟩
      have hafter := List.mem_of_mem_head? hnext
      have hinit : w.isInitializer = false := by
        by_contra hinit
        rw [Event.isInitializer_iff.1 (Bool.eq_true_of_not_eq_false hinit)] at hpos
        exact lt_irrefl _ hpos
      rw [ExecutionGraph.frSuccs, if_pos hread, hrf, Option.filter_some, hinit, Bool.not_false,
        if_pos rfl] at hafter
      simp only at hafter
      rw [hraddr] at hafter
      rw [not_contains_after_latestStore hg hw hafter]
      rfl
    · rw [Bool.eq_false_of_not_eq_true hunlock, Bool.false_and,
        decide_eq_false fun h0 => hunlock (hvalue.1 h0)]

/-- **`isEnabled` is right about locks that are only used as locks.** -/
theorem testsRight_of_locksTracked (hg : g.SeqConsistent) (hl : LocksTracked g) :
    TestsRight g := by
  refine testsRight_of_betweenUpdates hg fun v _ hmid t => ?_
  cases hn : nextLabel g v t with
  | none =>
    rw [isEnabled_of_nextLabel_eq_none hn, canGoOn, hn]
    rfl
  | some lab =>
    have hbar := hl.noBarrier _ _ hn
    by_cases hj : lab.kind = .ThreadJoin
    · exact isEnabled_of_join hg hn hj
    · rw [isEnabled_of_nextLabel hg hn, canGoOn, hn, Option.any_some, canProceed, if_neg hj,
        if_neg hj]
      split_ifs with hlock
      · rw [isLockFree_eq hg hl hmid hn hlock]
      · rfl

/-! ## A lock that is handed over -/

/-- The check of one label of a graph with locks. -/
def LocksTrackedAt (g : ExecutionGraph) (lab : EventLabel) : Prop :=
  lab.kind ≠ .BWaitRead ∧ (isLockCasRead lab.kind = true →
    (∀ w ∈ g.co lab.addr, ∀ wLab ∈ g.getEventLabel w,
      (wLab.value = 0 ↔ isUnlockWrite wLab.kind = true)) ∧
    ∀ r ∈ g.positions, ∀ rLab ∈ g.getEventLabel r, rLab.isRead = true →
      rLab.addr = lab.addr → ReadsFree g rLab → (g.frSuccs rLab).head? = some r.next)

instance (lab : EventLabel) : Decidable (LocksTrackedAt g lab) :=
  inferInstanceAs (Decidable (_ ∧ _))

theorem locksTracked_of_forall (h : ∀ e ∈ g.positions, ∀ lab ∈ g.getEventLabel e,
    LocksTrackedAt g lab) : LocksTracked g := by
  have h' := ExecutionGraph.forall_label_iff.2 h
  exact {
    noBarrier := fun e lab hlab => (h' e lab hlab).1
    write := fun e lab hlab hlock => ((h' e lab hlab).2 hlock).1
    acquire := fun e lab hlab hlock =>
      ExecutionGraph.forall_label_iff.2 ((h' e lab hlab).2 hlock).2 }

theorem handover_locksTracked : LocksTracked handover :=
  locksTracked_of_forall (by decide +kernel)

/-- A list of all events along which a rank increases is a linearization. -/
theorem linearization_of_rank (rank : Event → ℕ) {l : List Event} (hnodup : l.Nodup)
    (hmem : ∀ e ∈ l, 0 < e.index ∧ e ∈ g.positions)
    (hall : ∀ e ∈ g.positions, 0 < e.index → e ∈ l)
    (hlab : ∀ e ∈ g.positions, ∀ lab ∈ g.getEventLabel e, g.ScIncreasesAt rank e lab)
    (hsorted : l.Pairwise fun a b => rank a < rank b) : Linearization g (eventsOf g) l where
  nodup := hnodup
  mem_iff := fun e => ⟨fun he => ⟨(hmem e he).1, ExecutionGraph.mem_positions.1 (hmem e he).2⟩,
    fun he => hall e (ExecutionGraph.mem_positions.2 he.2) he.1⟩
  sorted := hsorted.imp fun hab hba =>
    lt_asymm hab (ExecutionGraph.lt_of_scEdge (ExecutionGraph.forall_label_iff.2 hlab) hba)

/-- Thread 1 is left once, when it holds the lock and could go on.  Thread 2 is then left where it
waits for the lock. -/
theorem handover_withinBound : WithinBound handover 1 := by
  refine ⟨handover.insertionOrder.filter (0 < ·.index), ?_, by decide +kernel⟩
  exact linearization_of_rank (fun e => handover.insertionOrder.idxOf e) (by decide +kernel)
    (by decide +kernel) (by decide +kernel) (by decide +kernel) (by decide +kernel)

/-- One preemption is enough, and the code says that it is not: it follows thread 1 back to where it
takes the lock, and then thread 2 no longer waits. -/
theorem handover_not_exact : handover.SeqConsistent ∧
    ¬ (doesExecutionExceedBound handover 1 = some false ↔ WithinBound handover 1) := by
  refine ⟨handover_seqConsistent, fun h => ?_⟩
  have hexceeds : doesExecutionExceedBound handover 1 = some true := by decide +kernel
  rw [hexceeds] at h
  exact absurd (h.2 handover_withinBound) (by decide)

/-- No greedy linearization of the graph stays within one preemption. -/
theorem handover_exact_iff : TestsRight handover ∧
    ((doesExecutionExceedBound handover 1 = some false ↔ WithinBound handover 1) ↔
      (eventsOf handover).Nonempty ∧
        (WithinBound handover 1 ↔ GreedyTestedWithinBound handover 1)) ∧
    ((doesExecutionExceedBound handover 1 = some false ↔ WithinBound handover 1) ↔
      (eventsOf handover).Nonempty ∧
        (WithinBound handover 1 → GreedyWithinBound handover 1)) :=
  have htests := testsRight_of_locksTracked handover_seqConsistent handover_locksTracked
  have h := doesExecutionExceedBound_exact_iff handover handover_seqConsistent 1
  ⟨htests, h.1, h.2 htests⟩

end ContextBoundDecider
end GenMC
