import GenMC.Execution.SequentialConsistency
import GenMC.Library.BoundedSearch
import GenMC.Library.Preemption

/-!
# Bounding preemptive context switches

An exploration can be bounded by the number of preemptive context switches.  An execution graph has
many linearizations, and the decider looks for one with few preemptions.  It works backwards: it
takes a prefix of the graph and the thread that goes on after it, takes away events of that thread
for as long as they are maximal (`unfoldPrefix`), and then tries all threads that have a maximal
event.  `doesExecutionExceedBound` stops where the bound is used up; `calculate` goes through
everything and returns the minimum.

* `candidates_ne_nil`: **every prefix of a sequentially consistent graph ends with some maximal
  event**, so that neither of the two searches gets stuck.
* `doesExecutionExceedBound_eq_calculate`: **the two searches agree**.

The begin of a thread does not count as an event of a prefix: a thread of which only the begin is
left is not in the prefix.  The views here are only copied and lowered by one, and are the functions
they stand for.  Both searches are recursive on a number that bounds the events of the prefix;
`none` stands for a check that fails, and for running out of that number.
-/

set_option autoImplicit false

namespace GenMC
namespace ContextBoundDecider

/-! ## The code -/

/-- The label after the last event of a thread in a prefix. -/
def nextLabel (g : ExecutionGraph) (v : View) (t : ℕ) : Option EventLabel :=
  g.getEventLabel ⟨t, v.getMax t + 1⟩

def isLockCasRead (k : EventLabelKind) : Bool :=
  EventLabelKind.classofRange .LockCasRead .AbstractLockCasRead k

def isUnlockWrite (k : EventLabelKind) : Bool :=
  EventLabelKind.classofRange .UnlockWrite .AbstractUnlockWrite k

/-- Joins, lock acquisitions and barrier waits may have to wait. -/
def isBlocking (lab : EventLabel) : Bool :=
  lab.kind = .ThreadJoin || isLockCasRead lab.kind || lab.kind = .BWaitRead

def canBlock (g : ExecutionGraph) (v : View) (t : ℕ) : Bool :=
  (nextLabel g v t).any isBlocking

/-- The last write to an address in a prefix. -/
def latestStore (g : ExecutionGraph) (v : View) (addr : SAddr) : Option Event :=
  (g.co addr).reverse.find? (v.contains ·)

/-- The lock at an address can be acquired. -/
def isLockFree (g : ExecutionGraph) (v : View) (addr : SAddr) : Bool :=
  match latestStore g v addr with
  | none => (g.initReaders addr).all fun r => !v.contains r
  | some w => (g.getEventLabel w).any fun sLab =>
      isUnlockWrite sLab.kind && sLab.readers.all fun r => !v.contains r.next

/-- The barrier at an address has its initial value. -/
def isBarrierOpen (g : ExecutionGraph) (v : View) (addr : SAddr) : Option Bool := do
  let iwLab ← (g.co addr).head? >>= g.getEventLabel
  let wLab ← latestStore g v addr >>= g.getEventLabel
  some (iwLab.value = wLab.value)

def isEnabled (g : ExecutionGraph) (v : View) (t : ℕ) : Option Bool :=
  match g.getEventLabel ⟨t, v.getMax t⟩, nextLabel g v t with
  | some llab, some nLab =>
    if llab.isTerminator then some false
    else if nLab.kind = .ThreadJoin then (g.tjPred nLab).map fun fLab => v.contains fLab.pos
    else if isLockCasRead nLab.kind then some (isLockFree g v nLab.addr)
    else if nLab.kind = .BWaitRead then isBarrierOpen g v nLab.addr
    else some true
  -- a thread without further events is disabled
  | _, _ => some false

/-- The next write after a write, or after what a read reads from. -/
def nextStore (g : ExecutionGraph) (lab : EventLabel) : Option Event :=
  if lab.isWrite then (g.coSuccs lab).head? else (g.frSuccs lab).head?

/-- Whether the last event of a thread in a prefix could be the last event of the prefix. -/
def isSCMaximal (g : ExecutionGraph) (v : View) (t : ℕ) : Bool :=
  match g.getEventLabel ⟨t, v.getMax t⟩ with
  | none => false
  | some lab =>
    if lab.kind = .ThreadFinish then lab.parentJoin.all fun j => !v.contains j
    else if lab.kind = .ThreadCreate then v.getMax lab.childId = 0
    else if !lab.isMemAccess then true
    else if lab.isWrite && lab.readers.any (v.contains ·) then false
    else if (g.co lab.addr).isEmpty then true
    else (nextStore g lab).all fun w => !v.contains w

def shrinkViewByOne (v : View) (t : ℕ) : View := ⟨System.shrink v.getMax t⟩

/-- The loop of `unfoldPrefix`, at most `n` times. -/
def unfoldLoop (g : ExecutionGraph) (t : ℕ) : ℕ → View → View
  | 0, v => v
  | n + 1, v =>
    if v.getMax t ≠ 0 ∧ isSCMaximal g v t ∧ !canBlock g v t then
      unfoldLoop g t n (shrinkViewByOne v t)
    else v

/-- Takes away events of a thread while they are maximal.  Each round takes one away. -/
def unfoldPrefix (g : ExecutionGraph) (v : View) (t : ℕ) : View :=
  unfoldLoop g t (v.getMax t) v

/-- No thread has events other than its begin. -/
def isEmpty (g : ExecutionGraph) (v : View) : Bool :=
  (List.range g.getNumThreads).all fun t => v.getMax t = 0

/-- A thread that a linearization of the prefix can end with. -/
def isCandidate (g : ExecutionGraph) (v : View) (t : ℕ) : Bool :=
  v.getMax t ≠ 0 && isSCMaximal g v t

/-- Whether going on with `t` after a prefix that ends with `tp` is a preemption. -/
def preempts (g : ExecutionGraph) (v : View) (t tp : ℕ) : Option Bool :=
  if tp ≠ t then isEnabled g v tp else some false

/-- The loop over the threads in `doesPrefixExceedBound`, with the recursive call and the threads
that are left.  The last argument is `exists`. -/
def prefixLoop (g : ExecutionGraph) (call : View → ℕ → ℕ → Option Bool) (v : View) (t bound : ℕ) :
    List ℕ → Bool → Option Bool
  | [], found => if found then some false else none
  | tp :: rest, found =>
    if isCandidate g v tp then do
      if ← preempts g v t tp then
        if bound ≠ 0 then
          if ← call (shrinkViewByOne v tp) tp (bound - 1) then some true
          else prefixLoop g call v t bound rest true
        else prefixLoop g call v t bound rest true
      else
        if ← call (shrinkViewByOne v tp) tp bound then some true
        else prefixLoop g call v t bound rest true
    else prefixLoop g call v t bound rest found

/-- Whether a prefix after which `t` goes on has a linearization within the bound. -/
def doesPrefixExceedBound (g : ExecutionGraph) : ℕ → View → ℕ → ℕ → Option Bool
  | 0, _, _, _ => none
  | n + 1, v, t, bound =>
    let v := unfoldPrefix g v t
    if isEmpty g v then some true
    else
      prefixLoop g (doesPrefixExceedBound g n) v t bound (List.range g.getNumThreads) false

/-- All events of the graph. -/
def fullView (g : ExecutionGraph) : View := g.getViewFromStamp g.getMaxStamp

/-- The number of events of a prefix. -/
def numEvents (g : ExecutionGraph) (v : View) : ℕ :=
  ((List.range g.getNumThreads).map v.getMax).sum

/-- The loop of `doesExecutionExceedBound`. -/
def executionLoop (g : ExecutionGraph) (v : View) (bound : ℕ) :
    List ℕ → Bool → Option Bool
  | [], found => if found then some true else none
  | i :: rest, found =>
    if isCandidate g v i then do
      if ← doesPrefixExceedBound g (numEvents g v) (shrinkViewByOne v i) i bound then some false
      else executionLoop g v bound rest true
    else executionLoop g v bound rest found

def doesExecutionExceedBound (g : ExecutionGraph) (bound : ℕ) : Option Bool :=
  executionLoop g (fullView g) bound (List.range g.getNumThreads) false

/-- The minimum of what was found and one more value. -/
def minOpt (res : Option ℕ) (b : ℕ) : Option ℕ := some (res.elim b (min · b))

/-- The loop over the threads in `calculate`; the last argument is `res`. -/
def calculateLoop (g : ExecutionGraph) (call : View → ℕ → Option ℕ) (v : View) (t : ℕ) :
    List ℕ → Option ℕ → Option ℕ
  | [], res => res
  | tp :: rest, res =>
    if isCandidate g v tp then do
      let b ← call (shrinkViewByOne v tp) tp
      let p ← preempts g v t tp
      calculateLoop g call v t rest (minOpt res (b + if p then 1 else 0))
    else calculateLoop g call v t rest res

/-- `calculate` of a prefix. -/
def calculatePrefix (g : ExecutionGraph) : ℕ → View → ℕ → Option ℕ
  | 0, _, _ => none
  | n + 1, v, t =>
    let v := unfoldPrefix g v t
    if isEmpty g v then some 0
    else calculateLoop g (calculatePrefix g n) v t (List.range g.getNumThreads) none

/-- The outer loop of `calculate`. -/
def executionMinLoop (g : ExecutionGraph) (v : View) : List ℕ → Option ℕ → Option ℕ
  | [], res => res
  | i :: rest, res =>
    if isCandidate g v i then do
      let b ← calculatePrefix g (numEvents g v) (shrinkViewByOne v i) i
      executionMinLoop g v rest (minOpt res b)
    else executionMinLoop g v rest res

def calculate (g : ExecutionGraph) : Option ℕ :=
  executionMinLoop g (fullView g) (List.range g.getNumThreads) none

/-! ## Enabled threads -/

variable {g : ExecutionGraph} {v : View} {t : ℕ}

theorem latestStore_isSome {addr : SAddr} {w : Event} (hw : w ∈ g.co addr)
    (hv : v.contains w = true) : (latestStore g v addr).isSome := by
  rw [latestStore, List.find?_isSome]
  exact ⟨w, List.mem_reverse.2 hw, hv⟩

theorem mem_of_latestStore {addr : SAddr} {w : Event} (h : latestStore g v addr = some w) :
    w ∈ g.co addr := List.mem_reverse.1 (List.mem_of_find?_eq_some h)

/-- The writes that the test of a barrier looks for are there. -/
theorem isBarrierOpen_isSome (hg : g.SeqConsistent) {addr : SAddr} {w : Event}
    (hw : w ∈ g.co addr) (hv : v.contains w = true) : (isBarrierOpen g v addr).isSome := by
  obtain ⟨iw, hiw⟩ : ∃ iw, (g.co addr).head? = some iw := by
    cases h : g.co addr with
    | nil => rw [h] at hw; exact absurd hw List.not_mem_nil
    | cons iw _ => exact ⟨iw, rfl⟩
  obtain ⟨iLab, hiLab, -⟩ := hg.co addr iw (List.mem_of_mem_head? hiw)
  obtain ⟨u, hu⟩ := Option.isSome_iff_exists.1 (latestStore_isSome hw hv)
  obtain ⟨uLab, huLab, -⟩ := hg.co addr u (mem_of_latestStore hu)
  simp [isBarrierOpen, hiw, hu, hiLab, huLab]

/-- The checks of `isEnabled` hold. -/
theorem isEnabled_isSome (hg : g.SeqConsistent) (v : View) (t : ℕ) : (isEnabled g v t).isSome := by
  rw [isEnabled]
  split
  · rename_i llab nLab hl hn
    split_ifs with hterm hj hlock hb
    · rfl
    · obtain ⟨fLab, hf, -⟩ := hg.join _ _ hn hj
      rw [hf]
      rfl
    · rfl
    · obtain ⟨wLab, hwLab, hk, ha⟩ := hg.barrier _ _ _ hn hb
      rw [Nat.add_sub_cancel] at hwLab
      have hw := hg.write _ _ hwLab (by rw [EventLabel.isWrite, hk]; rfl)
      rw [ha] at hw
      exact isBarrierOpen_isSome hg hw (by simp)
    · rfl
  · rfl

theorem preempts_isSome (hg : g.SeqConsistent) (v : View) (t tp : ℕ) :
    (preempts g v t tp).isSome := by
  rw [preempts]
  split
  · exact isEnabled_isSome hg v tp
  · rfl

/-! ## Maximal events -/

/-- The last events of a prefix are in the graph. -/
def Within (g : ExecutionGraph) (v : View) : Prop :=
  ∀ t, v.getMax t ≠ 0 → (g.getEventLabel ⟨t, v.getMax t⟩).isSome

theorem getMax_shrinkViewByOne (v : View) (t u : ℕ) :
    (shrinkViewByOne v t).getMax u = if u = t then v.getMax t - 1 else v.getMax u := by
  by_cases h : u = t
  · subst h
    rw [if_pos rfl]
    exact System.shrink_self _ _
  · rw [if_neg h]
    exact System.shrink_of_ne _ h

theorem Within.shrink (h : Within g v) (t : ℕ) : Within g (shrinkViewByOne v t) := by
  intro u hu
  rw [getMax_shrinkViewByOne] at hu ⊢
  split at hu
  · subst u
    rw [if_pos rfl]
    exact ExecutionGraph.getEventLabel_isSome_of_le (h t (by omega)) rfl (Nat.sub_le _ _)
  · rename_i hut
    rw [if_neg hut]
    exact h u hu

theorem Within.lt_numThreads (h : Within g v) (ht : v.getMax t ≠ 0) : t < g.getNumThreads := by
  have := h t ht
  rw [← ExecutionGraph.containsPos_eq_isSome, ExecutionGraph.containsPos, Bool.and_eq_true,
    decide_eq_true_eq] at this
  exact this.1

/-- An event that is not maximal comes before another event of the prefix. -/
theorem exists_scEdge_of_not_isSCMaximal (hg : g.SeqConsistent) (hv : Within g v)
    (ht : v.getMax t ≠ 0) (h : isSCMaximal g v t = false) :
    ∃ b, 0 < b.index ∧ v.contains b = true ∧ ExecutionGraph.ScEdge g ⟨t, v.getMax t⟩ b := by
  obtain ⟨lab, hlab⟩ := Option.isSome_iff_exists.1 (hv t ht)
  rw [isSCMaximal, hlab] at h
  simp only at h
  split_ifs at h with hfin hcre hmem hwr hempty
  · -- the end of a thread that has been joined
    obtain ⟨j, hj, hjv⟩ : ∃ j, lab.parentJoin = some j ∧ v.contains j = true := by
      cases hj : lab.parentJoin with
      | none => rw [hj] at h; exact Bool.noConfusion h
      | some j => rw [hj] at h; exact ⟨j, rfl, by simpa using h⟩
    obtain ⟨hpos, hedge⟩ := hg.scEdge_parentJoin hlab hfin hj
    exact ⟨j, hpos, hjv, hedge⟩
  · -- the creation of a thread that has started
    have hc : v.getMax lab.childId ≠ 0 := by simpa using h
    refine ⟨⟨lab.childId, 1⟩, Nat.one_pos, ?_, .create hlab hcre ?_⟩
    · simpa [Nat.one_le_iff_ne_zero] using hc
    · exact ExecutionGraph.getEventLabel_isSome_of_le (hv _ hc) rfl
        (Nat.one_le_iff_ne_zero.2 hc)
  · -- a write that has been read
    obtain ⟨hwrite, hread⟩ := Bool.and_eq_true_iff.1 hwr
    obtain ⟨r, hr, hrv⟩ := List.any_eq_true.1 hread
    obtain ⟨rLab, hrLab, hrr, hrf⟩ := hg.readers _ _ hlab hwrite r hr
    refine ⟨r, hg.index_pos hrLab ?_, hrv, .rf hrLab hrr hrf⟩
    exact ExecutionGraph.not_isThreadStart_of_isMemAccess (EventLabel.isMemAccess_of_isRead hrr)
  · -- an access with a later write
    obtain ⟨w, hw, hwv⟩ : ∃ w, nextStore g lab = some w ∧ v.contains w = true := by
      cases hw : nextStore g lab with
      | none => rw [hw] at h; exact Bool.noConfusion h
      | some w => rw [hw] at h; exact ⟨w, rfl, by simpa using h⟩
    rw [nextStore] at hw
    split at hw
    · have hmem := List.mem_of_mem_head? hw
      exact ⟨w, hg.index_pos_of_mem_co (ExecutionGraph.mem_co_of_mem_coSuccs hmem), hwv,
        .co hlab hmem⟩
    · have hmem := List.mem_of_mem_head? hw
      exact ⟨w, hg.index_pos_of_mem_co (ExecutionGraph.mem_co_of_mem_frSuccs hmem), hwv,
        .fr hlab hmem⟩

/-- Program order within a prefix. -/
theorem reflTransGen_po (hv : Within g v) {t i : ℕ} (h : i ≤ v.getMax t) :
    Relation.ReflTransGen (ExecutionGraph.ScEdge g) ⟨t, i⟩ ⟨t, v.getMax t⟩ := by
  have hstep : ∀ j, i ≤ j → j ≤ v.getMax t →
      Relation.ReflTransGen (ExecutionGraph.ScEdge g) ⟨t, i⟩ ⟨t, j⟩ := by
    intro j hij
    induction j, hij using Nat.le_induction with
    | base => exact fun _ => .refl
    | succ j _ ih =>
      intro hj
      refine (ih (by omega)).tail (.po ?_)
      exact ExecutionGraph.getEventLabel_isSome_of_le (hv t (by omega)) rfl hj
  exact hstep _ h le_rfl

/-- The threads that a linearization of the prefix can end with. -/
def candidates (g : ExecutionGraph) (v : View) : List ℕ :=
  (List.range g.getNumThreads).filter (isCandidate g v)

theorem isCandidate_iff : isCandidate g v t = true ↔ v.getMax t ≠ 0 ∧ isSCMaximal g v t = true := by
  rw [isCandidate, Bool.and_eq_true, decide_eq_true_eq]

theorem mem_candidates :
    t ∈ candidates g v ↔ t < g.getNumThreads ∧ v.getMax t ≠ 0 ∧ isSCMaximal g v t = true := by
  rw [candidates, List.mem_filter, List.mem_range, isCandidate_iff]

/-- **Every prefix with events ends with a maximal event.**  If the last event of each thread came
before another event of the prefix, these events would come before each other in a circle. -/
theorem candidates_ne_nil (hg : g.SeqConsistent) (hv : Within g v) (hne : ∃ t, v.getMax t ≠ 0) :
    candidates g v ≠ [] := by
  intro hno
  have hnot : ∀ t, v.getMax t ≠ 0 → isSCMaximal g v t = false := by
    intro t ht
    by_contra hmax
    have := mem_candidates.2 ⟨hv.lt_numThreads ht, ht, Bool.eq_true_of_not_eq_false hmax⟩
    rw [hno] at this
    exact absurd this List.not_mem_nil
  -- the threads of the prefix, ordered by what comes after their last events
  let T := {t // t < g.getNumThreads ∧ v.getMax t ≠ 0}
  have : Finite T := Set.Finite.subset (Set.finite_lt_nat g.getNumThreads) fun t ht => ht.1
  let R : T → T → Prop := fun t u =>
    Relation.TransGen (ExecutionGraph.ScEdge g) ⟨u.1, v.getMax u.1⟩ ⟨t.1, v.getMax t.1⟩
  have htrans : IsTrans T R := ⟨fun _ _ _ hab hbc => hbc.trans hab⟩
  have hirrefl : Std.Irrefl R := ⟨fun t h => hg.acyclic _ h⟩
  have hwf : WellFounded R := Finite.wellFounded_of_trans_of_irrefl R
  obtain ⟨t, ht⟩ := hne
  obtain ⟨m, -, hm⟩ := hwf.has_min Set.univ ⟨⟨t, hv.lt_numThreads ht, ht⟩, trivial⟩
  obtain ⟨b, hpos, hbv, hedge⟩ :=
    exists_scEdge_of_not_isSCMaximal hg hv m.2.2 (hnot m.1 m.2.2)
  have hb : b.index ≤ v.getMax b.thread := View.contains_iff.1 hbv
  have hb0 : v.getMax b.thread ≠ 0 := by omega
  exact hm ⟨b.thread, hv.lt_numThreads hb0, hb0⟩ trivial
    (Relation.TransGen.head' hedge (reflTransGen_po hv hb))

/-! ## Unfolding -/

theorem unfoldLoop_induct {P : View → Prop} {t : ℕ}
    (hstep : ∀ v, P v → v.getMax t ≠ 0 → isSCMaximal g v t = true → canBlock g v t = false →
      P (shrinkViewByOne v t)) : ∀ n v, P v → P (unfoldLoop g t n v) := by
  intro n
  induction n with
  | zero => exact fun v h => h
  | succ n ih =>
    intro v h
    rw [unfoldLoop]
    split_ifs with hc
    · exact ih _ (hstep v h hc.1 hc.2.1 (by simpa using hc.2.2))
    · exact h

theorem Within.unfoldPrefix (h : Within g v) (t : ℕ) : Within g (unfoldPrefix g v t) :=
  unfoldLoop_induct (fun _ h _ _ _ => h.shrink t) _ _ h

theorem numEvents_eq_sum (g : ExecutionGraph) (v : View) :
    numEvents g v = ∑ t ∈ Finset.range g.getNumThreads, v.getMax t := rfl

theorem numEvents_shrink (h : t < g.getNumThreads) (ht : v.getMax t ≠ 0) :
    numEvents g (shrinkViewByOne v t) + 1 = numEvents g v := by
  have hmem : t ∈ Finset.range g.getNumThreads := Finset.mem_range.2 h
  rw [numEvents_eq_sum, numEvents_eq_sum, ← Finset.add_sum_erase _ _ hmem,
    ← Finset.add_sum_erase _ _ hmem, getMax_shrinkViewByOne, if_pos rfl]
  have hrest : ∀ u ∈ (Finset.range g.getNumThreads).erase t,
      (shrinkViewByOne v t).getMax u = v.getMax u := fun u hu => by
    rw [getMax_shrinkViewByOne, if_neg (Finset.ne_of_mem_erase hu)]
  rw [Finset.sum_congr rfl hrest, Nat.add_right_comm, Nat.sub_add_cancel (by omega)]

theorem numEvents_unfoldPrefix_le (hv : Within g v) (t : ℕ) :
    numEvents g (unfoldPrefix g v t) ≤ numEvents g v := by
  refine (unfoldLoop_induct (P := fun w => Within g w ∧ numEvents g w ≤ numEvents g v)
    (fun w hw ht _ _ => ⟨hw.1.shrink t, ?_⟩) _ _ ⟨hv, le_rfl⟩).2
  have := numEvents_shrink (hw.1.lt_numThreads ht) ht
  omega

theorem isEmpty_iff (hv : Within g v) : isEmpty g v = true ↔ ∀ t, v.getMax t = 0 := by
  simp only [isEmpty, List.all_eq_true, List.mem_range, decide_eq_true_eq]
  refine ⟨fun h t => ?_, ?_⟩
  · by_contra ht
    exact ht (h t (hv.lt_numThreads ht))
  · exact fun h t _ => h t

/-! ## The two searches -/

/-- What a switch adds to the preemptions. -/
def switchCost (p : Bool) : ℕ := if p = true then 1 else 0

section Loops

open BoundedSearch

variable (bcall : View → ℕ → ℕ → Option Bool) (call : View → ℕ → Option ℕ)

/-- The preemptions of a prefix after which `t` goes on and that ends with `u`. -/
def branchCost (g : ExecutionGraph) (v : View) (t u : ℕ) : Option ℕ := do
  let b ← call (shrinkViewByOne v u) u
  let p ← preempts g v t u
  some (b + switchCost p)

/-- The same with a bound. -/
def branchWithin (g : ExecutionGraph) (v : View) (t bound u : ℕ) : Option Bool := do
  if ← preempts g v t u then
    if bound ≠ 0 then bcall (shrinkViewByOne v u) u (bound - 1) else some false
  else bcall (shrinkViewByOne v u) u bound

theorem calculateLoop_eq (v : View) (t : ℕ) (ts : List ℕ) :
    ∀ res, calculateLoop g call v t ts res =
      minLoop (branchCost call g v t) (ts.filter (isCandidate g v)) res := by
  induction ts with
  | nil => exact fun res => rfl
  | cons u ts ih =>
    intro res
    rw [calculateLoop]
    split_ifs with hu
    · rw [List.filter_cons_of_pos hu, minLoop, branchCost]
      cases call (shrinkViewByOne v u) u with
      | none => rfl
      | some c =>
        cases preempts g v t u with
        | none => rfl
        | some p => exact ih _
    · rw [List.filter_cons_of_neg hu]
      exact ih res

theorem prefixLoop_eq (v : View) (t bound : ℕ) (ts : List ℕ) :
    ∀ found, prefixLoop g bcall v t bound ts found =
      boundLoop (branchWithin bcall g v t bound) (ts.filter (isCandidate g v)) found := by
  induction ts with
  | nil => exact fun found => rfl
  | cons u ts ih =>
    intro found
    by_cases hu : isCandidate g v u = true
    · rw [prefixLoop, if_pos hu, List.filter_cons_of_pos hu, boundLoop, branchWithin, ← ih]
      cases preempts g v t u with
      | none => rfl
      | some p =>
        cases p with
        | false => rfl
        | true => cases bound <;> rfl
    · rw [prefixLoop, if_neg hu, List.filter_cons_of_neg hu]
      exact ih found

variable {bcall call}

/-- The calls for a prefix agree on the minimum. -/
def Agree (bcall : View → ℕ → ℕ → Option Bool) (call : View → ℕ → Option ℕ) (v : View) (u : ℕ) :
    Prop :=
  ∃ c, call v u = some c ∧ ∀ b, bcall v u b = some (decide (c ≤ b))

/-- A branch has a cost when its call returns, and then it is within a bound when the cost is. -/
theorem branch_agree (hg : g.SeqConsistent) {u : ℕ} (h : Agree bcall call (shrinkViewByOne v u) u) :
    ∃ c, branchCost call g v t u = some c ∧
      ∀ bound, branchWithin bcall g v t bound u = some (decide (c ≤ bound)) := by
  obtain ⟨c, hc, hb⟩ := h
  obtain ⟨p, hp⟩ := Option.isSome_iff_exists.1 (preempts_isSome hg v t u)
  refine ⟨c + switchCost p, ?_, fun bound => ?_⟩
  · rw [branchCost, hc, hp]
    rfl
  · rw [branchWithin, hp]
    cases p with
    | false => simp [switchCost, hb]
    | true => cases bound <;> simp [switchCost, hb]

end Loops

/-- **The two searches of a prefix agree**, and neither fails. -/
theorem prefix_agree (hg : g.SeqConsistent) : ∀ n v t, Within g v → numEvents g v < n →
    Agree (doesPrefixExceedBound g n) (calculatePrefix g n) v t := by
  intro n
  induction n with
  | zero => exact fun _ _ _ h => absurd h (Nat.not_lt_zero _)
  | succ n ih =>
    intro v t hv hlt
    have hw : Within g (unfoldPrefix g v t) := hv.unfoldPrefix t
    have hle := numEvents_unfoldPrefix_le hv t
    by_cases hempty : isEmpty g (unfoldPrefix g v t) = true
    · refine ⟨0, ?_, fun b => ?_⟩
      · rw [calculatePrefix, if_pos hempty]
      · rw [doesPrefixExceedBound, if_pos hempty, decide_eq_true (Nat.zero_le b)]
    · have hbranch : ∀ u ∈ candidates g (unfoldPrefix g v t), ∃ c,
          branchCost (calculatePrefix g n) g (unfoldPrefix g v t) t u = some c ∧
            ∀ bound, branchWithin (doesPrefixExceedBound g n) g (unfoldPrefix g v t) t bound u =
              some (decide (c ≤ bound)) := by
        intro u hu
        have hpos := (mem_candidates.1 hu).2.1
        have := numEvents_shrink (hw.lt_numThreads hpos) hpos
        exact branch_agree hg (ih _ _ (hw.shrink u) (by omega))
      have hne : candidates g (unfoldPrefix g v t) ≠ [] := by
        refine candidates_ne_nil hg hw ?_
        by_contra hno
        exact hempty ((isEmpty_iff hw).2 fun u => not_not.1 fun hu => hno ⟨u, hu⟩)
      have hcost : ∀ u ∈ candidates g (unfoldPrefix g v t),
          (branchCost (calculatePrefix g n) g (unfoldPrefix g v t) t u).isSome := by
        intro u hu
        obtain ⟨c, hc, -⟩ := hbranch u hu
        rw [hc]
        rfl
      obtain ⟨c, hc⟩ := Option.isSome_iff_exists.1 (BoundedSearch.minLoop_isSome hcost hne)
      refine ⟨c, ?_, fun b => ?_⟩
      · rw [calculatePrefix, if_neg hempty, calculateLoop_eq]
        exact hc
      · rw [doesPrefixExceedBound, if_neg hempty, prefixLoop_eq]
        refine (BoundedSearch.boundLoop_eq_map fun u hu => ?_).trans (congrArg _ hc)
        obtain ⟨c', hc', hb⟩ := hbranch u hu
        exact ⟨c', hc', hb b⟩

/-! ## All events -/

/-- The view of all events ends with the last event of each thread. -/
theorem getMax_fullView (hg : g.SeqConsistent) (t : ℕ) :
    (fullView g).getMax t = g.getThreadSize t - 1 := by
  rw [fullView, ExecutionGraph.getViewFromStamp]
  simp only
  cases hn : g.getThreadSize t with
  | zero => rfl
  | succ n =>
    rw [List.range_succ, List.reverse_append, List.reverse_singleton, List.singleton_append]
    cases n with
    | zero =>
      rw [List.find?_cons]
      split <;> rfl
    | succ n =>
      obtain ⟨lab, hlab⟩ : ∃ lab, g.getEventLabel ⟨t, n + 1⟩ = some lab := by
        refine Option.isSome_iff_exists.1 ?_
        rw [ExecutionGraph.getEventLabel, isSome_getElem?]
        rw [ExecutionGraph.getThreadSize] at hn
        simp only
        omega
      obtain ⟨stamp, hstamp, hle⟩ := hg.stamped _ _ hlab (Nat.succ_pos n)
      rw [List.find?_cons_of_pos]
      · rfl
      · rw [hlab, Option.any_some, Option.mem_def.1 hstamp, Option.any_some, decide_eq_true_eq]
        exact hle

theorem isSome_iff_le_fullView (hg : g.SeqConsistent) {e : Event} (he : 0 < e.index) :
    (g.getEventLabel e).isSome ↔ (fullView g).contains e = true := by
  rw [View.contains_iff, getMax_fullView hg, ExecutionGraph.getThreadSize,
    ExecutionGraph.getEventLabel, isSome_getElem?]
  omega

theorem within_fullView (hg : g.SeqConsistent) : Within g (fullView g) := fun t ht =>
  (isSome_iff_le_fullView hg (Nat.pos_of_ne_zero ht)).2 (by simp)

theorem executionMinLoop_eq (v : View) (ts : List ℕ) :
    ∀ res, executionMinLoop g v ts res =
      BoundedSearch.minLoop
        (fun i => calculatePrefix g (numEvents g v) (shrinkViewByOne v i) i)
        (ts.filter (isCandidate g v)) res := by
  induction ts with
  | nil => exact fun res => rfl
  | cons u ts ih =>
    intro res
    by_cases hu : isCandidate g v u = true
    · rw [executionMinLoop, if_pos hu, List.filter_cons_of_pos hu, BoundedSearch.minLoop]
      cases calculatePrefix g (numEvents g v) (shrinkViewByOne v u) u with
      | none => rfl
      | some c => exact ih _
    · rw [executionMinLoop, if_neg hu, List.filter_cons_of_neg hu]
      exact ih res

theorem executionLoop_eq (v : View) (bound : ℕ) (ts : List ℕ) :
    ∀ found, executionLoop g v bound ts found =
      (BoundedSearch.boundLoop
        (fun i => doesPrefixExceedBound g (numEvents g v) (shrinkViewByOne v i) i bound)
        (ts.filter (isCandidate g v)) found).map (!·) := by
  induction ts with
  | nil =>
    intro found
    cases found <;> rfl
  | cons u ts ih =>
    intro found
    by_cases hu : isCandidate g v u = true
    · rw [executionLoop, if_pos hu, List.filter_cons_of_pos hu, BoundedSearch.boundLoop, ih]
      cases doesPrefixExceedBound g (numEvents g v) (shrinkViewByOne v u) u bound with
      | none => rfl
      | some b => cases b <;> rfl
    · rw [executionLoop, if_neg hu, List.filter_cons_of_neg hu]
      exact ih found

/-- The calls of the outer loops agree. -/
theorem candidates_agree (hg : g.SeqConsistent) (hv : Within g v) {u : ℕ}
    (hu : u ∈ candidates g v) :
    Agree (doesPrefixExceedBound g (numEvents g v)) (calculatePrefix g (numEvents g v))
      (shrinkViewByOne v u) u := by
  have hpos := (mem_candidates.1 hu).2.1
  have := numEvents_shrink (hv.lt_numThreads hpos) hpos
  exact prefix_agree hg _ _ _ (hv.shrink u) (by omega)

/-- A graph with events has a minimum. -/
theorem calculate_isSome (hg : g.SeqConsistent) (hne : ∃ t, (fullView g).getMax t ≠ 0) :
    (calculate g).isSome := by
  rw [calculate, executionMinLoop_eq]
  refine BoundedSearch.minLoop_isSome (fun u hu => ?_)
    (candidates_ne_nil hg (within_fullView hg) hne)
  obtain ⟨c, hc, -⟩ := candidates_agree hg (within_fullView hg) hu
  rw [hc]
  rfl

/-- **The two computations agree.**  On every sequentially consistent graph the bound is exceeded if
and only if the minimum is above it; both computations return as soon as the graph has an event, and
both fail otherwise. -/
theorem doesExecutionExceedBound_eq_calculate (g : ExecutionGraph) (hg : g.SeqConsistent) :
    (∀ bound, doesExecutionExceedBound g bound =
      (calculate g).map fun c => decide (c > bound)) ∧
    ((∃ e : Event, 0 < e.index ∧ (g.getEventLabel e).isSome) → (calculate g).isSome) := by
  refine ⟨fun bound => ?_, ?_⟩
  · rw [doesExecutionExceedBound, executionLoop_eq, calculate, executionMinLoop_eq,
      BoundedSearch.boundLoop_eq_map fun u hu => ?_, Option.map_map]
    · refine congrArg (fun f => Option.map f _) (funext fun c => ?_)
      rw [Function.comp_apply, ← decide_not, decide_eq_decide, not_le]
    · obtain ⟨c, hc, hb⟩ := candidates_agree hg (within_fullView hg) hu
      exact ⟨c, hc, hb bound⟩
  · rintro ⟨e, hpos, he⟩
    refine calculate_isSome hg ⟨e.thread, ?_⟩
    have := View.contains_iff.1 ((isSome_iff_le_fullView hg hpos).1 he)
    omega

/-- Thread 1 writes `a`, takes a lock, reads `b` and releases the lock.  Thread 2 reads what thread
1 wrote to `a`, writes what thread 1 reads at `b`, and takes the lock after thread 1. -/
def handover : ExecutionGraph :=
  { ExecutionGraph.init with
    events :=
      [[{ ExecutionGraph.initLabel with stamp := some 0 },
        { kind := .ThreadCreate, pos := ⟨0, 1⟩, stamp := some 1, childId := 1 },
        { kind := .ThreadCreate, pos := ⟨0, 2⟩, stamp := some 3, childId := 2 },
        { kind := .ThreadFinish, pos := ⟨0, 3⟩, stamp := some 5 }],
       [{ kind := .ThreadStart, pos := ⟨1, 0⟩, stamp := some 2, create := some ⟨0, 1⟩ },
        { kind := .Write, pos := ⟨1, 1⟩, stamp := some 6, addr := 8, value := 1,
          readers := [⟨2, 1⟩] },
        { kind := .LockCasRead, pos := ⟨1, 2⟩, stamp := some 7, addr := 24,
          rf := some Event.getInit },
        { kind := .LockCasWrite, pos := ⟨1, 3⟩, stamp := some 8, addr := 24, value := 1 },
        { kind := .Read, pos := ⟨1, 4⟩, stamp := some 11, addr := 16, rf := some ⟨2, 2⟩ },
        { kind := .UnlockWrite, pos := ⟨1, 5⟩, stamp := some 12, addr := 24,
          readers := [⟨2, 3⟩] },
        { kind := .ThreadFinish, pos := ⟨1, 6⟩, stamp := some 13 }],
       [{ kind := .ThreadStart, pos := ⟨2, 0⟩, stamp := some 4, create := some ⟨0, 2⟩ },
        { kind := .Read, pos := ⟨2, 1⟩, stamp := some 9, addr := 8, rf := some ⟨1, 1⟩ },
        { kind := .Write, pos := ⟨2, 2⟩, stamp := some 10, addr := 16, value := 1,
          readers := [⟨1, 4⟩] },
        { kind := .LockCasRead, pos := ⟨2, 3⟩, stamp := some 14, addr := 24,
          rf := some ⟨1, 5⟩ },
        { kind := .LockCasWrite, pos := ⟨2, 4⟩, stamp := some 15, addr := 24, value := 1 },
        { kind := .UnlockWrite, pos := ⟨2, 5⟩, stamp := some 16, addr := 24 },
        { kind := .ThreadFinish, pos := ⟨2, 6⟩, stamp := some 17 }]]
    insertionOrder :=
      [⟨0, 0⟩, ⟨0, 1⟩, ⟨1, 0⟩, ⟨0, 2⟩, ⟨2, 0⟩, ⟨0, 3⟩, ⟨1, 1⟩, ⟨1, 2⟩, ⟨1, 3⟩, ⟨2, 1⟩,
        ⟨2, 2⟩, ⟨1, 4⟩,
        ⟨1, 5⟩, ⟨1, 6⟩, ⟨2, 3⟩, ⟨2, 4⟩, ⟨2, 5⟩, ⟨2, 6⟩]
    timestamp := 18
    coherence := fun a => if a = 8 then some [⟨1, 1⟩] else if a = 16 then some [⟨2, 2⟩]
      else if a = 24 then some [⟨1, 3⟩, ⟨1, 5⟩, ⟨2, 4⟩, ⟨2, 5⟩] else none
    initRfs := fun a => if a = 24 then some [⟨1, 2⟩] else none }

theorem handover_seqConsistent : handover.SeqConsistent :=
  ExecutionGraph.seqConsistent_of_rank (fun e => handover.insertionOrder.idxOf e) [8, 16, 24]
    (by decide +kernel) (by decide +kernel) (by decide +kernel) fun a ha => by
      simp only [List.mem_cons, List.not_mem_nil, or_false, not_or] at ha
      simp [handover, ExecutionGraph.co, ExecutionGraph.initReaders, ha]

/-- Both computations find two preemptions in this graph. -/
theorem handover_computations_agree : calculate handover = some 2 ∧
    ∀ bound, doesExecutionExceedBound handover bound = some (decide (2 > bound)) := by
  have hc : calculate handover = some 2 := by decide +kernel
  refine ⟨hc, fun bound => ?_⟩
  rw [(doesExecutionExceedBound_eq_calculate handover handover_seqConsistent).1 bound, hc]
  rfl

end ContextBoundDecider
end GenMC
