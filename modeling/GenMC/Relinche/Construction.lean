import GenMC.Execution.ExecutionGraph
import GenMC.Relinche.Normalization

/-!
# Building an observation

`construct` takes the method calls of an execution graph, one for each pair of a begin and an end
(`populateOpsRf`).  Calls at the front that are ordered with all others are erased
(`eraseTotallyOrdered`), since they say nothing about the order of the others.  What is left is
normalised, and happens-before is collected between the calls.

* `erased_ordered_iff`: **a call that is erased is ordered with all calls that are left if and only
  if no two calls that look alike can get past the test** (`Distinguished`).  The test compares
  calls by name and values, so that a call that is concurrent with a second one like it counts as
  ordered with it.
* `twoEnqueues_erased`: of two concurrent calls `enq(1)`, the first one is erased.
* `construct_hb_lt`: happens-before is between different calls of the observation.
-/

set_option autoImplicit false

namespace GenMC

open Normalization

/-- A method call with the positions of its labels. -/
structure GraphCall extends MethodCall where
  beginLab : Event
  endLab : Event
deriving DecidableEq, Repr, Inhabited

/-- An observation with the labels of its calls. -/
structure GraphObservation where
  calls : List GraphCall
  rfs : VSet (Pair ℤ ℤ) := ⟨[]⟩
  hb : VSet CallEdge := ⟨[]⟩
deriving DecidableEq, Repr, Inhabited

namespace GraphObservation

def toObservation (obs : GraphObservation) : Observation where
  ops := obs.calls.map (·.toMethodCall)
  rfs := obs.rfs
  hb := obs.hb

def getCall (obs : GraphObservation) (id : ℕ) : GraphCall := obs.calls.getD id default

end GraphObservation

namespace Observation

/-! ## The code -/

/-- What `populateOpsRf` keeps while it goes through the labels. -/
structure PopulateState where
  /-- The main thread has index 0. -/
  thdKindIx : ℤ := 0
  thdCopyIx : ℤ := 0
  /-- The number of events outside methods. -/
  numOutsideEvents : ℕ := 0
  /-- Writes outside methods, with their indices. -/
  outsideWrites : List (Event × ℕ) := []
  /-- Where reads outside methods read from, with the indices of the reads. -/
  outsideRFs : List (Event × ℕ) := []
  ops : List GraphCall := []
  openBegin : Option EventLabel := none
deriving Inhabited

namespace PopulateState

/-- Counts copies of threads that call the same method.  For threads other than the main one there
has to be a last call, and nothing checks that there is. -/
def countThread (tid : ℕ) (name : String) (s : PopulateState) : Option PopulateState :=
  if tid > 0 then
    s.ops.getLast?.map fun last =>
      if last.name = name then { s with thdCopyIx := s.thdCopyIx + 1 }
      else { s with thdKindIx := s.thdKindIx + 1, thdCopyIx := 1 }
  else some s

/-- The conversion to `int16_t`. -/
def toInt16 (x : ℤ) : ℤ := x.bmod (2 ^ 16)

/-- The call from `beginLab` to `endLab`. -/
def closeCall (tid : ℕ) (beginLab endLab : EventLabel) (s : PopulateState) : Option PopulateState :=
  (s.countThread tid endLab.name).map fun s =>
    { s with
      ops := s.ops ++ [
        { name := endLab.name
          argVal := beginLab.argument
          retVal := endLab.result
          thdKC := (toInt16 s.thdKindIx, toInt16 s.thdCopyIx)
          beginLab := beginLab.pos
          endLab := endLab.pos }]
      openBegin := none }

/-- A label that is in no method.  Every read reads from something. -/
def outside (lab : EventLabel) (s : PopulateState) : Option PopulateState := do
  let n := s.numOutsideEvents
  let s ←
    if lab.isRead then lab.rf.map fun rf => { s with outsideRFs := s.outsideRFs ++ [(rf, n)] }
    else if lab.isWrite then some { s with outsideWrites := (lab.pos, n) :: s.outsideWrites }
    else some s
  return { s with numOutsideEvents := n + 1 }

end PopulateState

/-- The body of the loop over the labels of a thread.  `none` is an error: a nested call, an end
without begin, or a first call of a thread other than the main one when there is no call before. -/
def populateLabel (tid : ℕ) (s : PopulateState) (lab : EventLabel) : Option PopulateState :=
  if lab.kind = .MethodBegin then
    if s.openBegin.isSome then none else some { s with openBegin := some lab }
  else if lab.kind = .MethodEnd then s.openBegin.bind fun openBegin => s.closeCall tid openBegin lab
  else if s.openBegin.isSome then some s
  else s.outside lab

/-- The body of the loop over the threads.  It is an error if a call has no end. -/
def populateThread (g : ExecutionGraph) (s : PopulateState) (tid : ℕ) : Option PopulateState := do
  let s ← (g.events.getD tid []).foldlM (populateLabel tid) { s with openBegin := none }
  if s.openBegin.isSome then none else some s

/-- The method calls, and reads-from outside methods. -/
def populateOpsRf (g : ExecutionGraph) : Option (List GraphCall × VSet (Pair ℤ ℤ)) := do
  let s ← (List.range g.getNumThreads).foldlM (populateThread g) {}
  return (s.ops, s.outsideRFs.foldl (fun rfs edge =>
    match s.outsideWrites.lookup edge.1 with
    | some w => rfs.insert ⟨w, edge.2⟩
    | none => rfs) ⟨[]⟩)

section Hb

variable (g : ExecutionGraph) (getHbRelincheView : EventLabel → View)

/-- The label after `bLab` has seen `aLab`. -/
def isHbRelincheBefore (aLab bLab : Event) : Bool :=
  match g.getEventLabel bLab.next with
  | none => false
  | some nextB => (getHbRelincheView nextB).contains aLab

/-- One of the calls ends before the other one begins. -/
def isHbOrdered (op other : GraphCall) : Bool :=
  isHbRelincheBefore g getHbRelincheView other.endLab op.beginLab ||
    isHbRelincheBefore g getHbRelincheView op.endLab other.beginLab

/-- `operator==` of calls. -/
def sameCall (op other : GraphCall) : Bool := op.toCall = other.toCall

def isTotallyOrderedOp (op : GraphCall) (ops : List GraphCall) : Bool :=
  ops.all fun other => sameCall op other || isHbOrdered g getHbRelincheView op other

/-- The loop that erases calls at the front. -/
def eraseTotallyOrdered : List GraphCall → List GraphCall
  | [] => []
  | op :: ops =>
    if isTotallyOrderedOp g getHbRelincheView op (op :: ops) then eraseTotallyOrdered ops
    else op :: ops

/-- `normalize`; the labels stay with their calls. -/
def normalizeCalls (ops : List GraphCall) : List GraphCall :=
  (followed (ops.map (·.toMethodCall))).map fun p =>
    { ops.getD p.2 default with toMethodCall := p.1 }

/-- Happens-before between the calls. -/
def collectHb (ops : List GraphCall) : VSet CallEdge :=
  (List.range ops.length).foldl (fun hb i =>
    (List.range ops.length).foldl (fun hb j =>
      if i ≠ j ∧ isHbRelincheBefore g getHbRelincheView (ops.getD i default).beginLab
        (ops.getD j default).endLab then hb.insert ⟨i, j⟩ else hb) hb) ⟨[]⟩

/-- The constructor. -/
def construct : Option GraphObservation := do
  let (ops, rfs) ← populateOpsRf g
  let ops := eraseTotallyOrdered g getHbRelincheView ops
  let ops := if rfs.vset.isEmpty then normalizeCalls ops else ops
  return { calls := ops, rfs := rfs, hb := collectHb g getHbRelincheView ops }

end Hb

/-! ## What is erased -/

section Erase

variable {g : ExecutionGraph} {hbView : EventLabel → View} {calls rest : List GraphCall}
  {op : GraphCall}

/-- The loop erases a call when some others are left. -/
inductive Erases (g : ExecutionGraph) (hbView : EventLabel → View) :
    List GraphCall → GraphCall → List GraphCall → Prop
  | front {op : GraphCall} {rest : List GraphCall} :
      isTotallyOrderedOp g hbView op (op :: rest) = true → Erases g hbView (op :: rest) op rest
  | later {op first : GraphCall} {calls rest : List GraphCall} :
      isTotallyOrderedOp g hbView first (first :: calls) = true →
      Erases g hbView calls op rest → Erases g hbView (first :: calls) op rest

/-- The erased calls and the ones that are left are all calls. -/
theorem exists_erased (g : ExecutionGraph) (hbView : EventLabel → View) (calls : List GraphCall) :
    ∃ erased, calls = erased ++ eraseTotallyOrdered g hbView calls ∧
      ∀ op, op ∈ erased ↔ ∃ rest, Erases g hbView calls op rest := by
  induction calls with
  | nil =>
    refine ⟨[], rfl, fun op => iff_of_false List.not_mem_nil ?_⟩
    rintro ⟨rest, h⟩
    cases h
  | cons first calls ih =>
    rw [eraseTotallyOrdered]
    split
    · rename_i hfirst
      obtain ⟨erased, heq, hmem⟩ := ih
      refine ⟨first :: erased, congrArg (first :: ·) heq, fun op => ?_⟩
      rw [List.mem_cons, hmem]
      refine ⟨?_, ?_⟩
      · rintro (rfl | ⟨rest, h⟩)
        · exact ⟨calls, .front hfirst⟩
        · exact ⟨rest, .later hfirst h⟩
      · rintro ⟨rest, h⟩
        cases h with
        | front => exact .inl rfl
        | later _ h => exact .inr ⟨rest, h⟩
    · rename_i hfirst
      refine ⟨[], rfl, fun op => iff_of_false List.not_mem_nil ?_⟩
      rintro ⟨rest, h⟩
      cases h with
      | front h => exact hfirst h
      | later h => exact hfirst h

/-- A call is erased if it and all calls before it pass the test. -/
theorem erases_iff : Erases g hbView calls op rest ↔
    ∃ k, calls.drop k = op :: rest ∧ ∀ k' ≤ k, ∀ op' rest', calls.drop k' = op' :: rest' →
      isTotallyOrderedOp g hbView op' (op' :: rest') = true := by
  refine ⟨fun h => ?_, ?_⟩
  · induction h with
    | front h =>
      refine ⟨0, rfl, fun k' hk' op' rest' heq => ?_⟩
      rw [Nat.le_zero.1 hk', List.drop_zero] at heq
      cases heq
      exact h
    | later h _ ih =>
      obtain ⟨k, heq, hall⟩ := ih
      refine ⟨k + 1, heq, fun k' hk' op' rest' heq' => ?_⟩
      cases k' with
      | zero =>
        cases heq'
        exact h
      | succ k' => exact hall k' (Nat.le_of_succ_le_succ hk') op' rest' heq'
  · rintro ⟨k, heq, hall⟩
    induction k generalizing calls with
    | zero =>
      rw [List.drop_zero] at heq
      subst heq
      exact .front (hall 0 le_rfl op rest rfl)
    | succ k ih =>
      cases calls with
      | nil => cases heq
      | cons first calls =>
        refine .later (hall 0 (Nat.zero_le _) first calls rfl)
          (ih heq fun k' hk' op' rest' h' => ?_)
        exact hall (k' + 1) (Nat.succ_le_succ hk') op' rest' h'

/-- For two calls that look the same and are not ordered, the first of them or a call before it is
not ordered with a later call that looks different. -/
def Distinguished (g : ExecutionGraph) (hbView : EventLabel → View) (calls : List GraphCall) :
    Prop :=
  ∀ (i j : ℕ) (op other : GraphCall), i < j → calls[i]? = some op → calls[j]? = some other →
    sameCall op other = true → isHbOrdered g hbView op other = false →
    ∃ (i' j' : ℕ) (op' other' : GraphCall), i' ≤ i ∧ i' < j' ∧ calls[i']? = some op' ∧
      calls[j']? = some other' ∧ sameCall op' other' = false ∧
        isHbOrdered g hbView op' other' = false

theorem drop_eq_cons {k : ℕ} : calls.drop k = op :: rest ↔
    calls[k]? = some op ∧ calls.drop (k + 1) = rest := by
  refine ⟨fun h => ?_, ?_⟩
  · have hget : (calls.drop k)[0]? = some op := by rw [h]; rfl
    have htail : (calls.drop k).tail = rest := by rw [h]; rfl
    rw [List.getElem?_drop] at hget
    rw [List.tail_drop] at htail
    exact ⟨hget, htail⟩
  · rintro ⟨hget, hdrop⟩
    obtain ⟨hk, rfl⟩ := List.getElem?_eq_some_iff.1 hget
    rw [List.drop_eq_getElem_cons hk, hdrop]

theorem isTotallyOrderedOp_iff : isTotallyOrderedOp g hbView op (op :: rest) = true ↔
    ∀ other ∈ rest, sameCall op other = true ∨ isHbOrdered g hbView op other = true := by
  rw [isTotallyOrderedOp, List.all_cons, sameCall, decide_eq_true rfl, Bool.true_or, Bool.true_and,
    List.all_eq_true]
  simp only [Bool.or_eq_true, sameCall]

/-- The constructor erases a call when some others are left. -/
def ConstructErases (g : ExecutionGraph) (hbView : EventLabel → View) (op : GraphCall)
    (rest : List GraphCall) : Prop :=
  ∃ calls rfs, populateOpsRf g = some (calls, rfs) ∧ Erases g hbView calls op rest

theorem forall_erases_iff :
    (∀ op rest, Erases g hbView calls op rest → ∀ other ∈ rest,
      isHbOrdered g hbView op other = true) ↔ Distinguished g hbView calls := by
  refine ⟨fun h i j op other hij hi hj hsame hnot => ?_, fun h op rest herases other hmem => ?_⟩
  · by_contra hnone
    have herases : Erases g hbView calls op (calls.drop (i + 1)) := by
      refine erases_iff.2 ⟨i, drop_eq_cons.2 ⟨hi, rfl⟩, fun i' hi' op' rest' heq => ?_⟩
      obtain ⟨hget, hdrop⟩ := drop_eq_cons.1 heq
      refine isTotallyOrderedOp_iff.2 fun other' hmem => ?_
      obtain ⟨d, hd⟩ := List.mem_iff_getElem?.1 (hdrop ▸ hmem)
      rw [List.getElem?_drop] at hd
      by_contra hc
      rw [not_or, Bool.not_eq_true, Bool.not_eq_true] at hc
      exact hnone ⟨i', i' + 1 + d, op', other', hi', by omega, hget, hd, hc⟩
    have hmem : other ∈ calls.drop (i + 1) := by
      refine List.mem_iff_getElem?.2 ⟨j - (i + 1), ?_⟩
      rw [List.getElem?_drop, show i + 1 + (j - (i + 1)) = j by omega]
      exact hj
    rw [h op _ herases other hmem] at hnot
    cases hnot
  · obtain ⟨k, heq, hall⟩ := erases_iff.1 herases
    obtain ⟨hget, hdrop⟩ := drop_eq_cons.1 heq
    obtain ⟨d, hd⟩ := List.mem_iff_getElem?.1 (hdrop ▸ hmem)
    rw [List.getElem?_drop] at hd
    by_contra hnot
    rw [Bool.not_eq_true] at hnot
    have hsame := (isTotallyOrderedOp_iff.1 (hall k le_rfl op rest heq) other hmem).resolve_right
      fun hc => Bool.false_ne_true (hnot.symm.trans hc)
    obtain ⟨i', j', op', other', hi', hij', hget', hother', hne, hnot'⟩ :=
      h k (k + 1 + d) op other (by omega) hget hd hsame hnot
    -- but `op'` has passed the test
    have hpass := hall i' hi' op' _ (drop_eq_cons.2 ⟨hget', rfl⟩)
    have hmem' : other' ∈ calls.drop (i' + 1) := by
      refine List.mem_iff_getElem?.2 ⟨j' - (i' + 1), ?_⟩
      rw [List.getElem?_drop, show i' + 1 + (j' - (i' + 1)) = j' by omega]
      exact hother'
    rcases isTotallyOrderedOp_iff.1 hpass other' hmem' with hc | hc
    · rw [hne] at hc
      cases hc
    · rw [hnot'] at hc
      cases hc

/-- **Erased calls are ordered with all others** exactly if calls that look the same are told apart
by others. -/
theorem erased_ordered_iff (g : ExecutionGraph) (hbView : EventLabel → View) :
    (∀ op rest, ConstructErases g hbView op rest → ∀ other ∈ rest,
      isHbOrdered g hbView op other = true) ↔
    ∀ calls rfs, populateOpsRf g = some (calls, rfs) → Distinguished g hbView calls := by
  refine ⟨fun h calls rfs hpopulate => ?_, ?_⟩
  · exact forall_erases_iff.1 fun op rest herases => h op rest ⟨calls, rfs, hpopulate, herases⟩
  · rintro h op rest ⟨calls, rfs, hpopulate, herases⟩
    exact forall_erases_iff.2 (h calls rfs hpopulate) op rest herases

/-- Two threads that both call `enq(1)`. -/
def twoEnqueues : ExecutionGraph :=
  let thread (t : ℕ) : List EventLabel := [
    { kind := if t = 0 then .Init else .ThreadStart, pos := ⟨t, 0⟩ },
    { kind := .MethodBegin, pos := ⟨t, 1⟩, name := "enq", argument := 1 },
    { kind := .MethodEnd, pos := ⟨t, 2⟩, name := "enq" },
    { kind := .ThreadFinish, pos := ⟨t, 3⟩ }]
  { ExecutionGraph.blank with events := [thread 0, thread 1] }

/-- The events before a label in its thread. -/
def poView (lab : EventLabel) : View :=
  ⟨fun t => if t = lab.pos.thread then lab.pos.index else 0⟩

/-- The first call is erased although nothing orders it with the second one. -/
theorem twoEnqueues_erased :
    ∃ op other, ConstructErases twoEnqueues poView op [other] ∧
      isHbOrdered twoEnqueues poView op other = false := by
  refine ⟨⟨⟨⟨"enq", 1, 0⟩, (0, 0)⟩, ⟨0, 1⟩, ⟨0, 2⟩⟩, ⟨⟨⟨"enq", 1, 0⟩, (0, 1)⟩, ⟨1, 1⟩, ⟨1, 2⟩⟩,
    ⟨_, ⟨[]⟩, ?_, .front ?_⟩, ?_⟩
  · decide
  · decide
  · decide

end Erase

/-! ## Happens-before -/

theorem mem_foldl_insert {l : List ℕ} {p : ℕ → Prop} [DecidablePred p] {f : ℕ → CallEdge}
    {s : VSet CallEdge} {e : CallEdge} :
    e ∈ l.foldl (fun s j => if p j then s.insert (f j) else s) s ↔
      e ∈ s ∨ ∃ j ∈ l, p j ∧ f j = e := by
  induction l generalizing s with
  | nil => simp
  | cons j l ih =>
    rw [List.foldl_cons, ih]
    by_cases hp : p j
    · rw [if_pos hp, VSet.mem_insert]
      simp only [List.mem_cons, exists_eq_or_imp, hp, true_and, or_assoc]
      rw [or_left_comm, eq_comm]
    · simp [hp]

/-- Happens-before is between different calls. -/
theorem mem_collectHb {g : ExecutionGraph} {hbView : EventLabel → View} {ops : List GraphCall}
    {e : CallEdge} : e ∈ collectHb g hbView ops ↔
      e.first < ops.length ∧ e.second < ops.length ∧ e.first ≠ e.second ∧
        isHbRelincheBefore g hbView (ops.getD e.first default).beginLab
          (ops.getD e.second default).endLab = true := by
  have hloop : ∀ (l : List ℕ) (s : VSet CallEdge),
      e ∈ l.foldl (fun hb i => (List.range ops.length).foldl (fun hb j =>
        if i ≠ j ∧ isHbRelincheBefore g hbView (ops.getD i default).beginLab
          (ops.getD j default).endLab then hb.insert ⟨i, j⟩ else hb) hb) s ↔
      e ∈ s ∨ ∃ i ∈ l, ∃ j ∈ List.range ops.length, (i ≠ j ∧ isHbRelincheBefore g hbView
        (ops.getD i default).beginLab (ops.getD j default).endLab) ∧ (⟨i, j⟩ : CallEdge) = e := by
    intro l
    induction l with
    | nil => simp
    | cons i l ih =>
      intro s
      rw [List.foldl_cons, ih, mem_foldl_insert]
      simp only [List.mem_cons, exists_eq_or_imp, or_assoc]
  have hnil : e ∉ (⟨[]⟩ : VSet CallEdge) := List.not_mem_nil
  rw [collectHb, hloop, or_iff_right hnil]
  refine ⟨?_, ?_⟩
  · rintro ⟨i, hi, j, hj, ⟨hne, hbefore⟩, rfl⟩
    exact ⟨List.mem_range.1 hi, List.mem_range.1 hj, hne, hbefore⟩
  · rintro ⟨hi, hj, hne, hbefore⟩
    exact ⟨_, List.mem_range.2 hi, _, List.mem_range.2 hj, ⟨hne, hbefore⟩, rfl⟩

/-- What is built has happens-before between its calls only. -/
theorem construct_hb_lt {g : ExecutionGraph} {hbView : EventLabel → View} {obs : GraphObservation}
    (h : construct g hbView = some obs) :
    ∀ e ∈ obs.hb, e.first < obs.calls.length ∧ e.second < obs.calls.length ∧
      e.first ≠ e.second := by
  rw [construct, Option.bind_eq_bind, Option.bind_eq_some_iff] at h
  obtain ⟨⟨calls, rfs⟩, -, h⟩ := h
  cases h
  intro e he
  obtain ⟨hi, hj, hne, -⟩ := mem_collectHb.1 he
  exact ⟨hi, hj, hne⟩

end Observation
end GenMC
