import GenMC.Execution.RoundBoundDecider
import GenMC.Verification.Scheduler

/-!
# Rebuilding the state of an execution

The state that goes along with a graph is rebuilt by looking at the labels of the graph once more.
`reconstructState` does this by a depth-first traversal like the one of the replay schedule, but it
also looks at the begins of threads: before it starts, the maxima of all threads but the main one
are lowered, so that not even their begins have been seen.

The view forgets this for the first of them.  So the creation of that thread is never asked for, and
it is not the traversal that puts its labels after the creation: the main thread is asked for first,
and a thread that is created by the main thread cannot be asked for by the labels up to its
creation, unless they depend on themselves.

* `reconstructState_rel`: the traversal is the one of `ChainDFS`, with everything below `firstSeen`
  taken from the start.
* `asks_create`: when a thread that the main one creates is asked for, its creation was asked for.
* `reconstruct_causal`: **the labels are looked at in causal order**, each of them once.
-/

set_option autoImplicit false

namespace GenMC
namespace GenMCDriver

open ExecutionGraph Scheduler RoundBoundDecider

/-! ## The traversal -/

section Replay

variable {σ : Type*} (onLabel : EventLabel → σ → σ)

/-- Looks at the labels of a thread up to `eLab`, each after the labels that it asks for.  What a
label does to the state is `onLabel`.  The fuel bounds the depth of the recursion. -/
def reconstructState (g : ExecutionGraph) : ℕ → Option Event → SignedView × σ → SignedView × σ
  | 0, _, st => st
  | _ + 1, none, st => st
  | fuel + 1, some eLab, st =>
    if st.1.contains eLab.thread eLab.index then st
    else
      let i := st.1.getMax eLab.thread
      (List.range' (i + 1).toNat (eLab.index - i).toNat).foldl
        (fun st i =>
          match g.getEventLabel ⟨eLab.thread, i⟩ with
          | none => st
          | some lab =>
            let st := if lab.isRead then reconstructState g fuel lab.rf st else st
            let st := if lab.kind = .ThreadJoin then
                reconstructState g fuel ((g.getLastThreadLabel lab.childId).map (·.pos)) st
              else st
            let st := if lab.isThreadStart then reconstructState g fuel lab.create st else st
            (st.1, onLabel lab st.2))
        (st.1.updateIdx eLab.thread eLab.index, st.2)

/-- The state that is left by all labels of the graph.  No chain of requests is longer than the
number of labels. -/
def reconstruct (g : ExecutionGraph) (state : σ) : σ :=
  ((List.range g.getNumThreads).foldl
    (fun st i => reconstructState onLabel g (g.labels.length + 1)
      ((g.getLastThreadLabel i).map (·.pos)) st)
    (startView g.getNumThreads, state)).2

/-- The labels at some positions, one after the other. -/
def replay (g : ExecutionGraph) (order : List Event) (state : σ) : σ :=
  order.foldl (fun s e => (g.getEventLabel e).elim s (onLabel · s)) state

end Replay

/-! ## The traversal as one of chains -/

/-- The first index of a thread that has not been seen before the traversal. -/
def firstSeen (n : ℕ) : ℕ → ℕ := fun t => if 2 ≤ t ∧ t < n then 0 else 1

theorem firstSeen_le (n t : ℕ) : firstSeen n t ≤ 1 := by
  rw [firstSeen]
  split
  · exact Nat.zero_le 1
  · exact le_rfl

variable {g : ExecutionGraph}

/-- A state of the traversal and one of the chain traversal: the view has the counts, and the state
is the one that the listed labels lead to. -/
structure Replays {σ : Type*} (onLabel : EventLabel → σ → σ) (g : ExecutionGraph) (state : σ)
    (st : SignedView × σ) (cst : (ℕ → ℕ) × List Event) : Prop where
  settled : st.1.Settled
  getMax : ∀ t, st.1.getMax t = (cst.1 t : ℤ) - 1
  state : st.2 = replay onLabel g cst.2 state

section Rel

variable {σ : Type*} {onLabel : EventLabel → σ → σ} {state : σ}

/-- A label asks for one label at most. -/
theorem requests_eq (fuel : ℕ) (lab : EventLabel) (st : SignedView × σ) :
    (let st := if lab.isRead then reconstructState onLabel g fuel lab.rf st else st
      let st := if lab.kind = .ThreadJoin then
          reconstructState onLabel g fuel ((g.getLastThreadLabel lab.childId).map (·.pos)) st
        else st
      if lab.isThreadStart then reconstructState onLabel g fuel lab.create st else st) =
      reconstructState onLabel g fuel (replayDep g lab) st := by
  have hnone : reconstructState onLabel g fuel none st = st := by
    cases fuel <;> rfl
  rw [replayDep, EventLabel.isRead, EventLabel.isThreadStart]
  by_cases hr : lab.kind.isRead = true
  · have hj : lab.kind ≠ .ThreadJoin := by
      intro hj
      rw [hj] at hr
      exact absurd hr (by decide)
    have hs : ¬ lab.kind.isThreadStart = true := by
      revert hr
      cases lab.kind <;> decide
    simp only [if_pos hr, if_neg hj, if_neg hs]
  · by_cases hj : lab.kind = .ThreadJoin
    · simp only [hj, if_true]
      rfl
    · by_cases hs : lab.kind.isThreadStart = true
      · simp only [if_neg hr, if_neg hj, if_pos hs]
      · simp only [if_neg hr, if_neg hj, if_neg hs, hnone]

theorem replay_concat (order : List Event) (e : Event) :
    replay onLabel g (order ++ [e]) state =
      (g.getEventLabel e).elim (replay onLabel g order state)
        (onLabel · (replay onLabel g order state)) := by
  rw [replay, List.foldl_append]
  rfl

/-- The loop over the labels of a thread is the walk of a request. -/
theorem foldl_rel {fuel t : ℕ}
    (ih : ∀ e st cst, Replays onLabel g state st cst →
      Replays onLabel g state (reconstructState onLabel g fuel e st)
        (ChainDFS.visit threads (waitsFor g) fuel e cst)) (l : List ℕ) :
    ∀ {st : SignedView × σ} {cst : (ℕ → ℕ) × List Event}, Replays onLabel g state st cst →
      Replays onLabel g state
        (l.foldl (fun st i =>
          match g.getEventLabel ⟨t, i⟩ with
          | none => st
          | some lab =>
            let st := if lab.isRead then reconstructState onLabel g fuel lab.rf st else st
            let st := if lab.kind = .ThreadJoin then
                reconstructState onLabel g fuel ((g.getLastThreadLabel lab.childId).map (·.pos)) st
              else st
            let st := if lab.isThreadStart then reconstructState onLabel g fuel lab.create st
              else st
            (st.1, onLabel lab st.2)) st)
        ((l.map (threads.node t)).foldl
          (ChainDFS.serve (waitsFor g) (ChainDFS.visit threads (waitsFor g) fuel)) cst) := by
  induction l with
  | nil => exact fun h => h
  | cons i l ihl =>
    intro st cst h
    rw [List.foldl_cons, List.map_cons, List.foldl_cons]
    refine ihl ?_
    rw [ChainDFS.serve]
    cases hlab : g.getEventLabel ⟨t, i⟩ with
    | none =>
      have hw : waitsFor g (threads.node t i) = none := by simp [waitsFor, threads, hlab]
      rw [hw, ChainDFS.visit_none]
      refine ⟨h.settled, h.getMax, ?_⟩
      rw [replay_concat]
      simp only [threads, hlab]
      exact h.state
    | some lab =>
      have hw : waitsFor g (threads.node t i) = replayDep g lab := by
        simp [waitsFor, threads, hlab]
      have hrel := ih (replayDep g lab) st cst h
      rw [← requests_eq] at hrel
      rw [hw]
      refine ⟨hrel.settled, hrel.getMax, ?_⟩
      rw [replay_concat]
      simp only [threads, hlab]
      exact congrArg (onLabel lab) hrel.state

/-- **`reconstructState` is a request of the chain traversal.** -/
theorem reconstructState_rel (fuel : ℕ) (e : Option Event) (st : SignedView × σ)
    (cst : (ℕ → ℕ) × List Event) (h : Replays onLabel g state st cst) :
    Replays onLabel g state (reconstructState onLabel g fuel e st)
      (ChainDFS.visit threads (waitsFor g) fuel e cst) := by
  induction fuel generalizing e st cst with
  | zero => exact h
  | succ fuel ih =>
    cases e with
    | none => exact h
    | some e =>
      rw [reconstructState, ChainDFS.visit]
      have hmax := h.getMax e.thread
      have hcond : st.1.contains e.thread e.index = true ↔
          threads.idx e < cst.1 (threads.chain e) := by
        rw [SignedView.contains, decide_eq_true_eq, hmax]
        simp only [threads]
        omega
      by_cases hm : threads.idx e < cst.1 (threads.chain e)
      · rw [if_pos hm, if_pos (hcond.2 hm)]
        exact h
      · rw [if_neg hm, if_neg (fun hc => hm (hcond.1 hc))]
        have hlt : st.1.getMax e.thread < e.index := by
          rw [hmax]
          simp only [threads] at hm
          omega
        obtain ⟨hsettled, hget⟩ := SignedView.getMax_updateIdx h.settled hlt
        have hrange : List.range' (st.1.getMax e.thread + 1).toNat
            (e.index - st.1.getMax e.thread).toNat =
            List.range' (cst.1 e.thread) (e.index + 1 - cst.1 e.thread) := by
          rw [hmax]
          congr 1 <;> omega
        simp only [hrange]
        refine foldl_rel ih _ ⟨hsettled, fun t => ?_, h.state⟩
        rw [hget]
        simp only [ChainDFS.mark, threads, Function.update_apply]
        split
        · push_cast
          omega
        · exact h.getMax t

variable (onLabel state) in
/-- **The traversal looks at the labels in the order of the chain traversal.** -/
theorem reconstruct_eq (g : ExecutionGraph) :
    reconstruct onLabel g state = replay onLabel g
      (ChainDFS.visitAll threads (waitsFor g) (g.labels.length + 1) (lastEvents g)
        (firstSeen g.getNumThreads, [])).2 state := by
  have hfold : ∀ (l : List ℕ) {st : SignedView × σ} {cst : (ℕ → ℕ) × List Event},
      Replays onLabel g state st cst → Replays onLabel g state
        (l.foldl (fun st i => reconstructState onLabel g (g.labels.length + 1)
          ((g.getLastThreadLabel i).map (·.pos)) st) st)
        (ChainDFS.visitAll threads (waitsFor g) (g.labels.length + 1)
          (l.filterMap fun i => (g.getLastThreadLabel i).map (·.pos)) cst) := by
    intro l
    induction l with
    | nil => exact fun h => h
    | cons i l ih =>
      intro st cst h
      have hstep := ih (reconstructState_rel (g.labels.length + 1)
        ((g.getLastThreadLabel i).map (·.pos)) st cst h)
      cases hlast : g.getLastThreadLabel i with
      | none => simpa [hlast] using hstep
      | some lab => simpa [hlast, ChainDFS.visitAll] using hstep
  obtain ⟨hsettled, hget⟩ := getMax_startView g.getNumThreads
  refine (hfold (List.range g.getNumThreads) ⟨hsettled, fun t => ?_, rfl⟩).state
  rw [hget]
  simp only [firstSeen]
  split
  · rfl
  · rfl

end Rel

/-! ## The order of the labels -/

/-- The order in which the labels are looked at. -/
def order (g : ExecutionGraph) : List Event :=
  (ChainDFS.visitAll threads (waitsFor g) (g.labels.length + 1) (lastEvents g)
    (firstSeen g.getNumThreads, [])).2

/-- What causality asks of an order: a label comes after those before it in its thread, after the
write that it reads from, after the creation of its thread and what is before that, and, if it joins
a thread, after the labels of that thread. -/
inductive Precedes (g : ExecutionGraph) (a b : Event) : Prop
  | po (ht : a.thread = b.thread) (hi : a.index < b.index)
  | rf {lab : EventLabel} (hb : g.getEventLabel b = some lab) (hr : lab.isRead = true)
      (hw : lab.rf = some a)
  | create {lab : EventLabel} {c : Event} (hpos : 0 < b.thread)
      (hb : g.getEventLabel ⟨b.thread, 0⟩ = some lab) (hs : lab.isThreadStart = true)
      (hc : lab.create = some c) (ht : a.thread = c.thread) (hi : a.index ≤ c.index)
  | join {lab : EventLabel} (hb : g.getEventLabel b = some lab) (hj : lab.kind = .ThreadJoin)
      (ht : a.thread = lab.childId)

theorem causal_of_po {a b : Event} (ht : a.thread = b.thread) (hi : a.index ≤ b.index)
    (hb : (g.getEventLabel b).isSome) : Relation.ReflTransGen (CausalEdge g) a b := by
  obtain ⟨t, i⟩ := a
  obtain ⟨u, j⟩ := b
  obtain rfl : t = u := ht
  induction j, (show i ≤ j from hi) using Nat.le_induction with
  | base => exact .refl
  | succ j hij ih =>
    have hj : (g.getEventLabel ⟨t, j⟩).isSome :=
      getEventLabel_isSome_of_le hb rfl (Nat.le_succ j)
    exact (ih hj hij).tail (.po hb)

theorem exists_getLastThreadLabel {e : Event} (he : (g.getEventLabel e).isSome) :
    ∃ lastLab, g.getLastThreadLabel e.thread = some lastLab := by
  obtain ⟨lab, hlab⟩ := Option.isSome_iff_exists.1 he
  have hi := lt_getThreadSize_of_getEventLabel hlab
  exact Option.isSome_iff_exists.1 (List.getLast?_isSome.2
    (List.ne_nil_of_length_pos (Nat.zero_lt_of_lt hi)))

theorem index_le_last {e : Event} (he : (g.getEventLabel e).isSome) :
    e.index ≤ g.getThreadSize e.thread - 1 := by
  obtain ⟨lab, hlab⟩ := Option.isSome_iff_exists.1 he
  have hi := lt_getThreadSize_of_getEventLabel hlab
  omega

theorem isSome_lastThreadLabel (hs : g.Slots) {t : ℕ} {lastLab : EventLabel}
    (h : g.getLastThreadLabel t = some lastLab) : (g.getEventLabel lastLab.pos).isSome := by
  obtain ⟨-, hlab⟩ := getLastThreadLabel_eq_some.1 h
  rw [hs _ _ hlab, hlab]
  rfl

/-- A begin asks for the creation of its thread. -/
theorem replayDep_of_isThreadStart {lab : EventLabel} (h : lab.isThreadStart = true) :
    replayDep g lab = lab.create := by
  have hr : ¬ lab.isRead = true := by
    rw [EventLabel.isThreadStart] at h
    rw [EventLabel.isRead]
    revert h
    cases lab.kind <;> decide
  have hj : lab.kind ≠ .ThreadJoin := by
    intro hj
    rw [EventLabel.isThreadStart, hj] at h
    exact absurd h (by decide)
  rw [replayDep, if_neg hr, if_neg hj, if_pos h]

section Causal

variable (hs : g.Slots) (hl : g.Linked)
include hs hl

/-- What is causally before a label of the graph is a label of the graph. -/
theorem isSome_of_causal {a b : Event} (h : Relation.ReflTransGen (CausalEdge g) a b)
    (hb : (g.getEventLabel b).isSome) : (g.getEventLabel a).isSome := by
  induction h using Relation.ReflTransGen.head_induction_on with
  | refl => exact hb
  | head hab _ _ => exact hab.isSome hl hs

omit hl in
/-- The last label of the main thread is asked for first. -/
theorem lastEvents_eq_cons {base : ℕ → ℕ} (hbase : ∀ t, base t ≤ 1) {c : Event}
    (hc : (g.getEventLabel c).isSome) (ht : c.thread = 0) :
    ∃ r rest, lastEvents g = r :: rest ∧ r.thread = 0 ∧
      ChainDFS.Past threads (waitsFor g) base c r := by
  obtain ⟨lab, hlab⟩ := Option.isSome_iff_exists.1 hc
  have hn := lt_getNumThreads_of_getEventLabel hlab
  have hi := lt_getThreadSize_of_getEventLabel hlab
  rw [ht] at hn hi
  have hlast : (g.getEventLabel ⟨0, g.getThreadSize 0 - 1⟩).isSome := by
    rw [getThreadSize] at hi ⊢
    rw [getEventLabel, isSome_getElem?]
    simp only
    omega
  obtain ⟨r, hr⟩ := Option.isSome_iff_exists.1 hlast
  have hpos : r.pos = ⟨0, g.getThreadSize 0 - 1⟩ := hs _ r hr
  obtain ⟨m, hm⟩ := Nat.exists_eq_succ_of_ne_zero hn.ne'
  have hmap : (g.getLastThreadLabel 0).map (·.pos) = some r.pos := by
    rw [getLastThreadLabel_eq_some.2 ⟨by omega, hr⟩]
    rfl
  obtain ⟨rest, hcons⟩ : ∃ rest, lastEvents g = r.pos :: rest := by
    rw [lastEvents, hm, List.range_succ_eq_map, List.filterMap_cons]
    simp only [hmap]
    exact ⟨_, rfl⟩
  refine ⟨r.pos, rest, hcons, by rw [hpos], ?_⟩
  rw [hpos]
  refine ChainDFS.past_of_idx_le ht ((hbase _).trans (Nat.le_add_left _ _)) ?_
  show c.index ≤ g.getThreadSize 0 - 1
  omega

/-- **When a thread that the main thread creates is asked for, its creation was asked for**: until
then, only the last label of the main thread has been asked for, and what the creation itself
depends on. -/
theorem asks_create {base : ℕ → ℕ} (hbase : ∀ t, base t ≤ 1) {c : Event} (ht : c.thread = 0)
    (hc : (g.getEventLabel c).isSome) {S : Event → Prop} {e : Event}
    (h : ChainDFS.Asks threads (waitsFor g) base (lastEvents g) S e) :
    S c ∨ (e.thread = 0 ∧ (g.getEventLabel e).isSome) ∨
      Relation.ReflTransGen (CausalEdge g) e c := by
  induction h with
  | @root l₁ l₂ r hroots =>
    obtain ⟨r₀, rest, hcons, hthread, hpast⟩ := lastEvents_eq_cons hs hbase hc ht
    rw [hcons] at hroots
    cases l₁ with
    | nil =>
      obtain ⟨rfl, -⟩ := List.cons.inj hroots
      exact .inr (.inl ⟨hthread, isSome_of_mem_lastEvents hs (hcons ▸ List.mem_cons_self)⟩)
    | cons r' l₁ =>
      obtain ⟨rfl, -⟩ := List.cons.inj hroots
      exact .inl ⟨_, List.mem_cons_self, hpast⟩
  | @wait S e x d _ hchain hb hx hd ih =>
    have hedge : CausalEdge g d x := causalEdge_of_waitsFor hd
    rcases ih with hS | ⟨hthread, -⟩ | hcausal
    · exact .inl (.inl hS)
    · have hxt : x.thread = 0 := Eq.trans hchain hthread
      by_cases hlt : c.index < x.index
      · -- the creation is below `x` in the main thread
        refine .inl (.inr ⟨c.index, hlt, (hbase _).trans (Nat.le_add_left _ _), ?_⟩)
        have hnode : threads.node (threads.chain x) c.index = c :=
          Event.ext_iff'.2 ⟨hxt.trans ht.symm, rfl⟩
        rw [hnode]
        exact ChainDFS.Past.refl c
      · exact .inr (.inr (.head hedge (causal_of_po (hxt.trans ht.symm) (not_lt.1 hlt) hc)))
    · exact .inr (.inr (.head hedge
        ((causal_of_po hchain hx (isSome_of_causal hs hl hcausal hc)).trans hcausal)))

variable (hac : g.CausallyAcyclic)
include hac

/-- The traversal as a listing. -/
theorem order_served : ChainDFS.Served threads (waitsFor g) (firstSeen g.getNumThreads)
    (fun x => ∃ r ∈ lastEvents g, ChainDFS.Past threads (waitsFor g)
      (firstSeen g.getNumThreads) x r) (firstSeen g.getNumThreads, [])
    (ChainDFS.visitAll threads (waitsFor g) (g.labels.length + 1) (lastEvents g)
      (firstSeen g.getNumThreads, [])) :=
  ChainDFS.visitAll_spec (acyclic_of_causallyAcyclic hs hl hac _) (enough_fuel hs hl _)
    (List.prefix_refl _)

theorem mem_order {e : Event} : e ∈ order g ↔
    (g.getEventLabel e).isSome ∧ firstSeen g.getNumThreads e.thread ≤ e.index := by
  rw [order, (order_served hs hl hac).mem_iff]
  refine ⟨?_, ?_⟩
  · rintro (h | ⟨⟨r, hr, hpast⟩, hb⟩)
    · exact absurd h List.not_mem_nil
    · exact ⟨isSome_of_past hs hl (isSome_of_mem_lastEvents hs hr) hpast, hb⟩
  · rintro ⟨h, hb⟩
    exact .inr ⟨exists_mem_lastEvents hs (firstSeen_le _) h, hb⟩

/-- A label of the order comes after its past. -/
theorem before_of_past {a b : Event} (ha : a ∈ order g) (hb : b ∈ order g) (hne : a ≠ b)
    (h : ChainDFS.Past threads (waitsFor g) (firstSeen g.getNumThreads) a b) :
    ListOrder.Before (order g) a b :=
  (order_served hs hl hac).listing.before_of_past hb h hne ((mem_order hs hl hac).1 ha).2

/-- The labels of the first thread come after its creation, if it is in the main thread. -/
theorem before_of_create {b c : Event} {lab : EventLabel} (hb : (g.getEventLabel b).isSome)
    (hbt : b.thread = 1) (hbi : 1 ≤ b.index) (hlab : g.getEventLabel ⟨1, 0⟩ = some lab)
    (hstart : lab.isThreadStart = true) (hc : lab.create = some c) (ht : c.thread = 0)
    (hi : 1 ≤ c.index) : ListOrder.Before (order g) c ⟨1, 1⟩ := by
  have hcsome := hl.create _ _ _ hlab hstart hc
  have hedge : CausalEdge g c ⟨1, 0⟩ := .create hlab hstart hc
  have hfirst : firstSeen g.getNumThreads 1 = 1 := if_neg fun h => by omega
  have hne : c ≠ ⟨1, 1⟩ := fun heq => by
    rw [heq] at ht
    cases ht
  have hmem : (⟨1, 1⟩ : Event) ∈ order g := (mem_order hs hl hac).2
    ⟨getEventLabel_isSome_of_le hb hbt.symm hbi, hfirst.le⟩
  refine (ChainDFS.listed_before_iff (acyclic_of_causallyAcyclic hs hl hac _)
    (enough_fuel hs hl _) (b := ⟨1, 1⟩) hfirst.symm hmem hne ((firstSeen_le _ _).trans hi)).2
    fun S e hasks hchain hbe => ?_
  rcases asks_create hs hl (firstSeen_le _) ht hcsome hasks with hS | ⟨hthread, -⟩ | hcausal
  · exact .inl hS
  · exact absurd ((show e.thread = 1 from hchain).symm.trans hthread) Nat.one_ne_zero
  · -- the thread would be asked for by its own creation
    have hsome := isSome_of_causal hs hl hcausal hcsome
    have hpo : Relation.ReflTransGen (CausalEdge g) ⟨1, 0⟩ e :=
      causal_of_po (show 1 = e.thread from hchain.symm) (Nat.zero_le _) hsome
    exact absurd (Relation.TransGen.head' hedge (hpo.trans hcausal)) (hac c)

/-- What precedes a label is not the label itself. -/
theorem ne_of_precedes {a b : Event} (ha : (g.getEventLabel a).isSome)
    (hb : (g.getEventLabel b).isSome) (h : Precedes g a b) : a ≠ b := by
  rintro rfl
  cases h with
  | po ht hi => exact absurd hi (lt_irrefl _)
  | rf hb hr hw => exact hac a (.single (.rf hb hr hw))
  | create hpos hlab hstart hc ht hi =>
    have hcsome := hl.create _ _ _ hlab hstart hc
    refine hac a (.trans_right (causal_of_po ht hi hcsome) (.head' (.create hlab hstart hc) ?_))
    exact causal_of_po rfl (Nat.zero_le _) hb
  | join hlab hj ht =>
    obtain ⟨lastLab, hlast⟩ := exists_getLastThreadLabel ha
    have hpos := hs _ _ (getLastThreadLabel_eq_some.1 hlast).2
    refine hac a (.tail' ?_ (.join hlab hj (ht ▸ hlast)))
    refine causal_of_po (by rw [hpos]) ?_ (isSome_lastThreadLabel hs hlast)
    rw [hpos]
    exact index_le_last ha

/-- **The labels are looked at in causal order.** -/
theorem before_of_precedes (hmain : ∀ lab c, g.getEventLabel ⟨1, 0⟩ = some lab →
      lab.isThreadStart = true → lab.create = some c → c.thread = 0) {a b : Event}
    (ha : a ∈ order g) (hb : b ∈ order g) (h : Precedes g a b) :
    ListOrder.Before (order g) a b := by
  obtain ⟨hasome, hai⟩ := (mem_order hs hl hac).1 ha
  obtain ⟨hbsome, hbi⟩ := (mem_order hs hl hac).1 hb
  have hbase : ∀ t i, firstSeen g.getNumThreads t ≤ i + 1 := fun t i =>
    (firstSeen_le _ t).trans (Nat.le_add_left 1 i)
  have hbefore : ChainDFS.Past threads (waitsFor g) (firstSeen g.getNumThreads) a b →
      ListOrder.Before (order g) a b :=
    before_of_past hs hl hac ha hb (ne_of_precedes hs hl hac hasome hbsome h)
  have hdep : ∀ {lab d}, g.getEventLabel b = some lab → replayDep g lab = some d →
      ChainDFS.Past threads (waitsFor g) (firstSeen g.getNumThreads) a d →
        ListOrder.Before (order g) a b := by
    intro lab d hlab hd hpast
    refine hbefore (ChainDFS.past_of_dep hbi ?_ hpast)
    rw [waitsFor, hlab]
    exact hd
  cases h with
  | po ht hi => exact hbefore (ChainDFS.past_of_idx_le ht (hbase _ _) hi.le)
  | rf hlab hr hw =>
    refine hdep hlab ?_ (ChainDFS.Past.refl a)
    rw [replayDep, if_pos hr, hw]
  | join hlab hj ht =>
    obtain ⟨lastLab, hlast⟩ := exists_getLastThreadLabel hasome
    have hpos := hs _ _ (getLastThreadLabel_eq_some.1 hlast).2
    refine hdep (d := lastLab.pos) hlab ?_ ?_
    · rw [replayDep, if_neg, if_pos hj, ← ht, hlast]
      · rfl
      · rw [EventLabel.isRead, hj]
        decide
    · rw [hpos]
      exact ChainDFS.past_of_idx_le rfl (hbase _ _) (index_le_last hasome)
  | @create bLab c hpos hlab hstart hc ht hi =>
    have hcpast : ChainDFS.Past threads (waitsFor g) (firstSeen g.getNumThreads) a c :=
      ChainDFS.past_of_idx_le ht (hbase _ _) hi
    have hcsome := hl.create _ _ _ hlab hstart hc
    rcases (Nat.succ_le_of_lt hpos).eq_or_lt with h1 | h2
    · -- the begin is not looked at, but the main thread is asked for first
      rw [← h1] at hlab hbi
      have hct := hmain _ _ hlab hstart hc
      rw [ht.trans hct] at hai
      have hbi : 1 ≤ b.index := hbi
      have hci : 1 ≤ c.index := hai.trans hi
      have hfirst := before_of_create hs hl hac hbsome h1.symm hbi hlab hstart hc hct hci
      have hnodup : (order g).Nodup := (order_served hs hl hac).listing.nodup
      have hcb : ListOrder.Before (order g) c b := by
        rcases hbi.eq_or_lt with hb1 | hb1
        · rwa [show b = ⟨1, 1⟩ from Event.ext_iff'.2 ⟨h1.symm, hb1.symm⟩]
        · have hmem : (⟨1, 1⟩ : Event) ∈ order g := (mem_order hs hl hac).2
            ⟨getEventLabel_isSome_of_le hbsome h1 hbi, firstSeen_le _ _⟩
          refine hfirst.trans hnodup (before_of_past hs hl hac hmem hb ?_ ?_)
          · intro heq
            rw [← heq] at hb1
            exact absurd hb1 (lt_irrefl _)
          · exact ChainDFS.past_of_idx_le h1 (hbase _ _) hbi
      by_cases hac' : a = c
      · rwa [hac']
      · have hcmem : c ∈ order g := (mem_order hs hl hac).2 ⟨hcsome, (firstSeen_le _ _).trans hci⟩
        exact (before_of_past hs hl hac ha hcmem hac' hcpast).trans hnodup hcb
    · obtain ⟨lab, hblab⟩ := Option.isSome_iff_exists.1 hbsome
      have hzero : firstSeen g.getNumThreads b.thread = 0 :=
        if_pos ⟨h2, lt_getNumThreads_of_getEventLabel hblab⟩
      have hbegin : ChainDFS.Past threads (waitsFor g) (firstSeen g.getNumThreads) a
          ⟨b.thread, 0⟩ := by
        refine ChainDFS.past_of_dep hzero.le ?_ hcpast
        rw [waitsFor, hlab]
        exact (replayDep_of_isThreadStart hstart).trans hc
      exact hbefore (hbegin.trans (ChainDFS.past_of_idx_le rfl (hbase _ _) (Nat.zero_le _)))

end Causal

/-! ## The rebuilt state -/

/-- **The state is rebuilt in a causal order**: it is what the labels of some list of positions lead
to, which has every label of index at least one exactly once, and after all those that precede
it. -/
theorem reconstruct_causal (g : ExecutionGraph) (hs : g.Slots) (hl : g.Linked)
    (hac : g.CausallyAcyclic) (hmain : ∀ lab c, g.getEventLabel ⟨1, 0⟩ = some lab →
      lab.isThreadStart = true → lab.create = some c → c.thread = 0) :
    ∃ l : List Event,
      (∀ {σ : Type} (onLabel : EventLabel → σ → σ) (state : σ),
        reconstruct onLabel g state = replay onLabel g l state) ∧
      l.Nodup ∧ (∀ e ∈ l, (g.getEventLabel e).isSome) ∧
      (∀ e, (g.getEventLabel e).isSome → 1 ≤ e.index → e ∈ l) ∧
      ∀ a ∈ l, ∀ b ∈ l, Precedes g a b → ListOrder.Before l a b :=
  ⟨order g, fun onLabel state => reconstruct_eq onLabel state g,
    (order_served hs hl hac).listing.nodup, fun _ he => ((mem_order hs hl hac).1 he).1,
    fun _ he hi => (mem_order hs hl hac).2 ⟨he, (firstSeen_le _ _).trans hi⟩,
    fun _ ha _ hb h => before_of_precedes hs hl hac hmain ha hb h⟩

/-- The labels of a thread that a created thread creates. -/
theorem reconstruct_nestedCreation :
    ∃ l : List Event,
      (∀ {σ : Type} (onLabel : EventLabel → σ → σ) (state : σ),
        reconstruct onLabel nestedCreation state = replay onLabel nestedCreation l state) ∧
      l.Nodup ∧ (∀ e ∈ l, (nestedCreation.getEventLabel e).isSome) ∧
      (∀ e, (nestedCreation.getEventLabel e).isSome → 1 ≤ e.index → e ∈ l) ∧
      ∀ a ∈ l, ∀ b ∈ l, Precedes nestedCreation a b → ListOrder.Before l a b :=
  reconstruct_causal nestedCreation nestedCreation_slots nestedCreation_linked
    nestedCreation_causallyAcyclic (by
      intro lab c hlab _ hc
      obtain rfl := Option.some.inj hlab
      obtain rfl := Option.some.inj hc
      rfl)

end GenMCDriver
end GenMC
