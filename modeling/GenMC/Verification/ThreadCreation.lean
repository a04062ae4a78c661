import GenMC.Execution.Copy
import GenMC.Library.ListOrder

/-!
# Thread creation

A thread gets the next free id when it is created, and both its creation and its begin remember
each other.  Restricting a graph removes creations, and with them threads: `cutToStamp` and
`copyGraphUpTo` first keep all begins, and then remove the orphans among the *trailing* threads
that are nothing but a begin.  This file is about when ids stay aligned with creations.

* `handleThreadCreate` is the driver's treatment of a creation, with its check that the id is new.
* `Step` is one step of the driver as far as threads are concerned: adding a label, creating a
  thread, cutting, and copying along a view that has the creation of every thread it enters.
* `ThreadInv` is the invariant.  Its core is that threads are created in the order of their ids, so
  that the stamps of creations increase with the ids, and cutting at a stamp removes trailing
  threads only.
* Copying need not: a view can drop the creation of a thread and keep the creation of a later one.
  Such a copy leaves a begin behind, and the next creation fails the check
  (`siblings_check_fails`).  `aligned_of_reaches` says that nothing else can go wrong: ids stay
  aligned in every run in which each copy keeps creations in the order of ids.
-/

set_option autoImplicit false

namespace GenMC
namespace ExecutionGraph

open ListOrder

variable {g : ExecutionGraph}

/-! ## The model -/

/-- The thread that the creation at `pos` created before, or else the next free id. -/
def findChild (g : ExecutionGraph) (pos : Event) : ℕ :=
  ((List.range g.getNumThreads).find? fun cid =>
    (g.getFirstThreadLabel cid).any fun bLab => bLab.createId = pos).getD g.getNumThreads

/-- Links the begins of two symmetric threads. -/
def setSymmSuccTid (symm : Option ℕ) (cid : ℕ) (g : ExecutionGraph) : ExecutionGraph :=
  match symm with
  | none => g
  | some p =>
    { g with
      events := g.events.modify p (List.modifyHead fun s => { s with symmSuccTid := some cid }) }

/-- Adds a thread creation together with the begin of the new thread, unless the check on the id
of the new thread fails.  `symm` is the thread found to be symmetric to the new one. -/
def handleThreadCreate (tcLab : EventLabel) (symm : Option ℕ) (g : ExecutionGraph) :
    Option ExecutionGraph :=
  let cid := g.findChild tcLab.pos
  let g₁ := g.addLabelToGraph { tcLab with childId := cid }
  if cid = g₁.getNumThreads then
    let bLab : EventLabel :=
      { kind := .ThreadStart
        pos := ⟨cid, 0⟩
        ordering := .Acquire
        createId := tcLab.pos
        create := some tcLab.pos
        symmPredTid := symm }
    some ((g₁.addNewThread.addLabelToGraph bLab).setSymmSuccTid symm cid)
  else none

/-- A label that the driver adds to a thread that has begun. -/
structure Added (g : ExecutionGraph) (lab : EventLabel) : Prop where
  thread : lab.pos.thread < g.getNumThreads
  index : lab.pos.index = g.getThreadSize lab.pos.thread
  begun : 0 < lab.pos.index
  stamp : lab.stamp = none

/-- The view has the creation of every thread of which it has more than the begin. -/
def HasCreations (g : ExecutionGraph) (v : View) : Prop :=
  ∀ t bLab c, 0 < t → g.getEventLabel ⟨t, 0⟩ = some bLab → 0 < v.getMax t →
    bLab.create = some c → v.contains c = true

/-- One step of the driver, where the views along which it copies satisfy `P`. -/
inductive Step (P : ExecutionGraph → View → Prop) : ExecutionGraph → ExecutionGraph → Prop
  | addLabel {g : ExecutionGraph} {lab : EventLabel} (h : Added g lab)
      (hk : lab.kind ≠ .ThreadCreate) (hs : lab.isThreadStart = false) :
      Step P g (g.addLabelToGraph lab)
  | createThread {g g' : ExecutionGraph} {tcLab : EventLabel} {symm : Option ℕ}
      (h : Added g tcLab) (hk : tcLab.kind = .ThreadCreate)
      (hstep : g.handleThreadCreate tcLab symm = some g') : Step P g g'
  | cutToStamp {g : ExecutionGraph} (stamp : ℕ) : Step P g (g.cutToStamp stamp)
  | copyGraphUpTo {g : ExecutionGraph} {v : View} (hv : HasCreations g v) (hP : P g v) :
      Step P g (g.copyGraphUpTo v)

/-- The graphs reached from the graph that has only the initializer. -/
def Reaches (P : ExecutionGraph → View → Prop) (g : ExecutionGraph) : Prop :=
  Relation.ReflTransGen (Step P) init g

/-- Every thread but the first has its creation in the graph, with its id as the child id. -/
def Aligned (g : ExecutionGraph) : Prop :=
  ∀ t, 0 < t → t < g.getNumThreads → ∃ bLab c cLab, g.getEventLabel ⟨t, 0⟩ = some bLab ∧
    bLab.create = some c ∧ g.getEventLabel c = some cLab ∧ cLab.kind = .ThreadCreate ∧
      cLab.childId = t

/-- A new thread gets the next free id, and the check on it passes. -/
def CreatesNext (g : ExecutionGraph) : Prop :=
  ∀ tcLab symm, Added g tcLab → g.findChild tcLab.pos = g.getNumThreads ∧
    (g.handleThreadCreate tcLab symm).isSome

/-- The view keeps creations in the order of ids: with the creation of a thread, it has the
creations of all threads with smaller ids. -/
def InCreationOrder (g : ExecutionGraph) (v : View) : Prop :=
  ∀ t t' bLab bLab' c c', 0 < t → t < t' → g.getEventLabel ⟨t, 0⟩ = some bLab →
    g.getEventLabel ⟨t', 0⟩ = some bLab' → bLab.create = some c → bLab'.create = some c' →
      v.contains c' = true → v.contains c = true

/-! ## The invariant -/

/-- Threads are created in the order of their ids, and the insertion order and the stamps agree
with program order and with creation. -/
structure ThreadInv (g : ExecutionGraph) : Prop where
  slots : g.Slots
  threads : 0 < g.getNumThreads
  begun : ∀ t < g.getNumThreads, (g.getEventLabel ⟨t, 0⟩).isSome
  main : ∀ lab, g.getEventLabel ⟨0, 0⟩ = some lab → lab.kind = .Init ∧ lab.createId = Event.getInit
  order : g.insertionOrder.Nodup
  inserted : ∀ e, e ∈ g.insertionOrder ↔ (g.getEventLabel e).isSome
  stamp : ∀ e lab, g.getEventLabel e = some lab → lab.stamp = some (g.insertionOrder.idxOf e)
  timestamp : g.timestamp = g.insertionOrder.length
  po : ∀ t i, (g.getEventLabel ⟨t, i + 1⟩).isSome → Before g.insertionOrder ⟨t, i⟩ ⟨t, i + 1⟩
  created : ∀ t bLab, 0 < t → g.getEventLabel ⟨t, 0⟩ = some bLab → bLab.kind = .ThreadStart ∧
    ∃ cLab, bLab.create = some bLab.createId ∧ g.getEventLabel bLab.createId = some cLab ∧
      cLab.kind = .ThreadCreate ∧ cLab.childId = t ∧
        Before g.insertionOrder bLab.createId ⟨t, 0⟩
  ordered : ∀ t t' bLab bLab', 0 < t → t < t' → g.getEventLabel ⟨t, 0⟩ = some bLab →
    g.getEventLabel ⟨t', 0⟩ = some bLab' → Before g.insertionOrder bLab.createId bLab'.createId

theorem ThreadInv.aligned (h : ThreadInv g) : Aligned g := by
  intro t ht htn
  obtain ⟨bLab, hb⟩ := Option.isSome_iff_exists.1 (h.begun t htn)
  obtain ⟨-, cLab, h1, h2, h3, h4, -⟩ := h.created t bLab ht hb
  exact ⟨bLab, _, cLab, hb, h1, h2, h3, h4⟩

/-- Creations are not begins. -/
theorem ThreadInv.index_pos (h : ThreadInv g) {c : Event} {cLab : EventLabel}
    (hc : g.getEventLabel c = some cLab) (hk : cLab.kind = .ThreadCreate) : 0 < c.index := by
  rw [Nat.pos_iff_ne_zero]
  intro hi
  obtain ⟨t, i⟩ := c
  obtain rfl : i = 0 := hi
  rcases Nat.eq_zero_or_pos t with rfl | ht
  · rw [(h.main cLab hc).1] at hk
    cases hk
  · rw [(h.created t cLab ht hc).1] at hk
    cases hk

/-- What is left of `g` when the events satisfying `keep`, of the threads below `k`, are kept. -/
structure Pruned (k : ℕ) (keep : Event → Bool) (g g' : ExecutionGraph) : Prop where
  threads : 0 < k
  numThreads : g'.getNumThreads = k
  label : ∀ e lab', g'.getEventLabel e = some lab' → keep e = true ∧ lab'.pos = e ∧
    lab'.stamp = some (g'.insertionOrder.idxOf e) ∧ ∃ lab, g.getEventLabel e = some lab ∧
      lab'.kind = lab.kind ∧ lab'.createId = lab.createId ∧
        (e ≠ Event.getInit → lab'.childId = lab.childId ∧
          (e.index = 0 → lab'.create = lab.create))
  kept : ∀ e, keep e = true → (g.getEventLabel e).isSome → (g'.getEventLabel e).isSome
  begins : ∀ t < k, keep ⟨t, 0⟩ = true ∧ (g.getEventLabel ⟨t, 0⟩).isSome
  creates : ∀ t bLab, 0 < t → t < k → g.getEventLabel ⟨t, 0⟩ = some bLab →
    keep bLab.createId = true
  po : ∀ t i, keep ⟨t, i + 1⟩ = true → keep ⟨t, i⟩ = true
  insertionOrder : g'.insertionOrder = g.insertionOrder.filter keep
  timestamp : g'.timestamp = g'.insertionOrder.length

/-- **Pruning keeps the invariant.** -/
theorem ThreadInv.prune (h : ThreadInv g) {k : ℕ} {keep : Event → Bool} {g' : ExecutionGraph}
    (hp : Pruned k keep g g') : ThreadInv g' := by
  have hbefore : ∀ {a b}, Before g.insertionOrder a b → keep a = true → keep b = true →
      Before g'.insertionOrder a b := by
    intro a b hab ha hb
    rw [hp.insertionOrder]
    exact before_filter_iff.2 ⟨hab, ha, hb⟩
  -- the begin of a thread that is kept
  have hbegin : ∀ {t bLab'}, 0 < t → g'.getEventLabel ⟨t, 0⟩ = some bLab' → t < k ∧
      ∃ bLab, g.getEventLabel ⟨t, 0⟩ = some bLab ∧ bLab'.kind = bLab.kind ∧
        bLab'.createId = bLab.createId ∧ bLab'.create = bLab.create := by
    intro t bLab' ht h'
    have htk : t < k := hp.numThreads ▸ lt_getNumThreads_of_getEventLabel h'
    obtain ⟨-, -, -, bLab, h1, h2, h4, h3⟩ := hp.label _ _ h'
    obtain ⟨-, h5⟩ := h3 (fun he => by cases he; exact lt_irrefl _ ht)
    exact ⟨htk, bLab, h1, h2, h4, h5 rfl⟩
  refine ⟨fun e lab' h' => (hp.label e lab' h').2.1, hp.numThreads.symm ▸ hp.threads,
    fun t ht => ?_, fun lab' h' => ?_, ?_, fun e => ?_, fun e lab' h' => (hp.label e lab' h').2.2.1,
    hp.timestamp, fun t i h' => ?_, fun t bLab' ht h' => ?_,
    fun t t' bLab₁ bLab₂ ht htt' h1 h2 => ?_⟩
  · obtain ⟨h1, h2⟩ := hp.begins t (hp.numThreads ▸ ht)
    exact hp.kept _ h1 h2
  · obtain ⟨-, -, -, lab, h1, h2, h3, -⟩ := hp.label _ _ h'
    rw [h2, h3]
    exact h.main lab h1
  · rw [hp.insertionOrder]
    exact h.order.filter _
  · rw [hp.insertionOrder, List.mem_filter, h.inserted]
    refine ⟨?_, fun h1 => ?_⟩
    · rintro ⟨h1, h2⟩
      exact hp.kept e h2 h1
    · obtain ⟨lab', h2⟩ := Option.isSome_iff_exists.1 h1
      obtain ⟨h3, -, -, lab, h4, -⟩ := hp.label e lab' h2
      exact ⟨by rw [h4]; rfl, h3⟩
  · obtain ⟨lab', h1⟩ := Option.isSome_iff_exists.1 h'
    obtain ⟨h2, -, -, lab, h3, -⟩ := hp.label _ _ h1
    exact hbefore (h.po t i (by rw [h3]; rfl)) (hp.po t i h2) h2
  · obtain ⟨htk, bLab, h1, h2, h3, h4⟩ := hbegin ht h'
    obtain ⟨h5, cLab, h6, h7, h8, h9, h10⟩ := h.created t bLab ht h1
    have hkeep := hp.creates t bLab ht htk h1
    obtain ⟨cLab', h11⟩ := Option.isSome_iff_exists.1 (hp.kept _ hkeep (by rw [h7]; rfl))
    obtain ⟨-, -, -, cLab₀, h12, h13, -, h14⟩ := hp.label _ _ h11
    rw [h7] at h12
    cases h12
    have hne : bLab.createId ≠ Event.getInit := by
      intro heq
      have := h.index_pos h7 h8
      rw [heq] at this
      exact lt_irrefl _ this
    rw [h3, h4]
    exact ⟨h2.trans h5, cLab', h6, h11, h13.trans h8, (h14 hne).1.trans h9,
      hbefore h10 hkeep (hp.begins t htk).1⟩
  · obtain ⟨htk, bLab, h3, -, h4, -⟩ := hbegin ht h1
    obtain ⟨htk', bLab', h5, -, h6, -⟩ := hbegin (by omega) h2
    rw [h4, h6]
    exact hbefore (h.ordered t t' bLab bLab' ht htt' h3 h5) (hp.creates t bLab ht htk h3)
      (hp.creates t' bLab' (by omega) htk' h5)

/-- A view that keeps creations in the order of ids keeps those of an initial segment of the
threads. -/
theorem ThreadInv.exists_threshold (h : ThreadInv g) {v : View} (hv : InCreationOrder g v) :
    ∃ k, 0 < k ∧ k ≤ g.getNumThreads ∧ ∀ t bLab, 0 < t → g.getEventLabel ⟨t, 0⟩ = some bLab →
      (v.contains bLab.createId = true ↔ t < k) := by
  classical
  by_cases hex : ∃ t, 0 < t ∧ ∃ bLab, g.getEventLabel ⟨t, 0⟩ = some bLab ∧
      ¬ v.contains bLab.createId = true
  · obtain ⟨hpos, bLab₀, hb₀, hnot⟩ := Nat.find_spec hex
    refine ⟨Nat.find hex, hpos, (lt_getNumThreads_of_getEventLabel hb₀).le,
      fun t bLab ht hb => ⟨fun hc => ?_, fun hlt => ?_⟩⟩
    · by_contra hge
      rcases (not_lt.1 hge).eq_or_lt with heq | hlt
      · rw [heq, hb] at hb₀
        cases hb₀
        exact hnot hc
      · obtain ⟨-, -, h1, -⟩ := h.created _ bLab₀ hpos hb₀
        obtain ⟨-, -, h2, -⟩ := h.created t bLab ht hb
        exact hnot (hv _ t bLab₀ bLab _ _ hpos hlt hb₀ hb h1 h2 hc)
    · by_contra hc
      exact Nat.find_min hex hlt ⟨ht, bLab, hb, hc⟩
  · refine ⟨g.getNumThreads, h.threads, le_rfl, fun t bLab ht hb =>
      ⟨fun _ => lt_getNumThreads_of_getEventLabel hb, fun _ => ?_⟩⟩
    by_contra hc
    exact hex ⟨t, ht, bLab, hb, hc⟩

section Threshold

variable (h : ThreadInv g) {v : View} (hc : HasCreations g v) {k : ℕ} (hk : 0 < k)
  (hthr : ∀ t bLab, 0 < t → g.getEventLabel ⟨t, 0⟩ = some bLab →
    (v.contains bLab.createId = true ↔ t < k))
include h hc hk hthr

/-- Of the threads that go, the view has the begin only. -/
theorem ThreadInv.getMax_eq_zero {t : ℕ} (ht : k ≤ t) (htn : t < g.getNumThreads) :
    v.getMax t = 0 := by
  by_contra hmax
  obtain ⟨bLab, hb⟩ := Option.isSome_iff_exists.1 (h.begun t htn)
  obtain ⟨-, -, h1, -⟩ := h.created t bLab (by omega) hb
  have := (hthr t bLab (by omega) hb).1
    (hc t bLab _ (by omega) hb (Nat.pos_of_ne_zero hmax) h1)
  omega

/-- The creation of a thread that stays is in a thread that stays. -/
theorem ThreadInv.thread_createId_lt {t : ℕ} {bLab : EventLabel} (ht : 0 < t) (htk : t < k)
    (hb : g.getEventLabel ⟨t, 0⟩ = some bLab) : bLab.createId.thread < k := by
  obtain ⟨-, cLab, -, h1, h2, -⟩ := h.created t bLab ht hb
  by_contra hge
  have hmax := h.getMax_eq_zero hc hk hthr (not_lt.1 hge) (lt_getNumThreads_of_getEventLabel h1)
  have hin := (hthr t bLab ht hb).2 htk
  have := h.index_pos h1 h2
  rw [View.contains_iff] at hin
  omega

/-- What a restriction to the view leaves, after the threads from `k` on have been removed. -/
theorem ThreadInv.pruned {g' : ExecutionGraph} (hkn : k ≤ g.getNumThreads)
    (hnum : g'.getNumThreads = k)
    (hlabel : ∀ e lab', g'.getEventLabel e = some lab' → e.thread < k ∧ v.contains e = true ∧
      lab'.pos = e ∧ lab'.stamp = some (g'.insertionOrder.idxOf e) ∧
        ∃ lab, g.getEventLabel e = some lab ∧ lab'.kind = lab.kind ∧
          lab'.createId = lab.createId ∧ (e ≠ Event.getInit → lab'.childId = lab.childId ∧
            (e.index = 0 → lab'.create = lab.create)))
    (hkept : ∀ e, e.thread < k → v.contains e = true → (g.getEventLabel e).isSome →
      (g'.getEventLabel e).isSome)
    (hio : g'.insertionOrder = g.insertionOrder.filter fun e => e.thread < k && v.contains e)
    (htime : g'.timestamp = g'.insertionOrder.length) :
    Pruned k (fun e => e.thread < k && v.contains e) g g' := by
  refine ⟨hk, hnum, fun e lab' h' => ?_, fun e he h' => ?_, fun t ht => ?_,
    fun t bLab ht htk hb => ?_, fun t i hi => ?_, hio, htime⟩
  · obtain ⟨h1, h2, h3⟩ := hlabel e lab' h'
    exact ⟨by simp [h1, h2], h3⟩
  · simp only [Bool.and_eq_true, decide_eq_true_eq] at he
    exact hkept e he.1 he.2 h'
  · refine ⟨?_, h.begun t (by omega)⟩
    rw [v.contains_of_index_eq_zero rfl]
    simpa using ht
  · rw [(hthr t bLab ht hb).2 htk]
    simpa using h.thread_createId_lt hc hk hthr ht htk hb
  · simp only [Bool.and_eq_true, decide_eq_true_eq] at hi ⊢
    exact ⟨hi.1, View.contains_of_le hi.2 (Nat.le_succ i)⟩

end Threshold

/-! ## Copying -/

theorem ThreadInv.stamped (h : ThreadInv g) : g.Stamped := by
  intro e lab hlab
  rw [h.stamp e lab hlab]
  rfl

theorem ThreadInv.isSome_init (h : ThreadInv g) : (g.getEventLabel Event.getInit).isSome :=
  h.begun 0 h.threads

section Copy

variable (h : ThreadInv g) {v : View} (hc : HasCreations g v) {k : ℕ} (hk : 0 < k)
  (hkn : k ≤ g.getNumThreads)
  (hthr : ∀ t bLab, 0 < t → g.getEventLabel ⟨t, 0⟩ = some bLab →
    (v.contains bLab.createId = true ↔ t < k))
include h hc hk hkn hthr

/-- The clean-up of a copy removes the threads whose creation is outside the view. -/
theorem ThreadInv.trimmed_cleanedCopy : Trimmed k (g.cloneLabels v) (g.cleanedCopy v) := by
  refine ExecutionGraph.trimmed_cleanedCopy h.slots h.stamped h.isSome_init hkn
    (fun t ht htn => ?_) fun t bLab ht0 ht hb => ?_
  · obtain ⟨bLab, hb⟩ := Option.isSome_iff_exists.1 (h.begun t htn)
    obtain ⟨h1, cLab, h2, -⟩ := h.created t bLab (by omega) hb
    refine ⟨h.getMax_eq_zero hc hk hthr ht htn, bLab, by omega, hb, by rw [h1]; decide,
      fun c hcr => ?_⟩
    obtain rfl : bLab.createId = c := Option.some.inj (h2.symm.trans hcr)
    rw [← Bool.not_eq_true, hthr t bLab (by omega) hb]
    exact not_lt.2 ht
  · obtain ⟨-, cLab, h2, h3, -⟩ := h.created t bLab ht0 hb
    exact ⟨bLab.createId, h2, h.thread_createId_lt hc hk hthr ht0 ht hb,
      (hthr t bLab ht0 hb).2 ht, by rw [h3]; rfl⟩

theorem ThreadInv.pruned_copyGraphUpTo :
    Pruned k (fun e => e.thread < k && v.contains e) g (g.copyGraphUpTo v) := by
  have htrim := h.trimmed_cleanedCopy hc hk hkn hthr
  have hcleaned : ∀ {e}, ((g.cleanedCopy v).getEventLabel e).isSome ↔
      e.thread < k ∧ v.contains e = true ∧ (g.getEventLabel e).isSome :=
    isSome_cleanedCopy h.slots h.stamped h.isSome_init htrim
  have hslots : ∀ {e lab}, (g.cleanedCopy v).getEventLabel e = some lab → lab.pos = e :=
    slots_cleanedCopy h.slots h.stamped h.isSome_init htrim
  have horder := copiedOrder_eq h.slots h.stamped h.isSome_init htrim
    fun e he => (h.inserted e).1 he
  have hio : (g.copyGraphUpTo v).insertionOrder =
      g.insertionOrder.filter fun e => e.thread < k && v.contains e := by
    rw [← horder, copyGraphUpTo_eq]
    show (g.orderedCopy v).insertionOrder = _
    rw [orderedCopy, fixInsertionOrder_eq]
  have hget : ∀ e, (g.copyGraphUpTo v).getEventLabel e =
      ((g.cleanedCopy v).getEventLabel e).map fun lab =>
        if lab.pos ∈ (g.copyGraphUpTo v).insertionOrder then
          fixPointers g (g.orderedCopy v) v
            (restampLabel (g.copyGraphUpTo v).insertionOrder 0 lab)
        else restampLabel (g.copyGraphUpTo v).insertionOrder 0 lab := by
    intro e
    show ((g.orderedCopy v).mapLabels fun lab =>
      if lab.pos ∈ (g.copyGraphUpTo v).insertionOrder then fixPointers g (g.orderedCopy v) v lab
      else lab).getEventLabel e = _
    rw [getEventLabel_mapLabels, getEventLabel_orderedCopy, Option.map_map, horder, ← hio]
    rfl
  have hnodup : (g.copyGraphUpTo v).insertionOrder.Nodup := by
    rw [hio]
    exact h.order.filter _
  refine h.pruned hc hk hthr hkn ?_ (fun e lab' h' => ?_) (fun e he hv he' => ?_) hio ?_
  · rw [copyGraphUpTo_eq]
    show ((g.orderedCopy v).mapLabels _).getNumThreads = k
    rw [getNumThreads_mapLabels, orderedCopy, fixInsertionOrder_eq]
    show ((g.cleanedCopy v).mapLabels _).getNumThreads = k
    rw [getNumThreads_mapLabels, htrim.numThreads]
  · rw [hget] at h'
    obtain ⟨lab₂, h₂, rfl⟩ := Option.map_eq_some_iff.1 h'
    have hpos := hslots h₂
    have hkeep := hcleaned.1 (by rw [h₂]; rfl)
    have hmem : e ∈ (g.copyGraphUpTo v).insertionOrder := by
      rw [hio, List.mem_filter, h.inserted]
      exact ⟨hkeep.2.2, by simp [hkeep.1, hkeep.2.1]⟩
    obtain ⟨lab₁, s, h₁, rfl⟩ := htrim.label _ _ h₂
    rw [if_pos (hpos.symm ▸ hmem)]
    refine ⟨hkeep.1, hkeep.2.1, hpos, ?_, ?_⟩
    · show restamp _ 0 lab₁.pos lab₁.stamp = _
      have hpos' : lab₁.pos = e := hpos
      rw [hpos', restamp_of_mem hnodup hmem, Nat.zero_add]
    · obtain ⟨-, -, lab, hlab, ⟨rfl, rfl⟩ | ⟨hne, rfl⟩⟩ :=
        cloneLabels_cases h.slots h.stamped h.isSome_init h₁
      · obtain ⟨h1, h2⟩ := h.main lab hlab
        exact ⟨lab, hlab, h1.symm, h2.symm, fun hne => absurd rfl hne⟩
      · refine ⟨lab, hlab, rfl, rfl, fun _ => ⟨rfl, fun hi => ?_⟩⟩
        obtain ⟨t, i⟩ := e
        obtain rfl : i = 0 := hi
        have ht : 0 < t := Nat.pos_of_ne_zero fun ht => hne (by rw [ht]; rfl)
        obtain ⟨h1, cLab, h2, h3, -⟩ := h.created t lab ht hlab
        show (if lab.isThreadStart then lab.create.bind (relink (g.orderedCopy v) v)
          else lab.create) = lab.create
        rw [EventLabel.isThreadStart, h1, h2]
        show relink (g.orderedCopy v) v lab.createId = some lab.createId
        have hcon := (hthr t lab ht hlab).2 hkeep.1
        obtain ⟨cLab', hc'⟩ := Option.isSome_iff_exists.1
          (hcleaned.2
            ⟨h.thread_createId_lt hc hk hthr ht hkeep.1 hlab, hcon, by rw [h3]; rfl⟩)
        rw [relink, if_pos hcon, getEventLabel_orderedCopy, hc']
        have hcpos : cLab'.pos = lab.createId := hslots hc'
        show some cLab'.pos = _
        rw [hcpos]
  · rw [hget, Option.isSome_map]
    exact hcleaned.2 ⟨he, hv, he'⟩
  · rw [hio, ← horder, copyGraphUpTo_eq]
    show (g.orderedCopy v).timestamp = _
    rw [orderedCopy, fixInsertionOrder_eq]

end Copy

/-- **A copy that keeps creations in the order of ids keeps the invariant.** -/
theorem ThreadInv.copyGraphUpTo (h : ThreadInv g) {v : View} (hc : HasCreations g v)
    (ho : InCreationOrder g v) : ThreadInv (g.copyGraphUpTo v) := by
  obtain ⟨k, hk, hkn, hthr⟩ := h.exists_threshold ho
  exact h.prune (h.pruned_copyGraphUpTo hc hk hkn hthr)

/-! ## Cutting -/

/-- Within a thread the insertion order is program order. -/
theorem ThreadInv.idxOf_le (h : ThreadInv g) {t i j : ℕ} (hij : i ≤ j)
    (hj : (g.getEventLabel ⟨t, j⟩).isSome) :
    g.insertionOrder.idxOf ⟨t, i⟩ ≤ g.insertionOrder.idxOf ⟨t, j⟩ := by
  induction j, hij using Nat.le_induction with
  | base => exact le_rfl
  | succ j _ ih =>
    have hlt := (before_iff_idxOf_lt h.order ((h.inserted _).2 hj)).1 (h.po t j hj)
    exact (ih (getEventLabel_isSome_of_le hj rfl (Nat.le_succ j))).trans hlt.le

/-- What the search for the last label up to a stamp looks for. -/
theorem ThreadInv.any_stamp_le (h : ThreadInv g) (stamp : ℕ) (e : Event) :
    ((g.getEventLabel e).any fun lab => lab.stamp.any (· ≤ stamp)) = true ↔
      (g.getEventLabel e).isSome ∧ g.insertionOrder.idxOf e ≤ stamp := by
  cases hlab : g.getEventLabel e with
  | none => simp
  | some lab => simp [h.stamp _ lab hlab]

/-- The last label of a thread in the view of a stamp, begins apart. -/
theorem ThreadInv.getMax_getViewFromStamp (h : ThreadInv g) (stamp : ℕ) {t : ℕ}
    (hmax : 0 < (g.getViewFromStamp stamp).getMax t) :
    (g.getEventLabel ⟨t, (g.getViewFromStamp stamp).getMax t⟩).isSome ∧
      g.insertionOrder.idxOf ⟨t, (g.getViewFromStamp stamp).getMax t⟩ ≤ stamp :=
  (h.any_stamp_le stamp _).1 ((getD_find?_reverse_range _ (g.getThreadSize t)).2 hmax)

/-- Above the begins, the view of a stamp has the labels up to that stamp. -/
theorem ThreadInv.contains_getViewFromStamp (h : ThreadInv g) (stamp : ℕ) {e : Event}
    (he : (g.getEventLabel e).isSome) (hi : 0 < e.index) :
    (g.getViewFromStamp stamp).contains e = true ↔ g.insertionOrder.idxOf e ≤ stamp := by
  obtain ⟨t, i⟩ := e
  rw [View.contains_iff]
  refine ⟨fun hle => ?_, fun hle => ?_⟩
  · obtain ⟨h1, h2⟩ := h.getMax_getViewFromStamp stamp (lt_of_lt_of_le hi hle)
    exact (h.idxOf_le hle h1).trans h2
  · obtain ⟨lab, hlab⟩ := Option.isSome_iff_exists.1 he
    exact (getD_find?_reverse_range _ (g.getThreadSize t)).1 i
      (lt_getThreadSize_of_getEventLabel hlab) ((h.any_stamp_le stamp _).2 ⟨he, hle⟩)

/-- The creation of a thread comes before everything else of the thread. -/
theorem ThreadInv.idxOf_createId_lt (h : ThreadInv g) {t i : ℕ} {bLab : EventLabel} (ht : 0 < t)
    (hb : g.getEventLabel ⟨t, 0⟩ = some bLab) (hi : (g.getEventLabel ⟨t, i⟩).isSome) :
    g.insertionOrder.idxOf bLab.createId < g.insertionOrder.idxOf ⟨t, i⟩ := by
  obtain ⟨-, cLab, -, -, -, -, h1⟩ := h.created t bLab ht hb
  have h2 := (before_iff_idxOf_lt h.order ((h.inserted _).2 (by rw [hb]; rfl))).1 h1
  exact h2.trans_le (h.idxOf_le (Nat.zero_le i) hi)

theorem ThreadInv.hasCreations_getViewFromStamp (h : ThreadInv g) (stamp : ℕ) :
    HasCreations g (g.getViewFromStamp stamp) := by
  intro t bLab c ht hb hmax hcr
  obtain ⟨-, cLab, h1, h2, h3, -⟩ := h.created t bLab ht hb
  obtain rfl : bLab.createId = c := Option.some.inj (h1.symm.trans hcr)
  obtain ⟨h4, h5⟩ := h.getMax_getViewFromStamp stamp hmax
  rw [h.contains_getViewFromStamp stamp (by rw [h2]; rfl) (h.index_pos h2 h3)]
  exact (h.idxOf_createId_lt ht hb h4).le.trans h5

theorem ThreadInv.inCreationOrder_getViewFromStamp (h : ThreadInv g) (stamp : ℕ) :
    InCreationOrder g (g.getViewFromStamp stamp) := by
  intro t t' bLab bLab' c c' ht htt' hb hb' hcr hcr' hv
  obtain ⟨-, cLab, h1, h2, h3, -⟩ := h.created t bLab ht hb
  obtain ⟨-, cLab', h1', h2', h3', -⟩ := h.created t' bLab' (by omega) hb'
  obtain rfl : bLab.createId = c := Option.some.inj (h1.symm.trans hcr)
  obtain rfl : bLab'.createId = c' := Option.some.inj (h1'.symm.trans hcr')
  have hsome : (g.getEventLabel bLab.createId).isSome := by rw [h2]; rfl
  have hsome' : (g.getEventLabel bLab'.createId).isSome := by rw [h2']; rfl
  rw [h.contains_getViewFromStamp stamp hsome' (h.index_pos h2' h3')] at hv
  rw [h.contains_getViewFromStamp stamp hsome (h.index_pos h2 h3)]
  have hlt := (before_iff_idxOf_lt h.order ((h.inserted _).2 hsome')).1
    (h.ordered t t' bLab bLab' ht htt' hb hb')
  omega

theorem getNumThreads_restrictTo (v : View) : (g.restrictTo v).getNumThreads = g.getNumThreads := by
  simp [getNumThreads, restrictTo, keptEvents]

section Cut

variable (h : ThreadInv g) {v : View} (hc : HasCreations g v) {k : ℕ} (hk : 0 < k)
  (hkn : k ≤ g.getNumThreads)
  (hthr : ∀ t bLab, 0 < t → g.getEventLabel ⟨t, 0⟩ = some bLab →
    (v.contains bLab.createId = true ↔ t < k))
include h hc hk hkn hthr

omit hc hk hkn in
/-- The begin of a thread loses its creation exactly when the thread goes. -/
theorem ThreadInv.create_dropPointers {t : ℕ} {bLab : EventLabel} (ht : 0 < t)
    (hb : g.getEventLabel ⟨t, 0⟩ = some bLab) :
    (dropPointers v bLab).create = if t < k then bLab.create else none := by
  obtain ⟨h1, cLab, h2, -⟩ := h.created t bLab ht hb
  show (if bLab.isThreadStart then bLab.create.filter (v.contains ·) else bLab.create) = _
  rw [EventLabel.isThreadStart, h1, h2]
  show (some bLab.createId).filter (v.contains ·) = _
  rw [Option.filter_some]
  by_cases htk : t < k
  · rw [if_pos ((hthr t bLab ht hb).2 htk), if_pos htk]
  · rw [if_neg (fun h' => htk ((hthr t bLab ht hb).1 h')), if_neg htk]

/-- The clean-up after a cut removes the threads whose creation is gone. -/
theorem ThreadInv.trimmed_restrictTo : Trimmed k (g.restrictTo v) ((g.restrictTo v).cleanupBegins
    (fun _ bLab => bLab.create.isNone) (g.restrictTo v).getNumThreads) := by
  have hnum := getNumThreads_restrictTo (g := g) v
  have hbegin : ∀ t, (g.restrictTo v).getEventLabel ⟨t, 0⟩ =
      (g.getEventLabel ⟨t, 0⟩).map (dropPointers v) := by
    intro t
    rw [getEventLabel_restrictTo, if_pos (v.contains_of_index_eq_zero rfl)]
  refine trimmed_cleanupBegins (fun e lab₁ h₁ => ?_) (hnum ▸ hkn) (fun t ht htn => ?_)
    fun t bLab₁ ht hb₁ hkind => ?_
  · rw [getEventLabel_restrictTo] at h₁
    split at h₁
    · obtain ⟨lab, hlab, rfl⟩ := Option.map_eq_some_iff.1 h₁
      exact h.slots e lab hlab
    · cases h₁
  · rw [hnum] at htn
    obtain ⟨bLab, hb⟩ := Option.isSome_iff_exists.1 (h.begun t htn)
    have h1 : (g.restrictTo v).getEventLabel ⟨t, 1⟩ = none := by
      rw [getEventLabel_restrictTo, if_neg]
      rw [View.contains_iff, h.getMax_eq_zero hc hk hthr ht htn]
      exact Nat.not_succ_le_zero 0
    refine ⟨dropPointers v bLab, events_eq_singleton (by rw [hbegin, hb]; rfl) h1, ?_,
      fun k' g' s _ _ => ?_⟩
    · show bLab.kind ≠ .Init
      rw [(h.created t bLab (by omega) hb).1]
      decide
    · show (dropPointers v bLab).create.isNone = true
      rw [h.create_dropPointers hthr (by omega) hb, if_neg (by omega)]
      rfl
  · rw [hbegin] at hb₁
    obtain ⟨bLab, hb, rfl⟩ := Option.map_eq_some_iff.1 hb₁
    intro k' g' s _ _
    have ht0 : 0 < t := by
      rw [Nat.pos_iff_ne_zero]
      rintro rfl
      exact hkind (h.main bLab hb).1
    show (dropPointers v bLab).create.isNone = false
    obtain ⟨-, cLab, h2, -⟩ := h.created t bLab ht0 hb
    rw [h.create_dropPointers hthr ht0 hb, if_pos ht, h2]
    rfl

end Cut

/-- **Cutting keeps the invariant**, at every stamp. -/
theorem ThreadInv.cutToStamp (h : ThreadInv g) (stamp : ℕ) : ThreadInv (g.cutToStamp stamp) := by
  have hc := h.hasCreations_getViewFromStamp stamp
  obtain ⟨k, hk, hkn, hthr⟩ := h.exists_threshold (h.inCreationOrder_getViewFromStamp stamp)
  have htrim := h.trimmed_restrictTo hc hk hkn hthr
  set v := g.getViewFromStamp stamp with hv
  set g₁ := g.restrictTo v with hg₁
  set g₂ := g₁.cleanupBegins (fun _ bLab => bLab.create.isNone) g₁.getNumThreads with hg₂
  have hcut : g.cutToStamp stamp = { g₂.mapLabels (restampLabel g₂.insertionOrder 0) with
      timestamp := g₂.insertionOrder.length } := resetStamps_eq
  have hget : ∀ e, (g.cutToStamp stamp).getEventLabel e =
      (g₂.getEventLabel e).map (restampLabel g₂.insertionOrder 0) := getEventLabel_resetStamps
  have hio₁ : g₁.insertionOrder = g.insertionOrder.filter (v.contains ·) := rfl
  have hio₂ : g₂.insertionOrder =
      g.insertionOrder.filter fun e => e.thread < k && v.contains e := by
    rw [htrim.insertionOrder, hio₁, List.filter_filter]
    · rw [hio₁]
      exact h.order.filter _
    · intro e he
      rw [hio₁, List.mem_filter, h.inserted] at he
      rw [getEventLabel_restrictTo, if_pos he.2, Option.isSome_map]
      exact he.1
  have hio : (g.cutToStamp stamp).insertionOrder =
      g.insertionOrder.filter fun e => e.thread < k && v.contains e := by
    rw [hcut]
    exact hio₂
  refine h.prune (h.pruned hc hk hthr hkn ?_ (fun e lab' h' => ?_) (fun e he hcon h' => ?_) hio ?_)
  · rw [hcut]
    show (g₂.mapLabels _).getNumThreads = k
    rw [getNumThreads_mapLabels, htrim.numThreads]
  · rw [hget] at h'
    obtain ⟨lab₂, h₂, rfl⟩ := Option.map_eq_some_iff.1 h'
    have hlt := htrim.lt h₂
    obtain ⟨lab₁, s, h₁, rfl⟩ := htrim.label _ _ h₂
    rw [getEventLabel_restrictTo] at h₁
    split at h₁
    · rename_i hcon
      obtain ⟨lab, hlab, rfl⟩ := Option.map_eq_some_iff.1 h₁
      have hpos : lab.pos = e := h.slots e lab hlab
      have hmem : e ∈ g₂.insertionOrder := by
        rw [hio₂, List.mem_filter, h.inserted, hlab]
        exact ⟨rfl, by simp [hlt, hcon]⟩
      refine ⟨hlt, hcon, hpos, ?_, lab, hlab, rfl, rfl, fun hne => ⟨rfl, fun hi => ?_⟩⟩
      · show restamp g₂.insertionOrder 0 lab.pos lab.stamp = _
        have hnodup : g₂.insertionOrder.Nodup := by
          rw [hio₂]
          exact h.order.filter _
        rw [hpos, restamp_of_mem hnodup hmem, Nat.zero_add, hio₂, hio]
      · obtain ⟨t, i⟩ := e
        obtain rfl : i = 0 := hi
        have ht : 0 < t := Nat.pos_of_ne_zero fun ht => hne (by rw [ht]; rfl)
        show (dropPointers v lab).create = lab.create
        rw [h.create_dropPointers hthr ht hlab, if_pos hlt]
    · cases h₁
  · rw [hget, Option.isSome_map]
    obtain ⟨lab, hlab⟩ := Option.isSome_iff_exists.1 h'
    have h₁ : g₁.getEventLabel e = some (dropPointers v lab) := by
      rw [getEventLabel_restrictTo, if_pos hcon, hlab]
      rfl
    obtain ⟨s, hs⟩ := htrim.kept e _ he h₁
    rw [hs]
    rfl
  · rw [hcut]
    rfl

/-! ## Adding labels and creating threads -/

/-- Links between symmetric threads apart, two labels say the same about threads. -/
def SameButSymm (lab lab' : EventLabel) : Prop := ∃ s, lab' = { lab with symmSuccTid := s }

/-- What it takes to add the begin of a new thread: a creation that is the latest one. -/
structure NewBegin (g : ExecutionGraph) (bLab : EventLabel) : Prop where
  kind : bLab.kind = .ThreadStart
  thread : bLab.pos.thread = g.getNumThreads
  create : bLab.create = some bLab.createId
  creation : ∃ cLab, g.getEventLabel bLab.createId = some cLab ∧ cLab.kind = .ThreadCreate ∧
    cLab.childId = bLab.pos.thread
  latest : ∀ t oLab, 0 < t → g.getEventLabel ⟨t, 0⟩ = some oLab →
    Before g.insertionOrder oLab.createId bLab.createId

/-- **Adding a label keeps the invariant**, in a thread that has begun or as a new begin. -/
theorem ThreadInv.concat (h : ThreadInv g) {g' : ExecutionGraph} (lab : EventLabel)
    (hget : ∀ e lab', g'.getEventLabel e = some lab' → (e = lab.pos ∧ lab' = lab) ∨
      (e ≠ lab.pos ∧ ∃ lab₀, g.getEventLabel e = some lab₀ ∧ SameButSymm lab₀ lab'))
    (hkept : ∀ e, (g.getEventLabel e).isSome → (g'.getEventLabel e).isSome)
    (hself : g'.getEventLabel lab.pos = some lab) (hnew : g.getEventLabel lab.pos = none)
    (hio : g'.insertionOrder = g.insertionOrder ++ [lab.pos])
    (htime : g'.timestamp = g.timestamp + 1) (hstamp : lab.stamp = some g.timestamp)
    (hnum : g'.getNumThreads = if lab.pos.index = 0 then g.getNumThreads + 1 else g.getNumThreads)
    (hpred : 0 < lab.pos.index →
      (g.getEventLabel ⟨lab.pos.thread, lab.pos.index - 1⟩).isSome)
    (hbegin : lab.pos.index = 0 → NewBegin g lab) : ThreadInv g' := by
  have hnotin : lab.pos ∉ g.insertionOrder := by
    rw [h.inserted, hnew]
    exact Bool.false_ne_true
  have hnodup : g'.insertionOrder.Nodup := by
    rw [hio]
    exact List.nodup_append.2 ⟨h.order, List.nodup_singleton _, fun a ha b hb hab =>
      hnotin (List.mem_singleton.1 hb ▸ hab ▸ ha)⟩
  have hbefore : ∀ {a b}, Before g.insertionOrder a b → Before g'.insertionOrder a b :=
    fun hab => hio ▸ hab.append _
  have hlast : ∀ {a}, a ∈ g.insertionOrder → Before g'.insertionOrder a lab.pos :=
    fun ha => hio ▸ before_concat ha _
  -- begins of the new graph: an old one, or the new one
  have hcases : ∀ {t bLab'}, 0 < t → g'.getEventLabel ⟨t, 0⟩ = some bLab' →
      (lab.pos = ⟨t, 0⟩ ∧ bLab' = lab) ∨ ∃ bLab, g.getEventLabel ⟨t, 0⟩ = some bLab ∧
        SameButSymm bLab bLab' := by
    intro t bLab' _ h'
    rcases hget _ _ h' with ⟨h1, h2⟩ | ⟨-, h1⟩
    · exact Or.inl ⟨h1.symm, h2⟩
    · exact Or.inr h1
  have hold : ∀ {t bLab}, 0 < t → g.getEventLabel ⟨t, 0⟩ = some bLab →
      bLab.createId ∈ g.insertionOrder := by
    intro t bLab ht hb
    obtain ⟨-, cLab, -, h1, -⟩ := h.created t bLab ht hb
    rw [h.inserted, h1]
    rfl
  -- a creation of `g` is one of `g'`
  have hcreation : ∀ {c cLab t}, g.getEventLabel c = some cLab → cLab.kind = .ThreadCreate →
      cLab.childId = t → ∃ cLab', g'.getEventLabel c = some cLab' ∧ cLab'.kind = .ThreadCreate ∧
        cLab'.childId = t := by
    intro c cLab t h1 h2 h3
    obtain ⟨cLab', h4⟩ := Option.isSome_iff_exists.1 (hkept c (by rw [h1]; rfl))
    rcases hget _ _ h4 with ⟨h5, -⟩ | ⟨-, lab₀, h5, s, rfl⟩
    · rw [h5, hnew] at h1
      cases h1
    · rw [h1] at h5
      cases h5
      exact ⟨_, h4, h2, h3⟩
  refine ⟨fun e lab' h' => ?_, ?_, fun t ht => ?_, fun lab' h' => ?_, hnodup, fun e => ?_,
    fun e lab' h' => ?_, ?_, fun t i h' => ?_, fun t bLab' ht h' => ?_,
    fun t t' bLab₁ bLab₂ ht htt' h1 h2 => ?_⟩
  · rcases hget e lab' h' with ⟨rfl, rfl⟩ | ⟨-, lab₀, h1, s, rfl⟩
    · rfl
    · exact h.slots e lab₀ h1
  · rw [hnum]
    have := h.threads
    split <;> omega
  · rw [hnum] at ht
    split at ht
    · rename_i hi
      rcases Nat.lt_succ_iff_lt_or_eq.1 ht with hlt | rfl
      · exact hkept _ (h.begun t hlt)
      · have hpos : lab.pos = ⟨g.getNumThreads, 0⟩ := Event.ext_iff'.2 ⟨(hbegin hi).thread, hi⟩
        rw [← hpos, hself]
        rfl
    · exact hkept _ (h.begun t ht)
  · rcases hget _ _ h' with ⟨h1, -⟩ | ⟨-, lab₀, h1, s, rfl⟩
    · have := h.begun 0 h.threads
      rw [h1, hnew] at this
      cases this
    · exact h.main lab₀ h1
  · rw [hio, List.mem_append, List.mem_singleton, h.inserted]
    refine ⟨?_, fun h1 => ?_⟩
    · rintro (h1 | rfl)
      · exact hkept e h1
      · rw [hself]
        rfl
    · obtain ⟨lab', h2⟩ := Option.isSome_iff_exists.1 h1
      rcases hget e lab' h2 with ⟨h3, -⟩ | ⟨-, lab₀, h3, -⟩
      · exact Or.inr h3
      · exact Or.inl (by rw [h3]; rfl)
  · rw [hio]
    rcases hget e lab' h' with ⟨rfl, rfl⟩ | ⟨-, lab₀, h1, s, rfl⟩
    · rw [List.idxOf_append_of_notMem hnotin, List.idxOf_cons_self, Nat.add_zero, ← h.timestamp]
      exact hstamp
    · rw [List.idxOf_append_of_mem ((h.inserted e).2 (by rw [h1]; rfl))]
      exact h.stamp e lab₀ h1
  · rw [htime, h.timestamp, hio]
    simp
  · obtain ⟨lab', h1⟩ := Option.isSome_iff_exists.1 h'
    rcases hget _ _ h1 with ⟨h2, -⟩ | ⟨-, lab₀, h2, -⟩
    · have h3 := hpred (by rw [← h2]; exact Nat.succ_pos i)
      rw [← h2] at h3
      rw [h2]
      exact hlast ((h.inserted _).2 h3)
    · exact hbefore (h.po t i (by rw [h2]; rfl))
  · rcases hcases ht h' with ⟨hpos, rfl⟩ | ⟨bLab, h1, s, rfl⟩
    · have hb := hbegin (by rw [hpos])
      obtain ⟨cLab, h1, h2, h3⟩ := hb.creation
      obtain ⟨cLab', h4, h5, h6⟩ := hcreation h1 h2 h3
      refine ⟨hb.kind, cLab', hb.create, h4, h5, h6.trans (by rw [hpos]), ?_⟩
      rw [← hpos]
      exact hlast ((h.inserted _).2 (by rw [h1]; rfl))
    · obtain ⟨h2, cLab, h3, h4, h5, h6, h7⟩ := h.created t bLab ht h1
      obtain ⟨cLab', h8, h9, h10⟩ := hcreation h4 h5 h6
      exact ⟨h2, cLab', h3, h8, h9, h10, hbefore h7⟩
  · rcases hcases ht h1 with ⟨hpos, rfl⟩ | ⟨bLab, h3, s, rfl⟩
    · -- the new begin is the last one
      have hb := (hbegin (by rw [hpos])).thread
      have hlt := lt_getNumThreads_of_getEventLabel h2
      rw [hnum, if_pos (by rw [hpos])] at hlt
      rw [hpos] at hb
      simp only at hb hlt
      omega
    · rcases hcases (by omega) h2 with ⟨hpos, rfl⟩ | ⟨bLab', h4, s', rfl⟩
      · exact hbefore ((hbegin (by rw [hpos])).latest t bLab ht h3)
      · exact hbefore (h.ordered t t' bLab bLab' ht htt' h3 h4)

section Stamp

variable {lab : EventLabel} (hs : g.Seated)
  (hi : lab.pos.index = g.getThreadSize lab.pos.thread) (hstamp : lab.stamp = none)
include hstamp

theorem stamp_stampLabel : (g.stampLabel lab).1 = { lab with stamp := some g.timestamp } := by
  simp [stampLabel, hstamp]

include hs hi

theorem timestamp_addLabelToGraph : (g.addLabelToGraph lab).timestamp = g.timestamp + 1 := by
  have htrack : ∀ g' : ExecutionGraph, (g'.trackLabel lab).timestamp = g'.timestamp := by
    intro g'
    rw [trackLabel]
    split <;> rfl
  rw [addLabelToGraph_eq hs hi]
  show ({ g with timestamp := (g.stampLabel lab).2 }.trackLabel lab).timestamp = _
  rw [htrack]
  simp [stampLabel, hstamp]

end Stamp

theorem ThreadInv.addLabelToGraph (h : ThreadInv g) {lab : EventLabel} (ha : Added g lab) :
    ThreadInv (g.addLabelToGraph lab) := by
  have hseat := h.slots.seated
  have hlab := getEventLabel_addLabelToGraph hseat ha.thread ha.index
  rw [stamp_stampLabel ha.stamp] at hlab
  have hne : lab.pos.index ≠ 0 := ha.begun.ne'
  have hnew : g.getEventLabel lab.pos = none := getEventLabel_of_index_ge ha.index.ge
  refine h.concat { lab with stamp := some g.timestamp } (fun e lab' h' => ?_)
    (fun e he => ?_) (by rw [hlab, if_pos rfl]) hnew (insertionOrder_addLabelToGraph hseat ha.index)
    (timestamp_addLabelToGraph hseat ha.index ha.stamp) rfl ?_ (fun _ => ?_)
    fun h0 => absurd h0 hne
  · rw [hlab] at h'
    split at h'
    · rename_i he
      exact Or.inl ⟨he, (Option.some.inj h').symm⟩
    · rename_i he
      exact Or.inr ⟨he, lab', h', lab'.symmSuccTid, rfl⟩
  · rw [hlab]
    split
    · rfl
    · exact he
  · rw [if_neg hne]
    exact getNumThreads_addLabelToGraph hseat ha.index
  · have hlt : lab.pos.index - 1 < (g.events.getD lab.pos.thread []).length := by
      have h1 := ha.index
      have h2 := ha.begun
      rw [getThreadSize] at h1
      omega
    show ((g.events.getD lab.pos.thread [])[lab.pos.index - 1]?).isSome
    rw [List.getElem?_eq_getElem hlt]
    rfl

/-- In an aligned graph no thread remembers a creation at the end of a thread. -/
theorem ThreadInv.findChild_eq (h : ThreadInv g) {tcLab : EventLabel} (ha : Added g tcLab) :
    g.findChild tcLab.pos = g.getNumThreads := by
  have hnone : (List.range g.getNumThreads).find? (fun cid =>
      (g.getFirstThreadLabel cid).any fun bLab => bLab.createId = tcLab.pos) = none := by
    rw [List.find?_eq_none]
    intro t ht hany
    obtain ⟨bLab, hb, hid⟩ := (Option.any_eq_true _ _).1 hany
    rw [getFirstThreadLabel, Option.filter_eq_some_iff] at hb
    rw [decide_eq_true_eq] at hid
    rcases Nat.eq_zero_or_pos t with rfl | ht0
    · have hpos := ha.begun
      rw [← hid, (h.main bLab hb.1).2] at hpos
      exact lt_irrefl _ hpos
    · obtain ⟨-, cLab, -, h1, -⟩ := h.created t bLab ht0 hb.1
      rw [hid, getEventLabel_of_index_ge ha.index.ge] at h1
      cases h1
  rw [findChild, hnone]
  rfl

theorem getEventLabel_setSymmSuccTid (symm : Option ℕ) (cid : ℕ) (e : Event) :
    ∃ f : EventLabel → EventLabel, (∀ lab, SameButSymm lab (f lab)) ∧
      (g.setSymmSuccTid symm cid).getEventLabel e = (g.getEventLabel e).map f := by
  cases symm with
  | none => exact ⟨id, fun lab => ⟨lab.symmSuccTid, rfl⟩, Option.map_id_apply.symm⟩
  | some p =>
    rw [setSymmSuccTid, getEventLabel, getElem?_getD_modifyHead]
    split
    · exact ⟨_, fun lab => ⟨some cid, rfl⟩, rfl⟩
    · exact ⟨id, fun lab => ⟨lab.symmSuccTid, rfl⟩, Option.map_id_apply.symm⟩

theorem setSymmSuccTid_frame (symm : Option ℕ) (cid : ℕ) :
    (g.setSymmSuccTid symm cid).insertionOrder = g.insertionOrder ∧
      (g.setSymmSuccTid symm cid).timestamp = g.timestamp ∧
        (g.setSymmSuccTid symm cid).getNumThreads = g.getNumThreads := by
  cases symm with
  | none => exact ⟨rfl, rfl, rfl⟩
  | some p => exact ⟨rfl, rfl, List.length_modify ..⟩

/-- **The check on the id of a new thread passes**, and the new thread keeps the invariant. -/
theorem ThreadInv.handleThreadCreate (h : ThreadInv g) {tcLab : EventLabel} (ha : Added g tcLab)
    (symm : Option ℕ) : ∃ g', g.handleThreadCreate tcLab symm = some g' ∧
      (tcLab.kind = .ThreadCreate → ThreadInv g') := by
  set cid := g.getNumThreads with hcid
  set g₁ := g.addLabelToGraph { tcLab with childId := cid } with hg₁
  have ha₁ : Added g { tcLab with childId := cid } := ⟨ha.thread, ha.index, ha.begun, ha.stamp⟩
  have h₁ : ThreadInv g₁ := h.addLabelToGraph ha₁
  have hnum₁ : g₁.getNumThreads = cid := getNumThreads_addLabelToGraph h.slots.seated ha₁.index
  set bLab : EventLabel :=
    { kind := .ThreadStart
      pos := ⟨cid, 0⟩
      ordering := .Acquire
      createId := tcLab.pos
      create := some tcLab.pos
      symmPredTid := symm } with hbLab
  set g₂ := g₁.addNewThread.addLabelToGraph bLab with hg₂
  refine ⟨g₂.setSymmSuccTid symm cid, ?_, fun hkind => ?_⟩
  · rw [ExecutionGraph.handleThreadCreate, h.findChild_eq ha]
    exact if_pos hnum₁.symm
  · -- the new thread is empty before its begin is added
    have hseat : g₁.addNewThread.Seated := by
      intro e lab hlab
      rw [getEventLabel_addNewThread] at hlab
      exact h₁.slots.seated e lab hlab
    have hnum : g₁.addNewThread.getNumThreads = cid + 1 := by
      rw [← hnum₁]
      simp [getNumThreads, addNewThread]
    have hnone : g₁.getEventLabel ⟨cid, 0⟩ = none := by
      rw [← Option.not_isSome_iff_eq_none]
      intro hsome
      obtain ⟨lab, hlab⟩ := Option.isSome_iff_exists.1 hsome
      have := lt_getNumThreads_of_getEventLabel hlab
      simp only [hnum₁] at this
      exact lt_irrefl _ this
    have hi : bLab.pos.index = g₁.addNewThread.getThreadSize bLab.pos.thread := by
      show 0 = (((g₁.events ++ [[]]).getD cid []).length)
      rw [← hnum₁, getNumThreads]
      simp
    have hget₂ : ∀ e, g₂.getEventLabel e = if e = ⟨cid, 0⟩ then
        some { bLab with stamp := some g₁.timestamp } else g₁.getEventLabel e := by
      intro e
      rw [hg₂, getEventLabel_addLabelToGraph hseat (by rw [hnum]; exact Nat.lt_succ_self cid) hi,
        getEventLabel_addNewThread, stamp_stampLabel rfl]
      rfl
    obtain ⟨hio₃, htime₃, hnum₃⟩ := setSymmSuccTid_frame (g := g₂) symm cid
    obtain ⟨f₀, hf₀, hself⟩ := getEventLabel_setSymmSuccTid (g := g₂) symm cid ⟨cid, 0⟩
    rw [hget₂, if_pos rfl, Option.map_some] at hself
    obtain ⟨s, hs⟩ := hf₀ { bLab with stamp := some g₁.timestamp }
    rw [hs] at hself
    have hcreate : g₁.getEventLabel tcLab.pos =
        some { tcLab with childId := cid, stamp := some g.timestamp } := by
      have hlab := getEventLabel_addLabelToGraph h.slots.seated ha₁.thread ha₁.index tcLab.pos
      rw [stamp_stampLabel ha₁.stamp] at hlab
      exact hlab.trans (if_pos rfl)
    refine h₁.concat { bLab with stamp := some g₁.timestamp, symmSuccTid := s }
      (fun e lab' h' => ?_) (fun e he => ?_) hself hnone ?_ ?_ rfl ?_ (fun h0 => ?_) fun _ => ?_
    · by_cases he : e = ⟨cid, 0⟩
      · rw [he, hself] at h'
        exact Or.inl ⟨he, (Option.some.inj h').symm⟩
      · obtain ⟨f, hf, heq⟩ := getEventLabel_setSymmSuccTid (g := g₂) symm cid e
        rw [heq, hget₂, if_neg he] at h'
        obtain ⟨lab, h1, rfl⟩ := Option.map_eq_some_iff.1 h'
        exact Or.inr ⟨he, lab, h1, hf lab⟩
    · obtain ⟨f, -, heq⟩ := getEventLabel_setSymmSuccTid (g := g₂) symm cid e
      rw [heq, Option.isSome_map, hget₂]
      split
      · rfl
      · exact he
    · rw [hio₃, hg₂, insertionOrder_addLabelToGraph hseat hi]
      rfl
    · rw [htime₃, hg₂, timestamp_addLabelToGraph hseat hi rfl]
      rfl
    · rw [hnum₃, if_pos rfl, hnum₁, hg₂, getNumThreads_addLabelToGraph hseat hi, hnum]
    · exact absurd h0 (lt_irrefl 0)
    · refine ⟨rfl, hnum₁.symm, rfl, ⟨_, hcreate, hkind, rfl⟩, fun t oLab ht ho => ?_⟩
      -- the creations of the other threads were there before this one
      rw [hg₁, insertionOrder_addLabelToGraph h.slots.seated ha₁.index]
      refine before_concat ?_ _
      have hlab := getEventLabel_addLabelToGraph h.slots.seated ha₁.thread ha₁.index ⟨t, 0⟩
      rw [← hg₁, ho, if_neg] at hlab
      · obtain ⟨-, cLab, -, h2, -⟩ := h.created t oLab ht hlab.symm
        rw [h.inserted, h2]
        rfl
      · intro heq
        have := ha.begun
        rw [show tcLab.pos = ⟨t, 0⟩ from heq.symm] at this
        exact lt_irrefl _ this

/-! ## Runs -/

theorem threadInv_init : ThreadInv init := by
  have hlabel : ∀ {e lab}, init.getEventLabel e = some lab →
      e = Event.getInit ∧ lab = freshInit := by
    intro e lab h
    obtain ⟨t, i⟩ := e
    match t, i, h with
    | 0, 0, h => exact ⟨rfl, (Option.some.inj h).symm⟩
    | 0, i + 1, h => cases h
    | t + 1, i, h => cases h
  refine ⟨fun e lab h => ?_, by decide, fun t ht => ?_, fun lab h => ?_, by decide, fun e => ?_,
    fun e lab h => ?_, rfl, fun t i h => ?_, fun t bLab ht h => ?_,
    fun t t' bLab bLab' ht _ h => ?_⟩
  · obtain ⟨rfl, rfl⟩ := hlabel h
    rfl
  · obtain rfl : t = 0 := Nat.lt_one_iff.1 ht
    rfl
  · obtain ⟨-, rfl⟩ := hlabel h
    exact ⟨rfl, rfl⟩
  · refine ⟨fun h => ?_, fun h => ?_⟩
    · obtain rfl := List.mem_singleton.1 h
      rfl
    · obtain ⟨lab, h'⟩ := Option.isSome_iff_exists.1 h
      obtain ⟨rfl, -⟩ := hlabel h'
      exact List.mem_singleton.2 rfl
  · obtain ⟨rfl, rfl⟩ := hlabel h
    rfl
  · obtain ⟨lab, h'⟩ := Option.isSome_iff_exists.1 h
    cases (hlabel h').1
  · cases (hlabel h).1
    exact absurd ht (lt_irrefl _)
  · cases (hlabel h).1
    exact absurd ht (lt_irrefl _)

/-- One step of the driver keeps the invariant, if copies keep creations in the order of ids. -/
theorem ThreadInv.step {g' : ExecutionGraph} (h : ThreadInv g) (hstep : Step InCreationOrder g g') :
    ThreadInv g' := by
  cases hstep with
  | addLabel ha _ _ => exact h.addLabelToGraph ha
  | @createThread _ tcLab symm ha hk hstep =>
    obtain ⟨g'', h1, h2⟩ := h.handleThreadCreate ha symm
    rw [hstep] at h1
    cases h1
    exact h2 hk
  | cutToStamp stamp => exact h.cutToStamp stamp
  | copyGraphUpTo hv hP => exact h.copyGraphUpTo hv hP

theorem threadInv_of_reaches (h : Reaches InCreationOrder g) : ThreadInv g := by
  induction h with
  | refl => exact threadInv_init
  | tail _ hstep ih => exact ih.step hstep

/-- **Thread ids stay aligned with creations**, and the check on the id of a new thread passes, in
every graph that the driver reaches by copies that keep creations in the order of ids. -/
theorem aligned_of_reaches (g : ExecutionGraph) (h : Reaches InCreationOrder g) :
    Aligned g ∧ CreatesNext g := by
  have hinv := threadInv_of_reaches h
  refine ⟨hinv.aligned, fun tcLab symm ha => ⟨hinv.findChild_eq ha, ?_⟩⟩
  obtain ⟨g', h1, -⟩ := hinv.handleThreadCreate ha symm
  rw [h1]
  rfl

/-! ## Two siblings that create a thread each -/

/-- A creation that the driver is about to add. -/
def creationAt (e : Event) : EventLabel := { kind := .ThreadCreate, pos := e }

/-- The graph after a creation, if the check passes. -/
def afterCreation (g : ExecutionGraph) (e : Event) : ExecutionGraph :=
  (g.handleThreadCreate (creationAt e) none).getD g

theorem step_afterCreation {P : ExecutionGraph → View → Prop} {e : Event}
    (ha : Added g (creationAt e)) (hsome : (g.handleThreadCreate (creationAt e) none).isSome) :
    Step P g (g.afterCreation e) := by
  obtain ⟨g', hg'⟩ := Option.isSome_iff_exists.1 hsome
  rw [afterCreation, hg']
  exact .createThread ha rfl hg'

/-- The main thread has created two threads and read `x`, and each of the two has created a
thread. -/
def siblingsCreate : ExecutionGraph :=
  ((((init.afterCreation ⟨0, 1⟩).afterCreation ⟨0, 2⟩).addLabelToGraph
    { kind := .Read, pos := ⟨0, 3⟩, addr := 8 }).afterCreation ⟨1, 1⟩).afterCreation ⟨2, 1⟩

/-- The thread created last has written `x`. -/
def siblings : ExecutionGraph :=
  siblingsCreate.addLabelToGraph { kind := .Write, pos := ⟨4, 1⟩, addr := 8 }

theorem siblings_reaches (P : ExecutionGraph → View → Prop) : Reaches P siblings := by
  have h1 : Step P init (init.afterCreation ⟨0, 1⟩) :=
    step_afterCreation ⟨by decide, by decide, by decide, rfl⟩ (by decide)
  have h2 : Step P _ ((init.afterCreation ⟨0, 1⟩).afterCreation ⟨0, 2⟩) :=
    step_afterCreation ⟨by decide, by decide, by decide, rfl⟩ (by decide)
  have h3 : Step P _ (((init.afterCreation ⟨0, 1⟩).afterCreation ⟨0, 2⟩).addLabelToGraph
      { kind := .Read, pos := ⟨0, 3⟩, addr := 8 }) :=
    .addLabel (g := (init.afterCreation ⟨0, 1⟩).afterCreation ⟨0, 2⟩)
      ⟨by decide, by decide, by decide, rfl⟩ (by decide) rfl
  have h4 := step_afterCreation (P := P) (e := ⟨1, 1⟩)
    (g := ((init.afterCreation ⟨0, 1⟩).afterCreation ⟨0, 2⟩).addLabelToGraph
      { kind := .Read, pos := ⟨0, 3⟩, addr := 8 })
    ⟨by decide, by decide, by decide, rfl⟩ (by decide)
  have h5 : Step P _ siblingsCreate :=
    step_afterCreation ⟨by decide, by decide, by decide, rfl⟩ (by decide)
  have h6 : Step P siblingsCreate siblings :=
    .addLabel ⟨by decide, by decide, by decide, rfl⟩ (by decide) rfl
  exact (((((Relation.ReflTransGen.single h1).tail h2).tail h3).tail h4).tail h5).tail h6

/-- Everything but what thread 2 and the thread it created have done.  With the creation of thread
3, the creations of the threads before it are in the view. -/
def withoutFour : View := ⟨fun t => [3, 1].getD t 0⟩

theorem withoutFour_hasCreations : HasCreations siblings withoutFour := by
  have h := (forall_label_iff (g := siblings) (p := fun e bLab => 0 < e.thread → e.index = 0 →
    0 < withoutFour.getMax e.thread → ∀ c ∈ bLab.create, withoutFour.contains c = true)).2
      (by decide)
  exact fun t bLab c ht hb hmax hc => h _ bLab hb ht rfl hmax c hc

theorem withoutFour_inCreationOrder : InCreationOrder siblings withoutFour := by
  intro t t' bLab bLab' c c' ht htt' hb hb' hc hc' hv
  have ht' : t' < 5 := lt_getNumThreads_of_getEventLabel hb'
  have h : ∀ t' < 5, ∀ t < t', 0 < t →
      (((siblings.getEventLabel ⟨t', 0⟩).bind (·.create)).any (withoutFour.contains ·)) = true →
      (((siblings.getEventLabel ⟨t, 0⟩).bind (·.create)).any (withoutFour.contains ·)) = true := by
    decide
  have := h t' ht' t htt' ht
  rw [hb, hb', Option.bind_some, Option.bind_some, hc, hc'] at this
  exact this hv

/-- After a copy that drops thread 4 and a cut that drops thread 3, the next thread has id 3. -/
theorem siblings_aligned :
    Aligned ((siblings.copyGraphUpTo withoutFour).cutToStamp 5) ∧
      CreatesNext ((siblings.copyGraphUpTo withoutFour).cutToStamp 5) :=
  aligned_of_reaches _ (((siblings_reaches _).tail (.copyGraphUpTo withoutFour_hasCreations
    withoutFour_inCreationOrder)).tail (.cutToStamp 5))

/-- The view along which the write revisits the read: everything up to the read, and the causal
past of the write.  The creation of thread 3 is not in it. -/
def siblingsView : View := ⟨fun t => [3, 0, 1, 0, 1].getD t 0⟩

theorem siblingsView_hasCreations : HasCreations siblings siblingsView := by
  have h := (forall_label_iff (g := siblings) (p := fun e bLab => 0 < e.thread → e.index = 0 →
    0 < siblingsView.getMax e.thread → ∀ c ∈ bLab.create, siblingsView.contains c = true)).2
      (by decide)
  exact fun t bLab c ht hb hmax hc => h _ bLab hb ht rfl hmax c hc

/-- The copy leaves the begin of thread 3 behind, and the check fails when thread 1 creates
thread 3 again. -/
theorem siblings_check_fails :
    Reaches (fun _ _ => True) (siblings.copyGraphUpTo siblingsView) ∧
      ¬ Aligned (siblings.copyGraphUpTo siblingsView) ∧
        Added (siblings.copyGraphUpTo siblingsView) (creationAt ⟨1, 1⟩) ∧
          (siblings.copyGraphUpTo siblingsView).handleThreadCreate (creationAt ⟨1, 1⟩) none =
            none := by
  refine ⟨(siblings_reaches _).tail (.copyGraphUpTo siblingsView_hasCreations trivial),
    fun h => ?_, ⟨by decide, by decide, by decide, rfl⟩, ?_⟩
  · obtain ⟨bLab, c, -, hb, hc, -⟩ := h 3 (by decide) (by decide)
    have hnone : ((siblings.copyGraphUpTo siblingsView).getEventLabel ⟨3, 0⟩).bind (·.create) =
        none := by decide
    rw [hb, Option.bind_some, hc] at hnone
    cases hnone
  · rw [← Option.not_isSome_iff_eq_none]
    decide

end ExecutionGraph
end GenMC
