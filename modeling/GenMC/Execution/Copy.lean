import GenMC.Execution.Readers

/-!
# Copying is restriction

`copyGraphUpTo` works in passes: it clones labels thread by thread, cleans up begins, restores the
insertion order, relinks the pointers of every kind of label and rebuilds the maps.  For a
well-formed graph and a view that is closed under causality the passes should fit together, so that
the outcome is the restriction of the graph to the view.

* `WellFormed` is what the passes rely on: labels sit in their slots, their pointers lead to labels
  of the graph, every begin has its creation, and the insertion order lists every label once.
* `View.Closed` is closure under the predecessors in program order, reads-from, creation and join.
  A view stores for each thread the last index it contains, and so contains the begins of all
  threads.  Closure is asked only for the threads that the view really enters.
* `Restriction` is what the outcome should be: a begin stays if the view contains its creation.
* Only the last threads are cleaned up.  `restriction_copyGraphUpTo_iff`: **the copy is the
  restriction exactly if the threads that go are the last ones.**
-/

set_option autoImplicit false

namespace GenMC

/-- All the pointers of a label. -/
def EventLabel.pointers (lab : EventLabel) : List Event :=
  lab.rf.toList ++ lab.readers ++ lab.create.toList ++ lab.parentJoin.toList ++ lab.linPreds ++
    lab.linSuccs

/-- A view that contains the causal predecessors of what it contains.  The begin of a thread counts
only if the view goes on after it: all begins are contained in a view. -/
def View.Closed (v : View) (g : ExecutionGraph) : Prop :=
  ∀ a b, g.CausalEdge a b → v.contains b = true → 0 < v.getMax b.thread → v.contains a = true

/-- Closure has to be checked for the pointers of labels only: program order is built into views. -/
theorem View.closed_of_labels {v : View} {g : ExecutionGraph}
    (h : ∀ e lab, g.getEventLabel e = some lab → v.contains e = true → 0 < v.getMax e.thread →
      (lab.isRead = true → ∀ w ∈ lab.rf, v.contains w = true) ∧
        (lab.isThreadStart = true → ∀ c ∈ lab.create, v.contains c = true) ∧
        (lab.kind = .ThreadJoin → ∀ l ∈ g.getLastThreadLabel lab.childId,
          v.contains l.pos = true)) : v.Closed g := by
  intro a b hab hb hpos
  cases hab with
  | po _ => exact View.contains_of_le hb (Nat.le_succ _)
  | rf hlab hr hw => exact (h _ _ hlab hb hpos).1 hr _ hw
  | create hlab hst hc => exact (h _ _ hlab hb hpos).2.1 hst _ hc
  | join hlab hj hlast => exact (h _ _ hlab hb hpos).2.2 hj _ hlast

namespace ExecutionGraph

variable {g : ExecutionGraph}

/-- A graph in which everything is in its place. -/
structure WellFormed (g : ExecutionGraph) : Prop where
  slots : g.Slots
  stamped : g.Stamped
  init : ∃ lab, g.getEventLabel Event.getInit = some lab ∧ lab.kind = .Init
  begun : ∀ t < g.getNumThreads, (g.getEventLabel ⟨t, 0⟩).isSome
  begins : ∀ t lab, 0 < t → g.getEventLabel ⟨t, 0⟩ = some lab →
    lab.kind = .ThreadStart ∧ lab.create.isSome
  pointers : ∀ e lab p, g.getEventLabel e = some lab → p ∈ lab.pointers →
    (g.getEventLabel p).isSome ∧ (p.index = 0 → p = Event.getInit)
  accesses : ∀ a e, e ∈ g.co a ∨ e ∈ g.initReaders a → 0 < e.index
  readers : ∀ e lab, g.getEventLabel e = some lab → lab.isWrite = false → lab.readers = []
  order : g.insertionOrder.Nodup
  inserted : ∀ e, e ∈ g.insertionOrder ↔ (g.getEventLabel e).isSome
  tracked : ∀ a, g.coherence a = none → g.initReaders a = []

/-- The view does not contain the creation of a thread, so that the begin should go. -/
def orphaned (g : ExecutionGraph) (v : View) (t : ℕ) : Bool :=
  0 < t && !(g.getEventLabel ⟨t, 0⟩).any fun bLab => bLab.create.any (v.contains ·)

/-- Whether an event should stay: it is in the view, and if it is a begin, so is the creation of the
thread. -/
def keeps (g : ExecutionGraph) (v : View) (e : Event) : Bool :=
  v.contains e && !(e.index = 0 && g.orphaned v e.thread)

/-- The threads whose creations are outside the view are the last ones. -/
def DropsLastThreads (g : ExecutionGraph) (v : View) : Prop :=
  ∀ t t', t < t' → t' < g.getNumThreads → g.orphaned v t = true → g.orphaned v t' = true

/-- The insertion order of `g`, restricted to a view. -/
def keptOrder (g : ExecutionGraph) (v : View) : List Event :=
  g.insertionOrder.filter (g.keeps v)

/-- A label of `g`, restricted to a view: it keeps its pointers to events in the view, and its
stamp is its place among the labels that are kept. -/
def keptLabel (g : ExecutionGraph) (v : View) (lab : EventLabel) : EventLabel :=
  { dropPointers v lab with stamp := some ((g.keptOrder v).idxOf lab.pos) }

/-- `g'` is `g` restricted to a view.  The initializer of `g'` is a new one, and begins may lose
their link to a symmetric thread. -/
structure Restriction (g : ExecutionGraph) (v : View) (g' : ExecutionGraph) : Prop where
  events : ∀ e, (g'.getEventLabel e).isSome ↔ g.keeps v e = true ∧ (g.getEventLabel e).isSome
  init : ∃ lab, g'.getEventLabel Event.getInit = some lab ∧ lab.kind = .Init
  label : ∀ e lab, e ≠ Event.getInit → g.keeps v e = true → g.getEventLabel e = some lab →
    ∃ s, (0 < e.index → s = lab.symmSuccTid) ∧
      g'.getEventLabel e = some { g.keptLabel v lab with symmSuccTid := s }
  pos : ∀ e lab', g'.getEventLabel e = some lab' → lab'.pos = e
  rf : ∀ e lab, g.keeps v e = true → g.getEventLabel e = some lab → lab.isRead = true →
    ∃ lab', g'.getEventLabel e = some lab' ∧ lab'.rf = lab.rf
  readers : ∀ w a, g.keeps v w = true → g'.readersOf w a = (g.readersOf w a).filter (g.keeps v)
  co : ∀ a, g'.co a = (g.co a).filter (g.keeps v)
  insertionOrder : g'.insertionOrder = g.insertionOrder.filter (g.keeps v)
  stamp : ∀ e lab', g'.getEventLabel e = some lab' →
    lab'.stamp = some (g'.insertionOrder.idxOf e)
  timestamp : g'.timestamp = g'.insertionOrder.length

/-! ## Removing trailing threads -/

/-- `g'` is `g` without the threads from `k` on, up to links between symmetric threads. -/
structure Trimmed (k : ℕ) (g g' : ExecutionGraph) : Prop where
  numThreads : g'.getNumThreads = k
  label : ∀ e lab', g'.getEventLabel e = some lab' → ∃ lab s, g.getEventLabel e = some lab ∧
    lab' = { lab with symmSuccTid := s }
  kept : ∀ e lab, e.thread < k → g.getEventLabel e = some lab →
    ∃ s, g'.getEventLabel e = some { lab with symmSuccTid := s }
  insertionOrder : g.insertionOrder.Nodup →
    (∀ e ∈ g.insertionOrder, (g.getEventLabel e).isSome) →
      g'.insertionOrder = g.insertionOrder.filter (·.thread < k)

theorem Trimmed.lt {k : ℕ} {g' : ExecutionGraph} (h : Trimmed k g g') {e : Event} {lab : EventLabel}
    (hlab : g'.getEventLabel e = some lab) : e.thread < k := by
  rw [← h.numThreads]
  exact lt_getNumThreads_of_getEventLabel hlab

theorem getNumThreads_eraseBegin {i : ℕ} {bLab : EventLabel} (hi : i < g.getNumThreads) :
    (g.eraseBegin i bLab).getNumThreads = g.getNumThreads - 1 := by
  have hi : i < g.events.length := hi
  rw [eraseBegin, getNumThreads, getNumThreads]
  cases bLab.symmPredTid with
  | none => simp [List.length_eraseIdx, hi]
  | some p => simp [List.length_eraseIdx, hi]

/-- Removing the last thread. -/
theorem Trimmed.eraseBegin {k : ℕ} {g' : ExecutionGraph} (hs : g.Slots) (h : Trimmed (k + 1) g g')
    {bLab : EventLabel} (hb : g'.events.getD k [] = [bLab]) :
    Trimmed k g (g'.eraseBegin k bLab) := by
  obtain ⟨hb0, hb1⟩ := getEventLabel_of_events_eq hb
  have hbpos : bLab.pos = ⟨k, 0⟩ := by
    obtain ⟨lab, s, h1, rfl⟩ := h.label _ _ hb0
    exact hs _ lab h1
  refine ⟨?_, fun e lab' h' => ?_, fun e lab he h' => ?_, fun hio hin => ?_⟩
  · have hlt : k < g'.getNumThreads := by
      rw [h.numThreads]
      exact Nat.lt_succ_self k
    rw [getNumThreads_eraseBegin hlt, h.numThreads, Nat.add_sub_cancel]
  · obtain ⟨f, hf, -, heq⟩ := getEventLabel_eraseBegin (g := g') k bLab e
    rw [heq] at h'
    obtain ⟨lab, h1, rfl⟩ := Option.map_eq_some_iff.1 h'
    split at h1
    · obtain ⟨lab₀, s, h2, rfl⟩ := h.label _ _ h1
      obtain ⟨s', hs'⟩ := hf { lab₀ with symmSuccTid := s }
      exact ⟨lab₀, s', h2, hs'⟩
    · rename_i hlt
      have := h.lt h1
      simp only at this
      omega
  · obtain ⟨s, h1⟩ := h.kept e lab (by omega) h'
    obtain ⟨f, hf, -, heq⟩ := getEventLabel_eraseBegin (g := g') k bLab e
    obtain ⟨s', hs'⟩ := hf { lab with symmSuccTid := s }
    refine ⟨s', ?_⟩
    rw [heq, if_pos he, h1, Option.map_some, hs']
  · rw [insertionOrder_eraseBegin, h.insertionOrder hio hin, (hio.filter _).erase_eq_filter,
      List.filter_filter]
    refine List.filter_congr fun e he => ?_
    rw [hbpos]
    -- of the thread that goes, there is only the begin
    by_cases hk : e.thread = k
    · have hi : e.index = 0 := by
        by_contra hi
        obtain ⟨lab, h1⟩ := Option.isSome_iff_exists.1 (hin e he)
        obtain ⟨s, h2⟩ := h.kept e lab (by omega) h1
        obtain ⟨t, i⟩ := e
        simp only at hk hi
        rw [hk, hb1 i (Nat.pos_of_ne_zero hi)] at h2
        cases h2
      have : e = ⟨k, 0⟩ := Event.ext_iff'.2 ⟨hk, hi⟩
      simp [this]
    · have : e ≠ ⟨k, 0⟩ := fun h' => hk (by rw [h'])
      rw [Bool.eq_iff_iff]
      simp only [Bool.and_eq_true, bne_iff_ne, ne_eq, this, not_false_eq_true, true_and,
        decide_eq_true_eq]
      omega

theorem trimmed_self : Trimmed g.getNumThreads g g := by
  refine ⟨rfl, fun e lab h => ⟨lab, lab.symmSuccTid, h, rfl⟩,
    fun e lab _ h => ⟨lab.symmSuccTid, h⟩,
    fun _ hin => (List.filter_eq_self.2 fun e he => ?_).symm⟩
  obtain ⟨lab, hlab⟩ := Option.isSome_iff_exists.1 (hin e he)
  simpa using lt_getNumThreads_of_getEventLabel hlab

/-- Without orphans there is nothing to clean up. -/
theorem cleanupBegins_eq_self {orphan : ExecutionGraph → EventLabel → Bool}
    (h : ∀ t bLab, g.events.getD t [] = [bLab] → bLab.kind ≠ .Init → orphan g bLab = false)
    (i : ℕ) : g.cleanupBegins orphan i = g := by
  induction i with
  | zero => rfl
  | succ i ih =>
    rw [cleanupBegins]
    split
    · rename_i bLab hb
      split
      · rfl
      · rename_i hk
        rw [h i bLab hb hk]
        exact ih
    · rfl

/-- **Cleaning up removes the threads from `k` on**, if these are begins of orphans and there are no
orphans below. -/
theorem trimmed_cleanupBegins {orphan : ExecutionGraph → EventLabel → Bool} {k : ℕ} (hs : g.Slots)
    (hk : k ≤ g.getNumThreads)
    (habove : ∀ t, k ≤ t → t < g.getNumThreads → ∃ bLab, g.events.getD t [] = [bLab] ∧
      bLab.kind ≠ .Init ∧ ∀ k' g' s, k ≤ k' → Trimmed k' g g' →
        orphan g' { bLab with symmSuccTid := s } = true)
    (hbelow : ∀ t bLab, t < k → g.getEventLabel ⟨t, 0⟩ = some bLab → bLab.kind ≠ .Init →
      ∀ k' g' s, k ≤ k' → Trimmed k' g g' → orphan g' { bLab with symmSuccTid := s } = false) :
    Trimmed k g (g.cleanupBegins orphan g.getNumThreads) := by
  have hstep : ∀ i, k ≤ i → ∀ g', i ≤ g.getNumThreads → Trimmed i g g' →
      Trimmed k g (g'.cleanupBegins orphan i) := by
    intro i hi
    induction i, hi using Nat.le_induction with
    | base =>
      intro g' _ h'
      rw [cleanupBegins_eq_self]
      · exact h'
      · intro t bLab hb hkind
        obtain ⟨hb0, -⟩ := getEventLabel_of_events_eq hb
        obtain ⟨lab, s, h1, rfl⟩ := h'.label _ _ hb0
        exact hbelow t lab (h'.lt hb0) h1 hkind k g' s le_rfl h'
    | succ i hi ih =>
      intro g' hin' h'
      obtain ⟨bLab, hb, hkind, horphan⟩ := habove i hi (by omega)
      obtain ⟨hb0, hb1⟩ := getEventLabel_of_events_eq hb
      obtain ⟨s, h0⟩ := h'.kept _ bLab (Nat.lt_succ_self i) hb0
      have h1 : g'.getEventLabel ⟨i, 1⟩ = none := by
        by_contra hne
        obtain ⟨lab, hlab⟩ := Option.ne_none_iff_exists'.1 hne
        obtain ⟨lab₀, -, h2, -⟩ := h'.label _ _ hlab
        rw [hb1 1 one_pos] at h2
        cases h2
      have hb' := events_eq_singleton h0 h1
      rw [cleanupBegins, hb']
      simp only
      rw [if_neg hkind, if_pos (horphan (i + 1) g' s (by omega) h')]
      exact ih _ (by omega) (h'.eraseBegin hs hb')
  exact hstep _ hk g le_rfl trimmed_self

/-! ## The labels of a copy -/

section Copied

variable (hs : g.Slots) (hst : g.Stamped) (hinit : (g.getEventLabel Event.getInit).isSome)
  {v : View}
include hs hst hinit

/-- A label of the first pass of a copy is the new initializer or a clone. -/
theorem cloneLabels_cases {e : Event} {lab₁ : EventLabel}
    (h₁ : (g.cloneLabels v).getEventLabel e = some lab₁) :
    v.contains e = true ∧ lab₁.pos = e ∧ ∃ lab, g.getEventLabel e = some lab ∧
      ((e = Event.getInit ∧ lab₁ = freshInit) ∨ (e ≠ Event.getInit ∧ lab₁ = lab.clone)) := by
  rw [getEventLabel_cloneLabels hs hst] at h₁
  split at h₁
  · rename_i he
    obtain ⟨lab, hlab⟩ := Option.isSome_iff_exists.1 hinit
    cases h₁
    exact ⟨by rw [he]; exact v.contains_of_index_eq_zero rfl, he.symm, lab, by rw [he]; exact hlab,
      Or.inl ⟨he, rfl⟩⟩
  · rename_i he
    split at h₁
    · rename_i hc
      obtain ⟨lab, hlab, rfl⟩ := Option.map_eq_some_iff.1 h₁
      exact ⟨hc, hs e lab hlab, lab, hlab, Or.inr ⟨he, rfl⟩⟩
    · cases h₁

omit hinit in
theorem isSome_cloneLabels {e : Event} (hc : v.contains e = true)
    (he : (g.getEventLabel e).isSome) : ((g.cloneLabels v).getEventLabel e).isSome := by
  rw [getEventLabel_cloneLabels hs hst]
  by_cases hi : e = Event.getInit
  · rw [if_pos hi]
    rfl
  · rw [if_neg hi, if_pos hc, Option.isSome_map]
    exact he

theorem getNumThreads_cloneLabels : (g.cloneLabels v).getNumThreads = g.getNumThreads := by
  rw [(cloned_cloneLabels hs hst v).numThreads]
  obtain ⟨lab, hlab⟩ := Option.isSome_iff_exists.1 hinit
  exact max_eq_right (lt_getNumThreads_of_getEventLabel hlab)

/-- **The clean-up of a copy removes the threads from `k` on**, if these are the ones whose
creations are outside the view, and the view has only their begins. -/
theorem trimmed_cleanedCopy {k : ℕ} (hkn : k ≤ g.getNumThreads)
    (habove : ∀ t, k ≤ t → t < g.getNumThreads → v.getMax t = 0 ∧ ∃ bLab, 0 < t ∧
      g.getEventLabel ⟨t, 0⟩ = some bLab ∧ bLab.kind ≠ .Init ∧
        ∀ c, bLab.create = some c → v.contains c = false)
    (hbelow : ∀ t bLab, 0 < t → t < k → g.getEventLabel ⟨t, 0⟩ = some bLab →
      ∃ c, bLab.create = some c ∧ c.thread < k ∧ v.contains c = true ∧
        (g.getEventLabel c).isSome) : Trimmed k (g.cloneLabels v) (g.cleanedCopy v) := by
  have hnum : (g.cloneLabels v).getNumThreads = g.getNumThreads :=
    getNumThreads_cloneLabels hs hst hinit
  refine trimmed_cleanupBegins (fun e lab₁ h₁ => (cloneLabels_cases hs hst hinit h₁).2.1)
    (hnum ▸ hkn) (fun t ht htn => ?_) fun t bLab₁ ht hb₁ hkind => ?_
  · rw [hnum] at htn
    obtain ⟨hmax, bLab, ht0, hb, hkind, hcreate⟩ := habove t ht htn
    have hne : (⟨t, 0⟩ : Event) ≠ Event.getInit := fun he => ht0.ne' (congrArg Event.thread he)
    have h0 : (g.cloneLabels v).getEventLabel ⟨t, 0⟩ = some bLab.clone := by
      rw [getEventLabel_cloneLabels hs hst, if_neg hne,
        if_pos (v.contains_of_index_eq_zero rfl), hb]
      rfl
    have h1 : (g.cloneLabels v).getEventLabel ⟨t, 1⟩ = none := by
      by_contra hsome
      obtain ⟨lab₁, hlab₁⟩ := Option.ne_none_iff_exists'.1 hsome
      have hc1 := (cloneLabels_cases hs hst hinit hlab₁).1
      rw [View.contains_iff, hmax] at hc1
      exact Nat.not_succ_le_zero 0 hc1
    refine ⟨bLab.clone, events_eq_singleton h0 h1, hkind, fun k' g' s hk' htrim => ?_⟩
    -- the creation is not in the copy
    show (!(bLab.create.any fun c => g'.containsPos c)) = true
    cases hcr : bLab.create with
    | none => rfl
    | some c =>
      have hpos : g'.containsPos c = false := by
        rw [containsPos_eq_isSome, Option.isSome_eq_false_iff, Option.isNone_iff_eq_none]
        by_contra hsome
        obtain ⟨lab', hlab'⟩ := Option.ne_none_iff_exists'.1 hsome
        obtain ⟨lab₁, -, hlab₁, -⟩ := htrim.label _ _ hlab'
        exact absurd ((cloneLabels_cases hs hst hinit hlab₁).1.symm.trans (hcreate c hcr))
          (by decide)
      rw [Option.any_some, hpos]
      rfl
  · obtain ⟨-, -, bLab, hb, ⟨-, rfl⟩ | ⟨hne, rfl⟩⟩ := cloneLabels_cases hs hst hinit hb₁
    · exact absurd rfl hkind
    · intro k' g' s hk' htrim
      have ht0 : 0 < t := Nat.pos_of_ne_zero fun ht0 => hne (by rw [ht0]; rfl)
      obtain ⟨c, hcr, hlt, hc, hsome⟩ := hbelow t bLab ht0 ht hb
      obtain ⟨lab₁, hlab₁⟩ := Option.isSome_iff_exists.1 (isSome_cloneLabels hs hst hc hsome)
      obtain ⟨s', hs'⟩ := htrim.kept _ lab₁ (by omega) hlab₁
      show (!(bLab.create.any fun c => g'.containsPos c)) = false
      rw [hcr, Option.any_some, containsPos_eq_isSome, hs']
      rfl

section Trimmed

variable {k : ℕ} (htrim : Trimmed k (g.cloneLabels v) (g.cleanedCopy v))
include htrim

theorem isSome_cleanedCopy {e : Event} : ((g.cleanedCopy v).getEventLabel e).isSome ↔
    e.thread < k ∧ v.contains e = true ∧ (g.getEventLabel e).isSome := by
  refine ⟨fun hsome => ?_, ?_⟩
  · obtain ⟨lab', hlab'⟩ := Option.isSome_iff_exists.1 hsome
    obtain ⟨lab₁, -, hlab₁, -⟩ := htrim.label _ _ hlab'
    obtain ⟨h1, -, lab, h2, -⟩ := cloneLabels_cases hs hst hinit hlab₁
    exact ⟨htrim.lt hlab', h1, by rw [h2]; rfl⟩
  · rintro ⟨h1, h2, h3⟩
    obtain ⟨lab₁, hlab₁⟩ := Option.isSome_iff_exists.1 (isSome_cloneLabels hs hst h2 h3)
    obtain ⟨s, hs⟩ := htrim.kept e lab₁ h1 hlab₁
    rw [hs]
    rfl

theorem slots_cleanedCopy {e : Event} {lab : EventLabel}
    (hlab : (g.cleanedCopy v).getEventLabel e = some lab) : lab.pos = e := by
  obtain ⟨lab₁, s, hlab₁, rfl⟩ := htrim.label _ _ hlab
  exact (cloneLabels_cases hs hst hinit hlab₁).2.1

/-- The insertion order of the copy. -/
theorem copiedOrder_eq (hin : ∀ e ∈ g.insertionOrder, (g.getEventLabel e).isSome) :
    g.copiedOrder (g.cleanedCopy v) =
      g.insertionOrder.filter fun e => e.thread < k && v.contains e := by
  rw [copiedOrder, ← List.filterMap_eq_filter]
  refine List.filterMap_congr fun e he => ?_
  have hiff := isSome_cleanedCopy hs hst hinit htrim (e := e)
  rw [Option.guard]
  split
  · rename_i hkeep
    simp only [Bool.and_eq_true, decide_eq_true_eq] at hkeep
    obtain ⟨lab, hlab⟩ := Option.isSome_iff_exists.1 (hiff.2 ⟨hkeep.1, hkeep.2, hin e he⟩)
    rw [hlab, Option.map_some, slots_cleanedCopy hs hst hinit htrim hlab]
  · rename_i hkeep
    simp only [Bool.and_eq_true, decide_eq_true_eq] at hkeep
    rw [Option.map_eq_none_iff, ← Option.not_isSome_iff_eq_none, hiff]
    exact fun h' => hkeep ⟨h'.1, h'.2.1⟩

end Trimmed
end Copied

/-! ## The threads that go are the last ones -/

theorem WellFormed.isSome_init (h : g.WellFormed) : (g.getEventLabel Event.getInit).isSome := by
  obtain ⟨lab, hlab, -⟩ := h.init
  rw [hlab]
  rfl

theorem WellFormed.nodup_keptOrder (h : g.WellFormed) (v : View) : (g.keptOrder v).Nodup :=
  h.order.filter _

theorem WellFormed.mem_keptOrder (h : g.WellFormed) {v : View} {e : Event} :
    e ∈ g.keptOrder v ↔ g.keeps v e = true ∧ (g.getEventLabel e).isSome := by
  rw [keptOrder, List.mem_filter, h.inserted, and_comm]

theorem keeps_begin {v : View} {t : ℕ} : g.keeps v ⟨t, 0⟩ = !g.orphaned v t := by
  rw [keeps, v.contains_of_index_eq_zero rfl]
  rfl

theorem keeps_of_index_pos {v : View} {e : Event} (he : 0 < e.index) :
    g.keeps v e = v.contains e := by
  simp [keeps, he.ne']

/-- Pointers do not lead to begins. -/
theorem keeps_of_pointer {v : View} {e : Event} (he : e.index = 0 → e = Event.getInit) :
    g.keeps v e = v.contains e := by
  rcases Nat.eq_zero_or_pos e.index with hi | hi
  · rw [he hi, v.contains_of_index_eq_zero rfl]
    exact keeps_begin
  · exact keeps_of_index_pos hi

/-- A closed view has the creations of the threads it enters. -/
theorem WellFormed.not_orphaned (h : g.WellFormed) {v : View} (hv : v.Closed g) {t : ℕ}
    (ht : t < g.getNumThreads) (hmax : 0 < v.getMax t) : g.orphaned v t = false := by
  rcases Nat.eq_zero_or_pos t with rfl | ht0
  · rfl
  · obtain ⟨lab, hlab⟩ := Option.isSome_iff_exists.1 (h.begun t ht)
    obtain ⟨hkind, hcreate⟩ := h.begins t lab ht0 hlab
    obtain ⟨c, hc⟩ := Option.isSome_iff_exists.1 hcreate
    have hstart : lab.isThreadStart = true := by
      rw [EventLabel.isThreadStart, hkind]
      rfl
    have hvc := hv c ⟨t, 0⟩ (.create hlab hstart hc) (v.contains_of_index_eq_zero rfl) hmax
    simp [orphaned, hlab, hc, hvc]

/-- How many threads stay. -/
theorem DropsLastThreads.exists_threshold {v : View} (h : DropsLastThreads g v) :
    ∃ k ≤ g.getNumThreads, ∀ t < g.getNumThreads, g.orphaned v t = true ↔ k ≤ t := by
  by_cases hex : ∃ t, t < g.getNumThreads ∧ g.orphaned v t = true
  · obtain ⟨hlt, horphan⟩ := Nat.find_spec hex
    refine ⟨Nat.find hex, hlt.le, fun t ht => ⟨fun ho => Nat.find_min' hex ⟨ht, ho⟩, fun hle => ?_⟩⟩
    rcases hle.eq_or_lt with heq | hlt'
    · exact heq ▸ horphan
    · exact h _ t hlt' ht horphan
  · exact ⟨_, le_rfl, fun t ht => iff_of_false (fun ho => hex ⟨t, ht, ho⟩) (not_le.2 ht)⟩

section Copy

variable (h : g.WellFormed) {v : View}
include h

/-- A pointer into the view leads to the same position of the copy. -/
theorem WellFormed.relink_eq {p : Event}
    (hp : (g.getEventLabel p).isSome ∧ (p.index = 0 → p = Event.getInit)) :
    relink (g.orderedCopy v) v p = if v.contains p then some p else none := by
  rcases Nat.eq_zero_or_pos p.index with hi | hi
  · rw [hp.2 hi, relink_orderedCopy_init h.slots h.stamped, v.contains_of_index_eq_zero rfl]
    rfl
  · rw [relink_orderedCopy h.slots h.stamped v hi, hp.1, Bool.and_true]

theorem WellFormed.bind_relink {o : Option Event}
    (ho : ∀ p, o = some p → (g.getEventLabel p).isSome ∧ (p.index = 0 → p = Event.getInit)) :
    o.bind (relink (g.orderedCopy v) v) = o.filter (v.contains ·) := by
  cases o with
  | none => rfl
  | some p => exact h.relink_eq (ho p rfl)

theorem WellFormed.filterMap_relink {l : List Event}
    (hl : ∀ p ∈ l, (g.getEventLabel p).isSome ∧ (p.index = 0 → p = Event.getInit)) :
    l.filterMap (relink (g.orderedCopy v) v) = l.filter (v.contains ·) := by
  rw [← List.filterMap_eq_filter]
  exact List.filterMap_congr fun p hp => h.relink_eq (hl p hp)

/-- Leading the pointers of a clone into the copy is dropping those that leave the view. -/
theorem WellFormed.fixPointers_eq {e : Event} {lab : EventLabel}
    (hlab : g.getEventLabel e = some lab) (he : e ∈ g.keptOrder v) (s : Option ℕ) :
    fixPointers g (g.orderedCopy v) v
        (restampLabel (g.keptOrder v) 0 { lab.clone with symmSuccTid := s }) =
      { g.keptLabel v lab with symmSuccTid := s } := by
  have hpos : lab.pos = e := h.slots e lab hlab
  have hptr := fun p hp => h.pointers e lab p hlab hp
  have hrf : lab.rf.bind (relink (g.orderedCopy v) v) = lab.rf.filter (v.contains ·) :=
    h.bind_relink fun p hp => hptr p (by simp [EventLabel.pointers, hp])
  have hcreate : lab.create.bind (relink (g.orderedCopy v) v) = lab.create.filter (v.contains ·) :=
    h.bind_relink fun p hp => hptr p (by simp [EventLabel.pointers, hp])
  have hjoin : lab.parentJoin.bind (relink (g.orderedCopy v) v) =
      lab.parentJoin.filter (v.contains ·) :=
    h.bind_relink fun p hp => hptr p (by simp [EventLabel.pointers, hp])
  have hreaders : lab.readers.filterMap (relink (g.orderedCopy v) v) =
      lab.readers.filter (v.contains ·) :=
    h.filterMap_relink fun p hp => hptr p (by simp [EventLabel.pointers, hp])
  have hpreds : lab.linPreds.filterMap (relink (g.orderedCopy v) v) =
      lab.linPreds.filter (v.contains ·) :=
    h.filterMap_relink fun p hp => hptr p (by simp [EventLabel.pointers, hp])
  have hsuccs : lab.linSuccs.filterMap (relink (g.orderedCopy v) v) =
      lab.linSuccs.filter (v.contains ·) :=
    h.filterMap_relink fun p hp => hptr p (by simp [EventLabel.pointers, hp])
  have hstamp : restamp (g.keptOrder v) 0 lab.pos lab.stamp =
      some ((g.keptOrder v).idxOf lab.pos) := by
    rw [restamp_of_mem (h.nodup_keptOrder v) (hpos ▸ he), Nat.zero_add]
  have hnil : (if lab.isWrite then lab.readers.filter (v.contains ·) else []) =
      if lab.isWrite then lab.readers.filter (v.contains ·) else lab.readers := by
    split
    · rfl
    · rename_i hw
      exact (h.readers e lab hlab (by simpa using hw)).symm
  have horig : g.getEventLabel
      (restampLabel (g.keptOrder v) 0 { lab.clone with symmSuccTid := s }).pos = some lab := by
    rw [← hlab, ← hpos]
    rfl
  rw [fixPointers, keptLabel, dropPointers, horig]
  simp only [restampLabel, EventLabel.clone, Option.map_some, Option.getD_some]
  rw [hrf, hcreate, hjoin, hreaders, hpreds, hsuccs, hstamp, ← hnil]
  rfl

section Threshold

variable (hv : v.Closed g) {k : ℕ} (hkn : k ≤ g.getNumThreads)
  (hthr : ∀ t < g.getNumThreads, g.orphaned v t = true ↔ k ≤ t)
include hv hthr

/-- What stays of the graph: what the view has of the threads that stay. -/
theorem WellFormed.keeps_iff {e : Event} (he : (g.getEventLabel e).isSome) :
    g.keeps v e = true ↔ e.thread < k ∧ v.contains e = true := by
  obtain ⟨lab, hlab⟩ := Option.isSome_iff_exists.1 he
  have hlt := lt_getNumThreads_of_getEventLabel hlab
  obtain ⟨t, i⟩ := e
  rcases Nat.eq_zero_or_pos i with rfl | hi
  · rw [keeps_begin, v.contains_of_index_eq_zero rfl, Bool.not_eq_true', ← Bool.not_eq_true,
      hthr t hlt, not_le]
    exact (and_iff_left rfl).symm
  · rw [keeps_of_index_pos hi]
    refine ⟨fun hc => ⟨?_, hc⟩, And.right⟩
    rw [View.contains_iff] at hc
    rw [← not_le, ← hthr t hlt, h.not_orphaned hv hlt (lt_of_lt_of_le hi hc)]
    exact Bool.false_ne_true

include hkn

theorem WellFormed.trimmed_cleanedCopy : Trimmed k (g.cloneLabels v) (g.cleanedCopy v) := by
  refine ExecutionGraph.trimmed_cleanedCopy h.slots h.stamped h.isSome_init hkn
    (fun t ht htn => ?_) fun t bLab ht0 ht hb => ?_
  · have horphan := (hthr t htn).2 ht
    obtain ⟨lab, hlab⟩ := Option.isSome_iff_exists.1 (h.begun t htn)
    rw [orphaned, hlab] at horphan
    simp only [Bool.and_eq_true, decide_eq_true_eq, Option.any_some, Bool.not_eq_true'] at horphan
    refine ⟨Nat.eq_zero_of_not_pos fun hmax => ?_, lab, horphan.1, hlab, fun hk => ?_,
      fun c hc => ?_⟩
    · exact absurd ((hthr t htn).2 ht) (by rw [h.not_orphaned hv htn hmax]; decide)
    · exact absurd ((h.begins t lab horphan.1 hlab).1.symm.trans hk) (by decide)
    · rw [← horphan.2, hc, Option.any_some]
  · have htn := lt_getNumThreads_of_getEventLabel hb
    obtain ⟨c, hc⟩ := Option.isSome_iff_exists.1 (h.begins t bLab ht0 hb).2
    have horphan : ¬ g.orphaned v t = true := fun ho => absurd ((hthr t htn).1 ho) (not_le.2 ht)
    have hvc : v.contains c = true := by simpa [orphaned, ht0, hb, hc] using horphan
    have hptr := h.pointers _ bLab c hb (by simp [EventLabel.pointers, hc])
    refine ⟨c, hc, ((h.keeps_iff hv hthr hptr.1).1 ?_).1, hvc, hptr.1⟩
    rw [keeps_of_pointer hptr.2, hvc]

theorem WellFormed.isSome_cleanedCopy {e : Event} : ((g.cleanedCopy v).getEventLabel e).isSome ↔
    g.keeps v e = true ∧ (g.getEventLabel e).isSome := by
  rw [ExecutionGraph.isSome_cleanedCopy h.slots h.stamped h.isSome_init
    (h.trimmed_cleanedCopy hv hkn hthr), ← and_assoc]
  exact and_congr_left fun he => (h.keeps_iff hv hthr he).symm

/-- The insertion order of the copy. -/
theorem WellFormed.copiedOrder_eq : g.copiedOrder (g.cleanedCopy v) = g.keptOrder v := by
  rw [ExecutionGraph.copiedOrder_eq h.slots h.stamped h.isSome_init
    (h.trimmed_cleanedCopy hv hkn hthr) fun e he => (h.inserted e).1 he, keptOrder]
  refine List.filter_congr fun e he => ?_
  rw [Bool.eq_iff_iff, h.keeps_iff hv hthr ((h.inserted e).1 he)]
  simp

theorem WellFormed.insertionOrder_copyGraphUpTo :
    (g.copyGraphUpTo v).insertionOrder = g.keptOrder v := by
  rw [copyGraphUpTo_eq, ← h.copiedOrder_eq hv hkn hthr]
  show (g.orderedCopy v).insertionOrder = _
  rw [orderedCopy, fixInsertionOrder_eq]

/-- The last two passes restamp labels and lead their pointers into the copy. -/
theorem WellFormed.getEventLabel_copyGraphUpTo (e : Event) :
    (g.copyGraphUpTo v).getEventLabel e = ((g.cleanedCopy v).getEventLabel e).map fun lab =>
      if lab.pos ∈ g.keptOrder v then
        fixPointers g (g.orderedCopy v) v (restampLabel (g.keptOrder v) 0 lab)
      else restampLabel (g.keptOrder v) 0 lab := by
  rw [← h.insertionOrder_copyGraphUpTo hv hkn hthr]
  show ((g.orderedCopy v).mapLabels fun lab =>
    if lab.pos ∈ (g.copyGraphUpTo v).insertionOrder then fixPointers g (g.orderedCopy v) v lab
    else lab).getEventLabel e = _
  rw [getEventLabel_mapLabels, getEventLabel_orderedCopy, h.copiedOrder_eq hv hkn hthr,
    Option.map_map, h.insertionOrder_copyGraphUpTo hv hkn hthr]
  rfl

/-- **The labels of the copy are the labels of the view.** -/
theorem WellFormed.label_copyGraphUpTo {e : Event} {lab : EventLabel} (he : e ≠ Event.getInit)
    (hkeep : g.keeps v e = true) (hlab : g.getEventLabel e = some lab) :
    ∃ s, (0 < e.index → s = lab.symmSuccTid) ∧
      (g.copyGraphUpTo v).getEventLabel e = some { g.keptLabel v lab with symmSuccTid := s } := by
  have hsome : (g.getEventLabel e).isSome := by rw [hlab]; rfl
  obtain ⟨hthread, hc⟩ := (h.keeps_iff hv hthr hsome).1 hkeep
  have hclone : (g.cloneLabels v).getEventLabel e = some lab.clone := by
    rw [getEventLabel_cloneLabels h.slots h.stamped, if_neg he, if_pos hc, hlab]
    rfl
  obtain ⟨s, hs⟩ := (h.trimmed_cleanedCopy hv hkn hthr).kept e _ hthread hclone
  have hmem : lab.pos ∈ g.keptOrder v := by
    rw [h.slots e lab hlab, h.mem_keptOrder]
    exact ⟨hkeep, hsome⟩
  refine ⟨s, fun hi => ?_, ?_⟩
  · rw [getEventLabel_cleanedCopy h.slots h.stamped v hi, if_pos hc, hlab] at hs
    exact congrArg EventLabel.symmSuccTid (Option.some.inj hs).symm
  · rw [h.getEventLabel_copyGraphUpTo hv hkn hthr, hs, Option.map_some]
    show some (if lab.pos ∈ g.keptOrder v then _ else _) = _
    rw [if_pos hmem, h.fixPointers_eq hlab (h.slots e lab hlab ▸ hmem)]

/-- The copy has an initializer of its own. -/
theorem WellFormed.init_copyGraphUpTo :
    ∃ lab, (g.copyGraphUpTo v).getEventLabel Event.getInit = some lab ∧ lab.kind = .Init ∧
      lab.pos = Event.getInit ∧ lab.stamp = some ((g.keptOrder v).idxOf Event.getInit) := by
  have hmem : Event.getInit ∈ g.keptOrder v := h.mem_keptOrder.2 ⟨keeps_begin, h.isSome_init⟩
  have hclone : (g.cloneLabels v).getEventLabel Event.getInit = some freshInit := by
    rw [getEventLabel_cloneLabels h.slots h.stamped, if_pos rfl]
  obtain ⟨s, hs⟩ := (h.trimmed_cleanedCopy hv hkn hthr).kept Event.getInit _
    ((h.keeps_iff hv hthr h.isSome_init).1 keeps_begin).1 hclone
  refine ⟨_,
    by rw [h.getEventLabel_copyGraphUpTo hv hkn hthr, hs]; exact congrArg some (if_pos hmem),
    rfl, rfl, ?_⟩
  show restamp (g.keptOrder v) 0 Event.getInit _ = _
  rw [restamp_of_mem (h.nodup_keptOrder v) hmem, Nat.zero_add]

theorem WellFormed.isSome_copyGraphUpTo {e : Event} :
    ((g.copyGraphUpTo v).getEventLabel e).isSome ↔
      g.keeps v e = true ∧ (g.getEventLabel e).isSome := by
  rw [h.getEventLabel_copyGraphUpTo hv hkn hthr, Option.isSome_map,
    h.isSome_cleanedCopy hv hkn hthr]

/-- **The copy is the restriction**, if the threads that go are the last ones. -/
theorem WellFormed.restriction : Restriction g v (g.copyGraphUpTo v) := by
  obtain ⟨initLab, hinit, hkind, hpos, hstamp⟩ := h.init_copyGraphUpTo hv hkn hthr
  obtain ⟨lab₀, hlab₀, hkind₀⟩ := h.init
  have horder := h.insertionOrder_copyGraphUpTo hv hkn hthr
  -- a label of the copy is the new initializer, or comes from a label of the view
  have hsome : ∀ {e lab'}, (g.copyGraphUpTo v).getEventLabel e = some lab' →
      (e = Event.getInit ∧ lab' = initLab) ∨ ∃ lab s, g.getEventLabel e = some lab ∧
        lab' = { g.keptLabel v lab with symmSuccTid := s } := by
    intro e lab' h'
    by_cases he : e = Event.getInit
    · rw [he, hinit] at h'
      exact .inl ⟨he, (Option.some.inj h').symm⟩
    · obtain ⟨hkeep, hsome⟩ := (h.isSome_copyGraphUpTo hv hkn hthr).1 (by rw [h']; rfl)
      obtain ⟨lab, hlab⟩ := Option.isSome_iff_exists.1 hsome
      obtain ⟨s, -, hs⟩ := h.label_copyGraphUpTo hv hkn hthr he hkeep hlab
      exact .inr ⟨lab, s, hlab, Option.some.inj (h'.symm.trans hs)⟩
  have haccess : ∀ {l : List Event}, (∀ e ∈ l, 0 < e.index) →
      l.filter (v.contains ·) = l.filter (g.keeps v) := fun hl =>
    List.filter_congr fun e he => (keeps_of_index_pos (hl e he)).symm
  refine ⟨fun e => h.isSome_copyGraphUpTo hv hkn hthr, ⟨initLab, hinit, hkind⟩,
    fun e lab he hkeep hlab => h.label_copyGraphUpTo hv hkn hthr he hkeep hlab, fun e lab' h' => ?_,
    fun e lab hkeep hlab hr => ?_, fun w a hw => ?_, fun a => ?_, horder, fun e lab' h' => ?_, ?_⟩
  · rcases hsome h' with ⟨rfl, rfl⟩ | ⟨lab, s, h1, rfl⟩
    · exact hpos
    · exact h.slots e lab h1
  · have he : e ≠ Event.getInit := by
      rintro rfl
      rw [hlab₀] at hlab
      cases hlab
      rw [EventLabel.isRead, hkind₀] at hr
      cases hr
    obtain ⟨s, -, hs⟩ := h.label_copyGraphUpTo hv hkn hthr he hkeep hlab
    refine ⟨_, hs, ?_⟩
    show (if lab.isRead then lab.rf.filter (v.contains ·) else lab.rf) = lab.rf
    rw [if_pos hr]
    cases hrf : lab.rf with
    | none => rfl
    | some w =>
      rw [Option.filter_some, if_pos]
      have hc := ((h.keeps_iff hv hthr (by rw [hlab]; rfl)).1 hkeep).2
      refine hv w e (.rf hlab hr hrf) hc ?_
      -- reads are no begins, so that the view enters their threads
      refine lt_of_lt_of_le (Nat.pos_of_ne_zero fun hi => ?_) ((View.contains_iff ..).1 hc)
      obtain ⟨t, i⟩ := e
      obtain rfl : i = 0 := hi
      have ht : 0 < t := Nat.pos_of_ne_zero fun ht => he (by rw [ht]; rfl)
      rw [EventLabel.isRead, (h.begins t lab ht hlab).1] at hr
      exact absurd hr (by decide)
  · rw [readersOf, readersOf]
    split
    · rw [initReaders_copyGraphUpTo h.slots h.stamped, haccess fun e he => h.accesses a e (.inr he)]
      split
      · rfl
      · rename_i hco
        rw [h.tracked a (by simpa using hco)]
        rfl
    · rename_i hwi
      cases hlab : g.getEventLabel w with
      | none =>
        have : (g.copyGraphUpTo v).getEventLabel w = none := by
          rw [← Option.not_isSome_iff_eq_none, h.isSome_copyGraphUpTo hv hkn hthr, hlab]
          exact fun h => absurd h.2 (by decide)
        rw [this]
        rfl
      | some lab =>
        obtain ⟨s, -, hs⟩ := h.label_copyGraphUpTo hv hkn hthr hwi hw hlab
        rw [hs]
        show (if lab.isWrite then lab.readers.filter (v.contains ·) else lab.readers) =
          lab.readers.filter (g.keeps v)
        have hreaders : lab.readers.filter (v.contains ·) = lab.readers.filter (g.keeps v) :=
          List.filter_congr fun p hp => (keeps_of_pointer
            (h.pointers w lab p hlab (by simp [EventLabel.pointers, hp])).2).symm
        split
        · exact hreaders
        · rename_i hnw
          simp [h.readers w lab hlab (by simpa using hnw)]
  · rw [co_copyGraphUpTo h.slots h.stamped, haccess fun e he => h.accesses a e (.inl he)]
    split
    · rfl
    · rename_i hco
      rw [co, Option.not_isSome_iff_eq_none.1 hco]
      rfl
  · rw [horder]
    rcases hsome h' with ⟨rfl, rfl⟩ | ⟨lab, s, h1, rfl⟩
    · exact hstamp
    · rw [← h.slots e lab h1]
      rfl
  · rw [horder, ← h.copiedOrder_eq hv hkn hthr, copyGraphUpTo_eq]
    show (g.orderedCopy v).timestamp = _
    rw [orderedCopy, fixInsertionOrder_eq]

end Threshold
end Copy

/-! ## Other threads that go -/

theorem isSome_getEventLabel_copyGraphUpTo (v : View) (e : Event) :
    ((g.copyGraphUpTo v).getEventLabel e).isSome = ((g.cleanedCopy v).getEventLabel e).isSome := by
  rw [copyGraphUpTo_eq]
  show (((g.orderedCopy v).mapLabels _).getEventLabel e).isSome = _
  rw [getEventLabel_mapLabels, Option.isSome_map, getEventLabel_orderedCopy, Option.isSome_map]

/-- Cleaning up does not leave a slot empty. -/
theorem begun_cleanupBegins (orphan : ExecutionGraph → EventLabel → Bool) (i : ℕ)
    (h : ∀ t < g.getNumThreads, (g.getEventLabel ⟨t, 0⟩).isSome) :
    ∀ t < (g.cleanupBegins orphan i).getNumThreads,
      ((g.cleanupBegins orphan i).getEventLabel ⟨t, 0⟩).isSome := by
  induction i generalizing g with
  | zero => exact h
  | succ i ih =>
    rw [cleanupBegins]
    split
    · rename_i bLab hb
      split
      · exact h
      · split
        · have hi := lt_getNumThreads_of_getEventLabel (getEventLabel_of_events_eq hb).1
          refine ih fun t ht => ?_
          rw [getNumThreads_eraseBegin hi] at ht
          obtain ⟨f, -, -, heq⟩ := getEventLabel_eraseBegin (g := g) i bLab ⟨t, 0⟩
          rw [heq, Option.isSome_map]
          split
          · exact h t (by omega)
          · exact h (t + 1) (by omega)
        · exact ih h
    · exact h

/-- **When copying is restriction.**  For a well-formed graph and a view that is closed under
program order, reads-from, creation and join, the copy is the graph restricted to the view exactly
if the threads whose creations are outside the view are the last ones. -/
theorem restriction_copyGraphUpTo_iff (g : ExecutionGraph) (v : View) (h : g.WellFormed)
    (hv : v.Closed g) : Restriction g v (g.copyGraphUpTo v) ↔ DropsLastThreads g v := by
  refine ⟨fun hr t t' htt' ht' horphan => ?_, fun hlast => ?_⟩
  · have hsome : ∀ t < g.getNumThreads, ((g.cleanedCopy v).getEventLabel ⟨t, 0⟩).isSome ↔
        g.orphaned v t = false := by
      intro t ht
      rw [← isSome_getEventLabel_copyGraphUpTo, hr.events, keeps_begin, Bool.not_eq_true']
      exact and_iff_left (h.begun t ht)
    have hbegun : ∀ t < (g.cleanedCopy v).getNumThreads,
        ((g.cleanedCopy v).getEventLabel ⟨t, 0⟩).isSome := by
      refine begun_cleanupBegins _ _ fun t ht => ?_
      rw [getNumThreads_cloneLabels h.slots h.stamped h.isSome_init] at ht
      exact isSome_cloneLabels h.slots h.stamped (v.contains_of_index_eq_zero rfl) (h.begun t ht)
    -- the copy has no slot for the thread, and so for no later one
    have hnone : (g.cleanedCopy v).getNumThreads ≤ t := by
      by_contra hlt
      rw [(hsome t (htt'.trans ht')).1 (hbegun t (not_le.1 hlt))] at horphan
      exact absurd horphan (by decide)
    rw [← Bool.not_eq_false, ← hsome t' ht', Option.not_isSome_iff_eq_none]
    by_contra hne
    obtain ⟨lab, hlab⟩ := Option.ne_none_iff_exists'.1 hne
    have := lt_getNumThreads_of_getEventLabel hlab
    simp only at this
    omega
  · obtain ⟨k, hkn, hthr⟩ := hlast.exists_threshold
    exact h.restriction hv hkn hthr

/-! ## Threads that create threads -/

/-- The main thread creates the threads 1 and 2 and reads `x`.  Thread 1 creates the threads 3 and
5, and thread 2 creates thread 4, which writes `x`. -/
def nestedForks : ExecutionGraph :=
  { init with
    events :=
      [[{ initLabel with stamp := some 0 },
        { kind := .ThreadCreate, pos := ⟨0, 1⟩, stamp := some 1, childId := 1 },
        { kind := .ThreadCreate, pos := ⟨0, 2⟩, stamp := some 3, childId := 2 },
        { kind := .Read, pos := ⟨0, 3⟩, stamp := some 5, addr := 8, rf := some Event.getInit }],
       [{ kind := .ThreadStart, pos := ⟨1, 0⟩, stamp := some 2, createId := ⟨0, 1⟩,
          create := some ⟨0, 1⟩ },
        { kind := .ThreadCreate, pos := ⟨1, 1⟩, stamp := some 6, childId := 3 },
        { kind := .ThreadCreate, pos := ⟨1, 2⟩, stamp := some 10, childId := 5 }],
       [{ kind := .ThreadStart, pos := ⟨2, 0⟩, stamp := some 4, createId := ⟨0, 2⟩,
          create := some ⟨0, 2⟩ },
        { kind := .ThreadCreate, pos := ⟨2, 1⟩, stamp := some 8, childId := 4 }],
       [{ kind := .ThreadStart, pos := ⟨3, 0⟩, stamp := some 7, createId := ⟨1, 1⟩,
          create := some ⟨1, 1⟩ }],
       [{ kind := .ThreadStart, pos := ⟨4, 0⟩, stamp := some 9, createId := ⟨2, 1⟩,
          create := some ⟨2, 1⟩ },
        { kind := .Write, pos := ⟨4, 1⟩, stamp := some 12, addr := 8 }],
       [{ kind := .ThreadStart, pos := ⟨5, 0⟩, stamp := some 11, createId := ⟨1, 2⟩,
          create := some ⟨1, 2⟩ }]]
    insertionOrder := [⟨0, 0⟩, ⟨0, 1⟩, ⟨1, 0⟩, ⟨0, 2⟩, ⟨2, 0⟩, ⟨0, 3⟩, ⟨1, 1⟩, ⟨3, 0⟩, ⟨2, 1⟩,
      ⟨4, 0⟩, ⟨1, 2⟩, ⟨5, 0⟩, ⟨4, 1⟩]
    timestamp := 13
    coherence := fun a => if a = 8 then some [⟨4, 1⟩] else none
    initRfs := fun a => if a = 8 then some [⟨0, 3⟩] else none }

theorem nestedForks_wellFormed : nestedForks.WellFormed where
  slots := by decide
  stamped := forall_label_iff.2 (by decide)
  init := ⟨_, rfl, rfl⟩
  begun := by decide
  begins := by
    have h := (forall_label_iff (g := nestedForks) (p := fun e lab => 0 < e.thread →
      e.index = 0 → lab.kind = .ThreadStart ∧ lab.create.isSome)).2 (by decide)
    exact fun t lab ht hlab => h _ lab hlab ht rfl
  pointers := by
    have h := (forall_label_iff (g := nestedForks) (p := fun _ lab => ∀ q ∈ lab.pointers,
      (nestedForks.getEventLabel q).isSome ∧ (q.index = 0 → q = Event.getInit))).2 (by decide)
    exact fun e lab p hlab hp => h e lab hlab p hp
  accesses a e he := by
    by_cases ha : a = 8
    · subst ha
      rcases he with he | he
      · rw [List.mem_singleton.1 he]
        exact Nat.one_pos
      · rw [List.mem_singleton.1 he]
        exact Nat.succ_pos 2
    · simp [nestedForks, co, initReaders, ha] at he
  readers := forall_label_iff.2 (by decide)
  order := by decide
  inserted := by
    have h : nestedForks.insertionOrder.Perm nestedForks.positions := by decide
    exact fun e => h.mem_iff.trans mem_positions
  tracked := fun a ha => by
    by_cases h8 : a = 8
    · rw [h8] at ha
      exact absurd ha (by decide)
    · simp [nestedForks, initReaders, h8]

/-- Everything but the second creation of thread 1. -/
def withoutFive : View := ⟨fun t => [3, 1, 1, 0, 1].getD t 0⟩

theorem withoutFive_closed : withoutFive.Closed nestedForks :=
  View.closed_of_labels (forall_label_iff.2 (by decide))

/-- The begin of thread 5 goes. -/
theorem nestedForks_restriction :
    nestedForks.keeps withoutFive ⟨5, 0⟩ = false ∧
      Restriction nestedForks withoutFive (nestedForks.copyGraphUpTo withoutFive) := by
  refine ⟨by decide, (restriction_copyGraphUpTo_iff _ _ nestedForks_wellFormed
    withoutFive_closed).2 fun t t' htt' ht' ho => ?_⟩
  have h : ∀ t' < 6, ∀ t < t', nestedForks.orphaned withoutFive t = true →
      nestedForks.orphaned withoutFive t' = true := by decide
  exact h t' ht' t htt' ho

/-- Everything up to the read, and what the write comes after. -/
def readAndWriter : View := ⟨fun t => [3, 0, 1, 0, 1].getD t 0⟩

theorem readAndWriter_closed : readAndWriter.Closed nestedForks :=
  View.closed_of_labels (forall_label_iff.2 (by decide))

/-- Of the begins whose creations are outside the view, that of thread 5 goes, but that of thread 3
stays. -/
theorem nestedForks_not_restriction :
    nestedForks.WellFormed ∧ readAndWriter.Closed nestedForks ∧
      readAndWriter.contains ⟨1, 1⟩ = false ∧ readAndWriter.contains ⟨1, 2⟩ = false ∧
        (nestedForks.copyGraphUpTo readAndWriter).getEventLabel ⟨5, 0⟩ = none ∧
          ((nestedForks.copyGraphUpTo readAndWriter).getEventLabel ⟨3, 0⟩).isSome ∧
            ¬ Restriction nestedForks readAndWriter (nestedForks.copyGraphUpTo readAndWriter) := by
  have hsome : ((nestedForks.copyGraphUpTo readAndWriter).getEventLabel ⟨3, 0⟩).isSome := by
    rw [isSome_getEventLabel_copyGraphUpTo]
    decide
  refine ⟨nestedForks_wellFormed, readAndWriter_closed, by decide, by decide, ?_, hsome,
    fun h => ?_⟩
  · rw [← Option.not_isSome_iff_eq_none, isSome_getEventLabel_copyGraphUpTo]
    decide
  · exact absurd ((h.events _).1 hsome).1 (by decide)

end ExecutionGraph
end GenMC
