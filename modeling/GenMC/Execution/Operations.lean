import GenMC.Execution.WellFormed

/-!
# What the operations of a graph do to its labels

For each operation, one lemma says what `getEventLabel` returns afterwards.  Everything about
restriction and copying is stated here for events of index at least one: cleaning up after either
may remove begins and thereby move the begins of other threads to lower slots, but never a thread
that has more than its begin (`getEventLabel_cleanupBegins`).

`Seated` is what survives such moves: a label sits at its own index, and, begins apart, in its own
thread.
-/

set_option autoImplicit false

namespace GenMC
namespace ExecutionGraph

variable {g : ExecutionGraph}

/-- Labels sit at their own index and, begins apart, in their own thread. -/
def Seated (g : ExecutionGraph) : Prop :=
  ∀ e lab, g.getEventLabel e = some lab →
    lab.pos.index = e.index ∧ (0 < e.index → lab.pos.thread = e.thread)

theorem Slots.seated (h : g.Slots) : g.Seated := by
  intro e lab hlab
  rw [h e lab hlab]
  exact ⟨rfl, fun _ => rfl⟩

theorem Seated.pos_eq (h : g.Seated) {e : Event} {lab : EventLabel}
    (hlab : g.getEventLabel e = some lab) (hi : 0 < e.index) : lab.pos = e := by
  obtain ⟨h1, h2⟩ := h e lab hlab
  exact Event.ext_iff'.2 ⟨h2 hi, h1⟩

/-- Above the begins, a label is found at its own position. -/
theorem Seated.getEventLabel_pos (h : g.Seated) {e : Event} {lab : EventLabel}
    (hlab : g.getEventLabel e = some lab) (hi : 0 < lab.pos.index) :
    g.getEventLabel lab.pos = some lab := by
  rwa [h.pos_eq hlab ((h e lab hlab).1 ▸ hi)]

/-! ## Threads as lists -/

theorem getD_modify {α : Type*} (l : List (List α)) (t t' : ℕ) (f : List α → List α) :
    (l.modify t f).getD t' [] =
      if t' = t ∧ t < l.length then f (l.getD t' []) else l.getD t' [] := by
  rw [List.getD_eq_getElem?_getD, List.getD_eq_getElem?_getD, List.getElem?_modify]
  by_cases ht : t' = t
  · subst ht
    by_cases hlt : t' < l.length
    · simp [hlt]
    · simp [hlt]
  · simp [ht, Ne.symm ht]

theorem getD_eraseIdx {α : Type*} (l : List (List α)) (i t : ℕ) :
    (l.eraseIdx i).getD t [] = if t < i then l.getD t [] else l.getD (t + 1) [] := by
  rw [List.getD_eq_getElem?_getD, List.getElem?_eraseIdx]
  split <;> simp [List.getD_eq_getElem?_getD]

theorem lt_getNumThreads_of_getEventLabel {e : Event} {lab : EventLabel}
    (h : g.getEventLabel e = some lab) : e.thread < g.getNumThreads := by
  have := containsPos_eq_isSome (g := g) e
  rw [h] at this
  simp only [containsPos, Option.isSome_some, Bool.and_eq_true, decide_eq_true_eq] at this
  exact this.1

theorem lt_getThreadSize_of_getEventLabel {e : Event} {lab : EventLabel}
    (h : g.getEventLabel e = some lab) : e.index < g.getThreadSize e.thread := by
  have := containsPos_eq_isSome (g := g) e
  rw [h] at this
  simp only [containsPos, Option.isSome_some, Bool.and_eq_true, decide_eq_true_eq] at this
  exact this.2

/-- A thread that has a begin and nothing else. -/
theorem events_eq_singleton {t : ℕ} {lab : EventLabel} (h0 : g.getEventLabel ⟨t, 0⟩ = some lab)
    (h1 : g.getEventLabel ⟨t, 1⟩ = none) : g.events.getD t [] = [lab] := by
  rw [getEventLabel] at h0 h1
  simp only at h0 h1
  generalize g.events.getD t [] = thr at h0 h1 ⊢
  cases thr with
  | nil => cases h0
  | cons b rest =>
    cases rest with
    | nil => rw [Option.some.inj h0]
    | cons b' thr => cases h1

theorem getEventLabel_of_events_eq {t : ℕ} {lab : EventLabel} (h : g.events.getD t [] = [lab]) :
    g.getEventLabel ⟨t, 0⟩ = some lab ∧ ∀ i, 0 < i → g.getEventLabel ⟨t, i⟩ = none := by
  refine ⟨by rw [getEventLabel, h]; rfl, fun i hi => ?_⟩
  rw [getEventLabel, h]
  exact List.getElem?_eq_none hi

/-! ## Changing labels in place -/

@[simp] theorem getEventLabel_mapLabels (f : EventLabel → EventLabel) (e : Event) :
    (g.mapLabels f).getEventLabel e = (g.getEventLabel e).map f := by
  simp only [getEventLabel, mapLabels]
  simp only [List.getD_eq_getElem?_getD, List.getElem?_map]
  cases g.events[e.thread]? <;> simp

@[simp] theorem getThreadSize_mapLabels (f : EventLabel → EventLabel) (t : ℕ) :
    (g.mapLabels f).getThreadSize t = g.getThreadSize t := by
  simp only [getThreadSize, mapLabels]
  simp only [List.getD_eq_getElem?_getD, List.getElem?_map]
  cases g.events[t]? <;> simp

@[simp] theorem getNumThreads_mapLabels (f : EventLabel → EventLabel) :
    (g.mapLabels f).getNumThreads = g.getNumThreads := by
  simp [getNumThreads, mapLabels]

theorem getEventLabel_modify (x : Event) (f : EventLabel → EventLabel) (e : Event) :
    (g.modify x f).getEventLabel e =
      (g.getEventLabel e).map fun lab => if lab.pos = x then f lab else lab :=
  getEventLabel_mapLabels _ e

theorem Seated.mapLabels (h : g.Seated) {f : EventLabel → EventLabel}
    (hf : ∀ lab, (f lab).pos = lab.pos) : (g.mapLabels f).Seated := by
  intro e lab hlab
  rw [getEventLabel_mapLabels] at hlab
  obtain ⟨lab', hlab', rfl⟩ := Option.map_eq_some_iff.1 hlab
  rw [hf]
  exact h e lab' hlab'

/-! ## Adding a label -/

theorem trackLabel_events (lab : EventLabel) : (g.trackLabel lab).events = g.events := by
  rw [trackLabel]
  split <;> rfl

theorem trackLabel_insertionOrder (lab : EventLabel) :
    (g.trackLabel lab).insertionOrder = g.insertionOrder := by
  rw [trackLabel]
  split <;> rfl

@[simp] theorem co_trackCoherenceAtLoc (a b : SAddr) : (g.trackCoherenceAtLoc a).co b = g.co b := by
  simp only [trackCoherenceAtLoc, co]
  by_cases h : b = a
  · subst h
    simp
  · simp [h]

@[simp] theorem initReaders_trackCoherenceAtLoc (a b : SAddr) :
    (g.trackCoherenceAtLoc a).initReaders b = g.initReaders b := by
  simp only [trackCoherenceAtLoc, initReaders]
  by_cases h : b = a
  · subst h
    simp
  · simp [h]

/-- A label that belongs at the end of its thread goes there. -/
theorem placeLabel_eq (lab : EventLabel) (hi : lab.pos.index = g.getThreadSize lab.pos.thread)
    (hs : g.Seated) :
    g.placeLabel lab =
      { g with
        events := g.events.modify lab.pos.thread (· ++ [lab])
        insertionOrder := g.insertionOrder ++ [lab.pos] } := by
  rw [placeLabel]
  split
  · rename_i lastLab hlast
    obtain ⟨hpos, hlab⟩ := getLastThreadLabel_eq_some.1 hlast
    have := (hs _ _ hlab).1
    rw [if_neg (by simp only at this; omega)]
  · rfl

theorem getThreadSize_trackLabel (lab : EventLabel) (t : ℕ) :
    (g.trackLabel lab).getThreadSize t = g.getThreadSize t := by
  simp only [getThreadSize]
  rw [trackLabel_events]

theorem getEventLabel_trackLabel (lab : EventLabel) (e : Event) :
    (g.trackLabel lab).getEventLabel e = g.getEventLabel e := by
  simp only [getEventLabel]
  rw [trackLabel_events]

@[simp] theorem stampLabel_pos (lab : EventLabel) : (g.stampLabel lab).1.pos = lab.pos := by
  rw [stampLabel]
  split <;> rfl

section Add

variable {lab : EventLabel} (hs : g.Seated) (ht : lab.pos.thread < g.getNumThreads)
  (hi : lab.pos.index = g.getThreadSize lab.pos.thread)
include hs hi

theorem addLabelToGraph_eq :
    g.addLabelToGraph lab =
      { { g with timestamp := (g.stampLabel lab).2 }.trackLabel lab with
        events := g.events.modify lab.pos.thread (· ++ [(g.stampLabel lab).1])
        insertionOrder := g.insertionOrder ++ [lab.pos] } := by
  rw [addLabelToGraph]
  have hs' : ({ g with timestamp := (g.stampLabel lab).2 }.trackLabel lab).Seated := by
    intro e l hl
    rw [getEventLabel_trackLabel] at hl
    exact hs e l hl
  rw [placeLabel_eq _ (by rw [stampLabel_pos, getThreadSize_trackLabel]; exact hi) hs']
  simp only [stampLabel_pos, trackLabel_events, trackLabel_insertionOrder]

theorem insertionOrder_addLabelToGraph :
    (g.addLabelToGraph lab).insertionOrder = g.insertionOrder ++ [lab.pos] := by
  rw [addLabelToGraph_eq hs hi]

theorem initReaders_addLabelToGraph (a : SAddr) :
    (g.addLabelToGraph lab).initReaders a = g.initReaders a := by
  rw [addLabelToGraph_eq hs hi]
  rw [trackLabel]
  split
  · exact initReaders_trackCoherenceAtLoc _ _
  · rfl

theorem co_addLabelToGraph (a : SAddr) : (g.addLabelToGraph lab).co a = g.co a := by
  rw [addLabelToGraph_eq hs hi]
  rw [trackLabel]
  split
  · exact co_trackCoherenceAtLoc _ _
  · rfl

theorem getNumThreads_addLabelToGraph :
    (g.addLabelToGraph lab).getNumThreads = g.getNumThreads := by
  rw [addLabelToGraph_eq hs hi]
  simp [getNumThreads]

include ht

/-- Adding a label at the end of its thread. -/
theorem getEventLabel_addLabelToGraph (e : Event) :
    (g.addLabelToGraph lab).getEventLabel e =
      if e = lab.pos then some (g.stampLabel lab).1 else g.getEventLabel e := by
  rw [addLabelToGraph_eq hs hi]
  unfold getEventLabel
  simp only
  rw [getD_modify]
  by_cases htid : e.thread = lab.pos.thread
  · rw [if_pos ⟨htid, ht⟩, htid, List.getElem?_append]
    rw [getThreadSize] at hi
    split
    · rename_i hlt
      rw [if_neg (fun h => by rw [h, ← hi] at hlt; exact lt_irrefl _ hlt)]
    · rename_i hge
      by_cases hidx : e.index = lab.pos.index
      · rw [if_pos (Event.ext_iff'.2 ⟨htid, hidx⟩), hidx, hi]
        simp
      · rw [if_neg (fun h => hidx (congrArg Event.index h)),
          List.getElem?_eq_none (by rw [List.length_singleton]; omega),
          List.getElem?_eq_none (not_lt.1 hge)]
  · rw [if_neg (fun h => htid h.1), if_neg (fun h => htid (congrArg Event.thread h))]

theorem Seated.addLabelToGraph : (g.addLabelToGraph lab).Seated := by
  intro e l hl
  rw [getEventLabel_addLabelToGraph hs ht hi] at hl
  split at hl
  · rename_i he
    cases hl
    rw [stampLabel_pos, he]
    exact ⟨rfl, fun _ => rfl⟩
  · exact hs e l hl

end Add

/-! ## Cleaning up begins -/

/-- What `cleanupBegins` leaves alone. -/
structure CleanedUp (g g' : ExecutionGraph) : Prop where
  label : ∀ e, 0 < e.index → g'.getEventLabel e = g.getEventLabel e
  seated : g'.Seated
  inserted : ∀ e, 0 < e.index → (e ∈ g'.insertionOrder ↔ e ∈ g.insertionOrder)
  coherence : g'.coherence = g.coherence
  initRfs : g'.initRfs = g.initRfs
  accessMap : g'.accessMap = g.accessMap
  initVals : g'.initVals = g.initVals
  init : ∀ lab, g.getEventLabel Event.getInit = some lab → lab.kind = .Init →
    ∃ lab', g'.getEventLabel Event.getInit = some lab' ∧ lab'.kind = .Init ∧ lab'.pos = lab.pos
  begins : ∀ t lab', g'.getEventLabel ⟨t, 0⟩ = some lab' →
    ∃ t' lab, g.getEventLabel ⟨t', 0⟩ = some lab ∧ lab'.kind = lab.kind ∧ lab'.stamp = lab.stamp

theorem CleanedUp.refl (h : g.Seated) : CleanedUp g g :=
  ⟨fun _ _ => rfl, h, fun _ _ => Iff.rfl, rfl, rfl, rfl, rfl,
    fun lab hlab hk => ⟨lab, hlab, hk, rfl⟩, fun t lab hlab => ⟨t, lab, hlab, rfl, rfl⟩⟩

theorem CleanedUp.trans {g₁ g₂ g₃ : ExecutionGraph} (h : CleanedUp g₁ g₂) (h' : CleanedUp g₂ g₃) :
    CleanedUp g₁ g₃ := by
  refine ⟨fun e he => (h'.label e he).trans (h.label e he), h'.seated,
    fun e he => (h'.inserted e he).trans (h.inserted e he), h'.coherence.trans h.coherence,
    h'.initRfs.trans h.initRfs, h'.accessMap.trans h.accessMap, h'.initVals.trans h.initVals,
    fun lab hlab hk => ?_, fun t lab'' hlab'' => ?_⟩
  · obtain ⟨lab', hlab', hk', hpos'⟩ := h.init lab hlab hk
    obtain ⟨lab'', hlab'', hk'', hpos''⟩ := h'.init lab' hlab' hk'
    exact ⟨lab'', hlab'', hk'', hpos''.trans hpos'⟩
  · obtain ⟨t', lab', hlab', hk', hs'⟩ := h'.begins t lab'' hlab''
    obtain ⟨t₀, lab, hlab, hk, hs⟩ := h.begins t' lab' hlab'
    exact ⟨t₀, lab, hlab, hk'.trans hk, hs'.trans hs⟩

/-- The labels of a thread after the head of another thread has been changed. -/
theorem getElem?_getD_modifyHead (l : List (List EventLabel)) (p t i : ℕ)
    (f : EventLabel → EventLabel) :
    ((l.modify p (List.modifyHead f)).getD t [])[i]? =
      if t = p ∧ i = 0 then ((l.getD t [])[i]?).map f else (l.getD t [])[i]? := by
  rw [getD_modify]
  by_cases ht : t = p
  · subst ht
    by_cases hlt : t < l.length
    · rw [if_pos ⟨rfl, hlt⟩]
      cases l.getD t [] with
      | nil => simp
      | cons x xs =>
        cases i with
        | zero => simp
        | succ i => simp
    · rw [if_neg (fun h => hlt h.2), List.getD_eq_getElem?_getD,
        List.getElem?_eq_none (not_lt.1 hlt)]
      simp
  · rw [if_neg (fun h => ht h.1), if_neg (fun h => ht h.1)]

/-- The label at a position after a begin has been removed. -/
theorem getEventLabel_eraseBegin (i : ℕ) (bLab : EventLabel) (e : Event) :
    ∃ f : EventLabel → EventLabel,
      (∀ lab, ∃ s, f lab = { lab with symmSuccTid := s }) ∧
      (0 < e.index → f = id) ∧
      (g.eraseBegin i bLab).getEventLabel e =
        (g.getEventLabel (if e.thread < i then e else ⟨e.thread + 1, e.index⟩)).map f := by
  have herase : ∀ evs : List (List EventLabel), ((evs.eraseIdx i).getD e.thread [])[e.index]? =
      (evs.getD (if e.thread < i then e.thread else e.thread + 1) [])[e.index]? := by
    intro evs
    rw [getD_eraseIdx]
    split <;> rfl
  rw [eraseBegin]
  cases hp : bLab.symmPredTid with
  | none =>
    refine ⟨id, fun lab => ⟨lab.symmSuccTid, rfl⟩, fun _ => rfl, ?_⟩
    simp only [getEventLabel, herase]
    split <;> simp
  | some p =>
    simp only [getEventLabel, herase, getElem?_getD_modifyHead]
    by_cases hc : (if e.thread < i then e.thread else e.thread + 1) = p ∧ e.index = 0
    · refine ⟨fun s => { s with symmSuccTid := none }, fun _ => ⟨none, rfl⟩,
        fun h => by omega, ?_⟩
      rw [if_pos hc]
      split <;> simp
    · refine ⟨id, fun lab => ⟨lab.symmSuccTid, rfl⟩, fun _ => rfl, ?_⟩
      rw [if_neg hc]
      split <;> simp

theorem getThreadSize_eraseBegin (i : ℕ) (bLab : EventLabel) (t : ℕ) :
    (g.eraseBegin i bLab).getThreadSize t =
      if t < i then g.getThreadSize t else g.getThreadSize (t + 1) := by
  simp only [eraseBegin, getThreadSize]
  cases bLab.symmPredTid with
  | none =>
    simp only [getD_eraseIdx]
    split <;> rfl
  | some p =>
    simp only [getD_eraseIdx, getD_modify]
    split
    · split
      · simp
      · rfl
    · split
      · simp
      · rfl

theorem insertionOrder_eraseBegin (i : ℕ) (bLab : EventLabel) :
    (g.eraseBegin i bLab).insertionOrder = g.insertionOrder.erase bLab.pos := by
  rw [eraseBegin]
  cases bLab.symmPredTid <;> rfl

/-- Removing a begin above which there are only begins. -/
theorem cleanedUp_eraseBegin (hs : g.Seated) {i : ℕ} {bLab : EventLabel}
    (hb : g.events.getD i [] = [bLab]) (hk : bLab.kind ≠ .Init)
    (hi : ∀ t, i ≤ t → g.getThreadSize t ≤ 1) : CleanedUp g (g.eraseBegin i bLab) := by
  have hnone : ∀ t j, i ≤ t → 0 < j → g.getEventLabel ⟨t, j⟩ = none := by
    intro t j ht hj
    refine List.getElem?_eq_none ?_
    have := hi t ht
    rw [getThreadSize] at this
    simp only
    omega
  have hblab : g.getEventLabel ⟨i, 0⟩ = some bLab := by
    simp only [getEventLabel, hb]
    rfl
  have hbpos : bLab.pos.index = 0 := (hs ⟨i, 0⟩ bLab hblab).1
  refine ⟨fun e he => ?_, fun e lab hlab => ?_, fun e he => ?_, ?_, ?_, ?_, ?_,
    fun lab hlab hkind => ?_, fun t lab' hlab' => ?_⟩
  · obtain ⟨f, -, hf, heq⟩ := getEventLabel_eraseBegin (g := g) i bLab e
    rw [heq, hf he, Option.map_id]
    split
    · rfl
    · rename_i hlt
      obtain ⟨t, j⟩ := e
      simp only [id_eq] at hlt he ⊢
      rw [hnone (t + 1) j (by omega) he, hnone t j (by omega) he]
  · obtain ⟨f, hpos, -, heq⟩ := getEventLabel_eraseBegin (g := g) i bLab e
    rw [heq] at hlab
    obtain ⟨lab', hlab', rfl⟩ := Option.map_eq_some_iff.1 hlab
    have hpos' : (f lab').pos = lab'.pos := by
      obtain ⟨s, hs'⟩ := hpos lab'
      rw [hs']
    rw [hpos']
    split at hlab'
    · exact hs e lab' hlab'
    · rename_i hlt
      refine ⟨(hs _ _ hlab').1, fun he => ?_⟩
      rw [hnone (e.thread + 1) e.index (by omega) he] at hlab'
      cases hlab'
  · rw [insertionOrder_eraseBegin]
    exact List.mem_erase_of_ne (fun h => by rw [h, hbpos] at he; exact lt_irrefl _ he)
  case refine_8 =>
    have hi0 : 0 < i := by
      rw [Nat.pos_iff_ne_zero]
      rintro rfl
      rw [show Event.getInit = ⟨0, 0⟩ from rfl, hblab] at hlab
      cases hlab
      exact hk hkind
    obtain ⟨f, hf, -, heq⟩ := getEventLabel_eraseBegin (g := g) i bLab Event.getInit
    rw [if_pos (show Event.getInit.thread < i from hi0), hlab] at heq
    obtain ⟨s, hs'⟩ := hf lab
    refine ⟨f lab, heq, ?_, ?_⟩
    · rw [hs']
      exact hkind
    · rw [hs']
  case refine_9 =>
    obtain ⟨f, hf, -, heq⟩ := getEventLabel_eraseBegin (g := g) i bLab ⟨t, 0⟩
    rw [heq] at hlab'
    obtain ⟨lab, hlab, rfl⟩ := Option.map_eq_some_iff.1 hlab'
    obtain ⟨s, hs'⟩ := hf lab
    refine ⟨if t < i then t else t + 1, lab, ?_, by rw [hs'], by rw [hs']⟩
    by_cases hlt : t < i
    · rwa [if_pos hlt] at hlab ⊢
    · rwa [if_neg hlt] at hlab ⊢
  all_goals
    rw [eraseBegin]
    cases bLab.symmPredTid <;> rfl

/-- **Cleaning up begins touches no thread that has more than a begin.** -/
theorem cleanedUp_cleanupBegins (orphan : ExecutionGraph → EventLabel → Bool) (i : ℕ)
    (hs : g.Seated) (hi : ∀ t, i ≤ t → g.getThreadSize t ≤ 1) :
    CleanedUp g (g.cleanupBegins orphan i) := by
  induction i generalizing g with
  | zero => exact CleanedUp.refl hs
  | succ i ih =>
    rw [cleanupBegins]
    split
    · rename_i bLab hb
      have hi' : ∀ t, i ≤ t → g.getThreadSize t ≤ 1 := by
        intro t ht
        rcases ht.eq_or_lt with rfl | hlt
        · rw [getThreadSize, hb]
          exact le_rfl
        · exact hi t hlt
      split
      · exact CleanedUp.refl hs
      · rename_i hk
        split
        · have herase := cleanedUp_eraseBegin hs hb hk hi'
          refine herase.trans (ih herase.seated fun t ht => ?_)
          rw [getThreadSize_eraseBegin]
          split
          · omega
          · exact hi' _ (by omega)
        · exact ih hs hi'
    · exact CleanedUp.refl hs

theorem getThreadSize_eq_zero {t : ℕ} (h : g.getNumThreads ≤ t) : g.getThreadSize t = 0 := by
  rw [getThreadSize]
  rw [List.getD_eq_getElem?_getD, List.getElem?_eq_none h]
  rfl

/-! ## Stamps -/

/-- The stamp of position `e` after the positions in `io` have been stamped from `n` on. -/
def restamp : List Event → ℕ → Event → Option ℕ → Option ℕ
  | [], _, _, s => s
  | x :: io, n, e, s => restamp io (n + 1) e (if e = x then some n else s)

theorem restamp_of_notMem {io : List Event} {n : ℕ} {e : Event} {s : Option ℕ} (h : e ∉ io) :
    restamp io n e s = s := by
  induction io generalizing n s with
  | nil => rfl
  | cons x io ih =>
    rw [List.mem_cons, not_or] at h
    rw [restamp, if_neg h.1, ih h.2]

/-- Positions are stamped by their place in the insertion order. -/
theorem restamp_of_mem {io : List Event} (hio : io.Nodup) {n : ℕ} {e : Event} {s : Option ℕ}
    (h : e ∈ io) : restamp io n e s = some (n + io.idxOf e) := by
  induction io generalizing n s with
  | nil => simp at h
  | cons x io ih =>
    obtain ⟨hx, hio'⟩ := List.nodup_cons.1 hio
    rw [restamp]
    by_cases he : e = x
    · subst he
      rw [restamp_of_notMem hx]
      simp
    · rw [ih hio' ((List.mem_cons.1 h).resolve_left he), List.idxOf_cons_ne _ (Ne.symm he)]
      congr 1
      omega

/-- Stamps a label by the insertion order. -/
def restampLabel (io : List Event) (n : ℕ) (lab : EventLabel) : EventLabel :=
  { lab with stamp := ExecutionGraph.restamp io n lab.pos lab.stamp }

theorem mapLabels_mapLabels (f f' : EventLabel → EventLabel) :
    (g.mapLabels f).mapLabels f' = g.mapLabels (f' ∘ f) := by
  simp [mapLabels, Function.comp_def]

/-- Restamping is one pass over the labels. -/
theorem foldl_stampNext_eq (io : List Event) (g : ExecutionGraph) :
    io.foldl stampNext g =
      { g.mapLabels (restampLabel io g.timestamp) with
        timestamp := g.timestamp + io.length } := by
  induction io generalizing g with
  | nil =>
    have : restampLabel [] g.timestamp = id := rfl
    simp [this, mapLabels]
  | cons x io ih =>
    have hcomp : restampLabel io (g.timestamp + 1) ∘
        (fun lab => if lab.pos = x then { lab with stamp := some g.timestamp } else lab) =
        restampLabel (x :: io) g.timestamp := by
      funext lab
      simp only [Function.comp_apply, restampLabel, restamp]
      by_cases h : lab.pos = x
      · simp [h]
      · simp [h]
    have hmap : ((g.stampNext x).mapLabels (restampLabel io (g.timestamp + 1))).events =
        (g.mapLabels (restampLabel (x :: io) g.timestamp)).events := by
      rw [← hcomp, ← mapLabels_mapLabels]
      rfl
    rw [List.foldl_cons, ih]
    refine ExecutionGraph.ext hmap rfl ?_ rfl rfl rfl rfl
    simp only [stampNext, List.length_cons]
    omega

theorem resetStamps_eq :
    g.resetStamps =
      { g.mapLabels (restampLabel g.insertionOrder 0) with
        timestamp := g.insertionOrder.length } := by
  rw [resetStamps]
  rw [foldl_stampNext_eq]
  simp [mapLabels]

theorem getEventLabel_resetStamps (e : Event) : g.resetStamps.getEventLabel e =
    (g.getEventLabel e).map (restampLabel g.insertionOrder 0) := by
  rw [resetStamps_eq]
  exact getEventLabel_mapLabels _ e

/-! ## Cutting -/

theorem getElem?_keptEvents (preds : View) (e : Event) :
    ((g.keptEvents preds).getD e.thread [])[e.index]? =
      if preds.contains e then g.getEventLabel e else none := by
  rw [keptEvents, getEventLabel]
  simp only [List.getD_eq_getElem?_getD, List.getElem?_mapIdx]
  cases h : g.events[e.thread]? with
  | none => simp
  | some thr =>
    simp only [Option.map_some, Option.getD_some, List.getElem?_take, View.contains_iff]
    by_cases hc : e.index ≤ preds.getMax e.thread
    · rw [if_pos (by omega), if_pos hc]
    · rw [if_neg (by omega), if_neg hc]

/-- The labels that are left after restricting to a view. -/
theorem getEventLabel_restrictTo (preds : View) (e : Event) :
    (g.restrictTo preds).getEventLabel e =
      if preds.contains e then (g.getEventLabel e).map (dropPointers preds) else none := by
  have h := getElem?_keptEvents (g := g) preds e
  simp only [restrictTo, getEventLabel]
  simp only [List.getD_eq_getElem?_getD, List.getElem?_map] at h ⊢
  cases hk : (g.keptEvents preds)[e.thread]? with
  | none =>
    rw [hk] at h
    simp only [Option.getD_none, List.getElem?_nil] at h
    simp only [Option.map_none, Option.getD_none, List.getElem?_nil]
    split
    · rename_i hc
      rw [if_pos hc] at h
      rw [getEventLabel] at h
      rw [List.getD_eq_getElem?_getD] at h
      rw [← h]
      rfl
    · rfl
  | some thr =>
    rw [hk] at h
    simp only [Option.map_some, Option.getD_some, List.getElem?_map] at h ⊢
    rw [h]
    rw [getEventLabel]
    rw [List.getD_eq_getElem?_getD]
    split <;> rfl

theorem Seated.restrictTo (hs : g.Seated) (preds : View) : (g.restrictTo preds).Seated := by
  intro e lab hlab
  rw [getEventLabel_restrictTo] at hlab
  split at hlab
  · obtain ⟨lab', hlab', rfl⟩ := Option.map_eq_some_iff.1 hlab
    exact hs e lab' hlab'
  · cases hlab

/-- **What is left of a graph after cutting**: the labels in the view, without pointers to what
is outside, and newly stamped. -/
theorem getEventLabel_cutToStamp (hs : g.Seated) (stamp : ℕ) :
    ∃ io, ∀ e, 0 < e.index → (g.cutToStamp stamp).getEventLabel e =
      if (g.getViewFromStamp stamp).contains e then
        (g.getEventLabel e).map
          fun lab => restampLabel io 0 (dropPointers (g.getViewFromStamp stamp) lab)
      else none := by
  set preds := g.getViewFromStamp stamp with hpreds
  set g₁ := g.restrictTo preds with hg₁
  have hclean := cleanedUp_cleanupBegins (g := g₁) (fun _ bLab => bLab.create.isNone)
    g₁.getNumThreads (hs.restrictTo preds) fun t ht => by rw [getThreadSize_eq_zero ht]; omega
  set g₂ := g₁.cleanupBegins (fun _ bLab => bLab.create.isNone) g₁.getNumThreads with hg₂
  refine ⟨g₂.insertionOrder, fun e he => ?_⟩
  have : g.cutToStamp stamp = g₂.resetStamps := rfl
  rw [this, resetStamps_eq]
  show (g₂.mapLabels _).getEventLabel e = _
  rw [getEventLabel_mapLabels, hclean.label e he, hg₁, getEventLabel_restrictTo]
  split
  · rw [Option.map_map]
    rfl
  · rfl

theorem Seated.cutToStamp (hs : g.Seated) (stamp : ℕ) : (g.cutToStamp stamp).Seated := by
  set g₁ := g.restrictTo (g.getViewFromStamp stamp) with hg₁
  have hclean := cleanedUp_cleanupBegins (g := g₁) (fun _ bLab => bLab.create.isNone)
    g₁.getNumThreads (hs.restrictTo _) fun t ht => by rw [getThreadSize_eq_zero ht]; omega
  have hcut : g.cutToStamp stamp = resetStamps _ := rfl
  rw [hcut, resetStamps_eq]
  exact hclean.seated.mapLabels fun _ => rfl

/-! ## Cloning the labels -/

/-- The clones of a thread are a segment of it. -/
theorem flatMap_range'_toList {α : Type*} (l : List α) (k : ℕ) :
    ((List.range' 1 k).flatMap fun j => (l[j]?).toList) = (l.drop 1).take k := by
  induction k with
  | zero => simp
  | succ k ih =>
    rw [List.range'_1_concat, List.flatMap_append, ih, List.take_add_one, List.getElem?_drop]
    simp

theorem labelsToCopy_eq (v : View) (i : ℕ) :
    g.labelsToCopy v i =
      (((g.events.getD i []).take (v.getMax i + 1)).drop (if i = 0 then 1 else 0)).map
        EventLabel.clone := by
  have htail : ((List.range' 1 (v.getMax i)).flatMap fun j =>
      if v.contains ⟨i, j⟩ then (g.getEventLabel ⟨i, j⟩).toList.map EventLabel.clone
      else [createHoleLabel ⟨i, j⟩]) =
        (((g.events.getD i []).drop 1).take (v.getMax i)).map EventLabel.clone := by
    rw [← flatMap_range'_toList, List.map_flatMap]
    refine List.flatMap_congr fun j hj => ?_
    rw [if_pos]
    · rfl
    · rw [View.contains_iff]
      have := (List.mem_range'_1.1 hj).2
      simp only
      omega
  rw [labelsToCopy]
  rw [htail]
  cases hthr : g.events.getD i [] with
  | nil =>
    have hb : g.getEventLabel ⟨i, 0⟩ = none := by
      simp only [getEventLabel, hthr]
      rfl
    simp [hb]
  | cons b thr =>
    have hb : g.getEventLabel ⟨i, 0⟩ = some b := by
      simp only [getEventLabel, hthr]
      rfl
    by_cases h0 : i = 0
    · simp [h0]
    · simp [h0, hb]

/-- What adding the labels `L` at the end of thread `t` does. -/
structure Filled (t : ℕ) (L : List EventLabel) (s s' : ExecutionGraph) : Prop where
  seated : s'.Seated
  numThreads : s'.getNumThreads = s.getNumThreads
  thread : ∀ t', s'.events.getD t' [] =
    if t' = t then s.events.getD t' [] ++ L else s.events.getD t' []
  co : ∀ a, s'.co a = s.co a
  initReaders : ∀ a, s'.initReaders a = s.initReaders a
  tracked : ∀ a, (s'.coherence a).isSome ↔
    (s.coherence a).isSome ∨ ∃ lab ∈ L, (lab.isMemAccess || lab.isFree) = true ∧ lab.addr = a
  insertionOrder : s'.insertionOrder = s.insertionOrder ++ L.map (·.pos)
  initVals : s'.initVals = s.initVals

theorem stampLabel_of_isSome {lab : EventLabel} (h : lab.stamp.isSome) :
    g.stampLabel lab = (lab, g.timestamp) := by
  simp [stampLabel, h]

theorem tracked_trackLabel (lab : EventLabel) (a : SAddr) :
    ((g.trackLabel lab).coherence a).isSome ↔
      (g.coherence a).isSome ∨ ((lab.isMemAccess || lab.isFree) = true ∧ lab.addr = a) := by
  rw [trackLabel]
  split
  · rename_i h
    simp only [pushAccess, trackCoherenceAtLoc, Function.update_apply]
    by_cases ha : a = lab.addr
    · simp [ha, h]
    · simp [ha, Ne.symm ha]
  · rename_i h
    simp [h]

/-- Adding one label that has its stamp already. -/
theorem filled_addLabelToGraph {s : ExecutionGraph} (hs : s.Seated) {lab : EventLabel}
    (ht : lab.pos.thread < s.getNumThreads)
    (hi : lab.pos.index = s.getThreadSize lab.pos.thread) (hst : lab.stamp.isSome) :
    Filled lab.pos.thread [lab] s (s.addLabelToGraph lab) := by
  refine ⟨hs.addLabelToGraph ht hi, getNumThreads_addLabelToGraph hs hi, fun t' => ?_,
    co_addLabelToGraph hs hi, initReaders_addLabelToGraph hs hi, fun a => ?_,
    insertionOrder_addLabelToGraph hs hi, ?_⟩
  · rw [addLabelToGraph_eq hs hi, stampLabel_of_isSome hst]
    simp only [getD_modify]
    by_cases h : t' = lab.pos.thread
    · rw [if_pos ⟨h, ht⟩, if_pos h]
    · rw [if_neg (fun h' => h h'.1), if_neg h]
  · rw [addLabelToGraph_eq hs hi]
    simp [tracked_trackLabel]
  · rw [addLabelToGraph_eq hs hi]
    rw [trackLabel]
    split <;> rfl

/-- Adding the labels of a thread one after the other. -/
theorem filled_foldl {t : ℕ} {L : List EventLabel} {s : ExecutionGraph} (hs : s.Seated)
    (ht : t < s.getNumThreads) (hL : ∀ (k : ℕ) (lab : EventLabel), L[k]? = some lab →
      lab.pos = ⟨t, s.getThreadSize t + k⟩ ∧ lab.stamp.isSome) :
    Filled t L s (L.foldl (fun other lab => other.addLabelToGraph lab) s) := by
  induction L generalizing s with
  | nil => exact ⟨hs, rfl, by simp, fun _ => rfl, fun _ => rfl, by simp, by simp, rfl⟩
  | cons lab L ih =>
    obtain ⟨hpos, hst⟩ := hL 0 lab rfl
    have hti : lab.pos.thread = t := by rw [hpos]
    have hii : lab.pos.index = s.getThreadSize lab.pos.thread := by rw [hti, hpos]; simp
    have h1 := filled_addLabelToGraph hs (by rwa [hti]) hii hst
    rw [hti] at h1
    have hsize : (s.addLabelToGraph lab).getThreadSize t = s.getThreadSize t + 1 := by
      simp only [getThreadSize]
      rw [h1.thread, if_pos rfl]
      simp
    have h2 := ih h1.seated (by rwa [h1.numThreads]) (fun k l hl => by
      obtain ⟨h3, h4⟩ := hL (k + 1) l (by simpa using hl)
      rw [h3, hsize]
      exact ⟨by congr 1; omega, h4⟩)
    rw [List.foldl_cons]
    refine ⟨h2.seated, h2.numThreads.trans h1.numThreads, fun t' => ?_,
      fun a => (h2.co a).trans (h1.co a), fun a => (h2.initReaders a).trans (h1.initReaders a),
      fun a => ?_, ?_, h2.initVals.trans h1.initVals⟩
    · rw [h2.thread, h1.thread]
      split <;> simp
    · rw [h2.tracked, h1.tracked]
      simp [or_assoc]
    · rw [h2.insertionOrder, h1.insertionOrder]
      simp

/-- Every label has its stamp. -/
def Stamped (g : ExecutionGraph) : Prop :=
  ∀ e lab, g.getEventLabel e = some lab → lab.stamp.isSome

/-- The initializer of a fresh graph. -/
def freshInit : EventLabel := { initLabel with stamp := some 0 }

/-- A thread of the copy after the first pass: the initializer is new, everything else is cloned. -/
def clonedThread (g : ExecutionGraph) (v : View) (t : ℕ) : List EventLabel :=
  (if t = 0 then [freshInit] else []) ++ g.labelsToCopy v t

theorem getElem?_clonedThread (v : View) (e : Event) :
    (g.clonedThread v e.thread)[e.index]? =
      if e = Event.getInit then some freshInit
      else if v.contains e then (g.getEventLabel e).map EventLabel.clone else none := by
  obtain ⟨t, i⟩ := e
  have hi : v.contains ⟨t, i⟩ = decide (i < v.getMax t + 1) := by
    simp [View.contains]
  rw [clonedThread, labelsToCopy_eq, hi]
  simp only [getEventLabel, Event.getInit, Event.mk.injEq, decide_eq_true_eq]
  by_cases ht : t = 0
  · subst ht
    cases i with
    | zero => simp
    | succ i =>
      simp only [if_true, List.singleton_append, List.getElem?_cons_succ, List.getElem?_map,
        List.getElem?_drop, List.getElem?_take]
      rw [show 1 + i = i + 1 by omega]
      simp only [Nat.succ_ne_zero, and_false, if_false]
      split <;> rfl
  · simp only [ht, if_false, false_and, List.nil_append, List.drop_zero, List.getElem?_map,
      List.getElem?_take]
    split <;> rfl

/-- The state of the first pass after `m` threads. -/
structure Cloned (g : ExecutionGraph) (v : View) (m : ℕ) (s : ExecutionGraph) : Prop where
  seated : s.Seated
  numThreads : s.getNumThreads = max 1 g.getNumThreads
  thread : ∀ t, s.events.getD t [] = if t < m then g.clonedThread v t
    else if t = 0 then [freshInit] else []
  co : ∀ a, s.co a = []
  initReaders : ∀ a, s.initReaders a = []
  tracked : ∀ a, (s.coherence a).isSome ↔
    ∃ t < m, ∃ lab ∈ g.clonedThread v t, (lab.isMemAccess || lab.isFree) = true ∧ lab.addr = a
  inserted : ∀ e, (s.getEventLabel e).isSome → e ∈ s.insertionOrder
  initVals : ∀ a, s.initVals a = none

theorem cloned_zero (v : View) : Cloned g v 0 (init.resize g.getNumThreads) := by
  have hthread : ∀ t, (init.resize g.getNumThreads).events.getD t [] =
      if t = 0 then [freshInit] else [] := by
    intro t
    have hinit : (init.resize g.getNumThreads).events =
      [[freshInit]] ++ List.replicate (g.getNumThreads - 1) [] := rfl
    rw [hinit]
    cases t with
    | zero => rfl
    | succ t =>
      simp only [List.singleton_append, List.getD_cons_succ, Nat.succ_ne_zero, if_false]
      by_cases h : t < g.getNumThreads - 1
      · simp [h]
      · simp [h]
  have hlabel : ∀ e, (init.resize g.getNumThreads).getEventLabel e =
      if e = Event.getInit then some freshInit else none := by
    intro e
    obtain ⟨t, i⟩ := e
    simp only [getEventLabel, hthread, Event.getInit, Event.mk.injEq]
    by_cases ht : t = 0
    · cases i <;> simp [ht]
    · simp [ht]
  refine ⟨fun e lab hlab => ?_, ?_, fun t => by rw [hthread, if_neg (Nat.not_lt_zero t)],
    fun _ => rfl, fun _ => rfl,
    fun a => by simp; rfl, fun e he => ?_, fun _ => rfl⟩
  · rw [hlabel] at hlab
    split at hlab
    · rename_i h
      cases hlab
      rw [h]
      exact ⟨rfl, fun _ => rfl⟩
    · cases hlab
  · have hinit : init.getNumThreads = 1 := rfl
    rw [resize]
    rw [getNumThreads, List.length_append, List.length_replicate, ← getNumThreads, hinit]
    omega
  · rw [hlabel] at he
    split at he
    · rename_i h
      rw [h]
      exact List.mem_singleton.2 rfl
    · cases he

/-- The clones of a thread keep their positions and stamps. -/
theorem pos_of_getElem?_labelsToCopy (hs : g.Slots) (hst : g.Stamped) {v : View} {m k : ℕ}
    {lab : EventLabel} (h : (g.labelsToCopy v m)[k]? = some lab) :
    lab.pos = ⟨m, (if m = 0 then 1 else 0) + k⟩ ∧ lab.stamp.isSome := by
  rw [labelsToCopy_eq, List.getElem?_map, Option.map_eq_some_iff] at h
  obtain ⟨lab', hlab', rfl⟩ := h
  rw [List.getElem?_drop] at hlab'
  generalize (if m = 0 then 1 else 0) + k = j at hlab' ⊢
  rw [List.getElem?_take] at hlab'
  by_cases hj : j < v.getMax m + 1
  · rw [if_pos hj] at hlab'
    exact ⟨hs ⟨m, j⟩ lab' hlab', hst ⟨m, j⟩ lab' hlab'⟩
  · rw [if_neg hj] at hlab'
    cases hlab'

/-- One thread of the first pass. -/
theorem Cloned.step (hs : g.Slots) (hst : g.Stamped) {v : View} {m : ℕ} {s : ExecutionGraph}
    (hm : m < g.getNumThreads) (h : Cloned g v m s) :
    Cloned g v (m + 1)
      ((g.labelsToCopy v m).foldl (fun other lab => other.addLabelToGraph lab) s) := by
  have hthread := h.thread m
  rw [if_neg (lt_irrefl m)] at hthread
  have hsize : s.getThreadSize m = if m = 0 then 1 else 0 := by
    rw [getThreadSize]
    rw [hthread]
    split <;> rfl
  have hfill := filled_foldl (t := m) (L := g.labelsToCopy v m) h.seated
    (by rw [h.numThreads]; omega) (fun k lab hlab => by
      rw [hsize]
      exact pos_of_getElem?_labelsToCopy hs hst hlab)
  refine ⟨hfill.seated, hfill.numThreads.trans h.numThreads, fun t => ?_,
    fun a => (hfill.co a).trans (h.co a), fun a => (hfill.initReaders a).trans (h.initReaders a),
    fun a => ?_, fun e he => ?_, fun a => ?_⟩
  · rw [hfill.thread]
    by_cases ht : t = m
    · subst ht
      rw [if_pos rfl, if_pos (Nat.lt_succ_self t), hthread]
      rfl
    · rw [if_neg ht, h.thread]
      by_cases hlt : t < m
      · rw [if_pos hlt, if_pos (Nat.lt_succ_of_lt hlt)]
      · have hlt' : ¬ t < m + 1 := by omega
        rw [if_neg hlt, if_neg hlt']
  · rw [hfill.tracked, h.tracked]
    refine ⟨?_, ?_⟩
    · rintro (⟨t, ht, hlab⟩ | ⟨lab, hlab, h'⟩)
      · exact ⟨t, by omega, hlab⟩
      · exact ⟨m, by omega, lab, List.mem_append_right _ hlab, h'⟩
    · rintro ⟨t, ht, lab, hlab, h'⟩
      rcases Nat.lt_succ_iff_lt_or_eq.1 ht with hlt | rfl
      · exact Or.inl ⟨t, hlt, lab, hlab, h'⟩
      · rcases List.mem_append.1 hlab with hlab | hlab
        · split at hlab
          · rw [List.mem_singleton.1 hlab] at h'
            exact absurd h'.1 (by decide)
          · simp at hlab
        · exact Or.inr ⟨lab, hlab, h'⟩
  · rw [hfill.insertionOrder, List.mem_append]
    obtain ⟨lab, hlab⟩ := Option.isSome_iff_exists.1 he
    have hlab' := hlab
    rw [getEventLabel] at hlab'
    rw [hfill.thread] at hlab'
    by_cases ht : e.thread = m
    · rw [if_pos ht, List.getElem?_append] at hlab'
      split at hlab'
      · exact Or.inl (h.inserted e (by rw [getEventLabel, hlab']; rfl))
      · right
        rename_i hge
        have hpos := (pos_of_getElem?_labelsToCopy hs hst hlab').1
        refine List.mem_map.2 ⟨lab, List.mem_of_getElem? hlab', hpos.trans ?_⟩
        have hlen : (s.events.getD e.thread []).length = if m = 0 then 1 else 0 := by
          rw [ht]
          exact hsize
        rw [hlen] at hge ⊢
        exact Event.ext_iff'.2 ⟨ht.symm, by simp only; omega⟩
    · rw [if_neg ht] at hlab'
      exact Or.inl (h.inserted e (by rw [getEventLabel, hlab']; rfl))
  · rw [hfill.initVals]
    exact h.initVals a

/-- **The first pass clones exactly the labels in the view**, next to a new initializer. -/
theorem cloned_cloneLabels (hs : g.Slots) (hst : g.Stamped) (v : View) :
    Cloned g v g.getNumThreads (g.cloneLabels v) := by
  have hprefix : ∀ m, m ≤ g.getNumThreads → Cloned g v m
      (((List.range m).flatMap (g.labelsToCopy v)).foldl
        (fun other lab => other.addLabelToGraph lab) (init.resize g.getNumThreads)) := by
    intro m hm
    induction m with
    | zero => exact cloned_zero v
    | succ m ih =>
      rw [List.range_succ, List.flatMap_append, List.foldl_append]
      simpa using (ih (by omega)).step hs hst hm
  exact hprefix _ le_rfl

theorem getEventLabel_cloneLabels (hs : g.Slots) (hst : g.Stamped) (v : View) (e : Event) :
    (g.cloneLabels v).getEventLabel e =
      if e = Event.getInit then some freshInit
      else if v.contains e then (g.getEventLabel e).map EventLabel.clone else none := by
  rw [← getElem?_clonedThread, getEventLabel, (cloned_cloneLabels hs hst v).thread]
  split
  · rfl
  · rename_i ht
    have hnil : g.events.getD e.thread [] = [] := by
      rw [List.getD_eq_getElem?_getD, List.getElem?_eq_none (not_lt.1 ht)]
      rfl
    rw [clonedThread, labelsToCopy_eq, hnil]
    split <;> simp

/-! ## The insertion order of the copy -/

/-- The positions of `g` at which the copy has a label, in the order of `g`. -/
def copiedOrder (g other : ExecutionGraph) : List Event :=
  g.insertionOrder.filterMap fun e => (other.getEventLabel e).map (·.pos)

/-- Pushing labels one after the other stamps them and puts them in the insertion order. -/
theorem foldl_pushInsertion_eq (other : ExecutionGraph) (io : List Event) (o : ExecutionGraph)
    (ho : ∀ e, (o.getEventLabel e).map (·.pos) = (other.getEventLabel e).map (·.pos)) :
    io.foldl pushInsertion o =
      { (io.filterMap fun e => (other.getEventLabel e).map (·.pos)).foldl stampNext o with
        insertionOrder := o.insertionOrder ++
          io.filterMap fun e => (other.getEventLabel e).map (·.pos) } := by
  induction io generalizing o with
  | nil => simp
  | cons x io ih =>
    have hx := ho x
    rw [List.foldl_cons, pushInsertion]
    cases hlab : o.getEventLabel x with
    | none =>
      rw [hlab] at hx
      rw [ih o ho, List.filterMap_cons_none (by simpa using hx.symm)]
    | some lab =>
      have hx' : (other.getEventLabel x).map (·.pos) = some lab.pos := by rw [← hx, hlab]; rfl
      have hpos : ∀ e, (({ o.stampNext lab.pos with
          insertionOrder := o.insertionOrder ++ [lab.pos] } : ExecutionGraph).getEventLabel e).map
            (·.pos) = (other.getEventLabel e).map (·.pos) := by
        intro e
        rw [← ho e]
        show ((o.modify lab.pos _).getEventLabel e).map (·.pos) = _
        rw [getEventLabel_modify, Option.map_map]
        congr 1
        funext l
        simp only [Function.comp_apply]
        split <;> rfl
      simp only
      rw [ih _ hpos, List.filterMap_cons_some
        (f := fun e => (other.getEventLabel e).map (·.pos)) hx',
        List.foldl_cons, foldl_stampNext_eq, foldl_stampNext_eq]
      refine ExecutionGraph.ext rfl ?_ rfl rfl rfl rfl rfl
      simp

/-- The insertion order of the copy, and its stamps. -/
theorem fixInsertionOrder_eq (g other : ExecutionGraph) :
    g.fixInsertionOrder other =
      { other.mapLabels (restampLabel (g.copiedOrder other) 0) with
        insertionOrder := g.copiedOrder other
        timestamp := (g.copiedOrder other).length } := by
  rw [fixInsertionOrder]
  have h := foldl_pushInsertion_eq other g.insertionOrder
    { other with insertionOrder := [], timestamp := 0 } (fun _ => rfl)
  rw [foldl_stampNext_eq] at h
  refine h.trans (ExecutionGraph.ext rfl ?_ ?_ rfl rfl rfl rfl)
  · simp [copiedOrder]
  · simp [copiedOrder]

/-! ## Copying -/

/-- The copy after the first pass and the clean-up. -/
def cleanedCopy (g : ExecutionGraph) (v : View) : ExecutionGraph :=
  (g.cloneLabels v).cleanupBegins
    (fun other bLab => !(bLab.create.any fun c => other.containsPos c))
    (g.cloneLabels v).getNumThreads

/-- The copy when its insertion order has been restored. -/
def orderedCopy (g : ExecutionGraph) (v : View) : ExecutionGraph :=
  g.fixInsertionOrder (g.cleanedCopy v)

theorem copyGraphUpTo_eq (v : View) :
    g.copyGraphUpTo v = g.copyMaps v ((g.orderedCopy v).mapLabels fun lab =>
      if lab.pos ∈ (g.orderedCopy v).insertionOrder then fixPointers g (g.orderedCopy v) v lab
      else lab) :=
  rfl

/-- The list of a location in the copy is the part of the original list that is in the view. -/
theorem getD_appendKept {v : View} {locs m m' : SAddr → Option (List Event)}
    (hm' : ∀ a, (m' a).getD [] = []) (a : SAddr) :
    (appendKept v locs m m' a).getD [] =
      if (locs a).isSome then ((m a).getD []).filter (v.contains ·) else [] := by
  rw [appendKept]
  cases hl : locs a with
  | none => simpa using hm' a
  | some l =>
    simp only [Option.isSome_some, if_true]
    split
    · rename_i h
      rw [hm', h]
    · rw [hm']
      rfl

theorem getEventLabel_orderedCopy (v : View) (e : Event) :
    (g.orderedCopy v).getEventLabel e =
      ((g.cleanedCopy v).getEventLabel e).map
        (restampLabel (g.copiedOrder (g.cleanedCopy v)) 0) := by
  rw [orderedCopy, fixInsertionOrder_eq]
  exact getEventLabel_mapLabels _ e

section Copy

variable (hs : g.Slots) (hst : g.Stamped) (v : View)
include hs hst

theorem cleanedUp_cleanedCopy : CleanedUp (g.cloneLabels v) (g.cleanedCopy v) :=
  cleanedUp_cleanupBegins _ _ (cloned_cloneLabels hs hst v).seated
    fun t ht => by rw [getThreadSize_eq_zero ht]; omega

theorem getEventLabel_cleanedCopy {e : Event} (he : 0 < e.index) :
    (g.cleanedCopy v).getEventLabel e =
      if v.contains e then (g.getEventLabel e).map EventLabel.clone else none := by
  rw [(cleanedUp_cleanedCopy hs hst v).label e he, getEventLabel_cloneLabels hs hst,
    if_neg (fun h => by rw [h] at he; exact lt_irrefl _ he)]

theorem co_copyGraphUpTo (a : SAddr) :
    (g.copyGraphUpTo v).co a =
      if (g.coherence a).isSome then (g.co a).filter (v.contains ·) else [] := by
  refine getD_appendKept (fun a => ?_) a
  show ((g.orderedCopy v).coherence a).getD [] = []
  rw [orderedCopy, fixInsertionOrder_eq]
  show ((g.cleanedCopy v).coherence a).getD [] = []
  rw [(cleanedUp_cleanedCopy hs hst v).coherence]
  exact (cloned_cloneLabels hs hst v).co a

theorem initReaders_copyGraphUpTo (a : SAddr) :
    (g.copyGraphUpTo v).initReaders a =
      if (g.coherence a).isSome then (g.initReaders a).filter (v.contains ·) else [] := by
  refine getD_appendKept (fun a => ?_) a
  show ((g.orderedCopy v).initRfs a).getD [] = []
  rw [orderedCopy, fixInsertionOrder_eq]
  show ((g.cleanedCopy v).initRfs a).getD [] = []
  rw [(cleanedUp_cleanedCopy hs hst v).initRfs]
  exact (cloned_cloneLabels hs hst v).initReaders a

/-- A pointer to a label of the view stays, other pointers are dropped. -/
theorem relink_orderedCopy {e : Event} (he : 0 < e.index) :
    relink (g.orderedCopy v) v e =
      if v.contains e && (g.getEventLabel e).isSome then some e else none := by
  rw [relink, getEventLabel_orderedCopy, getEventLabel_cleanedCopy hs hst v he]
  cases hv : v.contains e with
  | false => rfl
  | true =>
    cases hlab : g.getEventLabel e with
    | none => rfl
    | some lab =>
      have := hs e lab hlab
      simp [restampLabel, EventLabel.clone, this]

/-- Pointers to the initializer stay. -/
theorem relink_orderedCopy_init :
    relink (g.orderedCopy v) v Event.getInit = some Event.getInit := by
  have hinit : (g.cloneLabels v).getEventLabel Event.getInit = some freshInit := by
    rw [getEventLabel_cloneLabels hs hst, if_pos rfl]
  obtain ⟨lab, hlab, -, hpos⟩ := (cleanedUp_cleanedCopy hs hst v).init _ hinit rfl
  rw [relink, if_pos (v.contains_of_index_eq_zero rfl), getEventLabel_orderedCopy, hlab]
  exact congrArg some hpos

/-- The last pass changes no position. -/
theorem seated_copyGraphUpTo : (g.copyGraphUpTo v).Seated := by
  have hseat : (g.orderedCopy v).Seated := by
    rw [orderedCopy, fixInsertionOrder_eq]
    exact (cleanedUp_cleanedCopy hs hst v).seated.mapLabels (f := restampLabel _ 0) fun _ => rfl
  rw [copyGraphUpTo_eq]
  show ((g.orderedCopy v).mapLabels _).Seated
  refine hseat.mapLabels fun lab => ?_
  split <;> rfl

/-- **What the copy has at a position**: the label of the original, if the view contains it, with
its pointers led into the copy. -/
theorem getEventLabel_copyGraphUpTo
    (hio : ∀ e, 0 < e.index → (g.getEventLabel e).isSome → e ∈ g.insertionOrder) {e : Event}
    (he : 0 < e.index) :
    (g.copyGraphUpTo v).getEventLabel e =
      if v.contains e then (g.getEventLabel e).map fun lab =>
        fixPointers g (g.orderedCopy v) v
          (restampLabel (g.copiedOrder (g.cleanedCopy v)) 0 lab.clone)
      else none := by
  rw [copyGraphUpTo_eq]
  show ((g.orderedCopy v).mapLabels _).getEventLabel e = _
  rw [getEventLabel_mapLabels, getEventLabel_orderedCopy,
    getEventLabel_cleanedCopy hs hst v he]
  cases hv : v.contains e with
  | false => rfl
  | true =>
    cases hlab : g.getEventLabel e with
    | none => rfl
    | some lab =>
      have hpos := hs e lab hlab
      have hmem : e ∈ (g.orderedCopy v).insertionOrder := by
        rw [orderedCopy, fixInsertionOrder_eq]
        refine List.mem_filterMap.2 ⟨e, hio e he (by rw [hlab]; rfl), ?_⟩
        rw [getEventLabel_cleanedCopy hs hst v he, hv, if_pos rfl, hlab]
        exact congrArg some hpos
      simp only [if_true, Option.map_some, Option.some.injEq]
      rw [if_pos]
      show lab.pos ∈ _
      rwa [hpos]

end Copy

theorem restamp_isSome {io : List Event} {n : ℕ} {e : Event} {s : Option ℕ} (h : s.isSome) :
    (restamp io n e s).isSome := by
  induction io generalizing n s with
  | nil => exact h
  | cons x io ih =>
    rw [restamp]
    refine ih ?_
    split
    · rfl
    · exact h

theorem isSome_appendKept {v : View} {locs m m' : SAddr → Option (List Event)} {a : SAddr}
    (h : (m' a).isSome) : (appendKept v locs m m' a).isSome := by
  rw [appendKept]
  split
  · exact h
  · split
    · exact h
    · rfl

end ExecutionGraph
end GenMC
