import GenMC.Execution.ExecutionState

/-!
# Which bytes are initialized

A store initializes the bytes that no earlier one has.  `markInitialized` starts with the interval
of the store, subtracts the segments of the map that overlap with it, and adds the event of the
store to what is left.  `isInitialized` joins the summaries of all bytes of an access and asks
whether the result is empty.

* `markInitialized_exact`: **the first store to a byte wins**, in every state.
* `isInitialized_iff`: `isInitialized` only asks whether **some** byte of the access was stored to.
* `isInitialized_exact_iff`: it tells whether all bytes were stored to if the access has bytes, and
  either all of them were stored to or none.
-/

set_option autoImplicit false

namespace GenMC
namespace ExecutionState

open SharedView.Memory

/-! ## Maps of the first stores -/

/-- Nothing, or one event without a view. -/
def Plain : AdaptiveView → Prop
  | .empty => True
  | .event _ => True
  | _ => False

theorem Plain.ext {x y : AdaptiveView} (hx : Plain x) (hy : Plain y) (h : x.shape = y.shape) :
    x = y := by
  cases x <;> cases y <;> simp_all [Plain, AdaptiveView.shape]

/-- What is known of the map in every state. -/
structure Tracked (m : AdaptiveViewMap) : Prop where
  reachable : IntervalMap.Reachable .empty m
  plain : ∀ seg ∈ m.map, Plain seg.2

theorem tracked_empty : Tracked (.empty .empty) :=
  ⟨.empty, fun _ h => absurd h List.not_mem_nil⟩

theorem Tracked.plain_valueAt {m : AdaptiveViewMap} (h : Tracked m) (p : SAddr) :
    Plain (m.valueAt p) := by
  rcases IntervalMap.valueIn_eq_or p m.map m.id with hid | ⟨seg, hseg, hvalue⟩
  · rw [IntervalMap.valueAt, hid, h.reachable.id_eq]
    trivial
  · rw [IntervalMap.valueAt, hvalue]
    exact h.plain seg hseg

theorem Tracked.beq_empty_iff {m : AdaptiveViewMap} (h : Tracked m) (p : SAddr) :
    (m.valueAt p == .empty) = true ↔ m.valueAt p = .empty :=
  AdaptiveView.beq_iff.trans
    ⟨fun hshape => (h.plain_valueAt p).ext trivial hshape, fun heq => by rw [heq]⟩

/-- Adding an update where there is nothing. -/
theorem Tracked.addUpdate {m : AdaptiveViewMap} (h : Tracked m) {iv : SAddr × SAddr} (pos : Event)
    (view : CowView) (hempty : ∀ p, iv.1 ≤ p → p < iv.2 → m.valueAt p = .empty) :
    Tracked (addUpdate m iv pos view) ∧ ∀ p, (ExecutionState.addUpdate m iv pos view).valueAt p =
      if iv.1 ≤ p ∧ p < iv.2 then .event pos else m.valueAt p := by
  have hid := h.reachable.id_eq
  have htracked : Tracked (ExecutionState.addUpdate m iv pos view) := by
    refine ⟨.add _ _ _ _ h.reachable, IntervalMap.forall_mem_add_of_valueAt ?_ ?_ h.plain⟩
    · rw [hid]
      trivial
    · intro p others hp hps
      rw [hempty p hp hps]
      trivial
  refine ⟨htracked, fun p => (htracked.plain_valueAt p).ext ?_ ?_⟩
  · split
    · trivial
    · exact h.plain_valueAt p
  · by_cases hse : iv.1 < iv.2
    · refine IntervalMap.valueAt_add hse (by rw [hid]; rfl) (R := fun p x => x = m.valueAt p)
        (Q := fun p x => x.shape =
          (if iv.1 ≤ p ∧ p < iv.2 then AdaptiveView.event pos else m.valueAt p).shape)
        (fun p x y hxy => by rw [AdaptiveView.beq_iff.1 hxy]) (fun p x others hp hps hx => ?_)
        (fun p x hp hx => ?_) (fun p => rfl) p
      · rw [if_pos ⟨hp, hps⟩, hx, hempty p hp hps]
        rfl
      · rw [if_neg hp, hx]
    · have hskip : ExecutionState.addUpdate m iv pos view = m := by
        rw [ExecutionState.addUpdate, IntervalMap.add, dif_pos (.inl (not_lt.1 hse))]
      rw [hskip, if_neg fun hp => hse (hp.1.trans_lt hp.2)]

/-- Adding an update to several intervals where there is nothing. -/
theorem Tracked.foldl_addUpdate (pos : Event) (view : CowView) (ivs : List (SAddr × SAddr)) :
    ∀ {m : AdaptiveViewMap}, Tracked m → (ivs.Pairwise fun a b => a.2 ≤ b.1) →
      (∀ iv ∈ ivs, ∀ p, iv.1 ≤ p → p < iv.2 → m.valueAt p = .empty) →
      Tracked (ivs.foldl (fun m iv => ExecutionState.addUpdate m iv pos view) m) ∧
        ∀ p, (ivs.foldl (fun m iv => ExecutionState.addUpdate m iv pos view) m).valueAt p =
          if ∃ iv ∈ ivs, iv.1 ≤ p ∧ p < iv.2 then .event pos else m.valueAt p := by
  induction ivs with
  | nil =>
    intro m h _ _
    exact ⟨h, fun p => by simp⟩
  | cons iv ivs ih =>
    intro m h hpair hempty
    obtain ⟨hfirst, hpair⟩ := List.pairwise_cons.1 hpair
    obtain ⟨htracked, hvalue⟩ := h.addUpdate pos view (hempty iv (List.mem_cons_self ..))
    -- the other intervals come after this one
    obtain ⟨htracked', hvalue'⟩ := ih htracked hpair fun iv' hiv' p hp hps => by
      rw [hvalue, if_neg fun hc => absurd (hc.2.trans_le (hfirst iv' hiv')) (not_lt.2 hp)]
      exact hempty iv' (List.mem_cons_of_mem _ hiv') p hp hps
    refine ⟨htracked', fun p => (hvalue' p).trans ?_⟩
    rw [hvalue]
    by_cases htail : ∃ iv' ∈ ivs, iv'.1 ≤ p ∧ p < iv'.2
    · rw [if_pos htail, if_pos (htail.imp fun iv' h => ⟨List.mem_cons_of_mem _ h.1, h.2⟩)]
    · rw [if_neg htail]
      simp only [List.exists_mem_cons_iff, htail, or_false]

/-! ## The parts that are not initialized -/

theorem mem_intersect_iff (a b : SAddr × SAddr) (p : SAddr) :
    (intersect a b).1 ≤ p ∧ p < (intersect a b).2 ↔
      (a.1 ≤ p ∧ p < a.2) ∧ b.1 ≤ p ∧ p < b.2 := by
  rw [intersect]
  simp only [max_le_iff, lt_max_iff, lt_min_iff]
  refine ⟨?_, ?_⟩
  · rintro ⟨⟨ha, hb⟩, (h | h) | h⟩
    · exact absurd ha (not_le.2 h)
    · exact absurd hb (not_le.2 h)
    · exact ⟨⟨ha, h.1⟩, hb, h.2⟩
  · rintro ⟨⟨ha, ha'⟩, hb, hb'⟩
    exact ⟨⟨ha, hb⟩, .inr ⟨ha', hb'⟩⟩

/-- What is left of a set after subtracting the parts of some segments that are in an interval. -/
theorem subtract_segments (iv : SAddr × SAddr)
    (segs : List (IntervalMap.Entry SAddr AdaptiveView)) :
    ∀ {S : IntervalSet SAddr}, IntervalMap.Reachable false S.map →
      let S' := segs.foldl (fun parts it =>
        parts.subtract (intersect (it.start, it.stop) iv).1 (intersect (it.start, it.stop) iv).2) S
      IntervalMap.Reachable false S'.map ∧ ∀ p, S'.map.valueAt p = true ↔
        S.map.valueAt p = true ∧ ∀ seg ∈ segs, ¬ (seg.Has p ∧ iv.1 ≤ p ∧ p < iv.2) := by
  induction segs with
  | nil =>
    intro S h
    exact ⟨h, fun p => by simp⟩
  | cons seg segs ih =>
    intro S h
    obtain ⟨hreach, hvalue⟩ := ih (S := S.subtract (intersect (seg.start, seg.stop) iv).1
      (intersect (seg.start, seg.stop) iv).2) (h.erase _ _)
    refine ⟨hreach, fun p => (hvalue p).trans ?_⟩
    rw [IntervalSet.valueAt_subtract _ h.id_eq, mem_intersect_iff, List.forall_mem_cons, and_assoc]
    rfl

/-- **The parts that are not initialized**: the points of an interval where the map has nothing. -/
theorem uninitParts_spec {m : AdaptiveViewMap} (h : IntervalMap.Reachable .empty m)
    {iv : SAddr × SAddr} (hiv : iv.1 < iv.2) :
    IntervalMap.Reachable false (State.uninitParts m iv).map ∧
      ∀ p, (State.uninitParts m iv).map.valueAt p = true ↔
        (iv.1 ≤ p ∧ p < iv.2) ∧ (m.valueAt p == .empty) = true := by
  obtain ⟨hreach, hvalue⟩ := subtract_segments iv (m.entriesIn iv.1 iv.2)
    (S := IntervalSet.empty.add iv.1 iv.2) (.add _ _ _ _ .empty)
  refine ⟨hreach, fun p => (hvalue p).trans ?_⟩
  rw [IntervalSet.valueAt_add _ rfl]
  have hempty : ¬ (IntervalSet.empty (K := SAddr)).map.valueAt p = true := Bool.false_ne_true
  rw [or_iff_right hempty]
  refine and_congr_right fun hp => ?_
  refine ⟨fun hall => ?_, ?_⟩
  · by_contra hne
    obtain ⟨seg, hseg, hhas⟩ := h.reduced.exists_isMaximal (q := p)
      (by rw [h.id_eq]; exact Bool.eq_false_iff.2 hne)
    exact hall seg ((h.reduced.mem_entriesIn hiv).2 ⟨hseg, p, hhas, hp⟩) ⟨hhas, hp⟩
  · rintro heq seg hseg ⟨hhas, -⟩
    have hmax := ((h.reduced.mem_entriesIn hiv).1 hseg).1
    have := hmax.ne_id
    rw [← BEq.congr_left (hmax.constant p hhas), h.id_eq, heq] at this
    exact Bool.noConfusion this

/-- The intervals of a set have its points. -/
theorem exists_interval_iff {S : IntervalSet SAddr} (h : IntervalMap.Reachable false S.map)
    (p : SAddr) : (∃ iv ∈ S.intervals, iv.1 ≤ p ∧ p < iv.2) ↔ S.map.valueAt p = true := by
  refine ⟨?_, fun hvalue => ?_⟩
  · rintro ⟨iv, hiv, hp⟩
    obtain ⟨seg, hseg, rfl⟩ := List.mem_map.1 hiv
    have hmax := h.reduced.mem_entries.1 hseg
    have hne := hmax.ne_id
    rw [← BEq.congr_left (hmax.constant p hp), h.id_eq] at hne
    simpa using hne
  · obtain ⟨seg, hseg, hhas⟩ := h.reduced.exists_isMaximal (q := p) (by rw [h.id_eq, hvalue]; rfl)
    exact ⟨_, List.mem_map_of_mem (h.reduced.mem_entries.2 hseg), hhas⟩

/-! ## The first store wins -/

/-- What `markInitialized` does to the value of every byte. -/
theorem Tracked.markInitializedIn {m : AdaptiveViewMap} (h : Tracked m) (access : AAccess)
    (pos : Event) (view : CowView) : Tracked (State.markInitializedIn m access pos view) ∧
      ∀ p, (State.markInitializedIn m access pos view).valueAt p =
        if access.At p ∧ (m.valueAt p == .empty) = true then .event pos else m.valueAt p := by
  have hid := h.reachable.id_eq
  rw [State.markInitializedIn]
  by_cases hcontains : (m.findInterval (makeInterval access).1 (makeInterval access).2).isSome
  · -- one segment has the whole interval
    obtain ⟨seg, hseg⟩ := Option.isSome_iff_exists.1 hcontains
    obtain ⟨hmax, hstart, hstop⟩ := h.reachable.reduced.findInterval_eq_some_iff.1 hseg
    rw [if_pos hcontains]
    refine ⟨h, fun p => (if_neg ?_).symm⟩
    rintro ⟨hp, hempty⟩
    have hne := hmax.ne_id
    rw [← BEq.congr_left (hmax.constant p ⟨hstart.1.trans hp.1, hp.2.trans_le hstop⟩), hid,
      hempty] at hne
    exact Bool.noConfusion hne
  rw [if_neg hcontains]
  by_cases hse : (makeInterval access).1 < (makeInterval access).2
  · obtain ⟨hreach, hvalue⟩ := uninitParts_spec h.reachable hse
    have hpair : (State.uninitParts m (makeInterval access)).intervals.Pairwise
        fun a b => a.2 ≤ b.1 := List.pairwise_map.2 (IntervalMap.pairwise_entries _)
    have hparts := exists_interval_iff hreach
    obtain ⟨htracked, hvalue'⟩ := h.foldl_addUpdate pos view _ hpair fun iv hiv p hp hps =>
      (h.beq_empty_iff p).1 ((hvalue p).1 ((hparts p).1 ⟨iv, hiv, hp, hps⟩)).2
    refine ⟨htracked, fun p => (hvalue' p).trans (if_congr ?_ rfl rfl)⟩
    rw [hparts, hvalue]
    rfl
  · -- an interval without addresses has no parts
    have hparts : State.uninitParts m (makeInterval access) = .empty := by
      rw [State.uninitParts, IntervalMap.entriesIn_of_le (not_lt.1 hse), List.foldl_nil,
        IntervalSet.add, IntervalMap.add, dif_pos (.inl (not_lt.1 hse))]
    rw [hparts]
    exact ⟨h, fun p => (if_neg fun hp => hse (hp.1.1.trans_lt hp.1.2)).symm⟩

theorem Tracked.onInitialized {m : AdaptiveViewMap} (h : Tracked m) (c : Call) :
    Tracked (c.onInitialized m) := by
  cases c with
  | onNAStore pos access view val => exact (h.markInitializedIn access pos view).1
  | onATStore pos access view isEffectful isRelease =>
    exact (h.markInitializedIn access pos view).1
  | clear => exact tracked_empty
  | _ => exact h

theorem State.Reachable.tracked {s : State} (h : s.Reachable) : Tracked s.initialized := by
  obtain ⟨calls, hrun⟩ := h
  refine State.run_invariant (P := fun _ s => Tracked s.initialized) tracked_empty
    (fun {calls s c s'} ih hexec => ?_) hrun
  rw [(State.exec_effect hexec).initialized]
  exact ih.onInitialized c

/-- **The first store to a byte wins**: the bytes that are initialized stay as they are, the other
bytes of the access are initialized by the event, and nothing else changes. -/
theorem markInitialized_exact {s : State} (h : s.Reachable) (access : AAccess) (pos : Event)
    (view : CowView) :
    (∀ p, s.initialized.valueAt p ≠ .empty →
      (s.markInitialized access pos view).initialized.valueAt p = s.initialized.valueAt p) ∧
    (∀ p, access.At p → s.initialized.valueAt p = .empty →
      (s.markInitialized access pos view).initialized.valueAt p = .event pos) ∧
    (∀ p, ¬ access.At p →
      (s.markInitialized access pos view).initialized.valueAt p = s.initialized.valueAt p) := by
  have hvalue := (h.tracked.markInitializedIn access pos view).2
  refine ⟨fun p hp => ?_, fun p hp hempty => ?_, fun p hp => ?_⟩
  · exact (hvalue p).trans (if_neg fun hc => hp ((h.tracked.beq_empty_iff p).1 hc.2))
  · exact (hvalue p).trans (if_pos ⟨hp, (h.tracked.beq_empty_iff p).2 hempty⟩)
  · exact (hvalue p).trans (if_neg fun hc => hp hc.1)

/-- Two stores that overlap, and a third one over both. -/
def overlappingStores : List Call :=
  [.onNAStore ⟨1, 1⟩ ⟨16, 4⟩ ⟨none, ⟨1, 1⟩⟩ none,
    .onATStore ⟨2, 1⟩ ⟨18, 4⟩ ⟨none, ⟨2, 1⟩⟩ true false]

theorem overlappingStores_markInitialized : ∃ s, State.init.run overlappingStores = some s ∧
    (s.markInitialized ⟨14, 16⟩ ⟨3, 1⟩ ⟨none, ⟨3, 1⟩⟩).initialized.valueAt 24 = .event ⟨3, 1⟩ := by
  obtain ⟨s, hs⟩ : ∃ s, State.init.run overlappingStores = some s := ⟨_, rfl⟩
  refine ⟨s, hs, (markInitialized_exact ⟨_, hs⟩ ⟨14, 16⟩ ⟨3, 1⟩ ⟨none, ⟨3, 1⟩⟩).2.1 24
    (by decide) ?_⟩
  obtain rfl := Option.some.inj hs
  rfl

/-! ## Initialized accesses -/

/-- The event and the access of a store. -/
def Call.store : Call → Option (Event × AAccess)
  | .onNAStore pos access _ _ => some (pos, access)
  | .onATStore pos access _ _ _ => some (pos, access)
  | _ => none

/-- A byte is one of those that a call stores to. -/
def Call.StoresTo (c : Call) (p : SAddr) : Prop :=
  ∃ pos access, c.store = some (pos, access) ∧ access.At p

/-- Some call has stored to a byte. -/
def Covered (calls : List Call) (p : SAddr) : Prop := ∃ c ∈ calls, c.StoresTo p

/-- Events of stores are never the first ones of their threads. -/
def StoresAfterStart (calls : List Call) : Prop :=
  ∀ c ∈ calls, ∀ pos access, c.store = some (pos, access) → 0 < pos.index

theorem covered_concat {calls : List Call} {c : Call} {p : SAddr} :
    Covered (calls ++ [c]) p ↔ Covered calls p ∨ c.StoresTo p := by
  simp [Covered, or_and_right, exists_or]

theorem covered_concat_of_not {calls : List Call} {c : Call} {p : SAddr} (h : ¬ c.StoresTo p) :
    Covered (calls ++ [c]) p ↔ Covered calls p := by
  rw [covered_concat, or_iff_left h]

theorem Call.not_storesTo_of_store_eq_none {c : Call} (h : c.store = none) (p : SAddr) :
    ¬ c.StoresTo p := by
  rintro ⟨pos, access, hstore, -⟩
  rw [h] at hstore
  cases hstore

theorem storesAfterStart_concat {calls : List Call} {c : Call} :
    StoresAfterStart (calls ++ [c]) ↔ StoresAfterStart calls ∧
      ∀ pos access, c.store = some (pos, access) → 0 < pos.index := by
  simp only [StoresAfterStart, List.forall_mem_append, List.forall_mem_singleton]

/-- What the map has for a byte. -/
structure FirstStore (calls : List Call) (p : SAddr) (x : AdaptiveView) : Prop where
  covered : Covered calls p → ∃ e, x = .event e ∧ 0 < e.index
  uncovered : ¬ Covered calls p → x = .empty

/-- A store that initializes what is not initialized yet. -/
theorem FirstStore.store {calls : List Call} {m : AdaptiveViewMap} (hm : Tracked m)
    (h : ∀ p, FirstStore calls p (m.valueAt p)) {c : Call} {pos : Event} {access : AAccess}
    (hc : c.store = some (pos, access)) (hpos : 0 < pos.index) (view : CowView) (p : SAddr) :
    FirstStore (calls ++ [c]) p ((State.markInitializedIn m access pos view).valueAt p) := by
  have hto : c.StoresTo p ↔ access.At p := by simp [Call.StoresTo, hc]
  rw [(hm.markInitializedIn access pos view).2]
  by_cases hcovered : Covered calls p
  · obtain ⟨e, he, hindex⟩ := (h p).covered hcovered
    rw [if_neg fun hc => by simpa [he] using (hm.beq_empty_iff p).1 hc.2]
    exact ⟨fun _ => ⟨e, he, hindex⟩, fun hn => absurd (covered_concat.2 (.inl hcovered)) hn⟩
  · have hempty := (h p).uncovered hcovered
    by_cases hp : access.At p
    · rw [if_pos ⟨hp, (hm.beq_empty_iff p).2 hempty⟩]
      exact ⟨fun _ => ⟨pos, rfl, hpos⟩, fun hn => absurd (covered_concat.2 (.inr (hto.2 hp))) hn⟩
    · rw [if_neg fun hc => hp hc.1]
      refine ⟨fun hc => ?_, fun _ => hempty⟩
      exact ((covered_concat.1 hc).elim hcovered fun h => hp (hto.1 h)).elim

theorem firstStore_run {calls : List Call} {s : State} (hrun : State.init.run calls = some s)
    (hclear : Call.clear ∉ calls) (hstart : StoresAfterStart calls) (p : SAddr) :
    FirstStore calls p (s.initialized.valueAt p) := by
  refine (State.run_invariant (P := fun calls s => Tracked s.initialized ∧
    (Call.clear ∉ calls → StoresAfterStart calls →
      ∀ p, FirstStore calls p (s.initialized.valueAt p))) ?_ ?_ hrun).2 hclear hstart p
  · exact ⟨tracked_empty, fun _ _ p => ⟨fun ⟨c, hc, _⟩ => absurd hc List.not_mem_nil, fun _ => rfl⟩⟩
  · rintro calls s c s' ⟨htracked, ih⟩ hexec
    rw [(State.exec_effect hexec).initialized]
    refine ⟨htracked.onInitialized c, fun hclear hstart p => ?_⟩
    obtain ⟨hstart, hlast⟩ := storesAfterStart_concat.1 hstart
    have ih := ih (fun h => hclear (List.mem_append_left _ h)) hstart
    -- a call that is no store covers nothing and leaves the map as it is
    have hskip : c.store = none → FirstStore (calls ++ [c]) p (s.initialized.valueAt p) := by
      intro hnone
      have hsame := @covered_concat_of_not calls c p (c.not_storesTo_of_store_eq_none hnone p)
      exact ⟨fun hc => (ih p).covered (hsame.1 hc), fun hn =>
        (ih p).uncovered fun hc => hn (hsame.2 hc)⟩
    cases c with
    | onNAStore pos access view val => exact .store htracked ih rfl (hlast pos access rfl) view p
    | onATStore pos access view isEffectful isRelease =>
      exact .store htracked ih rfl (hlast pos access rfl) view p
    | clear => exact absurd (List.mem_append_right _ (List.mem_singleton.2 rfl)) hclear
    | _ => exact hskip rfl

/-- **What `isInitialized` tells**: whether some byte of the access was stored to. -/
theorem isInitialized_iff {calls : List Call} {s : State} (hrun : State.init.run calls = some s)
    (hclear : Call.clear ∉ calls) (hstart : StoresAfterStart calls) (access : AAccess) :
    s.isInitialized access = true ↔ ∃ p, access.At p ∧ Covered calls p := by
  have hfirst := firstStore_run hrun hclear hstart
  have hid : s.initialized.id = .empty := (State.Reachable.tracked ⟨_, hrun⟩).reachable.id_eq
  have hempty := isEmpty_getMaxView_iff hid (P := Covered calls) (fun p hc => ?_)
    (fun p hn => by rw [(hfirst p).uncovered hn]; rfl) access
  · rw [State.isInitialized, State.getInitView, Bool.not_eq_true', ← Bool.not_eq_true, hempty]
    push Not
    rfl
  · obtain ⟨e, he, hindex⟩ := (hfirst p).covered hc
    refine ⟨e.thread, ?_⟩
    rw [he, AdaptiveView.seen, eventAt, if_pos rfl]
    exact hindex.ne'

/-- **`isInitialized` tells whether all bytes were stored to** exactly if the access has bytes and a
store to one of them means that all were stored to. -/
theorem isInitialized_exact_iff {calls : List Call} {s : State}
    (hrun : State.init.run calls = some s) (hclear : Call.clear ∉ calls)
    (hstart : StoresAfterStart calls) (access : AAccess) :
    (s.isInitialized access = true ↔ ∀ p, access.At p → Covered calls p) ↔
      (∃ p, access.At p) ∧
        ((∃ p, access.At p ∧ Covered calls p) → ∀ p, access.At p → Covered calls p) := by
  rw [isInitialized_iff hrun hclear hstart access]
  refine ⟨fun hiff => ?_, ?_⟩
  · refine ⟨?_, hiff.1⟩
    by_contra hnone
    obtain ⟨p, hp, -⟩ := hiff.2 fun p hp => absurd ⟨p, hp⟩ hnone
    exact hnone ⟨p, hp⟩
  · rintro ⟨⟨p, hp⟩, hcond⟩
    exact ⟨hcond, fun hall => ⟨p, hp, hall p hp⟩⟩

/-- A store to the first half of eight bytes. -/
def halfStored : List Call := [.onNAStore ⟨1, 1⟩ ⟨16, 4⟩ ⟨none, ⟨1, 1⟩⟩ none]

theorem halfStored_afterStart : StoresAfterStart halfStored := by
  intro c hc pos access hstore
  obtain rfl := List.mem_singleton.1 hc
  cases hstore
  decide

theorem halfStored_isInitialized : ∃ s, State.init.run halfStored = some s ∧
    ((s.isInitialized ⟨16, 4⟩ = true ↔ ∀ p, AAccess.At ⟨16, 4⟩ p → Covered halfStored p) ↔
      (∃ p, AAccess.At ⟨16, 4⟩ p) ∧
        ((∃ p, AAccess.At ⟨16, 4⟩ p ∧ Covered halfStored p) →
          ∀ p, AAccess.At ⟨16, 4⟩ p → Covered halfStored p)) :=
  ⟨_, rfl, isInitialized_exact_iff rfl (by simp [halfStored]) halfStored_afterStart ⟨16, 4⟩⟩

/-- Eight bytes count as initialized when only the first four are. -/
theorem halfStored_not_exact : ¬ ∀ (calls : List Call) (s : State) (access : AAccess),
    (∀ c ∈ calls, c.store.isSome) → StoresAfterStart calls → State.init.run calls = some s →
      (s.isInitialized access = true ↔ ∀ p, access.At p → Covered calls p) := by
  intro hall
  obtain ⟨s, hs⟩ : ∃ s, State.init.run halfStored = some s := ⟨_, rfl⟩
  have hiff := hall halfStored s ⟨16, 8⟩ (by simp [halfStored, Call.store])
    halfStored_afterStart hs
  have hyes : s.isInitialized ⟨16, 8⟩ = true := by
    obtain rfl := Option.some.inj hs
    decide
  obtain ⟨c, hc, pos, access, hstore, hp⟩ := hiff.1 hyes 20 (by decide)
  obtain rfl := List.mem_singleton.1 hc
  cases hstore
  revert hp
  decide

end ExecutionState
end GenMC
