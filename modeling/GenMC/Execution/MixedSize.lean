import GenMC.Execution.ExecutionState

/-!
# Atomic accesses of mixed sizes

Before an atomic access is recorded, `isAtomicAccessConsistent` looks for an earlier one with other
bounds.  It takes the segment of the map that has all of the new access, if there is one, and
compares its bounds with those of the access.

* `Uniform`, `isMaximal_access`: where accesses that overlap are the same, the segments of the map
  are the accesses.
* `matchesSegment_eq_false_iff`: what is found are the accesses that contain the new one.
* `catchesMixed_iff`: in a run of checked accesses that were contained in those they overlapped
  with, **mixed accesses are caught exactly if the new access is contained in all that it overlaps
  with**.
-/

set_option autoImplicit false

namespace GenMC
namespace ExecutionState

open SharedView.Memory

/-! ## The segments of a map of recordings -/

/-- The access has bytes, and does not wrap around. -/
def AAccess.Nonempty (access : AAccess) : Prop :=
  (makeInterval access).1 < (makeInterval access).2

instance (access : AAccess) : Decidable access.Nonempty := inferInstanceAs (Decidable (_ < _))

theorem AAccess.At.nonempty {access : AAccess} {p : SAddr} (h : access.At p) : access.Nonempty :=
  h.1.trans_lt h.2

theorem AAccess.Nonempty.at_start {access : AAccess} (h : access.Nonempty) :
    access.At (makeInterval access).1 := ⟨le_rfl, h⟩

theorem reachable_recordAll (h : List Record) : IntervalMap.Reachable .empty (recordAll h) := by
  induction h using List.reverseRecOn with
  | nil => exact .empty
  | append_singleton h r ih =>
    rw [recordAll_concat]
    exact .add _ _ _ _ ih

/-- Segments start at the ends of accesses. -/
theorem start_recordAll (h : List Record) : ∀ seg ∈ (recordAll h).map, ∃ r ∈ h,
    r.access.Nonempty ∧
      (seg.1 = (makeInterval r.access).1 ∨ seg.1 = (makeInterval r.access).2) := by
  induction h using List.reverseRecOn with
  | nil => exact fun seg hseg => absurd hseg List.not_mem_nil
  | append_singleton h r ih =>
    have hold : ∀ seg ∈ (recordAll h).map, ∃ r' ∈ h ++ [r], r'.access.Nonempty ∧
        (seg.1 = (makeInterval r'.access).1 ∨ seg.1 = (makeInterval r'.access).2) := by
      intro seg hseg
      obtain ⟨r', hr', hrest⟩ := ih seg hseg
      exact ⟨r', List.mem_append_left _ hr', hrest⟩
    rw [recordAll_concat, recordMemAccess]
    by_cases hne : r.access.Nonempty
    · intro seg hseg
      rcases IntervalMap.mem_add seg hseg with hstart | hstop | hkey
      · exact ⟨r, by simp, hne, .inl hstart⟩
      · exact ⟨r, by simp, hne, .inr hstop⟩
      · obtain ⟨seg', hseg', heq⟩ := List.mem_map.1 hkey
        rw [← heq]
        exact hold seg' hseg'
    · rw [IntervalMap.add, dif_pos (.inl (not_lt.1 hne))]
      exact hold

/-- What a value tells about the recordings at its address. -/
structure Latest (h : List Record) (p : SAddr) (x : AdaptiveView) : Prop where
  recorded : ∀ t, x.seen t ≠ 0 → ∃ r ∈ h, r.access.At p ∧ r.pos = ⟨t, x.seen t⟩
  seen : (∃ r ∈ h, r.access.At p) → ∃ t, x.seen t ≠ 0
  empty : (¬ ∃ r ∈ h, r.access.At p) → (x == .empty) = true

theorem Latest.congr {h : List Record} {p : SAddr} {x y : AdaptiveView} (hxy : (x == y) = true)
    (hx : Latest h p x) : Latest h p y := by
  have hseen : x.seen = y.seen := funext (AdaptiveView.seen_eq_of_beq hxy)
  exact ⟨hseen ▸ hx.recorded, hseen ▸ hx.seen, fun hn => BEq.trans (BEq.symm hxy) (hx.empty hn)⟩

theorem latest_recordAll {h : List Record} (hstart : ∀ r ∈ h, 0 < r.pos.index) (p : SAddr) :
    Latest h p ((recordAll h).valueAt p) := by
  induction h using List.reverseRecOn generalizing p with
  | nil =>
    refine ⟨fun t ht => absurd rfl ht, ?_, fun _ => BEq.rfl⟩
    rintro ⟨r, hr, -⟩
    exact absurd hr List.not_mem_nil
  | append_singleton h r ih =>
    have ih := ih fun r' hr' => hstart r' (List.mem_append_left _ hr')
    have hr : r ∈ h ++ [r] := List.mem_append_right _ (List.mem_singleton.2 rfl)
    rw [recordAll_concat]
    refine valueAt_recordMemAccess (id_recordAll h) r (R := Latest h)
      (fun p x y hxy => ⟨.congr hxy, .congr (BEq.symm hxy)⟩) (fun p x others hp hx => ?_)
      (fun p x hp hx => ?_) ih p
    · refine ⟨fun t ht => ?_, fun _ => ⟨r.pos.thread, ?_⟩, fun hn => absurd ⟨r, hr, hp⟩ hn⟩
      · rcases AdaptiveView.seen_addUpdate_eq_or others x r.pos r.view t with hs | hs | hs
        · exact absurd hs ht
        · rw [hs] at ht ⊢
          obtain ⟨r', hr', hrest⟩ := hx.recorded t ht
          exact ⟨r', List.mem_append_left _ hr', hrest⟩
        · rw [hs] at ht ⊢
          have hthread : r.pos.thread = t := by
            by_contra hne
            exact ht (if_neg hne)
          subst hthread
          exact ⟨r, hr, hp, by rw [eventAt, if_pos rfl]⟩
      · have hle := AdaptiveView.eventAt_le_seen_addUpdate others x r.pos r.view r.pos.thread
        rw [eventAt, if_pos rfl] at hle
        have := hstart r hr
        omega
    · refine ⟨fun t ht => ?_, ?_, fun hn => hx.empty ?_⟩
      · obtain ⟨r', hr', hrest⟩ := hx.recorded t ht
        exact ⟨r', List.mem_append_left _ hr', hrest⟩
      · rintro ⟨r', hr', hp'⟩
        rcases List.mem_append.1 hr' with hr' | hr'
        · exact hx.seen ⟨r', hr', hp'⟩
        · rw [List.mem_singleton.1 hr'] at hp'
          exact absurd hp' hp
      · rintro ⟨r', hr', hp'⟩
        exact hn ⟨r', List.mem_append_left _ hr', hp'⟩

/-- Events that are not the first ones of their threads, with one access each. -/
structure Labelled (h : List Record) : Prop where
  started : ∀ r ∈ h, 0 < r.pos.index
  access : ∀ r ∈ h, ∀ r' ∈ h, r.pos = r'.pos → r.access = r'.access

/-- Accesses that overlap are the same. -/
def Uniform (h : List Record) : Prop :=
  ∀ r ∈ h, ∀ r' ∈ h, Overlaps r.access r'.access → r.access = r'.access

section Uniform

variable {h : List Record} {r : Record}

/-- All bytes of an access have the same value. -/
theorem valueAt_access (hu : Uniform h) (hr : r ∈ h) {p : SAddr} (hp : r.access.At p) :
    (recordAll h).valueAt p = (recordAll h).valueAt (makeInterval r.access).1 := by
  refine IntervalMap.valueIn_eq_of_forall hp.1 _ _ fun seg hseg hkey => ?_
  obtain ⟨r', hr', hne', hends⟩ := start_recordAll h seg hseg
  have hlt := hkey.2.trans_lt hp.2
  rcases hends with hstart | hstop
  · -- another access starts inside of this one
    rw [hstart] at hkey hlt
    rw [hu r hr r' hr' ⟨_, ⟨hkey.1.le, hlt⟩, hne'.at_start⟩] at hkey
    exact lt_irrefl _ hkey.1
  · -- another access ends inside of this one
    rw [hstop] at hkey hlt
    have hover : Overlaps r.access r'.access := by
      have hmax := max_lt hkey.1 hne'
      exact ⟨max (makeInterval r.access).1 (makeInterval r'.access).1,
        ⟨le_max_left .., hmax.trans hlt⟩, le_max_right .., hmax⟩
    rw [hu r hr r' hr' hover] at hlt
    exact lt_irrefl _ hlt

/-- A byte with the value of an access is one of its bytes. -/
theorem at_of_value (hl : Labelled h) (hu : Uniform h) (hr : r ∈ h) (hne : r.access.Nonempty)
    {p : SAddr} (heq : ((recordAll h).valueAt p ==
      (recordAll h).valueAt (makeInterval r.access).1) = true) : r.access.At p := by
  have hlatest := latest_recordAll hl.started
  obtain ⟨t, ht⟩ := (hlatest _).seen ⟨r, hr, hne.at_start⟩
  obtain ⟨r₁, hr₁, hp₁, hpos₁⟩ := (hlatest _).recorded t ht
  have hseen := AdaptiveView.seen_eq_of_beq heq t
  rw [← hseen] at ht hpos₁
  obtain ⟨r₂, hr₂, hp₂, hpos₂⟩ := (hlatest p).recorded t ht
  -- the same event has been recorded at both bytes
  rw [hl.access r₂ hr₂ r₁ hr₁ (hpos₂.trans hpos₁.symm),
    hu r₁ hr₁ r hr ⟨_, hp₁, hne.at_start⟩] at hp₂
  exact hp₂

/-- **The accesses are segments of the map.** -/
theorem isMaximal_access (hl : Labelled h) (hu : Uniform h) (hr : r ∈ h)
    (hne : r.access.Nonempty) : (recordAll h).IsMaximal ⟨(makeInterval r.access).1,
      (makeInterval r.access).2, (recordAll h).valueAt (makeInterval r.access).1⟩ := by
  refine ⟨hne, rfl, fun p hp => ?_, ?_, fun a b ha hb hab => ⟨?_, ?_⟩⟩
  · rw [valueAt_access hu hr hp]
    exact BEq.rfl
  · rw [id_recordAll, Bool.eq_false_iff]
    intro hempty
    obtain ⟨t, ht⟩ := (latest_recordAll hl.started _).seen ⟨r, hr, hne.at_start⟩
    exact ht (AdaptiveView.seen_eq_of_beq hempty t)
  · by_contra hlt
    have hlt := lt_of_le_of_ne ha hlt
    have hp := at_of_value hl hu hr hne (hab a le_rfl (hlt.trans (hne.trans_le hb)))
    exact absurd hp.1 (not_le.2 hlt)
  · by_contra hlt
    have hlt := lt_of_le_of_ne hb (Ne.symm hlt)
    have hp := at_of_value hl hu hr hne (hab _ (ha.trans hne.le) hlt)
    exact lt_irrefl _ hp.2

/-- **What is found** are the accesses that contain the new one. -/
theorem matchesSegment_eq_false_iff (hl : Labelled h) (hu : Uniform h) {access : AAccess}
    (hne : access.Nonempty) : State.matchesSegment (recordAll h) access = false ↔
      ∃ r ∈ h, (∀ p, access.At p → r.access.At p) ∧ r.access ≠ access := by
  have hreduced := (reachable_recordAll h).reduced
  have hseg : ∀ seg, (recordAll h).findInterval (makeInterval access).1 (makeInterval access).2 =
      some seg ↔ ∃ r ∈ h, (∀ p, access.At p → r.access.At p) ∧
        seg = ⟨(makeInterval r.access).1, (makeInterval r.access).2,
          (recordAll h).valueAt (makeInterval r.access).1⟩ := by
    intro seg
    rw [hreduced.findInterval_eq_some_iff]
    refine ⟨?_, ?_⟩
    · rintro ⟨hmax, hstart, hstop⟩
      -- something was recorded at the first byte
      have hne_id := hmax.ne_id
      rw [← BEq.congr_left (hmax.constant _ hstart), id_recordAll] at hne_id
      have hrecorded : ∃ r ∈ h, r.access.At (makeInterval access).1 := by
        by_contra hnone
        exact Bool.eq_false_iff.1 hne_id ((latest_recordAll hl.started _).empty hnone)
      obtain ⟨r, hr, hp⟩ := hrecorded
      have heq := hreduced.eq_of_has hmax (isMaximal_access hl hu hr hp.nonempty) hstart hp
      refine ⟨r, hr, fun p hap => ⟨hp.1.trans hap.1, hap.2.trans_le ?_⟩, heq⟩
      rw [heq] at hstop
      exact hstop
    · rintro ⟨r, hr, hcontains, rfl⟩
      have hp := hcontains _ hne.at_start
      refine ⟨isMaximal_access hl hu hr hp.nonempty, hp, ?_⟩
      by_contra hlt
      have hlt := not_le.1 hlt
      exact lt_irrefl _ (hcontains (makeInterval r.access).2 ⟨hp.2.le, hlt⟩).2
  have hbounds : ∀ r : Record, (decide ((makeInterval r.access).1 = access.addr) &&
      decide ((makeInterval r.access).2 - (makeInterval r.access).1 = access.size)) = false ↔
        r.access ≠ access := by
    intro r
    rw [← Bool.not_eq_true, Bool.and_eq_true, decide_eq_true_eq, decide_eq_true_eq, makeInterval,
      add_sub_cancel_left]
    refine not_congr ⟨fun ⟨haddr, hsize⟩ => ?_, fun heq => by rw [heq]; exact ⟨rfl, rfl⟩⟩
    cases access
    exact AAccess.mk.injEq .. ▸ ⟨haddr, hsize⟩
  rw [State.matchesSegment]
  cases hfind : (recordAll h).findInterval (makeInterval access).1 (makeInterval access).2 with
  | none =>
    refine iff_of_false (by simp) ?_
    rintro ⟨r, hr, hcontains, -⟩
    have hsome := (hseg _).2 ⟨r, hr, hcontains, rfl⟩
    rw [hfind] at hsome
    cases hsome
  | some seg =>
    obtain ⟨r, hr, hcontains, rfl⟩ := (hseg seg).1 hfind
    dsimp only
    rw [hbounds]
    refine ⟨fun hne' => ⟨r, hr, hcontains, hne'⟩, ?_⟩
    rintro ⟨r', hr', hcontains', hne'⟩
    rwa [hu r hr r' hr' ⟨_, hcontains _ hne.at_start, hcontains' _ hne.at_start⟩]

end Uniform

/-! ## Checked runs -/

/-- What an atomic load records. -/
def Call.atomicRead : Call → Option Record
  | .onATLoad pos access view => some ⟨access, pos, view⟩
  | _ => none

/-- What an atomic store records. -/
def Call.atomicWrite : Call → Option Record
  | .onATStore pos access view _ _ => some ⟨access, pos, view⟩
  | _ => none

def Call.atomic (c : Call) : Option Record := c.atomicRead <|> c.atomicWrite

/-- The atomic accesses of some calls. -/
def atomics (calls : List Call) : List Record := calls.filterMap Call.atomic

/-- The runs in which every atomic access has passed the check before it was recorded, and has met
a condition on the accesses that were recorded before. -/
inductive CheckedRun (cond : List Record → AAccess → Prop) : List Call → State → Prop
  | init : CheckedRun cond [] .init
  | step {calls : List Call} {s s' : State} {c : Call} (h : CheckedRun cond calls s)
      (hexec : s.exec c = some s') (hclear : c ≠ .clear)
      (hcheck : ∀ r, c.atomic = some r →
        s.isAtomicAccessConsistent r.access = true ∧ cond (atomics calls) r.access) :
      CheckedRun cond (calls ++ [c]) s'

/-- All accesses that overlap with a new one contain it. -/
def Contained (h : List Record) (access : AAccess) : Prop :=
  ∀ r ∈ h, Overlaps r.access access → ∀ p, access.At p → r.access.At p

/-- The check fails exactly if an access with other bounds overlaps with the new one. -/
def CatchesMixed (calls : List Call) (s : State) (access : AAccess) : Prop :=
  s.isAtomicAccessConsistent access = false ↔
    ∃ r ∈ atomics calls, Overlaps r.access access ∧ r.access ≠ access

variable {cond : List Record → AAccess → Prop} {calls : List Call} {s : State}

theorem recordAll_filterMap_concat (f : Call → Option Record) (calls : List Call) (c : Call) :
    recordAll ((calls ++ [c]).filterMap f) = match f c with
      | some r => recordMemAccess (recordAll (calls.filterMap f)) r.access r.pos r.view
      | none => recordAll (calls.filterMap f) := by
  rw [List.filterMap_append]
  cases hc : f c with
  | none => simp [hc]
  | some r => simp [hc, recordAll_concat]

/-- The two maps have what was recorded. -/
theorem maps_run (hrun : State.init.run calls = some s) (hclear : Call.clear ∉ calls) :
    s.lastAReadView = recordAll (calls.filterMap Call.atomicRead) ∧
      s.lastAWriteView = recordAll (calls.filterMap Call.atomicWrite) := by
  refine State.run_invariant (P := fun calls s => Call.clear ∉ calls →
    s.lastAReadView = recordAll (calls.filterMap Call.atomicRead) ∧
      s.lastAWriteView = recordAll (calls.filterMap Call.atomicWrite)) (fun _ => ⟨rfl, rfl⟩)
    (fun {calls s c s'} ih hexec hclear => ?_) hrun hclear
  have ih := ih fun h => hclear (List.mem_append_left _ h)
  have heffect := State.exec_effect hexec
  rw [heffect.lastAReadView, heffect.lastAWriteView, recordAll_filterMap_concat,
    recordAll_filterMap_concat, ih.1, ih.2]
  cases c with
  | clear => exact absurd (List.mem_append_right _ (List.mem_singleton.2 rfl)) hclear
  | _ => exact ⟨rfl, rfl⟩

theorem CheckedRun.run (h : CheckedRun cond calls s) :
    State.init.run calls = some s ∧ Call.clear ∉ calls := by
  induction h with
  | init => exact ⟨rfl, List.not_mem_nil⟩
  | @step calls s s' c h hexec hclear hcheck ih =>
    refine ⟨?_, fun hmem => ?_⟩
    · rw [State.run_concat, ih.1, Option.bind_some, hexec]
    · exact (List.mem_append.1 hmem).elim ih.2 fun hc => hclear (List.mem_singleton.1 hc).symm

theorem CheckedRun.maps (h : CheckedRun cond calls s) :
    s.lastAReadView = recordAll (calls.filterMap Call.atomicRead) ∧
      s.lastAWriteView = recordAll (calls.filterMap Call.atomicWrite) :=
  maps_run h.run.1 h.run.2

theorem mem_atomics_iff {r : Record} : r ∈ atomics calls ↔
    r ∈ calls.filterMap Call.atomicRead ∨ r ∈ calls.filterMap Call.atomicWrite := by
  have hone : ∀ c : Call, c.atomic = some r ↔ c.atomicRead = some r ∨ c.atomicWrite = some r := by
    intro c
    cases c <;> simp [Call.atomic, Call.atomicRead, Call.atomicWrite]
  simp only [atomics, List.mem_filterMap, hone, and_or_left, exists_or]

theorem atomics_concat (calls : List Call) (c : Call) :
    atomics (calls ++ [c]) = atomics calls ++ c.atomic.toList := by
  rw [atomics, List.filterMap_append]
  cases hc : c.atomic <;> simp [hc, atomics]

/-- **What the check finds**, in a run without mixed accesses. -/
theorem isAtomicAccessConsistent_eq_false_iff (h : CheckedRun cond calls s)
    (hl : Labelled (atomics calls)) (hu : Uniform (atomics calls)) {access : AAccess}
    (hne : access.Nonempty) : s.isAtomicAccessConsistent access = false ↔
      ∃ r ∈ atomics calls, (∀ p, access.At p → r.access.At p) ∧ r.access ≠ access := by
  have hsub : ∀ l : List Record, (∀ r ∈ l, r ∈ atomics calls) → Labelled l ∧ Uniform l :=
    fun l hl' => ⟨⟨fun r hr => hl.started r (hl' r hr), fun r hr r' hr' =>
      hl.access r (hl' r hr) r' (hl' r' hr')⟩, fun r hr r' hr' => hu r (hl' r hr) r' (hl' r' hr')⟩
  obtain ⟨hlr, hur⟩ := hsub (calls.filterMap Call.atomicRead) fun r hr =>
    mem_atomics_iff.2 (.inl hr)
  obtain ⟨hlw, huw⟩ := hsub (calls.filterMap Call.atomicWrite) fun r hr =>
    mem_atomics_iff.2 (.inr hr)
  rw [State.isAtomicAccessConsistent, h.maps.1, h.maps.2, Bool.and_eq_false_iff,
    matchesSegment_eq_false_iff hlw huw hne, matchesSegment_eq_false_iff hlr hur hne, or_comm]
  simp only [mem_atomics_iff, or_and_right, exists_or]

/-- **The check catches mixed accesses** in a run that has none, exactly where all accesses that
overlap with the new one contain it. -/
theorem CheckedRun.catchesMixed_of_uniform (h : CheckedRun cond calls s)
    (hl : Labelled (atomics calls)) (hu : Uniform (atomics calls)) {access : AAccess}
    (hne : access.Nonempty) : CatchesMixed calls s access ↔ Contained (atomics calls) access := by
  rw [CatchesMixed, isAtomicAccessConsistent_eq_false_iff h hl hu hne]
  have hoverlaps : ∀ r : Record, (∀ p, access.At p → r.access.At p) → Overlaps r.access access :=
    fun r hcontains => ⟨_, hcontains _ hne.at_start, hne.at_start⟩
  refine ⟨fun hiff r hr hover => ?_, ?_⟩
  · by_cases heq : r.access = access
    · rw [heq]
      exact fun p hp => hp
    · -- the access that was found is this one
      obtain ⟨r', hr', hcontains, -⟩ := hiff.2 ⟨r, hr, hover, heq⟩
      obtain ⟨p, hp, hap⟩ := hover
      rwa [hu r hr r' hr' ⟨p, hp, hcontains p hap⟩]
  · refine fun hcontained => ⟨?_, ?_⟩
    · rintro ⟨r, hr, hcontains, hne'⟩
      exact ⟨r, hr, hoverlaps r hcontains, hne'⟩
    · rintro ⟨r, hr, hover, hne'⟩
      exact ⟨r, hr, hcontained r hr hover, hne'⟩

/-- Accesses that were contained in all that they overlapped with are not mixed. -/
theorem CheckedRun.uniform (h : CheckedRun Contained calls s) (hl : Labelled (atomics calls)) :
    Uniform (atomics calls) := by
  induction h with
  | init => exact fun r hr => absurd hr List.not_mem_nil
  | @step calls s s' c h hexec hclear hcheck ih =>
    rw [atomics_concat] at hl ⊢
    have hl' : Labelled (atomics calls) :=
      ⟨fun r hr => hl.started r (List.mem_append_left _ hr), fun r hr r' hr' =>
        hl.access r (List.mem_append_left _ hr) r' (List.mem_append_left _ hr')⟩
    have hu := ih hl'
    cases hatomic : c.atomic with
    | none =>
      rw [Option.toList_none, List.append_nil]
      exact hu
    | some new =>
      obtain ⟨hpass, hcontained⟩ := hcheck new hatomic
      -- the check would have found an access with other bounds
      have hnew : ∀ r ∈ atomics calls, Overlaps r.access new.access → r.access = new.access := by
        rintro r hr hover
        by_contra hne
        obtain ⟨p, hp, hap⟩ := hover
        have := ((h.catchesMixed_of_uniform hl' hu hap.nonempty).2 hcontained).2
          ⟨r, hr, ⟨p, hp, hap⟩, hne⟩
        rw [hpass] at this
        exact Bool.noConfusion this
      have hsymm : ∀ {a b : AAccess}, Overlaps a b → Overlaps b a := fun ⟨p, ha, hb⟩ => ⟨p, hb, ha⟩
      intro r hr r' hr' hover
      rw [Option.toList_some, List.mem_append, List.mem_singleton] at hr hr'
      rcases hr with hr | rfl
      · rcases hr' with hr' | rfl
        · exact hu r hr r' hr' hover
        · exact hnew r hr hover
      · rcases hr' with hr' | rfl
        · exact (hnew r' hr' (hsymm hover)).symm
        · rfl

/-- **Mixed accesses are caught**, in every run of checked accesses that were contained in all that
they overlapped with, exactly if the new access is contained in all that it overlaps with. -/
theorem catchesMixed_iff (h : CheckedRun Contained calls s) (hl : Labelled (atomics calls))
    {access : AAccess} (hne : access.Nonempty) :
    CatchesMixed calls s access ↔ Contained (atomics calls) access :=
  h.catchesMixed_of_uniform hl (h.uniform hl) hne

/-- An atomic store of four bytes. -/
def fourBytes : List Call := [.onATStore ⟨1, 1⟩ ⟨16, 4⟩ ⟨none, ⟨1, 1⟩⟩ false false]

theorem labelled_fourBytes : Labelled (atomics fourBytes) := by
  have hone : ∀ r ∈ atomics fourBytes, r = ⟨⟨16, 4⟩, ⟨1, 1⟩, ⟨none, ⟨1, 1⟩⟩⟩ := fun r hr =>
    List.mem_singleton.1 hr
  refine ⟨fun r hr => ?_, fun r hr r' hr' _ => by rw [hone r hr, hone r' hr']⟩
  rw [hone r hr]
  decide

/-- The run of the store: nothing was recorded before. -/
theorem checkedRun_fourBytes (cond : List Record → AAccess → Prop)
    (hcond : ∀ access, cond [] access) :
    ∃ s, CheckedRun cond fourBytes s ∧ State.init.run fourBytes = some s := by
  have hinit : CheckedRun cond [] .init := .init
  refine ⟨_, hinit.step (c := fourBytes.head (by simp [fourBytes])) rfl
    (by simp [fourBytes]) fun r hr => ?_, rfl⟩
  cases hr
  exact ⟨by decide, hcond _⟩

theorem fourBytes_catchesMixed : ∃ s, CheckedRun Contained fourBytes s ∧
    (CatchesMixed fourBytes s ⟨18, 2⟩ ↔ Contained (atomics fourBytes) ⟨18, 2⟩) := by
  obtain ⟨s, h, -⟩ := checkedRun_fourBytes Contained fun _ _ hr =>
    absurd hr List.not_mem_nil
  exact ⟨s, h, catchesMixed_iff h labelled_fourBytes (by decide)⟩

/-- Eight bytes over the four bytes of the store pass the check. -/
theorem fourBytes_not_catchesMixed : ¬ ∀ (calls : List Call) (s : State) (access : AAccess),
    CheckedRun (fun _ _ => True) calls s → Labelled (atomics calls) → access.Nonempty →
      CatchesMixed calls s access := by
  intro hall
  obtain ⟨s, h, hs⟩ := checkedRun_fourBytes (fun _ _ => True) fun _ => trivial
  have hyes := (hall fourBytes s ⟨16, 8⟩ h labelled_fourBytes (by decide)).2
    ⟨_, List.mem_singleton.2 rfl, ⟨16, by decide, by decide⟩, fun heq => by
      have := congrArg AAccess.size heq
      revert this
      decide⟩
  obtain rfl := Option.some.inj hs
  revert hyes
  decide

end ExecutionState
end GenMC
