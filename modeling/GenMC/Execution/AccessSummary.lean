import GenMC.ADT.AdaptiveView
import GenMC.ADT.IntervalMap
import Mathlib.Order.Fin.Basic

/-!
# Summaries of memory accesses

To detect races, the execution state records all accesses of a kind in a map from intervals of
addresses to adaptive views.  `recordMemAccess` combines the event of an access, with its view, into
all addresses of the access.  `getMaxView` joins the summaries of the addresses of an access; the
access is free of races with what was recorded if this is contained in its own view.

* `Summarizes`: what the value of an address stands for.  A view that covers it, and that has with
  an event also what was recorded as the view of that event, has all events recorded at the address;
  and a summary has nothing but such events.
* `few_recordAll`: the summaries have the events that no later one has seen, if these are few.
* `summarizes_recordAll`: every map that recordings lead to summarizes them.
* `getMaxView_exact`: being contained is **exactly** to have all events recorded on overlapping
  intervals, except where `View::contains` fails to see what a diff adds to a base.  This needs more
  than eight threads and a view that has one of the events only through its diff.
* `ninth_access_missed`: nine accesses, and a view with eight of them in its base and the ninth in
  its diff.
-/

set_option autoImplicit false

namespace GenMC
namespace ExecutionState

open SharedView SharedView.Memory

/-- Addresses are words, and `addr + size` may wrap around. -/
abbrev SAddr := Fin (2 ^ 64)

instance SAddr.neZero : NeZero (2 ^ 64) := ⟨by decide⟩

/-- An access to some bytes. -/
structure AAccess where
  addr : SAddr
  size : SAddr

/-- The right-open interval of an access. -/
def makeInterval (access : AAccess) : SAddr × SAddr := (access.addr, access.addr + access.size)

abbrev AdaptiveViewMap := IntervalMap SAddr AdaptiveView

/-- The addresses of the bases in some summaries. -/
def addresses (xs : List AdaptiveView) : List ℕ :=
  xs.filterMap fun
    | .view v => v.address
    | _ => none

/-- Records an access of the event `pos`, which has the view `view`. -/
def recordMemAccess (m : AdaptiveViewMap) (access : AAccess) (pos : Event) (view : CowView) :
    AdaptiveViewMap :=
  m.add (makeInterval access).1 (makeInterval access).2 (.update pos view) fun others x =>
    x.addUpdate (addresses others) pos view

/-- The summary of what was recorded on the interval of an access. -/
def getMaxView (m : AdaptiveViewMap) (access : AAccess) : AdaptiveView :=
  (m.range (Fin.last _) (makeInterval access).1 (makeInterval access).2).foldl
    (AdaptiveView.join (addresses (m.map.map (·.2)))) .empty

/-! ## Recordings -/

/-- What was recorded. -/
structure Record where
  access : AAccess
  pos : Event
  view : CowView

/-- The map after some recordings. -/
def recordAll (h : List Record) : AdaptiveViewMap :=
  h.foldl (fun m r => recordMemAccess m r.access r.pos r.view) (.empty .empty)

/-- The access is to the address. -/
def AAccess.At (access : AAccess) (p : SAddr) : Prop :=
  (makeInterval access).1 ≤ p ∧ p < (makeInterval access).2

instance (access : AAccess) (p : SAddr) : Decidable (access.At p) :=
  inferInstanceAs (Decidable (_ ∧ _))

/-- The intervals of two accesses overlap. -/
def Overlaps (a b : AAccess) : Prop := ∃ p, a.At p ∧ b.At p

/-- Views that have the view of every event they have. -/
def ClosedUnder (h : List Record) (u : ℕ → ℕ) : Prop :=
  ∀ r ∈ h, (∀ t, eventAt r.pos t ≤ u t) → ∀ t, r.view.getMax t ≤ u t

/-- What the value of an address stands for. -/
structure Summarizes (h : List Record) (p : SAddr) (x : AdaptiveView) : Prop where
  covers : ∀ u, ClosedUnder h u → (∀ t, x.seen t ≤ u t) →
    ∀ r ∈ h, r.access.At p → ∀ t, eventAt r.pos t ≤ u t
  recorded : ∀ t, x.seen t ≠ 0 →
    ∃ r ∈ h, r.access.At p ∧ r.pos.thread = t ∧ x.seen t ≤ r.pos.index

theorem Summarizes.congr {h : List Record} {p : SAddr} {x y : AdaptiveView}
    (hxy : ∀ t, x.seen t = y.seen t) (hx : Summarizes h p x) : Summarizes h p y := by
  refine ⟨fun u hu hy => hx.covers u hu fun t => (hxy t).le.trans (hy t), fun t ht => ?_⟩
  rw [← hxy t] at ht ⊢
  exact hx.recorded t ht

theorem ClosedUnder.of_concat {h : List Record} {r : Record} {u : ℕ → ℕ}
    (hu : ClosedUnder (h ++ [r]) u) : ClosedUnder h u :=
  fun r' hr' => hu r' (List.mem_append_left _ hr')

/-- A recording at another address. -/
theorem Summarizes.skip {h : List Record} {p : SAddr} {x : AdaptiveView} (hx : Summarizes h p x)
    {r : Record} (hr : ¬ r.access.At p) : Summarizes (h ++ [r]) p x := by
  refine ⟨fun u hu hxu r' hr' hp => ?_, fun t ht => ?_⟩
  · rcases List.mem_append.1 hr' with hr' | hr'
    · exact hx.covers u hu.of_concat hxu r' hr' hp
    · rw [List.mem_singleton.1 hr'] at hp
      exact absurd hp hr
  · obtain ⟨r', hr', hp⟩ := hx.recorded t ht
    exact ⟨r', List.mem_append_left _ hr', hp⟩

/-- A recording at this address. -/
theorem Summarizes.addUpdate {h : List Record} {p : SAddr} {x : AdaptiveView}
    (hx : Summarizes h p x) {r : Record} (hr : r.access.At p) (others : List ℕ) :
    Summarizes (h ++ [r]) p (x.addUpdate others r.pos r.view) := by
  refine ⟨fun u hu hxu r' hr' hp => ?_, fun t ht => ?_⟩
  · have hcovers := AdaptiveView.addUpdate_covers others x r.pos r.view hxu
      (hu r (List.mem_append_right _ (List.mem_singleton.2 rfl)))
    rcases List.mem_append.1 hr' with hr' | hr'
    · exact hx.covers u hu.of_concat (fun t => (hcovers t).2) r' hr' hp
    · rw [List.mem_singleton.1 hr']
      exact fun t => (hcovers t).1
  · have hle := AdaptiveView.seen_addUpdate_le others x r.pos r.view t
    rcases le_max_iff.1 hle with hle | hle
    · obtain ⟨r', hr', hp, ht', hle'⟩ := hx.recorded t (by omega)
      exact ⟨r', List.mem_append_left _ hr', hp, ht', hle.trans hle'⟩
    · rw [eventAt] at hle
      split at hle
      · rename_i hthread
        exact ⟨r, List.mem_append_right _ (List.mem_singleton.2 rfl), hr, hthread, hle⟩
      · exact absurd (Nat.le_zero.1 hle) ht

theorem recordAll_concat (h : List Record) (r : Record) :
    recordAll (h ++ [r]) = recordMemAccess (recordAll h) r.access r.pos r.view := by
  rw [recordAll, List.foldl_append]
  rfl

theorem id_recordAll (h : List Record) : (recordAll h).id = .empty := by
  induction h using List.reverseRecOn with
  | nil => rfl
  | append_singleton h r ih => rw [recordAll_concat, recordMemAccess, IntervalMap.id_add, ih]

/-- What a recording does to the value of every address. -/
theorem valueAt_recordMemAccess {m : AdaptiveViewMap} (hid : m.id = .empty) (r : Record)
    {R Q : SAddr → AdaptiveView → Prop}
    (hQ : ∀ p x y, (x == y) = true → (Q p x ↔ Q p y))
    (hin : ∀ p x others, r.access.At p → R p x → Q p (x.addUpdate others r.pos r.view))
    (hout : ∀ p x, ¬ r.access.At p → R p x → Q p x) (h : ∀ p, R p (m.valueAt p)) (p : SAddr) :
    Q p ((recordMemAccess m r.access r.pos r.view).valueAt p) := by
  by_cases hse : (makeInterval r.access).1 < (makeInterval r.access).2
  · refine IntervalMap.valueAt_add hse (by rw [hid]; rfl) hQ
      (fun p x others hp hps => hin p x _ ⟨hp, hps⟩) (fun p x hp => hout p x hp) h p
  · have hskip : recordMemAccess m r.access r.pos r.view = m := by
      rw [recordMemAccess, IntervalMap.add, dif_pos (.inl (not_lt.1 hse))]
    rw [hskip]
    exact hout p _ (fun hp => hse (hp.1.trans_lt hp.2)) (h p)

/-- **The map summarizes what was recorded**, at every address. -/
theorem summarizes_recordAll (h : List Record) (p : SAddr) :
    Summarizes h p ((recordAll h).valueAt p) := by
  induction h using List.reverseRecOn generalizing p with
  | nil => exact ⟨fun _ _ _ r hr => absurd hr List.not_mem_nil, fun t ht => absurd rfl ht⟩
  | append_singleton h r ih =>
    rw [recordAll_concat]
    refine valueAt_recordMemAccess (id_recordAll h) r (R := Summarizes h)
      (fun p x y hxy => ⟨fun hx => hx.congr fun t => AdaptiveView.seen_eq_of_beq hxy t,
        fun hy => hy.congr fun t => (AdaptiveView.seen_eq_of_beq hxy t).symm⟩)
      (fun p x others hp hx => hx.addUpdate hp others) (fun p x hp hx => hx.skip hp) ih p

/-! ## The summary of an access -/

theorem seen_foldl_join_le_iff (others : List ℕ) (t n : ℕ) (xs : List AdaptiveView) :
    ∀ acc : AdaptiveView, (xs.foldl (AdaptiveView.join others) acc).seen t ≤ n ↔
      acc.seen t ≤ n ∧ ∀ x ∈ xs, x.seen t ≤ n := by
  induction xs with
  | nil => simp
  | cons x xs ih =>
    intro acc
    rw [List.foldl_cons, ih, AdaptiveView.seen_join, max_le_iff, List.forall_mem_cons, and_assoc]

/-- The summary has seen what some address of the access has seen. -/
theorem seen_getMaxView_le_iff {m : AdaptiveViewMap} (hid : m.id = .empty) (access : AAccess)
    (t n : ℕ) : (getMaxView m access).seen t ≤ n ↔
      ∀ p, access.At p → (m.valueAt p).seen t ≤ n := by
  rw [getMaxView, seen_foldl_join_le_iff]
  have hempty : AdaptiveView.empty.seen t ≤ n := Nat.zero_le _
  rw [and_iff_right hempty]
  by_cases hse : (makeInterval access).1 < (makeInterval access).2
  · have hmax : (makeInterval access).1 < Fin.last _ := hse.trans_le (Fin.le_last _)
    refine ⟨fun hall p hp => ?_, fun hall x hx => ?_⟩
    · cases heq : m.valueAt p == m.id with
      | true =>
        rw [AdaptiveView.seen_eq_of_beq heq, hid]
        exact hempty
      | false => exact hall _ ((IntervalMap.mem_range hse hmax BEq.rfl).2 ⟨heq, p, hp.1, hp.2, rfl⟩)
    · obtain ⟨-, p, hp, hps, rfl⟩ := (IntervalMap.mem_range hse hmax BEq.rfl).1 hx
      exact hall p ⟨hp, hps⟩
  · refine iff_of_true (fun x hx => ?_) fun p hp => absurd (hp.1.trans_lt hp.2) hse
    rw [IntervalMap.range, IntervalMap.lowerBound, if_pos (not_lt.1 hse)] at hx
    simp at hx

/-- The summary is empty if nothing was recorded at the addresses of the access. -/
theorem isEmpty_getMaxView_iff {m : AdaptiveViewMap} (hid : m.id = .empty) {P : SAddr → Prop}
    (hrecorded : ∀ p, P p → ∃ t, (m.valueAt p).seen t ≠ 0)
    (hempty : ∀ p, ¬ P p → (m.valueAt p == .empty) = true) (access : AAccess) :
    (getMaxView m access).isEmpty = true ↔ ∀ p, access.At p → ¬ P p := by
  refine ⟨fun h p hp hP => ?_, fun h => ?_⟩
  · obtain ⟨t, ht⟩ := hrecorded p hP
    have hzero := AdaptiveView.seen_of_isEmpty h t
    exact ht (Nat.le_zero.1 ((seen_getMaxView_le_iff hid access t 0).1 hzero.le p hp))
  · -- nothing is joined
    have hrange : m.range (Fin.last _) (makeInterval access).1 (makeInterval access).2 = [] := by
      refine List.eq_nil_iff_forall_not_mem.2 fun x hx => ?_
      by_cases hse : (makeInterval access).1 < (makeInterval access).2
      · obtain ⟨hne, p, hp, hps, rfl⟩ :=
          (IntervalMap.mem_range hse (hse.trans_le (Fin.le_last _)) BEq.rfl).1 hx
        rw [hid, hempty p (h p ⟨hp, hps⟩)] at hne
        exact Bool.noConfusion hne
      · rw [IntervalMap.range, IntervalMap.lowerBound, if_pos (not_lt.1 hse)] at hx
        simp at hx
    rw [getMaxView, hrange]
    rfl

/-- All recorded events whose intervals overlap the access are in the view. -/
def AllIn (h : List Record) (access : AAccess) (V : CowView) : Prop :=
  ∀ r ∈ h, Overlaps r.access access → V.contains r.pos = true

theorem covered_iff_allIn {h : List Record} {V : CowView} (hV : ClosedUnder h V.getMax)
    (access : AAccess) :
    (∀ t, (getMaxView (recordAll h) access).seen t ≤ V.getMax t) ↔ AllIn h access V := by
  simp only [seen_getMaxView_le_iff (id_recordAll h)]
  refine ⟨?_, fun hall t p hp => ?_⟩
  · rintro hall r hr ⟨p, hrp, hp⟩
    exact CowView.contains_iff.2
      ((summarizes_recordAll h p).covers _ hV (fun t => hall t p hp) r hr hrp)
  · by_cases hzero : ((recordAll h).valueAt p).seen t = 0
    · rw [hzero]
      exact Nat.zero_le _
    · obtain ⟨r, hr, hrp, rfl, hle⟩ := (summarizes_recordAll h p).recorded t hzero
      exact hle.trans (of_decide_eq_true (hall r hr ⟨p, hrp, hp⟩))

theorem tidy_recordAll (h : List Record) : ∀ seg ∈ (recordAll h).map, seg.2.Tidy := by
  induction h using List.reverseRecOn with
  | nil => exact fun _ hseg => absurd hseg List.not_mem_nil
  | append_singleton h r ih =>
    rw [recordAll_concat, recordMemAccess]
    refine IntervalMap.forall_mem_add ?_ (fun others x hx => ?_) ih
    · rw [id_recordAll]
      trivial
    · exact AdaptiveView.tidy_addUpdate _ hx r.pos r.view

theorem tidy_foldl_join (others : List ℕ) (xs : List AdaptiveView) (hxs : ∀ x ∈ xs, x.Tidy) :
    ∀ {acc : AdaptiveView}, acc.Tidy → (xs.foldl (AdaptiveView.join others) acc).Tidy := by
  induction xs with
  | nil => exact fun h => h
  | cons x xs ih =>
    intro acc h
    exact ih (fun y hy => hxs y (List.mem_cons_of_mem _ hy))
      (AdaptiveView.tidy_join others h (hxs x (List.mem_cons_self ..)))

/-- A value that the iteration sees is that of a segment. -/
theorem mem_map_of_mem_range {m : AdaptiveViewMap} {a b c : SAddr} {x : AdaptiveView}
    (hx : x ∈ m.range a b c) : ∃ seg ∈ m.map, seg.2 = x := by
  have hskip : ∀ it : List (SAddr × AdaptiveView), ∀ seg ∈ IntervalMap.lowerBound.skip a b it,
      seg ∈ it := by
    intro it
    induction it using IntervalMap.lowerBound.skip.induct a b with
    | case1 => exact fun _ h => h
    | case2 seg h => simp [IntervalMap.lowerBound.skip, h]
    | case3 seg h => simp [IntervalMap.lowerBound.skip, h]
    | case4 seg next rest h => simp [IntervalMap.lowerBound.skip, h]
    | case5 seg next rest h ih =>
      rw [IntervalMap.lowerBound.skip, if_neg h]
      exact fun s hs => List.mem_cons_of_mem _ (ih s hs)
  obtain ⟨seg, hseg, rfl⟩ := List.mem_map.1 (List.mem_of_mem_filter hx)
  refine ⟨seg, ?_, rfl⟩
  have hlower := List.mem_of_mem_take hseg
  rw [IntervalMap.lowerBound] at hlower
  split at hlower
  · exact absurd hlower List.not_mem_nil
  · rcases List.mem_append.1 (hskip _ seg hlower) with h | h
    · exact (List.takeWhile_sublist _).subset (List.mem_of_getLast? (Option.mem_toList.1 h))
    · exact (List.dropWhile_sublist _).subset h

theorem tidy_getMaxView (h : List Record) (access : AAccess) :
    (getMaxView (recordAll h) access).Tidy := by
  refine tidy_foldl_join _ _ (fun x hx => ?_) trivial
  obtain ⟨seg, hseg, rfl⟩ := mem_map_of_mem_range hx
  exact tidy_recordAll h seg hseg

/-- The recordings of each thread that overlap an access come in the order of the thread. -/
def InOrder (access : AAccess) (h : List Record) : Prop :=
  h.Pairwise fun r r' => Overlaps r.access access → Overlaps r'.access access →
    r.pos.thread = r'.pos.thread → r.pos.index ≤ r'.pos.index

/-- An event recorded at an address that no later recording at this address has seen. -/
def Unseen (h : List Record) (p : SAddr) (e : Event) : Prop :=
  ∃ h₁ r h₂, h = h₁ ++ r :: h₂ ∧ r.access.At p ∧ r.pos = e ∧
    ∀ r' ∈ h₂, r'.access.At p → r'.view.contains e = false

theorem Unseen.concat {h : List Record} {p : SAddr} {e : Event} (hu : Unseen h p e) {r : Record}
    (hr : r.access.At p → r.view.contains e = false) : Unseen (h ++ [r]) p e := by
  obtain ⟨h₁, r₁, h₂, rfl, hp, he, hlater⟩ := hu
  refine ⟨h₁, r₁, h₂ ++ [r], by simp, hp, he, fun r' hr' hp' => ?_⟩
  rcases List.mem_append.1 hr' with hr' | hr'
  · exact hlater r' hr' hp'
  · rw [List.mem_singleton.1 hr'] at hp' ⊢
    exact hr hp'

theorem unseen_last {h : List Record} {p : SAddr} {r : Record} (hr : r.access.At p) :
    Unseen (h ++ [r]) p r.pos :=
  ⟨h, r, [], rfl, hr, rfl, fun _ hr' => absurd hr' List.not_mem_nil⟩

/-- What is unseen at the addresses of an access comes from few threads. -/
def FewUnseen (access : AAccess) (h : List Record) : Prop :=
  ∃ T : Finset ℕ, T.card ≤ AdaptiveView.SmallVectorCapacity ∧
    ∀ p, access.At p → ∀ e, Unseen h p e → e.thread ∈ T

/-- **The addresses of the access have summaries of few threads**, of events that are unseen. -/
theorem few_recordAll {access : AAccess} {h : List Record} (hord : InOrder access h)
    (hfew : ∀ h', h' <+: h → FewUnseen access h')
    (hown : ∀ r ∈ h, r.view.contains r.pos = true) (p : SAddr) (hp : access.At p) :
    (∃ T, AdaptiveView.Few T ((recordAll h).valueAt p)) ∧
      ∀ e ∈ ((recordAll h).valueAt p).eventList, Unseen h p e := by
  induction h using List.reverseRecOn generalizing p with
  | nil => exact ⟨⟨∅, AdaptiveView.few_empty ∅⟩, fun e he => absurd he List.not_mem_nil⟩
  | append_singleton h r ih =>
    have hr : r ∈ h ++ [r] := List.mem_append_right _ (List.mem_singleton.2 rfl)
    obtain ⟨hpair, -, hlast⟩ := List.pairwise_append.1 hord
    have ih := ih hpair (fun h' hh' => hfew h' (hh'.trans (List.prefix_append _ _)))
      fun r' hr' => hown r' (List.mem_append_left _ hr')
    obtain ⟨T, hT, hunseen⟩ := hfew _ (List.prefix_refl _)
    rw [recordAll_concat]
    refine valueAt_recordMemAccess (id_recordAll h) r
      (R := fun p x => Summarizes h p x ∧ (access.At p → (∃ T, AdaptiveView.Few T x) ∧
        ∀ e ∈ x.eventList, Unseen h p e))
      (Q := fun p x => access.At p → (∃ T, AdaptiveView.Few T x) ∧
        ∀ e ∈ x.eventList, Unseen (h ++ [r]) p e)
      (fun p x y hxy => ?_) (fun p x others hrp hx hp => ?_) (fun p x hrp hx hp => ?_)
      (fun p => ⟨summarizes_recordAll h p, ih p⟩) p hp
    · rw [AdaptiveView.eventList_eq_of_beq hxy]
      exact imp_congr_right fun _ => and_congr_left fun _ =>
        exists_congr fun T => AdaptiveView.few_congr_of_beq hxy
    · obtain ⟨⟨T₀, hx₀⟩, hunseen₀⟩ := hx.2 hp
      have hover : Overlaps r.access access := ⟨p, hrp, hp⟩
      -- what has been seen of the thread comes from an earlier recording
      have hseen : x.seen r.pos.thread ≤ r.pos.index := by
        by_cases hzero : x.seen r.pos.thread = 0
        · rw [hzero]
          exact Nat.zero_le _
        · obtain ⟨r', hr', hrp', hthread, hle⟩ := hx.1.recorded _ hzero
          exact hle.trans (hlast r' hr' r (List.mem_singleton.2 rfl) ⟨p, hrp', hp⟩ hover hthread)
      have hkeep : ∀ e ∈ x.eventList, r.view.contains e = false → Unseen (h ++ [r]) p e :=
        fun e he hc => (hunseen₀ e he).concat fun _ => hc
      obtain ⟨hx₁, hevents⟩ := hx₀.addUpdate hT others (hunseen p hp _ (unseen_last hrp))
        (hown r hr) hseen fun e he hc => hunseen p hp e (hkeep e he hc)
      refine ⟨⟨T, hx₁⟩, fun e he => ?_⟩
      rcases hevents e he with rfl | ⟨he, hc⟩
      · exact unseen_last hrp
      · exact hkeep e he hc
    · obtain ⟨hx₀, hunseen₀⟩ := hx.2 hp
      exact ⟨hx₀, fun e he => (hunseen₀ e he).concat fun hrp' => absurd hrp' hrp⟩

theorem few_foldl_join {T : Finset ℕ} (hT : T.card ≤ AdaptiveView.SmallVectorCapacity)
    (others : List ℕ) (xs : List AdaptiveView) (hxs : ∀ x ∈ xs, AdaptiveView.Few T x) :
    ∀ {acc : AdaptiveView}, AdaptiveView.Few T acc →
      AdaptiveView.Few T (xs.foldl (AdaptiveView.join others) acc) := by
  induction xs with
  | nil => exact fun h => h
  | cons x xs ih =>
    intro acc h
    exact ih (fun y hy => hxs y (List.mem_cons_of_mem _ hy))
      (h.join hT others (hxs x (List.mem_cons_self ..)))

theorem not_view_getMaxView {access : AAccess} {h : List Record} (hord : InOrder access h)
    (hfew : ∀ h', h' <+: h → FewUnseen access h')
    (hown : ∀ r ∈ h, r.view.contains r.pos = true) (w : CowView) :
    getMaxView (recordAll h) access ≠ .view w := by
  obtain ⟨T, hT, hunseen⟩ := hfew h (List.prefix_refl h)
  refine (few_foldl_join hT _ _ (fun x hx => ?_) (AdaptiveView.few_empty T)).not_view w
  by_cases hse : (makeInterval access).1 < (makeInterval access).2
  · obtain ⟨-, p, hp, hps, rfl⟩ :=
      (IntervalMap.mem_range hse (hse.trans_le (Fin.le_last _)) BEq.rfl).1 hx
    obtain ⟨⟨T₀, hx₀⟩, hevents⟩ := few_recordAll hord hfew hown p ⟨hp, hps⟩
    exact hx₀.of_eventList fun e he => hunseen p ⟨hp, hps⟩ e (hevents e he)
  · rw [IntervalMap.range, IntervalMap.lowerBound, if_pos (not_lt.1 hse)] at hx
    simp at hx

/-- Either the view does not need its diff for the recorded events, or these come from each thread
in its order, and those that no later one has seen always come from eight threads at most. -/
def BaseSuffices (h : List Record) (access : AAccess) (V : CowView) : Prop :=
  (AllIn h access V → ∀ r ∈ h, Overlaps r.access access → r.pos.thread = V.diff.thread →
    r.pos.index ≤ V.vec.getD V.diff.thread 0) ∨
  InOrder access h ∧ ∀ h', h' <+: h → FewUnseen access h'

theorem not_onlyDiffCovers {h : List Record} {access : AAccess} {V : CowView}
    (hV : ClosedUnder h V.getMax) (hown : ∀ r ∈ h, r.view.contains r.pos = true)
    (hsuff : BaseSuffices h access V) :
    ¬ (getMaxView (recordAll h) access).OnlyDiffCovers V := by
  rintro ⟨w, hw, hcovers, -, t, ht⟩
  rcases hsuff with hbase | ⟨hord, hfew⟩
  · have hseen : ∀ t, (getMaxView (recordAll h) access).seen t = w.getMax t := fun t => by
      rw [hw]
      rfl
    have hall : AllIn h access V :=
      (covered_iff_allIn hV access).1 fun t => (hseen t).le.trans (hcovers t)
    have hwt : w.vec.getD t 0 ≤ w.getMax t := by
      rw [CowView.getMax_eq]
      exact le_max_left _ _
    -- only the thread of the diff has more in the view than in its base
    have hthread : V.diff.thread = t := by
      by_contra hne
      have := hcovers t
      rw [CowView.getMax_eq V, eventAt, if_neg hne] at this
      omega
    have hle : (getMaxView (recordAll h) access).seen t ≤ V.vec.getD t 0 := by
      refine (seen_getMaxView_le_iff (id_recordAll h) access t _).2 fun p hp => ?_
      by_cases hzero : ((recordAll h).valueAt p).seen t = 0
      · rw [hzero]
        exact Nat.zero_le _
      · obtain ⟨r, hr, hrp, hrt, hle⟩ := (summarizes_recordAll h p).recorded t hzero
        have := hbase hall r hr ⟨p, hrp, hp⟩ (hrt.trans hthread.symm)
        rw [hthread] at this
        exact hle.trans this
    rw [hseen] at hle
    omega
  · exact not_view_getMaxView hord hfew hown w hw

/-- If every recording has seen those before it, only the last one is unseen. -/
theorem fewUnseen_of_ordered {access a : AAccess} {h : List Record} (ha : ∀ r ∈ h, r.access = a)
    (hord : h.Pairwise fun r r' => r'.view.contains r.pos = true) : FewUnseen access h := by
  induction h using List.reverseRecOn with
  | nil =>
    refine ⟨∅, Nat.zero_le _, fun p _ e hu => ?_⟩
    obtain ⟨h₁, r, h₂, heq, -⟩ := hu
    exact absurd heq (by simp)
  | append_singleton h r =>
    refine ⟨{r.pos.thread}, by rw [Finset.card_singleton]; decide, fun p _ e hu => ?_⟩
    obtain ⟨h₁, r₁, h₂, heq, hp, rfl, hlater⟩ := hu
    rcases List.eq_nil_or_concat h₂ with rfl | ⟨h₂, r₂, rfl⟩
    · rw [List.singleton_inj.1 (List.append_inj' heq rfl).2]
      exact Finset.mem_singleton_self _
    · have heq' : h ++ [r] = (h₁ ++ r₁ :: h₂) ++ [r₂] := by
        rw [heq]
        simp
      obtain rfl := List.singleton_inj.1 (List.append_inj' heq' rfl).2
      have hmem : r₁ ∈ h ++ [r] := by
        rw [heq]
        simp
      have hat : r.access.At p := by
        rw [ha r (by simp), ← ha r₁ hmem]
        exact hp
      have hseen : r.view.contains r₁.pos = true := by
        rw [heq, List.pairwise_append] at hord
        exact (List.pairwise_cons.1 hord.2.1).1 r (by simp)
      rw [hlater r (by simp) hat] at hseen
      cases hseen

/-- **Being contained in a view is to have all recorded events in it**, where the base of the view
suffices; in general, unless the summary is a view that only the diff completes. -/
theorem getMaxView_exact (h : List Record) (access : AAccess) (V : CowView)
    (hown : ∀ r ∈ h, r.view.contains r.pos = true) (hV : ClosedUnder h V.getMax) :
    (((getMaxView (recordAll h) access).containedIn V = true ↔ AllIn h access V) ↔
      (AllIn h access V → ¬ (getMaxView (recordAll h) access).OnlyDiffCovers V)) ∧
    (BaseSuffices h access V →
      ((getMaxView (recordAll h) access).containedIn V = true ↔ AllIn h access V)) := by
  have hiff : ((getMaxView (recordAll h) access).containedIn V = true ↔ AllIn h access V) ↔
      (AllIn h access V → ¬ (getMaxView (recordAll h) access).OnlyDiffCovers V) := by
    rw [AdaptiveView.containedIn_iff (tidy_getMaxView h access), covered_iff_allIn hV]
    exact ⟨fun hexact hall => (hexact.2 hall).2,
      fun hnot => ⟨And.left, fun hall => ⟨hall, hnot hall⟩⟩⟩
  exact ⟨hiff, fun hsuff => hiff.2 fun _ => not_onlyDiffCovers hV hown hsuff⟩

/-- Nine threads access the same bytes one after the other, and each has seen those before it. -/
def orderedViews : List Record :=
  (List.range 9).map fun i =>
    ⟨⟨16, 4⟩, ⟨i + 1, 1⟩, ⟨some (i, 0 :: List.replicate i 1), ⟨i + 1, 1⟩⟩⟩

/-- What eight have seen is in the base of a view, and the ninth in its diff. -/
def lastInDiff : CowView := ⟨some (100, [0, 1, 1, 1, 1, 1, 1, 1, 1]), ⟨9, 1⟩⟩

theorem getMax_orderedViews_le (t : ℕ) :
    ∀ r ∈ orderedViews, r.view.getMax t ≤ lastInDiff.getMax t := by
  by_cases ht : t < 10
  · interval_cases t <;> decide
  · intro r hr
    have hbound : ∀ r ∈ orderedViews, r.view.vec.length ≤ 10 ∧ r.view.diff.thread < 10 := by decide
    obtain ⟨hlen, hthread⟩ := hbound r hr
    rw [CowView.getMax_eq, List.getD_eq_default _ _ (by omega), eventAt, if_neg (by omega)]
    exact Nat.zero_le _

/-- The ninth event has seen all others, so that there is no view that could be compared wrongly. -/
theorem getMaxView_exact_ordered :
    (getMaxView (recordAll orderedViews) ⟨18, 4⟩).containedIn lastInDiff = true := by
  have hord : orderedViews.Pairwise fun r r' => r'.view.contains r.pos = true := by decide
  refine ((getMaxView_exact _ _ _ (by decide) fun r hr _ t => getMax_orderedViews_le t r hr).2
    (.inr ⟨?_, fun h' hh' => ?_⟩)).2 fun r hr _ => ?_
  · have hindex : ∀ r ∈ orderedViews, r.pos.index = 1 := by decide
    refine List.pairwise_of_forall_mem_list fun r hr r' hr' _ _ _ => ?_
    rw [hindex r hr, hindex r' hr']
  · refine fewUnseen_of_ordered (a := ⟨16, 4⟩) (fun r hr => ?_) (hord.sublist hh'.sublist)
    obtain ⟨i, -, rfl⟩ := List.mem_map.1 (hh'.subset hr)
    rfl
  · exact (by decide : ∀ r ∈ orderedViews, lastInDiff.contains r.pos = true) r hr

/-- Events without predecessors in other threads, that have only themselves in their views. -/
def ownViews (access : AAccess) (es : List Event) : List Record :=
  es.map fun e => ⟨access, e, ⟨none, e⟩⟩

theorem closedUnder_ownViews (access : AAccess) (es : List Event) (u : ℕ → ℕ) :
    ClosedUnder (ownViews access es) u := by
  intro r hr hu t
  obtain ⟨e, -, rfl⟩ := List.mem_map.1 hr
  rw [CowView.getMax_eq]
  exact max_le (Nat.zero_le _) (hu t)

theorem own_ownViews (access : AAccess) (es : List Event) :
    ∀ r ∈ ownViews access es, r.view.contains r.pos = true := by
  intro r hr
  obtain ⟨e, -, rfl⟩ := List.mem_map.1 hr
  refine CowView.contains_iff.2 fun t => ?_
  rw [CowView.getMax_eq]
  exact le_max_right _ _

/-- The events that nine threads start with. -/
def nineEvents : List Event := (List.range 9).map fun i => ⟨i + 1, 1⟩

/-- Nine threads have accessed the same byte, and all events are in the view, the ninth in its
diff; but the summary, which is a view by now, is not contained in it. -/
theorem ninth_access_missed :
    ¬ ∀ (h : List Record) (access : AAccess) (V : CowView),
      (∀ r ∈ h, r.view.contains r.pos = true) → (∀ r ∈ h, ClosedUnder h r.view.getMax) →
        ClosedUnder h V.getMax →
          ((getMaxView (recordAll h) access).containedIn V = true ↔ AllIn h access V) := by
  intro hexact
  have hall : AllIn (ownViews ⟨16, 4⟩ nineEvents) ⟨16, 4⟩ lastInDiff := by
    intro r hr _
    obtain ⟨e, he, rfl⟩ := List.mem_map.1 hr
    exact (by decide : ∀ e ∈ nineEvents, lastInDiff.contains e = true) e he
  have hnot : (getMaxView (recordAll (ownViews ⟨16, 4⟩ nineEvents)) ⟨16, 4⟩).containedIn
      lastInDiff = false := by decide
  have := (hexact _ ⟨16, 4⟩ _ (own_ownViews _ _) (fun r _ => closedUnder_ownViews _ _ _)
    (closedUnder_ownViews _ _ _)).2 hall
  rw [hnot] at this
  exact Bool.noConfusion this

end ExecutionState
end GenMC
