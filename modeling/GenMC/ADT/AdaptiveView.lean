import GenMC.ADT.CowView

/-!
# Adaptive views

An adaptive view is a summary of events: nothing, one event, up to eight events, or a view once
there are too many.  A summary is combined with others in two ways.  `join` adds what another
summary has seen.  `addUpdate`, the `operator+=` of the source, adds an event together with the
view of that event, and drops what this view has seen; a summary that has become a view is only
dropped as a whole.

* `seen`: what a summary has seen of each thread, whichever shape it has.
* `seen_join`: `join` is the pointwise maximum.
* `addUpdate_covers`: **what is dropped is covered** by any view that covers the new summary and the
  view of the event, and `seen_addUpdate_le` nothing else appears.
* `containedIn_iff`: whether a summary is contained in a view is the pointwise order for all shapes
  but a view, which is compared by `CowView.containsView`.
* `Few`: a summary of events of at most eight threads is never a view.
-/

set_option autoImplicit false

namespace GenMC

open SharedView SharedView.Memory

/-- A summary of events. -/
inductive AdaptiveView where
  | event (e : Event)
  | events (es : List Event)
  | view (v : CowView)
  | update (pos : Event) (view : CowView)
  | empty

namespace AdaptiveView

def SmallVectorCapacity : ℕ := 8

/-! ## The operations -/

def getAsEvent : AdaptiveView → Option Event
  | event e => some e
  | update pos _ => some pos
  | events es => if es.length = 1 then es.head? else none
  | _ => none

/-- Whether two summaries have the same shape and the same contents. -/
def sameStorage : AdaptiveView → AdaptiveView → Bool
  | event e, event e' => e = e'
  | events es, events es' => es = es'
  | view v, view v' => v.beq v'
  | update e v, update e' v' => e = e' && v.beq v'
  | empty, empty => true
  | _, _ => false

instance : BEq AdaptiveView where
  beq lhs rhs := sameStorage lhs rhs ||
    match lhs.getAsEvent, rhs.getAsEvent with
    | some e, some e' => e = e'
    | _, _ => false

/-- A new view with the given events. -/
def promoteToView (others : List ℕ) (es : List Event) : CowView :=
  es.foldl (CowView.updateIdx others) CowView.empty

/-- Adds an event to events, or to the view that they have become. -/
def addEvent (others : List ℕ) (storage : AdaptiveView) (e : Event) : AdaptiveView :=
  match storage with
  | view v => view (v.updateIdx others e)
  | events es =>
    if es.any (·.thread = e.thread) then
      events (es.modify (es.findIdx (·.thread = e.thread)) (Event.max · e))
    else if es.length < SmallVectorCapacity then events (es ++ [e])
    else view ((promoteToView others es).updateIdx others e)
  | s => s

def unify (lhs rhs : Event) : AdaptiveView :=
  if lhs.thread ≠ rhs.thread then events [lhs, rhs] else event (Event.max lhs rhs)

/-- An update stands for its event. -/
def demote : AdaptiveView → AdaptiveView
  | update pos _ => event pos
  | s => s

/-- The cases of `join`, where updates stand for events. -/
def joinStorage (others : List ℕ) : AdaptiveView → AdaptiveView → AdaptiveView
  | s, empty => s
  | empty, s => s
  | event l, event r => unify l r
  | event l, events rs => addEvent others (events rs) l
  | event l, view r => view (r.updateIdx others l)
  | events ls, event r => addEvent others (events ls) r
  | events ls, events rs => rs.foldl (addEvent others) (events ls)
  | events ls, view r => view (ls.foldl (CowView.updateIdx others) r)
  | view l, event r => view (l.updateIdx others r)
  | view l, events rs => view (rs.foldl (CowView.updateIdx others) l)
  | view l, view r => view (l.update others r)
  | s, _ => s

/-- Joins two summaries.  The other views have the given addresses. -/
def join (others : List ℕ) (lhs rhs : AdaptiveView) : AdaptiveView :=
  joinStorage others lhs.demote rhs.demote

/-- Whether a summary is contained in a view. -/
def containedIn (s : AdaptiveView) (v : CowView) : Bool :=
  match s with
  | empty => true
  | event e => v.contains e
  | events es => es.all v.contains
  | view w => v.containsView w
  | update pos _ => v.contains pos

/-- Whether a summary has nothing but the initializer. -/
def isEmpty : AdaptiveView → Bool
  | empty => true
  | event e => e.isInitializer
  | update pos _ => pos.isInitializer
  | events es => es.all Event.isInitializer
  | view v => v.isEmpty

/-- `operator+=` with an update on the right: adds the event, and drops what its view has seen. -/
def addUpdate (others : List ℕ) (s : AdaptiveView) (uPos : Event) (uView : CowView) :
    AdaptiveView :=
  match s with
  | empty => event uPos
  | event e => if uView.contains e then event uPos else events [e, uPos]
  | update e _ => if uView.contains e then event uPos else events [e, uPos]
  | events es =>
    let es := es.filter (!uView.contains ·)
    if es.isEmpty then event uPos else addEvent others (events es) uPos
  | view v =>
    if uView.containsView v then event uPos else view (v.updateIdx others uPos)

/-! ## What a summary has seen -/

/-- What events say about a thread. -/
def eventsAt (es : List Event) (t : ℕ) : ℕ := (es.map (eventAt · t)).foldr max 0

/-- What a summary has seen of a thread. -/
def seen : AdaptiveView → ℕ → ℕ
  | empty, _ => 0
  | event e, t => eventAt e t
  | events es, t => eventsAt es t
  | view v, t => v.getMax t
  | update pos _, t => eventAt pos t

theorem eventsAt_cons (e : Event) (es : List Event) (t : ℕ) :
    eventsAt (e :: es) t = max (eventAt e t) (eventsAt es t) := rfl

/-- An empty summary has seen nothing. -/
theorem seen_of_isEmpty {s : AdaptiveView} (h : s.isEmpty = true) (t : ℕ) : s.seen t = 0 := by
  have hevent : ∀ e : Event, e.isInitializer = true → eventAt e t = 0 := fun e he => by
    rw [Event.isInitializer_iff.1 he, eventAt_init]
  cases s with
  | empty => rfl
  | event e => exact hevent e h
  | update e v => exact hevent e h
  | events es =>
    rw [seen]
    induction es with
    | nil => rfl
    | cons e es ih =>
      obtain ⟨he, hes⟩ := (Bool.and_eq_true_iff ..).1 h
      rw [eventsAt_cons, hevent e he, ih hes, Nat.max_zero]
  | view v =>
    rw [isEmpty, CowView.isEmpty, Bool.and_eq_true, decide_eq_true_eq, List.isEmpty_iff] at h
    rw [seen, CowView.getMax_eq, h.2, eventAt, h.1]
    simp

theorem eventsAt_append (es es' : List Event) (t : ℕ) :
    eventsAt (es ++ es') t = max (eventsAt es t) (eventsAt es' t) := by
  induction es with
  | nil => exact (Nat.zero_max _).symm
  | cons e es ih => rw [List.cons_append, eventsAt_cons, ih, eventsAt_cons, max_assoc]

theorem eventsAt_concat (es : List Event) (e : Event) (t : ℕ) :
    eventsAt (es ++ [e]) t = max (eventsAt es t) (eventAt e t) :=
  (eventsAt_append es [e] t).trans (congrArg (max _) (Nat.max_zero _))

theorem eventsAt_le_iff {es : List Event} {t n : ℕ} :
    eventsAt es t ≤ n ↔ ∀ e ∈ es, eventAt e t ≤ n := by
  induction es with
  | nil => simp [eventsAt]
  | cons e es ih => rw [eventsAt_cons, max_le_iff, ih, List.forall_mem_cons]

theorem getMax_foldl_updateIdx (others : List ℕ) (es : List Event) (t : ℕ) : ∀ v : CowView,
    (es.foldl (CowView.updateIdx others) v).getMax t = max (v.getMax t) (eventsAt es t) := by
  induction es with
  | nil => exact fun v => (Nat.max_zero _).symm
  | cons e es ih =>
    intro v
    rw [List.foldl_cons, ih, CowView.getMax_updateIdx, eventsAt_cons, max_assoc]

theorem getMax_promoteToView (others : List ℕ) (es : List Event) (t : ℕ) :
    (promoteToView others es).getMax t = eventsAt es t := by
  rw [promoteToView, getMax_foldl_updateIdx, CowView.getMax_empty, Nat.zero_max]

/-- The event of the same thread is raised. -/
theorem eventsAt_modify {es : List Event} {e : Event} (h : es.any (·.thread = e.thread) = true)
    (t : ℕ) : eventsAt (es.modify (es.findIdx (·.thread = e.thread)) (Event.max · e)) t =
      max (eventsAt es t) (eventAt e t) := by
  induction es with
  | nil => exact Bool.noConfusion h
  | cons a es ih =>
    rw [List.findIdx_cons]
    by_cases ha : a.thread = e.thread
    · rw [decide_eq_true ha, cond_true, List.modify_zero_cons, eventsAt_cons, eventsAt_cons,
        eventAt_max ha, max_right_comm]
    · rw [decide_eq_false ha, cond_false, List.modify_succ_cons, eventsAt_cons, eventsAt_cons,
        max_assoc, ← ih]
      rw [List.any_cons, decide_eq_false ha, Bool.false_or] at h
      exact h

/-- Storage that `addEvent` can be called on. -/
def IsMany : AdaptiveView → Prop
  | events _ => True
  | view _ => True
  | _ => False

theorem isMany_events (es : List Event) : (events es).IsMany := trivial

theorem isMany_addEvent (others : List ℕ) {s : AdaptiveView} (h : s.IsMany) (e : Event) :
    (addEvent others s e).IsMany := by
  cases s with
  | events es =>
    rw [addEvent]
    split_ifs <;> trivial
  | view v => trivial
  | event _ => exact h
  | update _ _ => exact h
  | empty => exact h

theorem seen_addEvent (others : List ℕ) {s : AdaptiveView} (h : s.IsMany) (e : Event) (t : ℕ) :
    (addEvent others s e).seen t = max (s.seen t) (eventAt e t) := by
  cases s with
  | events es =>
    rw [addEvent]
    split_ifs with hany hlen
    · exact eventsAt_modify hany t
    · exact eventsAt_concat es e t
    · show (CowView.updateIdx others (promoteToView others es) e).getMax t = _
      rw [CowView.getMax_updateIdx, getMax_promoteToView]
      rfl
  | view v => exact CowView.getMax_updateIdx others v e t
  | event _ => exact h.elim
  | update _ _ => exact h.elim
  | empty => exact h.elim

theorem seen_foldl_addEvent (others : List ℕ) (es : List Event) (t : ℕ) :
    ∀ {s : AdaptiveView}, s.IsMany →
      (es.foldl (addEvent others) s).seen t = max (s.seen t) (eventsAt es t) := by
  induction es with
  | nil => exact fun _ => (Nat.max_zero _).symm
  | cons e es ih =>
    intro s h
    rw [List.foldl_cons, ih (isMany_addEvent others h e), seen_addEvent others h, eventsAt_cons,
      max_assoc]

theorem seen_unify (l r : Event) (t : ℕ) :
    (unify l r).seen t = max (eventAt l t) (eventAt r t) := by
  rw [unify]
  split_ifs with h
  · exact congrArg (max _) (Nat.max_zero _)
  · exact eventAt_max (not_not.1 h) t

theorem seen_demote (s : AdaptiveView) (t : ℕ) : s.demote.seen t = s.seen t := by
  cases s <;> rfl

theorem demote_demote (s : AdaptiveView) : s.demote.demote = s.demote := by
  cases s <;> rfl

/-- The summary is some events. -/
inductive IsEvents : AdaptiveView → List Event → Prop
  | event (e : Event) : IsEvents (event e) [e]
  | events (es : List Event) : IsEvents (events es) es

theorem IsEvents.seen_eq {s : AdaptiveView} {es : List Event} (h : s.IsEvents es) (t : ℕ) :
    s.seen t = eventsAt es t := by
  cases h with
  | event e => exact (Nat.max_zero _).symm
  | events es => rfl

/-- **The cases of `join`**: unless one side is empty or both are one event, the events of one side
are added to the other one. -/
theorem join_cases {P : AdaptiveView → AdaptiveView → AdaptiveView → Prop} (others : List ℕ)
    (demote : ∀ l r s, P l.demote r.demote s → P l r s)
    (empty_right : ∀ s, P s empty s) (empty_left : ∀ s, P empty s s)
    (unify : ∀ l r, P (event l) (event r) (unify l r))
    (add_right : ∀ l r ls rs, l.IsEvents ls → r.IsEvents rs →
      P l r (rs.foldl (addEvent others) (events ls)))
    (add_left : ∀ l r ls rs, l.IsEvents ls → r.IsEvents rs →
      P l r (ls.foldl (addEvent others) (events rs)))
    (view_right : ∀ l ls v, l.IsEvents ls →
      P l (view v) (view (ls.foldl (CowView.updateIdx others) v)))
    (view_left : ∀ v r rs, r.IsEvents rs →
      P (view v) r (view (rs.foldl (CowView.updateIdx others) v)))
    (views : ∀ l r, P (view l) (view r) (view (l.update others r))) (lhs rhs : AdaptiveView) :
    P lhs rhs (join others lhs rhs) := by
  have hstorage : ∀ l r : AdaptiveView, l.demote = l → r.demote = r →
      P l r (joinStorage others l r) := by
    intro l r hl hr
    cases r with
    | empty =>
      have hempty : joinStorage others l empty = l := by cases l <;> rfl
      rw [hempty]
      exact empty_right l
    | update pos v => cases hr
    | event r =>
      cases l with
      | empty => exact empty_left _
      | update pos v => cases hl
      | event l => exact unify l r
      | events ls => exact add_right _ _ ls [r] (.events ls) (.event r)
      | view l => exact view_left l _ [r] (.event r)
    | events rs =>
      cases l with
      | empty => exact empty_left _
      | update pos v => cases hl
      | event l => exact add_left _ _ [l] rs (.event l) (.events rs)
      | events ls => exact add_right _ _ ls rs (.events ls) (.events rs)
      | view l => exact view_left l _ rs (.events rs)
    | view r =>
      cases l with
      | empty => exact empty_left _
      | update pos v => cases hl
      | event l => exact view_right _ [l] r (.event l)
      | events ls => exact view_right _ ls r (.events ls)
      | view l => exact views l r
  exact demote lhs rhs _ (hstorage _ _ (demote_demote lhs) (demote_demote rhs))

/-- **`join` is the pointwise maximum.** -/
theorem seen_join (others : List ℕ) (lhs rhs : AdaptiveView) (t : ℕ) :
    (join others lhs rhs).seen t = max (lhs.seen t) (rhs.seen t) := by
  refine join_cases (P := fun l r s => s.seen t = max (l.seen t) (r.seen t)) others ?_ ?_ ?_ ?_ ?_
    ?_ ?_ ?_ ?_ lhs rhs
  · intro l r s h
    rw [h, seen_demote, seen_demote]
  · exact fun s => (Nat.max_zero _).symm
  · exact fun s => (Nat.zero_max _).symm
  · exact fun l r => seen_unify l r t
  · intro l r ls rs hl hr
    rw [seen_foldl_addEvent others rs t (isMany_events ls), hl.seen_eq, hr.seen_eq]
    rfl
  · intro l r ls rs hl hr
    rw [seen_foldl_addEvent others ls t (isMany_events rs), hl.seen_eq, hr.seen_eq, max_comm]
    rfl
  · intro l ls v hl
    rw [hl.seen_eq, max_comm]
    exact getMax_foldl_updateIdx others ls t v
  · intro v r rs hr
    rw [hr.seen_eq]
    exact getMax_foldl_updateIdx others rs t v
  · exact fun l r => CowView.getMax_update others l r t

/-! ### Updates -/

theorem eventAt_eventsAt_filter {es : List Event} {v : CowView} {u : ℕ → ℕ}
    (hv : ∀ t, v.getMax t ≤ u t)
    (h : ∀ t, eventsAt (es.filter (!v.contains ·)) t ≤ u t) (t : ℕ) : eventsAt es t ≤ u t := by
  rw [eventsAt_le_iff]
  intro e he
  by_cases hc : v.contains e = true
  · exact (CowView.contains_iff.1 hc t).trans (hv t)
  · have hmem : e ∈ es.filter (!v.contains ·) := List.mem_filter.2 ⟨he, by simpa using hc⟩
    exact eventsAt_le_iff.1 (h t) e hmem

theorem eventsAt_filter_le (es : List Event) (p : Event → Bool) (t : ℕ) :
    eventsAt (es.filter p) t ≤ eventsAt es t :=
  eventsAt_le_iff.2 fun e he => eventsAt_le_iff.1 le_rfl e (List.mem_of_mem_filter he)

/-- **What `addUpdate` drops is covered**: a view that covers the new summary and the view of the
event covers the event and the old summary. -/
theorem addUpdate_covers (others : List ℕ) (s : AdaptiveView) (uPos : Event) (uView : CowView)
    {u : ℕ → ℕ} (h : ∀ t, (s.addUpdate others uPos uView).seen t ≤ u t)
    (hu : (∀ t, eventAt uPos t ≤ u t) → ∀ t, uView.getMax t ≤ u t) (t : ℕ) :
    eventAt uPos t ≤ u t ∧ s.seen t ≤ u t := by
  -- one event, and whether its thread has been seen
  have hone : ∀ e, (∀ t, (if uView.contains e then event uPos else events [e, uPos]).seen t ≤ u t) →
      eventAt uPos t ≤ u t ∧ eventAt e t ≤ u t := by
    intro e he
    split at he
    · rename_i hc
      exact ⟨he t, (CowView.contains_iff.1 hc t).trans (hu he t)⟩
    · have := eventsAt_le_iff.1 (he t)
      exact ⟨this uPos (by simp), this e (by simp)⟩
  cases s with
  | empty => exact ⟨h t, Nat.zero_le _⟩
  | event e => exact hone e h
  | update e v => exact hone e h
  | events es =>
    rw [addUpdate] at h
    split at h
    · rename_i hnil
      refine ⟨h t, eventAt_eventsAt_filter (hu h) (fun t => ?_) t⟩
      rw [List.isEmpty_iff.1 hnil]
      exact Nat.zero_le _
    · have hboth : ∀ t, eventsAt (es.filter (!uView.contains ·)) t ≤ u t ∧
        eventAt uPos t ≤ u t := by
        intro t
        have := h t
        rw [seen_addEvent others (isMany_events _), max_le_iff] at this
        exact this
      exact ⟨(hboth t).2, eventAt_eventsAt_filter (hu fun t => (hboth t).2)
        (fun t => (hboth t).1) t⟩
  | view v =>
    rw [addUpdate] at h
    split at h
    · rename_i hc
      exact ⟨h t, (CowView.covers_of_containsView hc t).trans (hu h t)⟩
    · have := h t
      rw [seen, CowView.getMax_updateIdx, max_le_iff] at this
      exact this.symm

/-- Whether a view has one of the events of a thread, it has those before it. -/
theorem eventsAt_filter (es : List Event) (v : CowView) (t : ℕ) :
    eventsAt (es.filter (!v.contains ·)) t = 0 ∨
      eventsAt (es.filter (!v.contains ·)) t = eventsAt es t := by
  by_cases hle : eventsAt es t ≤ v.getMax t
  · left
    refine Nat.le_zero.1 (eventsAt_le_iff.2 fun e he => ?_)
    obtain ⟨he, hc⟩ := List.mem_filter.1 he
    rw [eventAt]
    split
    · rename_i ht
      have := eventsAt_le_iff.1 hle e he
      rw [eventAt, if_pos ht] at this
      have hin : v.contains e = true := by
        rw [CowView.contains, ht]
        exact decide_eq_true this
      rw [hin] at hc
      exact Bool.noConfusion hc
    · exact le_rfl
  · right
    refine le_antisymm (eventsAt_filter_le es _ t) ?_
    by_contra hlt
    refine hle (eventsAt_le_iff.2 fun e he => ?_)
    by_contra hgt
    -- the largest of the events that are kept is the largest of all
    refine hlt (eventsAt_le_iff.2 fun e' he' => ?_)
    by_cases hc : v.contains e' = true
    · have h := CowView.contains_iff.1 hc t
      have hkept : e ∈ es.filter (!v.contains ·) := by
        refine List.mem_filter.2 ⟨he, ?_⟩
        by_contra hn
        exact hgt (CowView.contains_iff.1 (by simpa using hn) t)
      exact (h.trans (not_le.1 hgt).le).trans (eventsAt_le_iff.1 le_rfl e hkept)
    · exact eventsAt_le_iff.1 le_rfl e' (List.mem_filter.2 ⟨he', by simpa using hc⟩)

/-- What is seen after `addUpdate` was seen before, or is the event. -/
theorem seen_addUpdate_eq_or (others : List ℕ) (s : AdaptiveView) (uPos : Event) (uView : CowView)
    (t : ℕ) : (s.addUpdate others uPos uView).seen t = 0 ∨
      (s.addUpdate others uPos uView).seen t = s.seen t ∨
      (s.addUpdate others uPos uView).seen t = eventAt uPos t := by
  have hmax : ∀ a b : ℕ, max a b = a ∨ max a b = b := fun a b => max_choice a b
  have hone : ∀ e, (if uView.contains e then event uPos else events [e, uPos]).seen t =
      eventAt e t ∨ (if uView.contains e then event uPos else events [e, uPos]).seen t =
        eventAt uPos t := by
    intro e
    split
    · exact .inr rfl
    · have hpair : (events [e, uPos]).seen t = max (eventAt e t) (eventAt uPos t) :=
        congrArg (max _) (Nat.max_zero _)
      rw [hpair]
      exact hmax _ _
  cases s with
  | empty => exact .inr (.inr rfl)
  | event e => exact .inr (hone e)
  | update e v => exact .inr (hone e)
  | events es =>
    rw [addUpdate]
    split
    · exact .inr (.inr rfl)
    · rw [seen_addEvent others (isMany_events _), seen, seen]
      rcases hmax (eventsAt (es.filter (!uView.contains ·)) t) (eventAt uPos t) with h | h
      · rw [h]
        exact (eventsAt_filter es uView t).imp_right .inl
      · exact .inr (.inr h)
  | view v =>
    rw [addUpdate]
    split
    · exact .inr (.inr rfl)
    · rw [seen, CowView.getMax_updateIdx]
      exact .inr (hmax _ _)

/-- `addUpdate` adds nothing but the event. -/
theorem seen_addUpdate_le (others : List ℕ) (s : AdaptiveView) (uPos : Event) (uView : CowView)
    (t : ℕ) : (s.addUpdate others uPos uView).seen t ≤ max (s.seen t) (eventAt uPos t) := by
  rcases seen_addUpdate_eq_or others s uPos uView t with h | h | h
  · rw [h]
    exact Nat.zero_le _
  · rw [h]
    exact le_max_left _ _
  · rw [h]
    exact le_max_right _ _

/-- `addUpdate` adds the event. -/
theorem eventAt_le_seen_addUpdate (others : List ℕ) (s : AdaptiveView) (uPos : Event)
    (uView : CowView) (t : ℕ) : eventAt uPos t ≤ (s.addUpdate others uPos uView).seen t := by
  have hone : ∀ e, eventAt uPos t ≤
      (if uView.contains e then event uPos else events [e, uPos]).seen t := by
    intro e
    split
    · exact le_rfl
    · exact eventsAt_le_iff.1 le_rfl uPos (by simp)
  cases s with
  | empty => exact le_rfl
  | event e => exact hone e
  | update e v => exact hone e
  | events es =>
    rw [addUpdate]
    split
    · exact le_rfl
    · rw [seen_addEvent others (isMany_events _)]
      exact le_max_right _ _
  | view v =>
    rw [addUpdate]
    split
    · exact le_rfl
    · rw [seen, CowView.getMax_updateIdx]
      exact le_max_right _ _

/-! ### Equality -/

/-- What a summary is compared by: the events that it has, or the view that it has become. -/
def shape : AdaptiveView → Option (List Event ⊕ (ℕ → ℕ))
  | event e => some (.inl [e])
  | events es => some (.inl es)
  | view v => some (.inr v.getMax)
  | update e _ => some (.inl [e])
  | empty => none

/-- The summaries that are one event. -/
theorem getAsEvent_eq_some_iff {s : AdaptiveView} {e : Event} :
    s.getAsEvent = some e ↔ s.shape = some (.inl [e]) := by
  cases s with
  | event e' => simp [getAsEvent, shape]
  | update e' v => simp [getAsEvent, shape]
  | events es =>
    match es with
    | [] => simp [getAsEvent, shape]
    | [a] => simp [getAsEvent, shape]
    | a :: b :: es => simp [getAsEvent, shape]
  | view v => simp [getAsEvent, shape]
  | empty => simp [getAsEvent, shape]

theorem shape_eq_of_sameStorage {s s' : AdaptiveView} (h : sameStorage s s' = true) :
    s.shape = s'.shape := by
  cases s <;> cases s' <;> try exact Bool.noConfusion h
  · rw [shape, shape, of_decide_eq_true h]
  · rw [shape, shape, of_decide_eq_true h]
  · rw [shape, shape, funext (CowView.getMax_eq_of_beq h)]
  · rw [sameStorage, Bool.and_eq_true, decide_eq_true_eq] at h
    rw [shape, shape, h.1]
  · rfl

/-- **Two summaries are equal if they have the same shape.** -/
theorem beq_iff {s s' : AdaptiveView} : (s == s') = true ↔ s.shape = s'.shape := by
  change (sameStorage s s' || match s.getAsEvent, s'.getAsEvent with
    | some e, some e' => decide (e = e')
    | _, _ => false) = true ↔ _
  rw [Bool.or_eq_true]
  refine ⟨?_, fun h => ?_⟩
  · rintro (h | h)
    · exact shape_eq_of_sameStorage h
    · split at h
      · rename_i e e' he he'
        rw [getAsEvent_eq_some_iff.1 he, getAsEvent_eq_some_iff.1 he', of_decide_eq_true h]
      · cases h
  · cases hs : s.getAsEvent with
    | some e =>
      have he' : s'.getAsEvent = some e := by
        rw [getAsEvent_eq_some_iff, ← h, getAsEvent_eq_some_iff.1 hs]
      right
      rw [he']
      exact decide_eq_true rfl
    | none =>
      -- summaries of no event or of several have a shape of their own
      refine .inl ?_
      cases s <;> cases s' <;> simp_all [shape, sameStorage, getAsEvent, CowView.beq_iff]

instance : EquivBEq AdaptiveView where
  rfl := beq_iff.2 rfl
  symm h := beq_iff.2 (beq_iff.1 h).symm
  trans h h' := beq_iff.2 ((beq_iff.1 h).trans (beq_iff.1 h'))

theorem seen_eq_shape (s : AdaptiveView) (t : ℕ) : s.seen t = match s.shape with
    | some (.inl es) => eventsAt es t
    | some (.inr f) => f t
    | none => 0 := by
  cases s with
  | event e => exact (Nat.max_zero _).symm
  | update e v => exact (Nat.max_zero _).symm
  | events es => rfl
  | view v => rfl
  | empty => rfl

/-- Equal summaries have seen the same. -/
theorem seen_eq_of_beq {s s' : AdaptiveView} (h : (s == s') = true) (t : ℕ) :
    s.seen t = s'.seen t := by
  rw [seen_eq_shape, seen_eq_shape, beq_iff.1 h]

/-! ## Being contained in a view -/

/-- Summaries whose vectors do not end with a zero. -/
def Tidy : AdaptiveView → Prop
  | view v => v.vec.Trimmed
  | _ => True

/-- The summary is a view, covered by another one, but with the base of the other one alone it is
not. -/
def OnlyDiffCovers (s : AdaptiveView) (v : CowView) : Prop :=
  ∃ w, s = view w ∧ (∀ t, w.getMax t ≤ v.getMax t) ∧ v.base ≠ w.base ∧
    ∃ t, v.vec.getD t 0 < w.vec.getD t 0

theorem all_contains_iff {es : List Event} {v : CowView} :
    es.all v.contains = true ↔ ∀ t, eventsAt es t ≤ v.getMax t := by
  rw [List.all_eq_true]
  refine ⟨fun h t => ?_, fun h e he => ?_⟩
  · exact eventsAt_le_iff.2 fun e he => CowView.contains_iff.1 (h e he) t
  · exact CowView.contains_iff.2 fun t => eventsAt_le_iff.1 (h t) e he

/-- **Whether a summary is contained in a view** is the pointwise order, unless the diff of the view
is needed to cover the base of the summary. -/
theorem containedIn_iff {s : AdaptiveView} (hs : s.Tidy) (v : CowView) :
    s.containedIn v = true ↔ (∀ t, s.seen t ≤ v.getMax t) ∧ ¬ s.OnlyDiffCovers v := by
  have hno : ∀ s : AdaptiveView, (∀ w, s ≠ view w) → ¬ s.OnlyDiffCovers v :=
    fun s hs h => hs h.choose h.choose_spec.1
  cases s with
  | empty => simp [containedIn, seen, hno empty (by simp)]
  | event e =>
    rw [and_iff_left (hno _ (by simp))]
    exact CowView.contains_iff
  | update e w =>
    rw [and_iff_left (hno _ (by simp))]
    exact CowView.contains_iff
  | events es =>
    rw [and_iff_left (hno _ (by simp))]
    exact all_contains_iff
  | view w =>
    show v.containsView w = true ↔ (∀ t, w.getMax t ≤ v.getMax t) ∧ _
    refine ⟨fun h => ?_, ?_⟩
    · refine ⟨CowView.covers_of_containsView h, ?_⟩
      rintro ⟨w', hw', -, hne, t, ht⟩
      cases hw'
      rcases ((CowView.containsView_iff_of_trimmed hs).1 h).2 with heq | hle
      · exact hne heq
      · exact absurd (hle t) (not_le.2 ht)
    · rintro ⟨hcovers, hdiff⟩
      refine (CowView.containsView_iff_of_trimmed hs).2 ⟨?_, ?_⟩
      · have := hcovers w.diff.thread
        rw [CowView.getMax_eq w, eventAt, if_pos rfl] at this
        exact (le_max_right _ _).trans this
      · by_contra hc
        rw [not_or, not_forall] at hc
        obtain ⟨hne, t, ht⟩ := hc
        exact hdiff ⟨w, rfl, hcovers, hne, t, not_le.1 ht⟩

theorem trimmed_foldl_updateIdx (others : List ℕ) (es : List Event) : ∀ {v : CowView},
    v.vec.Trimmed → (es.foldl (CowView.updateIdx others) v).vec.Trimmed := by
  induction es with
  | nil => exact fun h => h
  | cons e es ih => exact fun h => ih (CowView.trimmed_updateIdx others h e)

theorem tidy_events (es : List Event) : (events es).Tidy := trivial

theorem tidy_addEvent (others : List ℕ) {s : AdaptiveView} (h : s.Tidy) (e : Event) :
    (addEvent others s e).Tidy := by
  cases s with
  | events es =>
    rw [addEvent]
    split_ifs
    · trivial
    · trivial
    · exact CowView.trimmed_updateIdx others
        (trimmed_foldl_updateIdx others es CowView.trimmed_empty) e
  | view v => exact CowView.trimmed_updateIdx others h e
  | event _ => trivial
  | update _ _ => trivial
  | empty => trivial

theorem tidy_foldl_addEvent (others : List ℕ) (es : List Event) : ∀ {s : AdaptiveView},
    s.Tidy → (es.foldl (addEvent others) s).Tidy := by
  induction es with
  | nil => exact fun h => h
  | cons e es ih => exact fun h => ih (tidy_addEvent others h e)

theorem tidy_demote {s : AdaptiveView} (h : s.Tidy) : s.demote.Tidy := by
  cases s <;> exact h

theorem tidy_join (others : List ℕ) {lhs rhs : AdaptiveView} (hl : lhs.Tidy) (hr : rhs.Tidy) :
    (join others lhs rhs).Tidy := by
  refine join_cases (P := fun l r s => l.Tidy → r.Tidy → s.Tidy) others ?_ ?_ ?_ ?_ ?_ ?_ ?_ ?_ ?_
    lhs rhs hl hr
  · exact fun l r s h hl hr => h (tidy_demote hl) (tidy_demote hr)
  · exact fun s hs _ => hs
  · exact fun s _ hs => hs
  · intro l r _ _
    rw [unify]
    split_ifs <;> trivial
  · exact fun l r ls rs _ _ _ _ => tidy_foldl_addEvent others rs (tidy_events ls)
  · exact fun l r ls rs _ _ _ _ => tidy_foldl_addEvent others ls (tidy_events rs)
  · exact fun l ls v _ _ hv => trimmed_foldl_updateIdx others ls hv
  · exact fun v r rs _ hv _ => trimmed_foldl_updateIdx others rs hv
  · exact fun l r hl hr => CowView.trimmed_update others hl hr

theorem tidy_addUpdate (others : List ℕ) {s : AdaptiveView} (h : s.Tidy) (uPos : Event)
    (uView : CowView) : (s.addUpdate others uPos uView).Tidy := by
  cases s with
  | empty => trivial
  | event e =>
    rw [addUpdate]
    split_ifs <;> trivial
  | update e v =>
    rw [addUpdate]
    split_ifs <;> trivial
  | events es =>
    rw [addUpdate]
    split
    · trivial
    · exact tidy_addEvent others (tidy_events _) uPos
  | view v =>
    rw [addUpdate]
    split
    · trivial
    · exact CowView.trimmed_updateIdx others h uPos

/-! ## Summaries of few threads -/

/-- The events of a summary that is not a view. -/
def eventList : AdaptiveView → List Event
  | event e => [e]
  | update e _ => [e]
  | events es => es
  | _ => []

/-- The threads of these events. -/
def threads (s : AdaptiveView) : List ℕ := s.eventList.map (·.thread)

/-- A summary has seen its events. -/
theorem index_le_seen {s : AdaptiveView} {e : Event} (h : e ∈ s.eventList) :
    e.index ≤ s.seen e.thread := by
  have hat : ∀ e' : Event, e = e' → e.index ≤ eventAt e' e.thread := by
    rintro e' rfl
    rw [eventAt, if_pos rfl]
  cases s with
  | empty => cases h
  | view v => cases h
  | event e' => exact hat e' (List.mem_singleton.1 h)
  | update e' v => exact hat e' (List.mem_singleton.1 h)
  | events es => exact (hat e rfl).trans (eventsAt_le_iff.1 le_rfl e h)

/-- The summary is not a view, and has one event at most of each of some threads. -/
structure Few (T : Finset ℕ) (s : AdaptiveView) : Prop where
  not_view : ∀ v, s ≠ view v
  nodup : s.threads.Nodup
  mem : ∀ x ∈ s.threads, x ∈ T

theorem few_empty (T : Finset ℕ) : Few T empty :=
  ⟨by simp, List.nodup_nil, by simp [threads, eventList]⟩

/-- The threads that a summary has are all that matters. -/
theorem Few.of_eventList {T T' : Finset ℕ} {s : AdaptiveView} (h : Few T s)
    (hmem : ∀ e ∈ s.eventList, e.thread ∈ T') : Few T' s := by
  refine ⟨h.not_view, h.nodup, fun x hx => ?_⟩
  obtain ⟨e, he, rfl⟩ := List.mem_map.1 hx
  exact hmem e he

theorem few_event {T : Finset ℕ} {e : Event} (h : e.thread ∈ T) : Few T (event e) :=
  ⟨by simp, List.nodup_singleton _, by simpa [threads, eventList] using h⟩

theorem Few.demote {T : Finset ℕ} {s : AdaptiveView} (h : Few T s) : Few T s.demote := by
  cases s with
  | update e v => exact few_event (h.mem e.thread (by simp [threads, eventList]))
  | event _ => exact h
  | events _ => exact h
  | view _ => exact h
  | empty => exact h

theorem threads_modify (es : List Event) (e : Event) (i : ℕ)
    (h : ∀ a, es[i]? = some a → a.thread = e.thread) :
    (es.modify i (Event.max · e)).map (·.thread) = es.map (·.thread) := by
  refine List.ext_getElem? fun j => ?_
  rw [List.getElem?_map, List.getElem?_map, List.getElem?_modify]
  by_cases hij : i = j
  · subst hij
    cases ha : es[i]? with
    | none => rfl
    | some a =>
      have hmax : (Event.max a e).thread = a.thread := by
        rw [Event.max]
        split
        · exact (h a ha).symm
        · rfl
      simp [hmax]
  · cases es[j]? <;> simp [hij]

/-- Raising the event of a thread leaves the threads as they are. -/
theorem threads_raise (es : List Event) (e : Event) :
    (es.modify (es.findIdx (·.thread = e.thread)) (Event.max · e)).map (·.thread) =
      es.map (·.thread) := by
  refine threads_modify es e _ fun a ha => ?_
  have := List.findIdx_getElem (w := (List.getElem?_eq_some_iff.1 ha).1)
  rw [(List.getElem?_eq_some_iff.1 ha).2] at this
  simpa using this

/-- Few threads have room for all their events. -/
theorem addEvent_of_few {T : Finset ℕ} (hT : T.card ≤ SmallVectorCapacity) (others : List ℕ)
    {es : List Event} (h : Few T (events es)) {e : Event} (he : e.thread ∈ T)
    (hnot : e.thread ∉ es.map (·.thread)) :
    addEvent others (events es) e = events (es ++ [e]) ∧ Few T (events (es ++ [e])) := by
  have hany : ¬ es.any (·.thread = e.thread) = true := by
    intro hany
    obtain ⟨a, ha, hae⟩ := List.any_eq_true.1 hany
    exact hnot (List.mem_map.2 ⟨a, ha, of_decide_eq_true hae⟩)
  have hnodup : ((es ++ [e]).map (·.thread)).Nodup := by
    rw [List.map_append, List.nodup_append]
    refine ⟨h.nodup, List.nodup_singleton _, fun a ha b hb hab => ?_⟩
    rw [List.map_singleton, List.mem_singleton] at hb
    rw [hab, hb] at ha
    exact hnot ha
  have hmem : ∀ x ∈ (es ++ [e]).map (·.thread), x ∈ T := by
    intro x hx
    rw [List.map_append, List.mem_append] at hx
    rcases hx with hx | hx
    · exact h.mem x hx
    · rw [List.map_singleton, List.mem_singleton] at hx
      rw [hx]
      exact he
  have hlen : es.length < SmallVectorCapacity := by
    have hsub : ((es ++ [e]).map (·.thread)).toFinset ⊆ T := by
      intro x hx
      exact hmem x (List.mem_toFinset.1 hx)
    have hcard := Finset.card_le_card hsub
    rw [List.toFinset_card_of_nodup hnodup, List.length_map, List.length_append,
      List.length_singleton] at hcard
    omega
  rw [addEvent, if_neg hany, if_pos hlen]
  exact ⟨rfl, by simp, hnodup, hmem⟩

theorem few_addEvent {T : Finset ℕ} (hT : T.card ≤ SmallVectorCapacity) (others : List ℕ)
    {es : List Event} (h : Few T (events es)) {e : Event} (he : e.thread ∈ T) :
    ∃ es', addEvent others (events es) e = events es' ∧ Few T (events es') := by
  by_cases hnot : e.thread ∈ es.map (·.thread)
  · obtain ⟨a, ha, hae⟩ := List.mem_map.1 hnot
    have hany : es.any (·.thread = e.thread) = true :=
      List.any_eq_true.2 ⟨a, ha, decide_eq_true hae⟩
    rw [addEvent, if_pos hany]
    refine ⟨_, rfl, ⟨by simp, ?_, ?_⟩⟩
    all_goals rw [threads, eventList, threads_raise]
    · exact h.nodup
    · exact h.mem
  · exact ⟨_, addEvent_of_few hT others h he hnot⟩

theorem few_foldl_addEvent {T : Finset ℕ} (hT : T.card ≤ SmallVectorCapacity) (others : List ℕ)
    (rs : List Event) : ∀ {es : List Event}, Few T (events es) → (∀ e ∈ rs, e.thread ∈ T) →
      Few T (rs.foldl (addEvent others) (events es)) := by
  induction rs with
  | nil => exact fun h _ => h
  | cons e rs ih =>
    intro es h hrs
    obtain ⟨es', hes', hfew⟩ := few_addEvent hT others h (hrs e (List.mem_cons_self ..))
    rw [List.foldl_cons, hes']
    exact ih hfew fun a ha => hrs a (List.mem_cons_of_mem _ ha)

theorem few_unify {T : Finset ℕ} {l r : Event} (hl : l.thread ∈ T) (hr : r.thread ∈ T) :
    Few T (unify l r) := by
  rw [unify]
  split_ifs with h
  · exact ⟨by simp, by simpa [threads, eventList] using h, by simp [threads, eventList, hl, hr]⟩
  · refine few_event ?_
    rw [Event.max]
    split
    · exact hr
    · exact hl

theorem Few.of_isEvents {T : Finset ℕ} {s : AdaptiveView} {es : List Event} (h : Few T s)
    (hs : s.IsEvents es) : Few T (events es) ∧ ∀ e ∈ es, e.thread ∈ T := by
  have hthreads : s.threads = es.map (·.thread) := by cases hs <;> rfl
  have hmem := h.mem
  have hnodup := h.nodup
  rw [hthreads] at hmem hnodup
  exact ⟨⟨by simp, hnodup, hmem⟩, fun e he => hmem _ (List.mem_map_of_mem he)⟩

theorem Few.join {T : Finset ℕ} (hT : T.card ≤ SmallVectorCapacity) (others : List ℕ)
    {lhs rhs : AdaptiveView} (hl : Few T lhs) (hr : Few T rhs) : Few T (join others lhs rhs) := by
  refine join_cases (P := fun l r s => Few T l → Few T r → Few T s) others ?_ ?_ ?_ ?_ ?_ ?_ ?_ ?_
    ?_ lhs rhs hl hr
  · exact fun l r s h hl hr => h hl.demote hr.demote
  · exact fun s hs _ => hs
  · exact fun s _ hs => hs
  · intro l r hl hr
    exact few_unify ((hl.of_isEvents (.event l)).2 l (List.mem_singleton.2 rfl))
      ((hr.of_isEvents (.event r)).2 r (List.mem_singleton.2 rfl))
  · exact fun l r ls rs hls hrs hl hr =>
      few_foldl_addEvent hT others rs (hl.of_isEvents hls).1 (hr.of_isEvents hrs).2
  · exact fun l r ls rs hls hrs hl hr =>
      few_foldl_addEvent hT others ls (hr.of_isEvents hrs).1 (hl.of_isEvents hls).2
  · exact fun l ls v _ _ hv => absurd rfl (hv.not_view v)
  · exact fun v r rs _ hv _ => absurd rfl (hv.not_view v)
  · exact fun l r hl _ => absurd rfl (hl.not_view l)

/-- A summary of few threads stays one when nothing later than the event has been seen of the
thread of the event: then it has the event, and what its view has not seen. -/
theorem Few.addUpdate {T T' : Finset ℕ} (hT' : T'.card ≤ SmallVectorCapacity) (others : List ℕ)
    {s : AdaptiveView} (h : Few T s) {uPos : Event} {uView : CowView} (hpos : uPos.thread ∈ T')
    (hown : uView.contains uPos = true) (hseen : s.seen uPos.thread ≤ uPos.index)
    (hkeep : ∀ e ∈ s.eventList, uView.contains e = false → e.thread ∈ T') :
    Few T' (s.addUpdate others uPos uView) ∧ ∀ e ∈ (s.addUpdate others uPos uView).eventList,
      e = uPos ∨ e ∈ s.eventList ∧ uView.contains e = false := by
  -- what the view has not seen is of other threads
  have hne : ∀ e ∈ s.eventList, uView.contains e = false → e.thread ≠ uPos.thread := by
    intro e he hc heq
    have hle := index_le_seen he
    rw [CowView.contains, decide_eq_true_eq] at hown
    rw [CowView.contains, heq, decide_eq_false_iff_not] at hc
    rw [heq] at hle
    omega
  have hevent : Few T' (event uPos) ∧ ∀ e ∈ (event uPos).eventList,
      e = uPos ∨ e ∈ s.eventList ∧ uView.contains e = false :=
    ⟨few_event hpos, fun e he => .inl (List.mem_singleton.1 he)⟩
  have hone : ∀ e, s.eventList = [e] →
      Few T' (if uView.contains e then event uPos else events [e, uPos]) ∧
        ∀ e' ∈ (if uView.contains e then event uPos else events [e, uPos]).eventList,
          e' = uPos ∨ e' ∈ s.eventList ∧ uView.contains e' = false := by
    intro e he
    have hmem : e ∈ s.eventList := by rw [he]; exact List.mem_singleton_self e
    split
    · exact hevent
    · rename_i hc
      rw [Bool.not_eq_true] at hc
      have hthread := hne e hmem hc
      refine ⟨⟨by simp, by simpa [threads, eventList] using hthread,
        by simp [threads, eventList, hkeep e hmem hc, hpos]⟩, fun e' he' => ?_⟩
      rcases List.mem_cons.1 he' with rfl | he'
      · exact .inr ⟨hmem, hc⟩
      · exact .inl (List.mem_singleton.1 he')
  cases s with
  | empty => exact hevent
  | event e => exact hone e rfl
  | update e v => exact hone e rfl
  | view v => exact absurd rfl (h.not_view v)
  | events es =>
    have hfilter : ∀ e ∈ es.filter (!uView.contains ·), e ∈ es ∧ uView.contains e = false := by
      intro e he
      obtain ⟨hmem, hc⟩ := List.mem_filter.1 he
      exact ⟨hmem, by simpa using hc⟩
    have hsub : ((es.filter (!uView.contains ·)).map (·.thread)).Sublist (es.map (·.thread)) :=
      (List.filter_sublist (p := (!uView.contains ·))).map _
    have hfew : Few T' (events (es.filter (!uView.contains ·))) := by
      refine ⟨by simp, h.nodup.sublist hsub, fun x hx => ?_⟩
      obtain ⟨e, he, rfl⟩ := List.mem_map.1 hx
      exact hkeep e (hfilter e he).1 (hfilter e he).2
    rw [AdaptiveView.addUpdate]
    split
    · exact hevent
    · obtain ⟨heq, hfew'⟩ := addEvent_of_few hT' others hfew hpos fun hx => by
        obtain ⟨e, he, heq⟩ := List.mem_map.1 hx
        exact hne e (hfilter e he).1 (hfilter e he).2 heq
      rw [heq]
      refine ⟨hfew', fun e he => ?_⟩
      rcases List.mem_append.1 he with he | he
      · exact .inr (hfilter e he)
      · exact .inl (List.mem_singleton.1 he)

theorem few_iff_shape {T : Finset ℕ} {s : AdaptiveView} : Few T s ↔ match s.shape with
    | some (.inl es) => (es.map (·.thread)).Nodup ∧ ∀ x ∈ es.map (·.thread), x ∈ T
    | some (.inr _) => False
    | none => True := by
  have hfew : Few T s ↔ (∀ v, s ≠ view v) ∧ s.threads.Nodup ∧ ∀ x ∈ s.threads, x ∈ T :=
    ⟨fun h => ⟨h.not_view, h.nodup, h.mem⟩, fun h => ⟨h.1, h.2.1, h.2.2⟩⟩
  rw [hfew]
  cases s <;> simp [shape, threads, eventList]

theorem eventList_eq_of_beq {s s' : AdaptiveView} (h : (s == s') = true) :
    s.eventList = s'.eventList := by
  have hshape : ∀ s : AdaptiveView, s.eventList = match s.shape with
      | some (.inl es) => es
      | _ => [] := by
    intro s
    cases s <;> rfl
  rw [hshape s, hshape s', beq_iff.1 h]

theorem few_congr_of_beq {T : Finset ℕ} {s s' : AdaptiveView} (h : (s == s') = true) :
    Few T s ↔ Few T s' := by
  rw [few_iff_shape, few_iff_shape, beq_iff.1 h]

end AdaptiveView

end GenMC
