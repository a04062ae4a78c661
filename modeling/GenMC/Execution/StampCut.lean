import GenMC.Execution.LabelRemoval
import GenMC.Library.ListOrder

/-!
# Cutting a graph to a stamp

`cutToStamp` keeps what was in the graph at some earlier moment.  It does so in five passes over
different parts of the graph: a view is read off the stamps, the lists of locations are filtered,
then the insertion order, then the pointers of the labels that stay, and last the threads are
truncated; the begins of all threads survive these passes, and a clean-up removes the orphans.

* `survives` says which events stay: those with an early stamp, and the begins of the threads whose
  creation has one (the begin itself may be later).
* `CutTo` says that a graph is the restriction of another to some events, newly stamped.
* `cutTo_cutToStamp` is the result.  It needs that no thread whose creation is cut comes before one
  whose creation is kept (`CreatedInOrder`): the clean-up goes over the threads from the last one
  down and stops at the first with more than a begin, and removing a begin moves the threads above
  it.  And it speaks of the access lists of those locations only that a surviving read or write
  accesses: the list of any other location is dropped, also if a deallocation survives.
* `not_cutTo_isEarly` has a small graph for each of the three reasons why the cut of a graph is not
  always the restriction to the early events.
-/

set_option autoImplicit false

namespace GenMC
namespace ExecutionGraph

variable {g : ExecutionGraph}

/-! ## Which events survive -/

/-- The event has a stamp of at most `stamp`. -/
def isEarly (g : ExecutionGraph) (stamp : ℕ) (e : Event) : Bool :=
  (g.getEventLabel e).any fun lab => lab.stamp.any (· ≤ stamp)

/-- The creation of the thread has a stamp of at most `stamp`. -/
def createdEarly (g : ExecutionGraph) (stamp t : ℕ) : Bool :=
  (g.getEventLabel ⟨t, 0⟩).any fun lab => lab.create.any (g.isEarly stamp)

/-- The events a cut keeps: the early ones, and the begins of threads that were created early. -/
def survives (g : ExecutionGraph) (stamp : ℕ) (e : Event) : Bool :=
  g.isEarly stamp e || (e.index = 0 && g.createdEarly stamp e.thread)

/-- A thread whose creation is cut does not come before one whose creation is kept. -/
def CreatedInOrder (g : ExecutionGraph) (stamp : ℕ) : Prop :=
  ∀ t t', 0 < t → t < t' → g.createdEarly stamp t' = true → g.createdEarly stamp t = true

/-- A well-formed graph whose stamps increase along program order and from the creation of a
thread to its begin. -/
structure StampOrdered (g : ExecutionGraph) : Prop extends CrossReferenced g where
  stamped : g.Stamped
  initStamp : g.isEarly 0 Event.getInit = true
  begins : ∀ t, 0 < t → t < g.getNumThreads → ∃ lab, g.getEventLabel ⟨t, 0⟩ = some lab ∧
    lab.kind = .ThreadStart ∧ lab.create.isSome
  tracked : ∀ e lab, g.getEventLabel e = some lab → lab.isRegistered = true →
    (g.coherence lab.addr).isSome
  po : ∀ t i n, g.isEarly n ⟨t, i + 1⟩ = true → g.isEarly n ⟨t, i⟩ = true
  creation : ∀ b bLab c n, g.getEventLabel b = some bLab → bLab.create = some c →
    g.isEarly n b = true → g.isEarly n c = true

/-- `g'` is `g` restricted to the events to be kept, newly stamped in the old order.  The access
lists count for some locations only. -/
structure CutTo (g : ExecutionGraph) (keep : Event → Bool) (locs : SAddr → Prop)
    (g' : ExecutionGraph) : Prop where
  events : ∀ e, (g'.getEventLabel e).isSome ↔ keep e = true ∧ (g.getEventLabel e).isSome
  label : ∀ e lab, keep e = true → g.getEventLabel e = some lab →
    ∃ succ, g'.getEventLabel e = some
      { lab.keepPointers keep with
        stamp := some (g'.insertionOrder.idxOf e)
        symmSuccTid := succ }
  insertionOrder : g'.insertionOrder = g.insertionOrder.filter keep
  timestamp : g'.timestamp = g'.insertionOrder.length
  co : ∀ a, g'.co a = (g.co a).filter keep
  initReaders : ∀ a, g'.initReaders a = (g.initReaders a).filter keep
  accesses : ∀ a, locs a → g'.accesses a = (g.accesses a).filter keep

/-- All pointers lead to events that are kept. -/
theorem CutTo.no_reference {g' : ExecutionGraph} {keep : Event → Bool} {locs : SAddr → Prop}
    (h : CutTo g keep locs g') {e x : Event} {lab' : EventLabel}
    (h' : g'.getEventLabel e = some lab') (hx : x ∈ lab'.pointers) : keep x = true := by
  obtain ⟨hkeep, hsome⟩ := (h.events e).1 (by rw [h']; rfl)
  obtain ⟨lab, hlab⟩ := Option.isSome_iff_exists.1 hsome
  obtain ⟨succ, heq⟩ := h.label e lab hkeep hlab
  obtain rfl := Option.some.inj (h'.symm.trans heq)
  exact EventLabel.keep_of_mem_pointers (show x ∈ (lab.keepPointers keep).pointers from hx)

/-! ## The view of a stamp -/

theorem isEarly_isSome {stamp : ℕ} {e : Event} (h : g.isEarly stamp e = true) :
    (g.getEventLabel e).isSome := by
  obtain ⟨lab, hlab, -⟩ := (Option.any_eq_true _ _).1 h
  rw [hlab]
  rfl

/-- Program order only goes back to early events. -/
theorem StampOrdered.isEarly_of_le (h : g.StampOrdered) {stamp t i j : ℕ} (hij : i ≤ j)
    (hj : g.isEarly stamp ⟨t, j⟩ = true) : g.isEarly stamp ⟨t, i⟩ = true := by
  induction hij with
  | refl => exact hj
  | step _ ih => exact ih (h.po _ _ _ hj)

/-- **The view of a stamp contains the early events, and the begin of every thread.** -/
theorem StampOrdered.contains_getViewFromStamp (h : g.StampOrdered) (stamp : ℕ) {e : Event}
    (he : (g.getEventLabel e).isSome) :
    (g.getViewFromStamp stamp).contains e = true ↔ g.isEarly stamp e = true ∨ e.index = 0 := by
  obtain ⟨t, i⟩ := e
  obtain ⟨lab, hlab⟩ := Option.isSome_iff_exists.1 he
  have hsize := lt_getThreadSize_of_getEventLabel hlab
  obtain ⟨hmax, hearly⟩ :=
    ListOrder.getD_find?_reverse_range (fun j => g.isEarly stamp ⟨t, j⟩) (g.getThreadSize t)
  rw [View.contains_iff]
  show i ≤ ((List.range (g.getThreadSize t)).reverse.find? fun j => g.isEarly stamp ⟨t, j⟩).getD 0 ↔
    g.isEarly stamp ⟨t, i⟩ = true ∨ i = 0
  refine ⟨fun hi => ?_, ?_⟩
  · rcases Nat.eq_zero_or_pos i with rfl | hpos
    · exact .inr rfl
    · exact .inl (h.isEarly_of_le hi (hearly (lt_of_lt_of_le hpos hi)))
  · rintro (hi | rfl)
    · exact hmax i hsize hi
    · exact Nat.zero_le _

/-! ## The clean-up -/

/-- `o'` is `o` without the threads from `k` on, which have nothing but a begin.  The clean-up also
cuts the chain of symmetric threads at the first thread that is removed. -/
structure BeginsDropped (o o' : ExecutionGraph) (k : ℕ) : Prop where
  isSome : ∀ e, (o'.getEventLabel e).isSome ↔ e.thread < k ∧ (o.getEventLabel e).isSome
  label : ∀ e lab, e.thread < k → o.getEventLabel e = some lab →
    ∃ succ, o'.getEventLabel e = some { lab with symmSuccTid := succ }
  insertionOrder : o'.insertionOrder =
    o.insertionOrder.filter fun e => decide (e.thread < k ∨ 0 < e.index)
  coherence : o'.coherence = o.coherence
  initRfs : o'.initRfs = o.initRfs
  accessMap : o'.accessMap = o.accessMap

theorem BeginsDropped.trans {o₁ o₂ o₃ : ExecutionGraph} {k n : ℕ} (h : BeginsDropped o₁ o₂ n)
    (h' : BeginsDropped o₂ o₃ k) (hk : k ≤ n) : BeginsDropped o₁ o₃ k := by
  refine ⟨fun e => ?_, fun e lab he hlab => ?_, ?_, h'.coherence.trans h.coherence,
    h'.initRfs.trans h.initRfs, h'.accessMap.trans h.accessMap⟩
  · rw [h'.isSome, h.isSome]
    exact and_congr_right fun he => and_iff_right (he.trans_le hk)
  · obtain ⟨succ, hlab'⟩ := h.label e lab (he.trans_le hk) hlab
    obtain ⟨succ', hlab''⟩ := h'.label e _ he hlab'
    exact ⟨succ', hlab''⟩
  · rw [h'.insertionOrder, h.insertionOrder, List.filter_filter]
    refine List.filter_congr fun e _ => ?_
    rw [Bool.eq_iff_iff, Bool.and_eq_true, decide_eq_true_eq, decide_eq_true_eq]
    omega

/-- Removing the last thread, which is a begin. -/
theorem beginsDropped_eraseBegin {o : ExecutionGraph} (hs : o.Slots) (hio : o.insertionOrder.Nodup)
    (hin : ∀ e ∈ o.insertionOrder, (o.getEventLabel e).isSome) {n : ℕ}
    (hn : o.getNumThreads = n + 1) {bLab : EventLabel} (hb : o.getEventLabel ⟨n, 0⟩ = some bLab) :
    BeginsDropped o (o.eraseBegin n bLab) n := by
  have hmaps : (o.eraseBegin n bLab).coherence = o.coherence ∧
      (o.eraseBegin n bLab).initRfs = o.initRfs ∧
        (o.eraseBegin n bLab).accessMap = o.accessMap := by
    rw [eraseBegin]
    cases bLab.symmPredTid <;> exact ⟨rfl, rfl, rfl⟩
  have hnone : ∀ e : Event, n ≤ e.thread → o.getEventLabel ⟨e.thread + 1, e.index⟩ = none := by
    intro e he
    refine getEventLabel_of_index_ge ?_
    show o.getThreadSize (e.thread + 1) ≤ e.index
    rw [getThreadSize_eq_zero (by omega)]
    exact Nat.zero_le _
  refine ⟨fun e => ?_, fun e lab he hlab => ?_, ?_, hmaps.1, hmaps.2.1, hmaps.2.2⟩
  · obtain ⟨f, -, -, heq⟩ := getEventLabel_eraseBegin (g := o) n bLab e
    rw [heq, Option.isSome_map]
    split
    · rename_i he
      rw [and_iff_right he]
    · rename_i he
      rw [hnone e (not_lt.1 he)]
      simp [he]
  · obtain ⟨f, hf, -, heq⟩ := getEventLabel_eraseBegin (g := o) n bLab e
    obtain ⟨succ, hsucc⟩ := hf lab
    exact ⟨succ, by rw [heq, if_pos he, hlab, Option.map_some, hsucc]⟩
  · rw [insertionOrder_eraseBegin, hs _ _ hb, hio.erase_eq_filter]
    refine List.filter_congr fun e he => ?_
    obtain ⟨lab, hlab⟩ := Option.isSome_iff_exists.1 (hin e he)
    have hlt := lt_getNumThreads_of_getEventLabel hlab
    rw [Bool.eq_iff_iff, bne_iff_ne, decide_eq_true_eq, Ne, Event.ext_iff']
    show ¬ (e.thread = n ∧ e.index = 0) ↔ _
    omega

/-- A begin that has a creation, or that is below a thread of more than a begin, is kept by a
clean-up of the threads below `n`. -/
def KeptBelow (o : ExecutionGraph) (n : ℕ) : Prop :=
  ∀ t b, t < n → o.getEventLabel ⟨t, 0⟩ = some b → b.kind ≠ .Init →
    b.create.isSome ∨ ∃ u, t ≤ u ∧ u < n ∧ o.getThreadSize u ≠ 1

/-- The threads from `k` on are orphaned begins, and the clean-up stops below `k`. -/
structure Orphaned (o : ExecutionGraph) (k n : ℕ) : Prop where
  threads : o.getNumThreads = n
  orphan : ∀ t, k ≤ t → t < n → o.getThreadSize t = 1 ∧ ∃ b, o.getEventLabel ⟨t, 0⟩ = some b ∧
    b.kind ≠ .Init ∧ b.create = none
  kept : KeptBelow o k

/-- The last thread is kept if it is only a begin, and the clean-up goes on below it. -/
theorem KeptBelow.pred {o : ExecutionGraph} {n : ℕ} (h : KeptBelow o (n + 1)) {bLab : EventLabel}
    (hb : o.events.getD n [] = [bLab]) (hk : bLab.kind ≠ .Init) :
    bLab.create.isNone = false ∧ KeptBelow o n := by
  have hsize : o.getThreadSize n = 1 := congrArg List.length hb
  have hbegin : o.getEventLabel ⟨n, 0⟩ = some bLab := (getEventLabel_of_events_eq hb).1
  refine ⟨?_, fun t b ht htb htk => ?_⟩
  · rw [Option.isNone_eq_false_iff]
    refine (h n bLab (Nat.lt_succ_self n) hbegin hk).resolve_right ?_
    rintro ⟨u, hnu, hun, hu⟩
    rw [show u = n by omega] at hu
    exact hu hsize
  · refine (h t b (ht.trans (Nat.lt_succ_self n)) htb htk).imp_right ?_
    rintro ⟨u, htu, hun, hu⟩
    refine ⟨u, htu, (Nat.lt_succ_iff.1 hun).lt_of_ne ?_, hu⟩
    rintro rfl
    exact hu hsize

theorem cleanupBegins_of_keptBelow {o : ExecutionGraph} : ∀ {n : ℕ}, KeptBelow o n →
    o.cleanupBegins (fun _ bLab => bLab.create.isNone) n = o
  | 0, _ => rfl
  | n + 1, h => by
    rw [cleanupBegins]
    split
    · rename_i bLab hb
      split
      · rfl
      · rename_i hk
        obtain ⟨hcreate, hkept⟩ := h.pred hb hk
        rw [hcreate, if_neg Bool.false_ne_true]
        exact cleanupBegins_of_keptBelow hkept
    · rfl

theorem getNumThreads_eraseLast {o : ExecutionGraph} {n : ℕ} (hn : o.getNumThreads = n + 1)
    (bLab : EventLabel) : (o.eraseBegin n bLab).getNumThreads = n := by
  rw [getNumThreads_eraseBegin (hn ▸ Nat.lt_succ_self n), hn, Nat.add_sub_cancel]

/-- The last of the orphans is removed. -/
theorem Orphaned.pred {o : ExecutionGraph} {k n : ℕ} (h : Orphaned o k (n + 1)) (hkn : k ≤ n) :
    ∃ bLab, o.events.getD n [] = [bLab] ∧ bLab.kind ≠ .Init ∧ bLab.create = none ∧
      Orphaned (o.eraseBegin n bLab) k n := by
  obtain ⟨hsize, bLab, hb, hkind, hcreate⟩ := h.orphan n hkn (Nat.lt_succ_self n)
  refine ⟨bLab, events_eq_singleton hb (List.getElem?_eq_none hsize.le), hkind, hcreate,
    getNumThreads_eraseLast h.threads bLab, fun t ht htn => ?_, fun t b' ht hb' hkind' => ?_⟩
  · obtain ⟨hsize', b, hb', hkind', hcreate'⟩ := h.orphan t ht (htn.trans (Nat.lt_succ_self n))
    obtain ⟨f, hf, -, heq⟩ := getEventLabel_eraseBegin (g := o) n bLab ⟨t, 0⟩
    obtain ⟨succ, hsucc⟩ := hf b
    refine ⟨?_, { b with symmSuccTid := succ }, ?_, hkind', hcreate'⟩
    · rw [getThreadSize_eraseBegin, if_pos htn]
      exact hsize'
    · rw [heq, if_pos htn, hb', Option.map_some, hsucc]
  · obtain ⟨f, hf, -, heq⟩ := getEventLabel_eraseBegin (g := o) n bLab ⟨t, 0⟩
    rw [heq, if_pos (ht.trans_le hkn)] at hb'
    obtain ⟨b, hb, rfl⟩ := Option.map_eq_some_iff.1 hb'
    obtain ⟨succ, hsucc⟩ := hf b
    rw [hsucc] at hkind' ⊢
    refine (h.kept t b ht hb hkind').imp_right ?_
    rintro ⟨u, htu, huk, hu⟩
    refine ⟨u, htu, huk, ?_⟩
    rwa [getThreadSize_eraseBegin, if_pos (huk.trans_le hkn)]

/-- **The clean-up removes the threads at the end that are orphaned begins.** -/
theorem Orphaned.beginsDropped {k n : ℕ} {o : ExecutionGraph} (h : Orphaned o k n) (hk : k ≤ n)
    (hs : o.Slots) (hio : o.insertionOrder.Nodup)
    (hin : ∀ e ∈ o.insertionOrder, (o.getEventLabel e).isSome) :
    BeginsDropped o (o.cleanupBegins (fun _ bLab => bLab.create.isNone) n) k := by
  induction n, hk using Nat.le_induction generalizing o with
  | base =>
    rw [cleanupBegins_of_keptBelow h.kept]
    have hthread : ∀ e, (o.getEventLabel e).isSome → e.thread < k := by
      intro e hsome
      obtain ⟨lab, hlab⟩ := Option.isSome_iff_exists.1 hsome
      exact h.threads ▸ lt_getNumThreads_of_getEventLabel hlab
    exact
      { isSome := fun e => (and_iff_right_of_imp (hthread e)).symm
        label := fun e lab _ hlab => ⟨_, hlab⟩
        insertionOrder := (List.filter_eq_self.2 fun e he =>
          decide_eq_true (.inl (hthread e (hin e he)))).symm
        coherence := rfl
        initRfs := rfl
        accessMap := rfl }
  | succ n hkn ih =>
    obtain ⟨bLab, hthread, hkind, hcreate, horphaned⟩ := h.pred hkn
    have hsize : o.getThreadSize n = 1 := congrArg List.length hthread
    have hb : o.getEventLabel ⟨n, 0⟩ = some bLab := by
      rw [getEventLabel, hthread]
      rfl
    have hdrop := beginsDropped_eraseBegin hs hio hin h.threads hb
    have hclean : o.cleanupBegins (fun _ bLab => bLab.create.isNone) (n + 1) =
        (o.eraseBegin n bLab).cleanupBegins (fun _ bLab => bLab.create.isNone) n := by
      rw [cleanupBegins, hthread]
      simp only
      rw [if_neg hkind, hcreate, if_pos Option.isNone_none]
    rw [hclean]
    refine hdrop.trans (ih horphaned (fun e lab' hlab' => ?_) ?_ fun e he => ?_) hkn
    · obtain ⟨he, hsome⟩ := (hdrop.isSome e).1 (by rw [hlab']; rfl)
      obtain ⟨lab, hlab⟩ := Option.isSome_iff_exists.1 hsome
      obtain ⟨succ, heq⟩ := hdrop.label e lab he hlab
      obtain rfl := Option.some.inj (hlab'.symm.trans heq)
      exact hs e lab hlab
    · rw [hdrop.insertionOrder]
      exact hio.filter _
    · rw [hdrop.insertionOrder, List.mem_filter, decide_eq_true_eq] at he
      obtain ⟨lab, hlab⟩ := Option.isSome_iff_exists.1 (hin e he.1)
      have ht : e.thread < n + 1 := h.threads ▸ lt_getNumThreads_of_getEventLabel hlab
      have hi := lt_getThreadSize_of_getEventLabel hlab
      refine (hdrop.isSome e).2 ⟨?_, hin e he.1⟩
      by_contra hge
      rw [show e.thread = n by omega, hsize] at hi
      omega

/-! ## What the view keeps -/

theorem isEarly_mono {m n : ℕ} (hmn : m ≤ n) {e : Event} (h : g.isEarly m e = true) :
    g.isEarly n e = true := by
  obtain ⟨lab, hlab, hs⟩ := (Option.any_eq_true _ _).1 h
  obtain ⟨k, hk, hle⟩ := (Option.any_eq_true _ _).1 hs
  exact (Option.any_eq_true _ _).2 ⟨lab, hlab, (Option.any_eq_true _ _).2 ⟨k, hk,
    decide_eq_true ((of_decide_eq_true hle).trans hmn)⟩⟩

/-! ## Graphs with their stamps in order -/

theorem isEarly_of_forall_stamp {e e' : Event}
    (h : ∀ lab ∈ g.getEventLabel e', ∀ s ∈ lab.stamp, g.isEarly s e = true) {n : ℕ}
    (he' : g.isEarly n e' = true) : g.isEarly n e = true := by
  obtain ⟨lab, hlab, hs⟩ := (Option.any_eq_true _ _).1 he'
  obtain ⟨s, hs, hle⟩ := (Option.any_eq_true _ _).1 hs
  exact isEarly_mono (of_decide_eq_true hle) (h lab hlab s hs)

/-- To see that the stamps are in order, it is enough to look at each label once. -/
theorem CrossReferenced.stampOrdered (h : g.CrossReferenced)
    (hinit : g.isEarly 0 Event.getInit = true)
    (hbegins : ∀ t < g.getNumThreads, 0 < t →
      ∃ b ∈ g.getEventLabel ⟨t, 0⟩, b.kind = .ThreadStart ∧ b.create.isSome)
    (hlabels : ∀ e lab, g.getEventLabel e = some lab → lab.stamp.isSome ∧
      (lab.isRegistered = true → (g.coherence lab.addr).isSome) ∧ ∀ s ∈ lab.stamp,
        (0 < e.index → g.isEarly s ⟨e.thread, e.index - 1⟩ = true) ∧
          ∀ c ∈ lab.create, g.isEarly s c = true) : StampOrdered g where
  toCrossReferenced := h
  stamped := fun e lab hlab => (hlabels e lab hlab).1
  initStamp := hinit
  begins := fun t ht htn => hbegins t htn ht
  tracked := fun e lab hlab => (hlabels e lab hlab).2.1
  po := fun t i _ => isEarly_of_forall_stamp fun lab hlab s hs =>
    ((hlabels ⟨t, i + 1⟩ lab hlab).2.2 s hs).1 (Nat.succ_pos i)
  creation := fun b bLab c _ hb hc => isEarly_of_forall_stamp fun lab hlab s hs => by
    obtain rfl := Option.some.inj (hb.symm.trans hlab)
    exact ((hlabels b bLab hb).2.2 s hs).2 c hc

theorem forkedLoad_stampOrdered : forkedLoad.StampOrdered :=
  forkedLoad_crossReferenced.stampOrdered (by decide) (by decide) (forall_label_iff.2 (by decide))

theorem createdInOrder_of_two_threads (h : g.getNumThreads = 2) (stamp : ℕ) :
    g.CreatedInOrder stamp := by
  intro t t' ht hlt hearly
  obtain ⟨b, hb, -⟩ := (Option.any_eq_true _ _).1 hearly
  have hthread : t' < g.getNumThreads := lt_getNumThreads_of_getEventLabel hb
  omega

/-! ## The view and what survives -/

theorem kind_ne_threadStart_of_isRegistered {lab : EventLabel} (hr : lab.isRegistered = true) :
    lab.kind ≠ .ThreadStart := by
  intro hk
  rw [EventLabel.isRegistered, EventLabel.isMemAccess, EventLabel.isFree, hk] at hr
  exact absurd hr (by decide)

theorem kind_ne_threadStart_of_isMemAccess {lab : EventLabel} (hm : lab.isMemAccess = true) :
    lab.kind ≠ .ThreadStart :=
  kind_ne_threadStart_of_isRegistered (EventLabel.isRegistered_of_isMemAccess hm)

/-- What `removeAfter` leaves of the list of a location. -/
def keptList (g : ExecutionGraph) (preds : View) (m : SAddr → Option (List Event)) (a : SAddr) :
    Option (List Event) :=
  if (g.coherence a).isNone then m a
  else if (g.keptEvents preds).flatten.any fun lab => lab.isMemAccess && lab.addr = a then
    some (((m a).getD []).filter (preds.contains ·))
  else none

/-- Only begins are at the bottom of a thread. -/
theorem CrossReferenced.index_pos (h : g.CrossReferenced) (hbegins : ∀ t, 0 < t →
      t < g.getNumThreads → ∃ lab, g.getEventLabel ⟨t, 0⟩ = some lab ∧ lab.kind = .ThreadStart)
    {e : Event} {lab : EventLabel} (hlab : g.getEventLabel e = some lab)
    (hstart : lab.kind ≠ .ThreadStart) (hinit : lab.kind ≠ .Init) : 0 < e.index := by
  obtain ⟨t, i⟩ := e
  rw [Nat.pos_iff_ne_zero]
  rintro rfl
  rcases Nat.eq_zero_or_pos t with rfl | ht
  · exact h.ne_init hlab hinit rfl
  · obtain ⟨b, hb, hk⟩ := hbegins t ht (lt_getNumThreads_of_getEventLabel hlab)
    rw [hlab] at hb
    exact hstart (Option.some.inj hb ▸ hk)

/-- **The pointers of a label, each filtered only where its kind has one.**  As no pointer leads to
a begin, it does not matter whether the filter keeps the begins. -/
theorem CrossReferenced.keepPointers_eq (h : g.CrossReferenced) {contains keep : Event → Bool}
    (hagree : ∀ e lab, g.getEventLabel e = some lab → lab.kind ≠ .ThreadStart →
      contains e = keep e) {e : Event} {lab : EventLabel} (hlab : g.getEventLabel e = some lab) :
    { lab with
      readers := if lab.isWrite then lab.readers.filter contains else lab.readers
      rf := if lab.isRead then lab.rf.filter contains else lab.rf
      create := if lab.isThreadStart then lab.create.filter contains else lab.create
      parentJoin := if lab.kind = .ThreadFinish then lab.parentJoin.filter contains
        else lab.parentJoin
      linPreds := if lab.kind = .MethodBegin then lab.linPreds.filter contains else lab.linPreds
      linSuccs := if lab.kind = .MethodEnd then lab.linSuccs.filter contains
        else lab.linSuccs } = lab.keepPointers keep := by
  have hlist : ∀ (c : Prop) [Decidable c] (l : List Event), (∀ p ∈ l, c ∧ ∃ pLab,
      g.getEventLabel p = some pLab ∧ pLab.kind ≠ .ThreadStart) →
        (if c then l.filter contains else l) = l.filter keep := by
    intro c _ l hl
    by_cases hc : c
    · rw [if_pos hc]
      refine List.filter_congr fun p hp => ?_
      obtain ⟨-, pLab, hpLab, hk⟩ := hl p hp
      exact hagree p pLab hpLab hk
    · rw [if_neg hc, List.eq_nil_iff_forall_not_mem.2 fun p hp => hc (hl p hp).1]
      rfl
  have hoption : ∀ (c : Prop) [Decidable c] (o : Option Event), (∀ p, o = some p → c ∧ ∃ pLab,
      g.getEventLabel p = some pLab ∧ pLab.kind ≠ .ThreadStart) →
        (if c then o.filter contains else o) = o.filter keep := by
    intro c _ o ho
    cases o with
    | none => split <;> rfl
    | some p =>
      obtain ⟨hc, pLab, hpLab, hk⟩ := ho p rfl
      rw [if_pos hc, Option.filter_some, Option.filter_some, hagree p pLab hpLab hk]
  have hne : ∀ (k : EventLabelKind), k ≠ .ThreadStart → ∀ {l : EventLabel}, l.kind = k →
      l.kind ≠ .ThreadStart := fun k hk l hl => hl ▸ hk
  have hreaders := hlist (lab.isWrite = true) lab.readers fun p hp => by
    obtain ⟨hw, pLab, hpLab, hr, -⟩ := h.readers e lab p hlab hp
    exact ⟨hw, pLab, hpLab,
      kind_ne_threadStart_of_isMemAccess (EventLabel.isMemAccess_of_isRead hr)⟩
  have hrf := hoption (lab.isRead = true) lab.rf fun p hp => by
    obtain ⟨hr, ⟨rfl, -⟩ | ⟨wLab, hwLab, hw, -⟩⟩ := h.rf e lab p hlab hp
    · obtain ⟨iLab, hiLab, hk⟩ := h.init
      exact ⟨hr, iLab, hiLab, hne _ (by decide) hk⟩
    · exact ⟨hr, wLab, hwLab,
        kind_ne_threadStart_of_isMemAccess (EventLabel.isMemAccess_of_isWrite hw)⟩
  have hcreate := hoption (lab.isThreadStart = true) lab.create fun p hp => by
    obtain ⟨-, hstart, cLab, hcLab, hk, -⟩ := h.create e lab p hlab hp
    exact ⟨hstart, cLab, hcLab, hne _ (by decide) hk⟩
  have hjoin := hoption (lab.kind = .ThreadFinish) lab.parentJoin fun p hp => by
    obtain ⟨hfinish, -, jLab, hjLab, hk, -⟩ := h.parentJoin e lab p hlab hp
    exact ⟨hfinish, jLab, hjLab, hne _ (by decide) hk⟩
  have hpreds := hlist (lab.kind = .MethodBegin) lab.linPreds fun p hp => by
    obtain ⟨hbegin, eLab, heLab, hk, -⟩ := h.linPreds e lab p hlab hp
    exact ⟨hbegin, eLab, heLab, hne _ (by decide) hk⟩
  have hsuccs := hlist (lab.kind = .MethodEnd) lab.linSuccs fun p hp => by
    obtain ⟨hend, bLab, hbLab, hk, -⟩ := h.linSuccs e lab p hlab hp
    exact ⟨hend, bLab, hbLab, hne _ (by decide) hk⟩
  rw [hreaders, hrf, hcreate, hjoin, hpreds, hsuccs]
  rfl

/-- What is left of the list of a location, if the filter is right about what is on the list. -/
theorem getD_restricted {contains keep : Event → Bool} {o : Option (List Event)}
    {unknown kept : Bool}
    (hunknown : unknown = true → o.getD [] = [])
    (hagree : ∀ e ∈ o.getD [], contains e = keep e)
    (hlost : kept = false → ∀ e ∈ o.getD [], ¬ keep e = true) :
    (if unknown = true then o else if kept = true then some ((o.getD []).filter contains)
      else none).getD [] = (o.getD []).filter keep := by
  split
  · rename_i hu
    rw [hunknown hu]
    rfl
  · split
    · exact List.filter_congr hagree
    · rename_i hkept
      exact (List.filter_eq_nil_iff.2 (hlost (Bool.eq_false_iff.2 hkept))).symm

section View

variable (h : g.StampOrdered) (stamp : ℕ)
include h

theorem StampOrdered.index_pos {e : Event} {lab : EventLabel} (hlab : g.getEventLabel e = some lab)
    (hstart : lab.kind ≠ .ThreadStart) (hinit : lab.kind ≠ .Init) : 0 < e.index :=
  h.toCrossReferenced.index_pos (fun t ht htn => by
    obtain ⟨b, hb, hk, -⟩ := h.begins t ht htn
    exact ⟨b, hb, hk⟩) hlab hstart hinit

theorem StampOrdered.isEarly_init : g.isEarly stamp Event.getInit = true :=
  isEarly_mono (Nat.zero_le _) h.initStamp

/-- A thread with an early event was created early. -/
theorem StampOrdered.createdEarly_of_isEarly {e : Event} (ht : 0 < e.thread)
    (he : g.isEarly stamp e = true) : g.createdEarly stamp e.thread = true := by
  obtain ⟨lab, hlab⟩ := Option.isSome_iff_exists.1 (isEarly_isSome he)
  obtain ⟨b, hb, -, hcreate⟩ := h.begins e.thread ht (lt_getNumThreads_of_getEventLabel hlab)
  obtain ⟨c, hc⟩ := Option.isSome_iff_exists.1 hcreate
  have hbegin : g.isEarly stamp ⟨e.thread, 0⟩ = true := h.isEarly_of_le (Nat.zero_le e.index) he
  exact (Option.any_eq_true _ _).2 ⟨b, hb, (Option.any_eq_true _ _).2
    ⟨c, hc, h.creation _ b c stamp hb hc hbegin⟩⟩

/-- Begins apart, the view contains what survives. -/
theorem StampOrdered.contains_eq_survives {e : Event} {lab : EventLabel}
    (hlab : g.getEventLabel e = some lab) (hk : lab.kind ≠ .ThreadStart) :
    (g.getViewFromStamp stamp).contains e = g.survives stamp e := by
  rw [Bool.eq_iff_iff, h.contains_getViewFromStamp stamp (by rw [hlab]; rfl), survives,
    Bool.or_eq_true, Bool.and_eq_true, decide_eq_true_eq]
  by_cases hinit : lab.kind = .Init
  · have hinit' : e.index = 0 → g.isEarly stamp e = true := by
      intro hi
      obtain ⟨t, i⟩ := e
      obtain rfl : i = 0 := hi
      rcases Nat.eq_zero_or_pos t with rfl | ht
      · exact h.isEarly_init stamp
      · obtain ⟨b, hb, hkb, -⟩ := h.begins t ht (lt_getNumThreads_of_getEventLabel hlab)
        rw [hlab] at hb
        exact absurd (Option.some.inj hb ▸ hkb) hk
    tauto
  · simp [(h.index_pos hlab hk hinit).ne']

/-- The threads that keep their begin, if threads are created in order. -/
theorem StampOrdered.exists_kept (horder : g.CreatedInOrder stamp) :
    ∃ k, 0 < k ∧ k ≤ g.getNumThreads ∧
      ∀ t, 0 < t → t < g.getNumThreads → (g.createdEarly stamp t = true ↔ t < k) := by
  obtain ⟨iLab, hiLab, -⟩ := h.init
  have hpos : 0 < g.getNumThreads := lt_getNumThreads_of_getEventLabel hiLab
  by_cases hex : ∃ t, 0 < t ∧ t < g.getNumThreads ∧ ¬ g.createdEarly stamp t = true
  · classical
    obtain ⟨h0, hlt, hnot⟩ := Nat.find_spec hex
    refine ⟨Nat.find hex, h0, hlt.le, fun t ht0 ht => ⟨fun hearly => ?_, fun hk => ?_⟩⟩
    · by_contra hge
      rcases (not_lt.1 hge).eq_or_lt with heq | hgt
      · exact hnot (heq ▸ hearly)
      · exact hnot (horder _ t h0 hgt hearly)
    · by_contra hearly
      exact Nat.find_min hex hk ⟨ht0, ht, hearly⟩
  · refine ⟨_, hpos, le_rfl, fun t ht0 ht => iff_of_true ?_ ht⟩
    by_contra hearly
    exact hex ⟨t, ht0, ht, hearly⟩

/-- **What survives is what the view contains of the threads that are kept.** -/
theorem StampOrdered.survives_iff {k : ℕ} (hk0 : 0 < k)
    (hk : ∀ t, 0 < t → t < g.getNumThreads → (g.createdEarly stamp t = true ↔ t < k)) {e : Event}
    {lab : EventLabel} (hlab : g.getEventLabel e = some lab) :
    g.survives stamp e = true ↔ (g.getViewFromStamp stamp).contains e = true ∧ e.thread < k := by
  have hlt := lt_getNumThreads_of_getEventLabel hlab
  rw [h.contains_getViewFromStamp stamp (by rw [hlab]; rfl), survives, Bool.or_eq_true,
    Bool.and_eq_true, decide_eq_true_eq]
  rcases Nat.eq_zero_or_pos e.thread with ht | ht
  · have hinit : e.index = 0 → g.isEarly stamp e = true := by
      intro hi
      rw [show e = Event.getInit from Event.ext_iff'.2 ⟨ht, hi⟩]
      exact h.isEarly_init stamp
    rw [ht]
    tauto
  · have hthread := hk e.thread ht hlt
    have hearly := h.createdEarly_of_isEarly stamp (e := e) ht
    tauto

/-- The pointers of a label that lead into the view are those to surviving events. -/
theorem StampOrdered.dropPointers_eq {e : Event} {lab : EventLabel}
    (hlab : g.getEventLabel e = some lab) :
    dropPointers (g.getViewFromStamp stamp) lab = lab.keepPointers (g.survives stamp) :=
  h.toCrossReferenced.keepPointers_eq (fun _ _ hl hk => h.contains_eq_survives stamp hl hk) hlab

/-- What is left of the list of a location.  If no surviving access keeps the location, then
there must have been nothing but accesses on the list. -/
theorem StampOrdered.getD_keptList (m : SAddr → Option (List Event)) (a : SAddr)
    (hm : ∀ e ∈ (m a).getD [], ∃ lab, g.getEventLabel e = some lab ∧ lab.isRegistered = true ∧
      lab.addr = a)
    (hkept : (∃ e lab, g.getEventLabel e = some lab ∧ lab.isMemAccess = true ∧ lab.addr = a ∧
        g.survives stamp e = true) ∨
      ∀ e ∈ (m a).getD [], ∀ lab, g.getEventLabel e = some lab → lab.isMemAccess = true) :
    (g.keptList (g.getViewFromStamp stamp) m a).getD [] =
      ((m a).getD []).filter (g.survives stamp) := by
  refine getD_restricted (fun hco => ?_) (fun e he => ?_) fun hkeep => ?_
  · refine List.eq_nil_iff_forall_not_mem.2 fun e he => ?_
    obtain ⟨lab, hlab, hreg, rfl⟩ := hm e he
    have := h.tracked e lab hlab hreg
    rw [Option.isNone_iff_eq_none.1 hco] at this
    cases this
  · obtain ⟨lab, hlab, hreg, -⟩ := hm e he
    exact h.contains_eq_survives stamp hlab (kind_ne_threadStart_of_isRegistered hreg)
  · -- a surviving access would have kept the location
    have hnot : ∀ e lab, g.getEventLabel e = some lab → lab.isMemAccess = true → lab.addr = a →
        ¬ g.survives stamp e = true := by
      rintro e lab hlab hmem rfl hsurv
      refine Bool.eq_false_iff.1 hkeep (any_keptEvents hlab ?_ hmem)
      rwa [h.contains_eq_survives stamp hlab (kind_ne_threadStart_of_isMemAccess hmem)]
    rcases hkept with ⟨e, lab, hlab, hmem, haddr, hsurv⟩ | hall
    · exact absurd hsurv (hnot e lab hlab hmem haddr)
    · intro e he
      obtain ⟨lab, hlab, -, haddr⟩ := hm e he
      exact hnot e lab hlab (hall e he lab hlab) haddr

theorem StampOrdered.getD_keptList_of_isMemAccess (m : SAddr → Option (List Event)) (a : SAddr)
    (hm : ∀ e ∈ (m a).getD [], ∃ lab, g.getEventLabel e = some lab ∧ lab.isMemAccess = true ∧
      lab.addr = a) :
    (g.keptList (g.getViewFromStamp stamp) m a).getD [] =
      ((m a).getD []).filter (g.survives stamp) := by
  refine h.getD_keptList stamp m a (fun e he => ?_) (.inr fun e he lab hlab => ?_)
  · obtain ⟨lab, hlab, hmem, haddr⟩ := hm e he
    exact ⟨lab, hlab, EventLabel.isRegistered_of_isMemAccess hmem, haddr⟩
  · obtain ⟨lab', hlab', hmem, -⟩ := hm e he
    obtain rfl := Option.some.inj (hlab.symm.trans hlab')
    exact hmem

/-- After the passes over the view, the orphans are at the end. -/
theorem StampOrdered.orphaned {k : ℕ} (hk0 : 0 < k)
    (hk : ∀ t, 0 < t → t < g.getNumThreads → (g.createdEarly stamp t = true ↔ t < k)) :
    Orphaned (g.restrictTo (g.getViewFromStamp stamp)) k g.getNumThreads := by
  have hthreads : (g.restrictTo (g.getViewFromStamp stamp)).getNumThreads = g.getNumThreads := by
    simp [restrictTo, keptEvents, getNumThreads]
  have hlabel := getEventLabel_restrictTo (g := g) (g.getViewFromStamp stamp)
  refine ⟨hthreads, fun t ht htn => ?_, fun t b ht hb hkind => ?_⟩
  · have ht0 : 0 < t := hk0.trans_le ht
    obtain ⟨b, hb, hkind, hcreate⟩ := h.begins t ht0 htn
    obtain ⟨c, hc⟩ := Option.isSome_iff_exists.1 hcreate
    have hlate : ¬ g.createdEarly stamp t = true := fun hearly =>
      absurd ((hk t ht0 htn).1 hearly) (not_lt.2 ht)
    have hbegin : (g.restrictTo (g.getViewFromStamp stamp)).getEventLabel ⟨t, 0⟩ =
        some (b.keepPointers (g.survives stamp)) := by
      rw [hlabel, if_pos (View.contains_of_index_eq_zero _ rfl), hb, Option.map_some,
        h.dropPointers_eq stamp hb]
    have hnext : (g.restrictTo (g.getViewFromStamp stamp)).getEventLabel ⟨t, 1⟩ = none := by
      rw [hlabel]
      split
      · rename_i hcontains
        rw [Option.map_eq_none_iff, ← Option.not_isSome_iff_eq_none]
        intro hsome
        rcases (h.contains_getViewFromStamp stamp hsome).1 hcontains with hearly | hi
        · exact hlate (h.createdEarly_of_isEarly stamp (e := ⟨t, 1⟩) ht0 hearly)
        · exact absurd hi Nat.one_ne_zero
      · rfl
    refine ⟨?_, _, hbegin, ?_, ?_⟩
    · have h0 := lt_getThreadSize_of_getEventLabel hbegin
      have h1 : (g.restrictTo (g.getViewFromStamp stamp)).getThreadSize t ≤ 1 :=
        List.getElem?_eq_none_iff.1 hnext
      exact le_antisymm h1 h0
    · show b.kind ≠ .Init
      rw [hkind]
      decide
    · show b.create.filter _ = none
      rw [hc, Option.filter_some, if_neg]
      intro hsurv
      obtain ⟨-, -, cLab, hcLab, hckind, -⟩ := h.create _ b c hb hc
      have hindex : 0 < c.index := h.index_pos hcLab (by rw [hckind]; decide)
        (by rw [hckind]; decide)
      have hearly : g.isEarly stamp c = true := by
        simpa [survives, hindex.ne'] using hsurv
      exact hlate ((Option.any_eq_true _ _).2 ⟨b, hb, (Option.any_eq_true _ _).2 ⟨c, hc, hearly⟩⟩)
  · rw [hlabel, if_pos (View.contains_of_index_eq_zero _ rfl)] at hb
    obtain ⟨b₀, hb₀, rfl⟩ := Option.map_eq_some_iff.1 hb
    rcases Nat.eq_zero_or_pos t with rfl | ht0
    · obtain ⟨iLab, hiLab, hik⟩ := h.init
      obtain rfl := Option.some.inj (hiLab.symm.trans hb₀)
      exact absurd hik hkind
    · have hearly := (hk t ht0 (lt_getNumThreads_of_getEventLabel hb₀)).2 ht
      obtain ⟨b₁, hb₁, hany⟩ := (Option.any_eq_true _ _).1 hearly
      obtain rfl := Option.some.inj (hb₀.symm.trans hb₁)
      obtain ⟨c, hc, hcearly⟩ := (Option.any_eq_true _ _).1 hany
      rw [h.dropPointers_eq stamp hb₀]
      left
      show (b₀.create.filter _).isSome
      rw [hc, Option.filter_some, if_pos (by rw [survives, hcearly]; rfl)]
      rfl

/-- The clean-up removes them. -/
theorem StampOrdered.beginsDropped {k : ℕ} (hk0 : 0 < k) (hkn : k ≤ g.getNumThreads)
    (hk : ∀ t, 0 < t → t < g.getNumThreads → (g.createdEarly stamp t = true ↔ t < k)) :
    BeginsDropped (g.restrictTo (g.getViewFromStamp stamp))
      ((g.restrictTo (g.getViewFromStamp stamp)).cleanupBegins
        (fun _ bLab => bLab.create.isNone) (g.restrictTo (g.getViewFromStamp stamp)).getNumThreads)
      k := by
  have horphaned := h.orphaned stamp hk0 hk
  have hlabel := getEventLabel_restrictTo (g := g) (g.getViewFromStamp stamp)
  rw [horphaned.threads]
  refine horphaned.beginsDropped hkn (fun e lab hlab => ?_) (h.order.filter _) fun e he => ?_
  · rw [hlabel] at hlab
    split at hlab
    · obtain ⟨lab', hlab', rfl⟩ := Option.map_eq_some_iff.1 hlab
      exact h.slots e lab' hlab'
    · cases hlab
  · obtain ⟨hmem, hc⟩ := List.mem_filter.1 he
    rw [hlabel, if_pos hc, Option.isSome_map]
    exact (h.inserted e).1 hmem

/-- **What a cut leaves of a graph whose threads are created in order.** -/
theorem StampOrdered.cutTo (horder : g.CreatedInOrder stamp) :
    CutTo g (g.survives stamp) (fun a => ∃ e lab, g.getEventLabel e = some lab ∧
      lab.isMemAccess = true ∧ lab.addr = a ∧ g.survives stamp e = true)
      (g.cutToStamp stamp) := by
  obtain ⟨k, hk0, hkn, hk⟩ := h.exists_kept stamp horder
  have hdrop := h.beginsDropped stamp hk0 hkn hk
  set o := g.restrictTo (g.getViewFromStamp stamp) with ho
  set o' := o.cleanupBegins (fun _ bLab => bLab.create.isNone) o.getNumThreads with ho'
  have hcut : g.cutToStamp stamp = { o'.mapLabels (restampLabel o'.insertionOrder 0) with
      timestamp := o'.insertionOrder.length } := resetStamps_eq
  have hlabel : ∀ e, (g.cutToStamp stamp).getEventLabel e =
      (o'.getEventLabel e).map (restampLabel o'.insertionOrder 0) := getEventLabel_resetStamps
  have hmem : ∀ e lab, g.getEventLabel e = some lab → (g.survives stamp e = true ↔
      (g.getViewFromStamp stamp).contains e = true ∧ e.thread < k) := fun e lab hlab =>
    h.survives_iff stamp hk0 hk hlab
  have hio : o'.insertionOrder = g.insertionOrder.filter (g.survives stamp) := by
    rw [hdrop.insertionOrder]
    show (g.insertionOrder.filter _).filter _ = _
    rw [List.filter_filter]
    refine List.filter_congr fun e he => ?_
    obtain ⟨lab, hlab⟩ := Option.isSome_iff_exists.1 ((h.inserted e).1 he)
    rw [Bool.eq_iff_iff, hmem e lab hlab, Bool.and_eq_true, decide_eq_true_eq, and_comm]
    refine and_congr_right fun hc => or_iff_left_of_imp fun hindex => ?_
    rcases (h.contains_getViewFromStamp stamp (by rw [hlab]; rfl)).1 hc with hearly | hi
    · rcases Nat.eq_zero_or_pos e.thread with ht | ht
      · rwa [ht]
      · exact (hk e.thread ht (lt_getNumThreads_of_getEventLabel hlab)).1
          (h.createdEarly_of_isEarly stamp ht hearly)
    · omega
  have hlists : (g.cutToStamp stamp).insertionOrder = o'.insertionOrder ∧
      (g.cutToStamp stamp).timestamp = o'.insertionOrder.length ∧
        (g.cutToStamp stamp).coherence = o.coherence ∧ (g.cutToStamp stamp).initRfs = o.initRfs ∧
          (g.cutToStamp stamp).accessMap = o.accessMap := by
    rw [hcut]
    exact ⟨rfl, rfl, hdrop.coherence, hdrop.initRfs, hdrop.accessMap⟩
  obtain ⟨hio', htime, hco, hinit, hacc⟩ := hlists
  have hkept : ∀ e lab, g.survives stamp e = true → g.getEventLabel e = some lab →
      e.thread < k ∧ o.getEventLabel e = some (lab.keepPointers (g.survives stamp)) := by
    intro e lab hsurv hlab
    obtain ⟨hc, hlt⟩ := (hmem e lab hlab).1 hsurv
    rw [ho, getEventLabel_restrictTo, if_pos hc, hlab, Option.map_some,
      h.dropPointers_eq stamp hlab]
    exact ⟨hlt, rfl⟩
  refine
    { events := fun e => ?_
      label := fun e lab hsurv hlab => ?_
      insertionOrder := hio'.trans hio
      timestamp := by rw [htime, hio']
      co := fun a => ?_
      initReaders := fun a => ?_
      accesses := fun a ha => ?_ }
  · rw [hlabel, Option.isSome_map, hdrop.isSome, ho, getEventLabel_restrictTo]
    cases hlab : g.getEventLabel e with
    | none => simp
    | some lab =>
      rw [hmem e lab hlab]
      split
      · rename_i hc
        simp [hc]
      · rename_i hc
        simp [hc]
  · obtain ⟨hlt, holab⟩ := hkept e lab hsurv hlab
    obtain ⟨succ, hsucc⟩ := hdrop.label e _ hlt holab
    have hnodup : o'.insertionOrder.Nodup := hio ▸ h.order.filter _
    have hin : e ∈ o'.insertionOrder := by
      rw [hio, List.mem_filter, h.inserted, hlab]
      exact ⟨rfl, hsurv⟩
    have hstamp : restamp o'.insertionOrder 0 lab.pos lab.stamp =
        some (o'.insertionOrder.idxOf e) := by
      rw [h.slots e lab hlab, restamp_of_mem hnodup hin, Nat.zero_add]
    refine ⟨succ, ?_⟩
    rw [hlabel, hsucc, Option.map_some, hio']
    exact congrArg (fun n => some
      { lab.keepPointers (g.survives stamp) with stamp := n, symmSuccTid := succ }) hstamp
  · rw [ExecutionGraph.co, hco]
    refine h.getD_keptList_of_isMemAccess stamp g.coherence a fun e he => ?_
    obtain ⟨lab, hlab, hw, haddr⟩ := h.co a e he
    exact ⟨lab, hlab, EventLabel.isMemAccess_of_isWrite hw, haddr⟩
  · rw [ExecutionGraph.initReaders, hinit]
    refine h.getD_keptList_of_isMemAccess stamp g.initRfs a fun e he => ?_
    obtain ⟨lab, hlab, hr, haddr, -⟩ := h.initReaders a e he
    exact ⟨lab, hlab, EventLabel.isMemAccess_of_isRead hr, haddr⟩
  · rw [ExecutionGraph.accesses, hacc]
    exact h.getD_keptList stamp g.accessMap a (h.accesses a) (.inl ha)

end View

/-- **A cut leaves the early events, and the begins of the threads that were created early**: they
keep their positions, their order and their pointers to each other, and lose all other pointers. -/
theorem cutTo_cutToStamp (g : ExecutionGraph) (h : g.StampOrdered) (stamp : ℕ)
    (horder : g.CreatedInOrder stamp) :
    CutTo g (g.survives stamp) (fun a => ∃ e lab, g.getEventLabel e = some lab ∧
      lab.isMemAccess = true ∧ lab.addr = a ∧ g.survives stamp e = true) (g.cutToStamp stamp) :=
  h.cutTo stamp horder

theorem forkedLoad_cutTo :
    CutTo forkedLoad (forkedLoad.survives 2) (fun a => ∃ e lab, forkedLoad.getEventLabel e =
      some lab ∧ lab.isMemAccess = true ∧ lab.addr = a ∧ forkedLoad.survives 2 e = true)
      (forkedLoad.cutToStamp 2) :=
  cutTo_cutToStamp forkedLoad forkedLoad_stampOrdered 2 (createdInOrder_of_two_threads rfl 2)

/-! ## Why the cut keeps other events than the early ones -/

/-- A graph without accesses and calls, where threads are created but not joined. -/
theorem crossReferenced_of_creates (hslots : g.Slots)
    (hinit : ∃ lab, g.getEventLabel Event.getInit = some lab ∧ lab.kind = .Init)
    (horder : g.insertionOrder.Nodup) (hins : g.insertionOrder.Perm g.positions)
    (hmaps : ∀ a, g.initReaders a = [] ∧ g.co a = [] ∧ ∀ e ∈ g.accesses a,
      ∃ lab, g.getEventLabel e = some lab ∧ lab.isRegistered = true ∧ lab.addr = a)
    (hlabels : ∀ e lab, g.getEventLabel e = some lab → lab.rf = none ∧ lab.readers = [] ∧
      lab.parentJoin = none ∧ lab.linPreds = [] ∧ lab.linSuccs = [] ∧ ∀ c ∈ lab.create,
        e.index = 0 ∧ lab.isThreadStart = true ∧ ∃ cLab ∈ g.getEventLabel c,
          cLab.kind = .ThreadCreate ∧ cLab.childId = e.thread ∧ c.thread ≠ e.thread) :
    g.CrossReferenced where
  slots := hslots
  init := hinit
  order := horder
  inserted := fun e => hins.mem_iff.trans mem_positions
  rf := fun r rLab w hr hw => by
    rw [(hlabels r rLab hr).1] at hw
    cases hw
  readers := fun w wLab r hw hr => by
    rw [(hlabels w wLab hw).2.1] at hr
    cases hr
  initReaders := fun a r hr => by
    rw [(hmaps a).1] at hr
    cases hr
  co := fun a w hw => by
    rw [(hmaps a).2.1] at hw
    cases hw
  accesses := fun a => (hmaps a).2.2
  create := fun b bLab c hb hc => (hlabels b bLab hb).2.2.2.2.2 c hc
  parentJoin := fun e eLab j he hj => by
    rw [(hlabels e eLab he).2.2.1] at hj
    cases hj
  linPreds := fun b bLab e hb he => by
    rw [(hlabels b bLab hb).2.2.2.1] at he
    cases he
  linSuccs := fun e eLab b he hb => by
    rw [(hlabels e eLab he).2.2.2.2.1] at hb
    cases hb

/-- The main thread creates the second thread first. -/
def crossedCreates : ExecutionGraph :=
  { init with
    events :=
      [[{ initLabel with stamp := some 0 },
        { kind := .ThreadCreate, pos := ⟨0, 1⟩, stamp := some 1, childId := 2 },
        { kind := .ThreadCreate, pos := ⟨0, 2⟩, stamp := some 3, childId := 1 }],
       [{ kind := .ThreadStart, pos := ⟨1, 0⟩, stamp := some 4, createId := ⟨0, 2⟩,
          create := some ⟨0, 2⟩ }],
       [{ kind := .ThreadStart, pos := ⟨2, 0⟩, stamp := some 2, createId := ⟨0, 1⟩,
          create := some ⟨0, 1⟩ }]]
    insertionOrder := [⟨0, 0⟩, ⟨0, 1⟩, ⟨2, 0⟩, ⟨0, 2⟩, ⟨1, 0⟩]
    timestamp := 5 }

/-- The main thread frees a location that no read or write accesses. -/
def freedOnly : ExecutionGraph :=
  { init with
    events :=
      [[{ initLabel with stamp := some 0 },
        { kind := .Free, pos := ⟨0, 1⟩, stamp := some 1, addr := 7 }]]
    insertionOrder := [⟨0, 0⟩, ⟨0, 1⟩]
    timestamp := 2
    coherence := fun a => if a = 7 then some [] else none
    accessMap := fun a => if a = 7 then some [⟨0, 1⟩] else none }

theorem crossedCreates_stampOrdered : crossedCreates.StampOrdered :=
  (crossReferenced_of_creates (by decide) ⟨_, rfl, rfl⟩ (by decide) (by decide)
    (fun _ => ⟨rfl, rfl, fun _ he => absurd he List.not_mem_nil⟩)
    (forall_label_iff.2 (by decide))).stampOrdered (by decide) (by decide)
    (forall_label_iff.2 (by decide))

theorem freedOnly_stampOrdered : freedOnly.StampOrdered := by
  refine (crossReferenced_of_creates (by decide) ⟨_, rfl, rfl⟩ (by decide) (by decide)
    (fun a => ?_) (forall_label_iff.2 (by decide))).stampOrdered (by decide) (by decide)
    (forall_label_iff.2 (by decide))
  by_cases ha : a = 7
  · subst ha
    refine ⟨rfl, rfl, fun e he => ?_⟩
    obtain rfl : e = ⟨0, 1⟩ := List.mem_singleton.1 he
    exact ⟨_, rfl, rfl, rfl⟩
  · have hco : freedOnly.co a = [] := by simp [freedOnly, ExecutionGraph.co, ha]
    have hacc : freedOnly.accesses a = [] := by simp [freedOnly, ExecutionGraph.accesses, ha]
    refine ⟨rfl, hco, fun e he => ?_⟩
    rw [hacc] at he
    cases he

/-- Cutting to a stamp may keep a later begin, move the begin of another thread, and lose the list
of a location. -/
theorem not_cutTo_isEarly :
    (forkedLoad.StampOrdered ∧
      ¬ CutTo forkedLoad (forkedLoad.isEarly 1) (fun _ => True) (forkedLoad.cutToStamp 1)) ∧
    (crossedCreates.StampOrdered ∧
      ¬ CutTo crossedCreates (crossedCreates.isEarly 2) (fun _ => True)
        (crossedCreates.cutToStamp 2)) ∧
    freedOnly.StampOrdered ∧
      ¬ CutTo freedOnly (freedOnly.isEarly 1) (fun _ => True) (freedOnly.cutToStamp 1) := by
  refine ⟨⟨forkedLoad_stampOrdered, fun h => ?_⟩, ⟨crossedCreates_stampOrdered, fun h => ?_⟩,
    freedOnly_stampOrdered, fun h => ?_⟩
  · exact absurd (h.events ⟨1, 0⟩) (by decide)
  · exact absurd (h.events ⟨1, 0⟩) (by decide)
  · exact absurd (h.accesses 7 trivial) (by decide)

end ExecutionGraph
end GenMC
