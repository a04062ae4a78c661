import GenMC.Consistency.Revisiting
import GenMC.Library.VectorClock

/-!
# The views of labels

A label keeps what comes before it in a few views, so that the driver can ask whether an event comes
before another one without a search.  The views are computed once, from the views of the labels
directly before: of the creation of a thread at its begin, of the end of a thread at a join, of a
write at a read of it, of the label before in the same thread.  They differ in the reads that they
follow: the first view follows all of them, the second one only those where both sides are atomic,
and the third one, for linearizability, leaves out the reads that take abstract locks as well.

* `CausalEdge` are the edges that views follow.
* `wellFounded_causalEdge`: no event of a graph under construction comes before itself, even if the
  graph is not consistent.
* **`exactAt_updateMMViews`**: if the views of the labels directly before a label contain what comes
  before these, and nothing else, then so do the views that are computed for the label.

The changes that symmetry reduction makes to prefix views are not modelled.
-/

set_option autoImplicit false

namespace GenMC

open ListOrder Relation

/-- What the memory model keeps in a label: its views, and the view of its prefix. -/
structure LabelViews where
  views : List View := []
  prefixView : View := View.empty

/-- A view of the label. -/
def LabelViews.view (v : LabelViews) (i : ℕ) : View := v.views.getD i View.empty

/-- What the third view depends on. -/
structure ViewConfig where
  collectLinSpec : Bool
  checkLinSpec : Bool

namespace ExecutionGraph

/-- The creation of the thread that begins. -/
def tcPred (lab : EventLabel) : Option Event := if lab.isThreadStart then lab.create else none

/-- What is read from. -/
def rfPred (lab : EventLabel) : Option Event := if lab.isRead then lab.rf else none

end ExecutionGraph

namespace SCChecker

open ExecutionGraph

variable {conf : ViewConfig} {g : ExecutionGraph} {vs vs' : Event → LabelViews}
  {a b e w x y : Event} {lab : EventLabel} {sync : EventLabel → EventLabel → Bool}

/-! ## Computing views -/

/-- The source of a read, if both satisfy a condition. -/
def rfPredIf (sync : EventLabel → EventLabel → Bool) (g : ExecutionGraph) (lab : EventLabel) :
    Option Event :=
  (rfPred lab).filter fun w => (g.getEventLabel w).any (sync · lab)

/-- What the computation of a view goes over at a label, in its order. -/
def calcPreds (sync : EventLabel → EventLabel → Bool) (g : ExecutionGraph) (lab : EventLabel) :
    List Event :=
  (tcPred lab).toList ++ ((g.tjPred lab).map (·.pos)).toList ++ linPredsOf lab ++
    (rfPredIf sync g lab).toList ++ ((g.poImmPred lab).map (·.pos)).toList

/-- Computes a view: first from the views of the labels before, then from their positions. -/
def visitCalc (i : ℕ) (preds : List Event) (vs : Event → LabelViews) (lab : EventLabel) : View :=
  let calcRes := View.empty.updateIdx lab.pos
  let calcRes := preds.foldl (fun calcRes p => calcRes.update ((vs p).view i)) calcRes
  preds.foldl View.updateIdx calcRes

/-- Any read. -/
def sync71 (_ _ : EventLabel) : Bool := true

/-- An atomic read of an atomic write. -/
def sync72 (wLab rLab : EventLabel) : Bool := !rLab.isNotAtomic && !wLab.isNotAtomic

/-- An atomic read of an atomic write that takes no abstract lock. -/
def sync73 (wLab rLab : EventLabel) : Bool :=
  !rLab.isNotAtomic && !(rLab.kind = .AbstractLockCasRead) && !wLab.isNotAtomic

def visitCalc71 (g : ExecutionGraph) (vs : Event → LabelViews) (lab : EventLabel) : View :=
  visitCalc 0 (calcPreds sync71 g lab) vs lab

def visitCalc72 (g : ExecutionGraph) (vs : Event → LabelViews) (lab : EventLabel) : View :=
  visitCalc 1 (calcPreds sync72 g lab) vs lab

def visitCalc73 (g : ExecutionGraph) (vs : Event → LabelViews) (lab : EventLabel) : View :=
  visitCalc 2 (calcPreds sync73 g lab) vs lab

def calculateViews (conf : ViewConfig) (g : ExecutionGraph) (vs : Event → LabelViews)
    (lab : EventLabel) : List View :=
  [visitCalc71 g vs lab, visitCalc72 g vs lab,
    if !conf.collectLinSpec && !conf.checkLinSpec then View.empty else visitCalc73 g vs lab]

/-- What the prefix of a label is made from.  A join looks at the last label of the thread, whatever
it is. -/
def prefixPreds (g : ExecutionGraph) (lab : EventLabel) : List Event :=
  ((g.poImmPred lab).map (·.pos)).toList ++ (rfPred lab).toList ++ (tcPred lab).toList ++
    if lab.kind = .ThreadJoin then ((g.getLastThreadLabel lab.childId).map (·.pos)).toList else []

def calcPPoRfBefore (g : ExecutionGraph) (vs : Event → LabelViews) (lab : EventLabel) : View :=
  (prefixPreds g lab).foldl (fun pporf p => pporf.update (vs p).prefixView)
    (View.empty.updateIdx lab.pos)

def updateMMViews (conf : ViewConfig) (g : ExecutionGraph) (vs : Event → LabelViews)
    (lab : EventLabel) : LabelViews where
  views := calculateViews conf g vs lab
  prefixView := calcPPoRfBefore g vs lab

/-- Computes the views of a label anew. -/
def updateLabelViews (conf : ViewConfig) (g : ExecutionGraph) (e : Event)
    (vs : Event → LabelViews) : Event → LabelViews :=
  match g.getEventLabel e with
  | none => vs
  | some lab => Function.update vs e (updateMMViews conf g vs lab)

/-! ## What a computed view contains -/

theorem contains_updateIdx {v : View} : (v.updateIdx e).contains x = true ↔
    v.contains x = true ∨ VectorClock.UpTo Event.thread Event.index x e := by
  rw [View.contains_iff, View.contains_iff, View.getMax_updateIdx, VectorClock.UpTo]
  split_ifs with h
  · rw [le_max_iff]
    simp only [h, true_and]
  · simp only [h, false_and, or_false]

theorem contains_empty_updateIdx (hx : 0 < x.index) :
    (View.empty.updateIdx e).contains x = true ↔
      VectorClock.UpTo Event.thread Event.index x e := by
  rw [contains_updateIdx, or_iff_right]
  rw [View.contains_iff, View.getMax_empty]
  exact not_le.2 hx

theorem contains_foldl_update {f : Event → View} (l : List Event) (v : View) :
    (l.foldl (fun v p => v.update (f p)) v).contains x = true ↔
      v.contains x = true ∨ ∃ p ∈ l, (f p).contains x = true := by
  induction l generalizing v with
  | nil => simp only [List.foldl_nil, List.not_mem_nil, false_and, exists_false, or_false]
  | cons p l ih =>
    rw [List.foldl_cons, ih, View.contains_update, Bool.or_eq_true, or_assoc]
    simp only [List.mem_cons, or_and_right, exists_or, exists_eq_left]

theorem contains_foldl_updateIdx (l : List Event) (v : View) :
    (l.foldl View.updateIdx v).contains x = true ↔
      v.contains x = true ∨ ∃ p ∈ l, VectorClock.UpTo Event.thread Event.index x p := by
  induction l generalizing v with
  | nil => simp only [List.foldl_nil, List.not_mem_nil, false_and, exists_false, or_false]
  | cons p l ih =>
    rw [List.foldl_cons, ih, contains_updateIdx, or_assoc]
    simp only [List.mem_cons, or_and_right, exists_or, exists_eq_left]

theorem contains_visitCalc {i : ℕ} {preds : List Event} (hx : 0 < x.index) :
    (visitCalc i preds vs lab).contains x = true ↔
      VectorClock.UpTo Event.thread Event.index x lab.pos ∨
        ∃ p ∈ preds, ((vs p).view i).contains x = true ∨
          VectorClock.UpTo Event.thread Event.index x p := by
  rw [visitCalc, contains_foldl_updateIdx, contains_foldl_update,
    contains_empty_updateIdx hx, or_assoc]
  simp only [and_or_left, exists_or]

theorem contains_calcPPoRfBefore (hx : 0 < x.index) :
    (calcPPoRfBefore g vs lab).contains x = true ↔
      VectorClock.UpTo Event.thread Event.index x lab.pos ∨
        ∃ p ∈ prefixPreds g lab, (vs p).prefixView.contains x = true := by
  rw [calcPPoRfBefore, contains_foldl_update, contains_empty_updateIdx hx]

/-! ## What comes before a label -/

/-- An event comes directly before another one.  Of the reads, only those are followed that satisfy
a condition. -/
inductive CausalEdge (sync : EventLabel → EventLabel → Bool) (g : ExecutionGraph) :
    Event → Event → Prop
  | po {t i : ℕ} (h : (g.getEventLabel ⟨t, i + 1⟩).isSome) : CausalEdge sync g ⟨t, i⟩ ⟨t, i + 1⟩
  | tc {b c : Event} {bLab : EventLabel} (h : g.getEventLabel b = some bLab)
      (hs : bLab.isThreadStart = true) (hc : bLab.create = some c) : CausalEdge sync g c b
  | tj {j : Event} {jLab fLab : EventLabel} (h : g.getEventLabel j = some jLab)
      (hf : g.tjPred jLab = some fLab) : CausalEdge sync g fLab.pos j
  | lin {a b : Event} {bLab : EventLabel} (h : g.getEventLabel b = some bLab)
      (ha : a ∈ linPredsOf bLab) : CausalEdge sync g a b
  | rf {r w : Event} {rLab wLab : EventLabel} (h : g.getEventLabel r = some rLab)
      (hr : rLab.isRead = true) (hw : rLab.rf = some w) (hwLab : g.getEventLabel w = some wLab)
      (hs : sync wLab rLab = true) : CausalEdge sync g w r

theorem poImmPred_eq_some (h : g.Slots) (hlab : g.getEventLabel e = some lab) {pLab : EventLabel} :
    g.poImmPred lab = some pLab ↔ ∃ i, e.index = i + 1 ∧
      g.getEventLabel ⟨e.thread, i⟩ = some pLab ∧ pLab.pos = ⟨e.thread, i⟩ := by
  rw [poImmPred, h e lab hlab]
  refine ⟨fun hp => ?_, ?_⟩
  · split_ifs at hp with h0
    exact ⟨e.index - 1, by omega, hp, h _ _ hp⟩
  · rintro ⟨i, hi, hp, -⟩
    rw [if_neg (by omega), hi]
    exact hp

/-- The computation of a view goes over what comes directly before. -/
theorem mem_calcPreds_iff (h : g.Slots) (hlab : g.getEventLabel b = some lab) :
    a ∈ calcPreds sync g lab ↔ CausalEdge sync g a b := by
  simp only [calcPreds, List.mem_append, Option.mem_toList, Option.map_eq_some_iff]
  refine ⟨?_, fun hab => ?_⟩
  · rintro ((((htc | ⟨fLab, hf, rfl⟩) | hlin) | hrf) | ⟨pLab, hp, rfl⟩)
    · rw [tcPred] at htc
      split_ifs at htc with hs
      exact .tc hlab hs htc
    · exact .tj hlab hf
    · exact .lin hlab hlin
    · obtain ⟨hw, hs⟩ := Option.filter_eq_some_iff.1 hrf
      obtain ⟨wLab, hwLab, hs⟩ := (Option.any_eq_true _ _).1 hs
      rw [rfPred] at hw
      split_ifs at hw with hr
      exact .rf hlab hr hw hwLab hs
    · obtain ⟨i, hi, hpLab, hpos⟩ := (poImmPred_eq_some h hlab).1 hp
      have hb : b = ⟨b.thread, i + 1⟩ := Event.ext_iff'.2 ⟨rfl, hi⟩
      rw [hpos, hb]
      refine .po ?_
      rw [← hb]
      exact isSome_of_eq hlab
  · cases hab with
    | @po t i hb =>
      obtain ⟨pLab, hp⟩ := Option.isSome_iff_exists.1
        (getEventLabel_isSome_of_le hb (a := ⟨t, i⟩) rfl (Nat.le_succ i))
      exact .inr ⟨pLab, (poImmPred_eq_some h hlab).2 ⟨i, rfl, hp, h _ _ hp⟩, h _ _ hp⟩
    | tc hb hs hc =>
      obtain rfl := Option.some.inj (hlab.symm.trans hb)
      refine .inl (.inl (.inl (.inl ?_)))
      rw [tcPred, if_pos hs, hc]
    | tj hb hf =>
      obtain rfl := Option.some.inj (hlab.symm.trans hb)
      exact .inl (.inl (.inl (.inr ⟨_, hf, rfl⟩)))
    | lin hb ha =>
      obtain rfl := Option.some.inj (hlab.symm.trans hb)
      exact .inl (.inl (.inr ha))
    | rf hb hr hw hwLab hs =>
      obtain rfl := Option.some.inj (hlab.symm.trans hb)
      refine .inl (.inr ?_)
      rw [rfPredIf, rfPred, if_pos hr, hw, Option.filter_some, if_pos]
      rw [hwLab, Option.any_some]
      exact hs

/-- What comes before a label was added before it, reads apart. -/
structure Causal (g : ExecutionGraph) : Prop where
  main : ∀ lab, g.getEventLabel Event.getInit = some lab →
    lab.create = none ∧ lab.ordering = initLabel.ordering
  begins : ∀ e lab, g.getEventLabel e = some lab → lab.isThreadStart = true → e.index = 0
  joined : ∀ j jLab, g.getEventLabel j = some jLab → jLab.kind = .ThreadJoin →
    ∃ fLab, g.tjPred jLab = some fLab ∧ Before g.insertionOrder fLab.pos j
  linPreds : ∀ e lab, g.getEventLabel e = some lab → linPredsOf lab = []
  /-- Nothing comes after a block, or after the end of a thread. -/
  ended : ∀ e lab, g.getEventLabel e = some lab → lab.isTerminator = true →
    g.getEventLabel e.next = none

/-- Whether there is a label at a position that is no block.  Blocks are added without views. -/
def Viewed (g : ExecutionGraph) (e : Event) : Prop :=
  (g.getEventLabel e).any (!·.isBlock) = true

theorem viewed_iff : Viewed g e ↔ ∃ lab, g.getEventLabel e = some lab ∧ lab.isBlock = false := by
  rw [Viewed, Option.any_eq_true]
  simp only [Bool.not_eq_true']

theorem isTerminator_of_isBlock (h : lab.isBlock = true) : lab.isTerminator = true := by
  revert h
  rw [EventLabel.isBlock, EventLabel.isTerminator]
  cases lab.kind <;> decide

/-- The creation of a thread was added before its begin. -/
theorem created_of_threaded (h : g.Threaded) {t : ℕ} {bLab : EventLabel} (ht : 0 < t)
    (hb : g.getEventLabel ⟨t, 0⟩ = some bLab) : ∃ cLab, bLab.create = some bLab.createId ∧
      g.getEventLabel bLab.createId = some cLab ∧ cLab.kind = .ThreadCreate ∧ cLab.childId = t ∧
        Before g.insertionOrder bLab.createId ⟨t, 0⟩ := by
  have hs := sameThreads_resetStamps g
  obtain ⟨bLab', hb', hsame⟩ := hs.forth hb
  obtain ⟨-, cLab', hcr, hc', hk, hchild, hbefore⟩ := ThreadInv.created h t bLab' ht hb'
  obtain ⟨cLab, hc, hsame'⟩ := hs.symm.forth hc'
  rw [hsame.createId] at hc hcr hbefore
  rw [insertionOrder_resetStamps] at hbefore
  exact ⟨cLab, hsame.create.symm.trans hcr, hc, hsame'.kind.trans hk,
    hsame'.childId.trans hchild, hbefore⟩

/-- When the label at a position has nothing left to wait for: a read may wait for a write that is
added later, but not for one that is added after the next label of its thread. -/
def due (g : ExecutionGraph) (e : Event) : ℕ :=
  if e = Event.getInit then 0
  else if (g.getEventLabel e).any (·.isRead) then
    if (g.getEventLabel e.next).isSome then 2 * g.insertionOrder.idxOf e.next + 1
    else 2 * g.insertionOrder.length + 1
  else 2 * g.insertionOrder.idxOf e + 2

section Causal

variable (hg : GraphInv g) (hc : Causal g)
include hg

theorem le_due (hi : e ≠ Event.getInit) (he : (g.getEventLabel e).isSome) :
    2 * g.insertionOrder.idxOf e + 2 ≤ due g e := by
  have hmem := (hg.threaded.inserted e).2 he
  rw [due, if_neg hi]
  split_ifs with hr hn
  · have hlt := (before_iff_idxOf_lt hg.threaded.order ((hg.threaded.inserted _).2 hn)).1
      (hg.threaded.po hn)
    have hlt' : g.insertionOrder.idxOf e < g.insertionOrder.idxOf e.next := hlt
    omega
  · have hlt := List.idxOf_lt_length_iff.2 hmem
    omega
  · exact le_rfl

omit hg in
theorem due_le (hr : (g.getEventLabel e).any (·.isRead) = false) :
    due g e ≤ 2 * g.insertionOrder.idxOf e + 2 := by
  rw [due, if_neg (Bool.eq_false_iff.1 hr)]
  split_ifs
  · exact Nat.zero_le _
  · exact Nat.le_refl _

/-- Reads apart, a label that was added before another one is due before it. -/
theorem due_lt_of_before (hb : b ≠ Event.getInit)
    (hr : (g.getEventLabel a).any (·.isRead) = false) (hab : Before g.insertionOrder a b) :
    due g a < due g b := by
  have hmem := hab.mem_right
  have hlt := (before_iff_idxOf_lt hg.threaded.order hmem).1 hab
  have h1 := due_le hr
  have h2 := le_due hg hb ((hg.threaded.inserted b).1 hmem)
  omega

omit hg in
theorem any_isRead_eq_false {k : EventLabelKind} (h : g.getEventLabel e = some lab)
    (hk : lab.kind = k) (hr : k.isRead = false) : (g.getEventLabel e).any (·.isRead) = false := by
  rw [h, Option.any_some, EventLabel.isRead, hk, hr]

include hc

/-- Labels are due after those directly before them. -/
theorem due_lt_of_causalEdge (h : CausalEdge sync g a b) : due g a < due g b := by
  cases h with
  | @po t i hb =>
    have hne : (⟨t, i + 1⟩ : Event) ≠ Event.getInit := fun h =>
      Nat.succ_ne_zero i (congrArg Event.index h)
    by_cases hr : (g.getEventLabel ⟨t, i⟩).any (·.isRead) = true
    · have h2 := le_due hg hne hb
      have h1 : due g ⟨t, i⟩ ≤ 2 * g.insertionOrder.idxOf ⟨t, i + 1⟩ + 1 := by
        rw [due]
        split_ifs with hi hn
        · exact Nat.zero_le _
        · exact le_rfl
        · exact absurd hb hn
      omega
    · exact due_lt_of_before hg hne (Bool.eq_false_iff.2 hr) (hg.threaded.po hb)
  | tc hb hs hcr =>
    obtain ⟨t, i⟩ := b
    obtain rfl : i = 0 := hc.begins _ _ hb hs
    rcases Nat.eq_zero_or_pos t with rfl | ht
    · rw [(hc.main _ hb).1] at hcr
      cases hcr
    · obtain ⟨cLab, hcr', hcLab, hk, -, hbefore⟩ := created_of_threaded hg.threaded ht hb
      obtain rfl := Option.some.inj (hcr.symm.trans hcr')
      exact due_lt_of_before hg (fun h => ht.ne' (congrArg Event.thread h))
        (any_isRead_eq_false hcLab hk rfl) hbefore
  | tj hj hf =>
    obtain ⟨hjk, hlast, hk⟩ := tjPred_eq_some hf
    obtain ⟨fLab', hf', hbefore⟩ := hc.joined _ _ hj hjk
    obtain rfl := Option.some.inj (hf.symm.trans hf')
    refine due_lt_of_before hg (fun h => ?_)
      (any_isRead_eq_false (getEventLabel_of_last hg hlast).1 hk rfl) hbefore
    have hpos := index_pos_of_kind hg.threaded hj (by rw [hjk]; decide) (by rw [hjk]; decide)
    rw [h] at hpos
    exact Nat.lt_irrefl 0 hpos
  | lin hb ha =>
    rw [hc.linPreds _ _ hb] at ha
    cases ha
  | rf hr hread hw hwLab hs =>
    have hrne : b ≠ Event.getInit :=
      hg.readerInv.ne_init hr (EventLabel.isMemAccess_of_isRead hread)
    have hb := le_due hg hrne (isSome_of_eq hr)
    by_cases hi : a = Event.getInit
    · have h0 : due g a = 0 := if_pos hi
      omega
    · obtain ⟨wLab', hw', hwrite, -⟩ := (hg.source _ _ _ hr hread hw).resolve_left hi
      have hnr : (g.getEventLabel a).any (·.isRead) = false := by
        rw [hw', Option.any_some]
        by_contra hread'
        rw [Bool.not_eq_false] at hread'
        rw [EventLabel.isWrite, EventLabelKind.not_isWrite_of_isRead hread'] at hwrite
        cases hwrite
      have ha := due_le hnr
      have hlt := List.idxOf_lt_length_iff.2 ((hg.threaded.inserted a).2 (isSome_of_eq hw'))
      have hdue : due g b = if (g.getEventLabel b.next).isSome then
          2 * g.insertionOrder.idxOf b.next + 1 else 2 * g.insertionOrder.length + 1 := by
        rw [due, if_neg hrne, hr, Option.any_some, if_pos hread]
      rw [hdue]
      split_ifs with hn
      · have hbefore := (hg.settled _ _ _ hr hread hw hn).resolve_left hi
        have := (before_iff_idxOf_lt hg.threaded.order ((hg.threaded.inserted _).2 hn)).1 hbefore
        omega
      · omega

/-- **No event comes before itself**, whether the graph is consistent or not. -/
theorem wellFounded_causalEdge : WellFounded (CausalEdge sync g) :=
  Subrelation.wf (fun h => due_lt_of_causalEdge hg hc h) (measure (due g)).wf

/-- What comes directly before an event is in the graph, and no block. -/
theorem viewed_of_causalEdge (h : CausalEdge sync g a b) : Viewed g a := by
  cases h with
  | @po t i hb =>
    obtain ⟨lab, hlab⟩ := Option.isSome_iff_exists.1
      (getEventLabel_isSome_of_le hb (a := ⟨t, i⟩) rfl (Nat.le_succ i))
    refine viewed_iff.2 ⟨lab, hlab, ?_⟩
    rw [← Bool.not_eq_true]
    intro hblock
    rw [show g.getEventLabel ⟨t, i + 1⟩ = none from hc.ended _ lab hlab
      (isTerminator_of_isBlock hblock)] at hb
    cases hb
  | tc hb hs hcr =>
    obtain ⟨t, i⟩ := b
    obtain rfl : i = 0 := hc.begins _ _ hb hs
    rcases Nat.eq_zero_or_pos t with rfl | ht
    · rw [(hc.main _ hb).1] at hcr
      cases hcr
    · obtain ⟨cLab, hcr', hcLab, hk, -⟩ := created_of_threaded hg.threaded ht hb
      obtain rfl := Option.some.inj (hcr.symm.trans hcr')
      exact viewed_iff.2 ⟨cLab, hcLab, by rw [EventLabel.isBlock, hk]; rfl⟩
  | tj hj hf =>
    obtain ⟨-, hlast, hk⟩ := tjPred_eq_some hf
    exact viewed_iff.2 ⟨_, (getEventLabel_of_last hg hlast).1, by rw [EventLabel.isBlock, hk]; rfl⟩
  | lin hb ha =>
    rw [hc.linPreds _ _ hb] at ha
    cases ha
  | rf hr hread hw hwLab =>
    refine viewed_iff.2 ⟨_, hwLab, ?_⟩
    rcases hg.source _ _ _ hr hread hw with rfl | ⟨wLab, hwLab', hwrite, -⟩
    · obtain ⟨iLab, hi, hk⟩ := hg.threaded.main
      rw [Option.some.inj (hwLab.symm.trans hi), EventLabel.isBlock, hk]
      rfl
    · rw [Option.some.inj (hwLab.symm.trans hwLab')]
      exact not_isBlock_of_isMemAccess (EventLabel.isMemAccess_of_isWrite hwrite)

end Causal

/-- The prefix is made from what comes directly before. -/
theorem mem_prefixPreds_iff (hg : GraphInv g) (hc : Causal g) (hb : g.getEventLabel b = some lab) :
    a ∈ prefixPreds g lab ↔ CausalEdge sync71 g a b := by
  rw [← mem_calcPreds_iff hg.threaded.slots hb, prefixPreds, calcPreds, hc.linPreds b lab hb]
  have hrf : rfPredIf sync71 g lab = rfPred lab := by
    rw [rfPredIf, rfPred]
    split_ifs with hr
    · cases hw : lab.rf with
      | none => rfl
      | some w =>
        have hsome : (g.getEventLabel w).isSome := by
          rcases hg.source b lab w hb hr hw with rfl | ⟨wLab, hwLab, -⟩
          · obtain ⟨iLab, hi, -⟩ := hg.threaded.main
            exact isSome_of_eq hi
          · exact isSome_of_eq hwLab
        obtain ⟨wLab, hwLab⟩ := Option.isSome_iff_exists.1 hsome
        rw [Option.filter_some, hwLab]
        rfl
    · rfl
  have hjoin : (if lab.kind = .ThreadJoin then
      ((g.getLastThreadLabel lab.childId).map (·.pos)).toList else []) =
        ((g.tjPred lab).map (·.pos)).toList := by
    split_ifs with hk
    · obtain ⟨fLab, hf, -⟩ := hc.joined b lab hb hk
      rw [hf, (tjPred_eq_some hf).2.1]
    · rw [tjPred, if_neg hk]
      rfl
  rw [hrf, hjoin]
  simp only [List.mem_append, List.not_mem_nil, or_false]
  tauto

/-! ## Exactness -/

/-- Earlier labels of a thread come before later ones. -/
theorem reflTransGen_po (hb : (g.getEventLabel b).isSome)
    (h : VectorClock.UpTo Event.thread Event.index x b) :
    ReflTransGen (CausalEdge sync g) x b := by
  obtain ⟨t, i⟩ := x
  obtain ⟨t', j⟩ := b
  obtain ⟨rfl, hij⟩ : t = t' ∧ i ≤ j := h
  induction j, hij using Nat.le_induction with
  | base => exact .refl
  | succ j _ ih =>
    exact (ih (getEventLabel_isSome_of_le hb (a := ⟨t, j⟩) rfl (Nat.le_succ j))).tail (.po hb)

/-- A view contains what comes before an event, and nothing else. -/
def Shows (sync : EventLabel → EventLabel → Bool) (g : ExecutionGraph) (e : Event) (v : View) :
    Prop :=
  ∀ x : Event, 0 < x.index → (v.contains x = true ↔ ReflTransGen (CausalEdge sync g) x e)

/-- The views of a label are right. -/
structure ExactAt (conf : ViewConfig) (g : ExecutionGraph) (vs : Event → LabelViews) (e : Event) :
    Prop where
  all : Shows sync71 g e ((vs e).view 0)
  atomic : Shows sync72 g e ((vs e).view 1)
  lin : conf.collectLinSpec = true ∨ conf.checkLinSpec = true → Shows sync73 g e ((vs e).view 2)
  prefixView : Shows sync71 g e (vs e).prefixView

theorem shows_iff {v : View} : Shows sync g e v ↔
    VectorClock.Exact Event.thread Event.index (CausalEdge sync g) e v.getMax := by
  refine forall₂_congr fun x _ => ?_
  rw [View.contains_iff]
  rfl

/-- The first view follows all edges. -/
theorem CausalEdge.all (h : CausalEdge sync g a b) : CausalEdge sync71 g a b := by
  cases h with
  | po h => exact .po h
  | tc h hs hc => exact .tc h hs hc
  | tj h hf => exact .tj h hf
  | lin h ha => exact .lin h ha
  | rf h hr hw hwLab _ => exact .rf h hr hw hwLab rfl

section Exact

variable (hg : GraphInv g) (hc : Causal g)
include hg hc

/-- A view that is computed from those of the labels before contains what comes before. -/
theorem shows_of_preds {v : View} (view : Event → View) (hb : g.getEventLabel b = some lab)
    (hview : ∀ y, 0 < y.index →
      (v.contains y = true ↔ VectorClock.UpTo Event.thread Event.index y b ∨
      ∃ p ∈ calcPreds sync g lab, (view p).contains y = true ∨
        VectorClock.UpTo Event.thread Event.index y p))
    (hpred : ∀ a, CausalEdge sync g a b → Shows sync g a (view a)) : Shows sync g b v := by
  have hjoins : VectorClock.Joins Event.thread Event.index (fun e => (view e).getMax)
      (CausalEdge sync g) b v.getMax := by
    intro y hy
    have := hview y hy
    simp only [View.contains_iff, mem_calcPreds_iff hg.threaded.slots hb] at this
    exact this
  rw [shows_iff]
  refine hjoins.exact (fun y => reflTransGen_po (isSome_of_eq hb)) (fun a hab y => ?_)
    fun a hab => shows_iff.1 (hpred a hab)
  obtain ⟨aLab, ha, -⟩ := viewed_iff.1 (viewed_of_causalEdge hg hc hab)
  exact reflTransGen_po (isSome_of_eq ha)

/-- **The views that are computed for a label are right**, if those of the labels directly before it
are. -/
theorem exactAt_updateMMViews (hb : g.getEventLabel b = some lab)
    (hpred : ∀ a, CausalEdge sync71 g a b → ExactAt conf g vs a)
    (hvs : vs' b = updateMMViews conf g vs lab) : ExactAt conf g vs' b := by
  have hpos := hg.threaded.slots b lab hb
  have hshows : ∀ (i : ℕ) (sync : EventLabel → EventLabel → Bool),
      (∀ a, CausalEdge sync71 g a b → Shows sync g a ((vs a).view i)) →
        Shows sync g b (visitCalc i (calcPreds sync g lab) vs lab) := fun i sync h =>
    shows_of_preds hg hc (fun e => (vs e).view i) hb
      (fun y hy => by rw [contains_visitCalc hy, hpos]) fun a hab => h a hab.all
  refine ⟨?_, ?_, fun hlin => ?_, ?_⟩
  · rw [hvs]
    exact hshows 0 sync71 fun a hab => (hpred a hab).all
  · rw [hvs]
    exact hshows 1 sync72 fun a hab => (hpred a hab).atomic
  · have hview : (vs' b).view 2 = visitCalc 2 (calcPreds sync73 g lab) vs lab := by
      rw [hvs]
      refine if_neg fun h => ?_
      rcases hlin with hlin | hlin <;> simp [hlin] at h
    rw [hview]
    exact hshows 2 sync73 fun a hab => (hpred a hab).lin hlin
  · have hview : (vs' b).prefixView = calcPPoRfBefore g vs lab := by rw [hvs]; rfl
    rw [hview]
    refine shows_of_preds hg hc (fun e => (vs e).prefixView) hb (fun y hy => ?_)
      fun a hab => (hpred a hab).prefixView
    rw [contains_calcPPoRfBefore hy, hpos]
    refine or_congr_right (exists_congr fun p => ?_)
    rw [mem_prefixPreds_iff hg hc hb, mem_calcPreds_iff hg.threaded.slots hb]
    -- the prefix of a label has the label
    refine and_congr_right fun hp => ⟨.inl, fun h => h.elim id fun hup => ?_⟩
    obtain ⟨pLab, hpLab, -⟩ := viewed_iff.1 (viewed_of_causalEdge hg hc hp)
    exact ((hpred p hp).prefixView y hy).2 (reflTransGen_po (isSome_of_eq hpLab) hup)

end Exact

end SCChecker
end GenMC
