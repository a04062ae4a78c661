import GenMC.Consistency.Views

/-!
# Views and the operations of the driver

The driver computes the views of a label when the label is added, and again when a read gets another
source.  All other views stay as they are, and this is right as long as the operations leave alone
what comes before the other labels.

* `SameCauses` says that some labels of a graph are in another one, together with all that comes
  before them, and `SameCauses.exactAt` that their views are still right there.
* `ViewInv` is what the operations keep.  Its parameter says whose views need not be right: reads
  that have lost their source, until they are repaired.
* **`ViewInv.extend`**, `ViewInv.setRf`, `ViewInv.removeLast`, `ViewInv.restrict` and
  `ViewInv.repair` are the results about the operations.
-/

set_option autoImplicit false

namespace GenMC

open ListOrder Relation ExecutionGraph

namespace SCChecker

variable {conf : ViewConfig} {g g' : ExecutionGraph} {vs vs' : Event → LabelViews}
  {a b e r w x : Event} {lab lab' rLab : EventLabel} {p q s : Event → Prop}
  {sync : EventLabel → EventLabel → Bool}

/-! ## Labels with the same causes -/

/-- Two labels that agree on what comes before them, joins apart. -/
structure SameCause (lab lab' : EventLabel) : Prop where
  kind : lab'.kind = lab.kind
  childId : lab.kind = .ThreadJoin → lab'.childId = lab.childId
  create : lab.isThreadStart = true → lab'.create = lab.create
  ordering : lab.kind ≠ .ThreadStart → lab'.ordering = lab.ordering
  rf : lab.isRead = true → lab'.rf = lab.rf

theorem SameCause.refl (lab : EventLabel) : SameCause lab lab :=
  ⟨rfl, fun _ => rfl, fun _ => rfl, fun _ => rfl, fun _ => rfl⟩

/-- The labels of `g` with `s` are in `g'`, and so is what comes before them. -/
structure SameCauses (s : Event → Prop) (g g' : ExecutionGraph) : Prop where
  label : ∀ e, s e → ∃ lab lab', g.getEventLabel e = some lab ∧ g'.getEventLabel e = some lab' ∧
    SameCause lab lab'
  closed : ∀ a b, s b → CausalEdge sync71 g a b → s a

/-- A condition on reads that depends on kinds and orderings only. -/
def Alike (sync : EventLabel → EventLabel → Bool) : Prop :=
  ∀ ⦃w w' r r' : EventLabel⦄, w'.ordering = w.ordering → r'.kind = r.kind →
    r'.ordering = r.ordering → sync w' r' = sync w r

theorem alike_sync71 : Alike sync71 := fun _ _ _ _ _ _ _ => rfl

theorem alike_sync72 : Alike sync72 := by
  intro w w' r r' hw _ hr
  rw [sync72, sync72, EventLabel.isNotAtomic, EventLabel.isNotAtomic, EventLabel.isNotAtomic,
    EventLabel.isNotAtomic, hw, hr]

theorem alike_sync73 : Alike sync73 := by
  intro w w' r r' hw hk hr
  rw [sync73, sync73, EventLabel.isNotAtomic, EventLabel.isNotAtomic, EventLabel.isNotAtomic,
    EventLabel.isNotAtomic, hw, hk, hr]

theorem kind_ne_threadStart (hr : lab.isRead = true ∨ lab.isWrite = true ∨ lab.kind = .Init) :
    lab.kind ≠ .ThreadStart := by
  intro hk
  rw [EventLabel.isRead, EventLabel.isWrite, hk] at hr
  revert hr
  decide

theorem isTerminator_of_finish (hk : lab.kind = .ThreadFinish) : lab.isTerminator = true := by
  rw [EventLabel.isTerminator, hk]
  rfl

/-- A join finds the end of the thread. -/
theorem tjPred_of_finish {f : Event} {fLab jLab : EventLabel} (hj : jLab.kind = .ThreadJoin)
    (hf : g.getEventLabel f = some fLab) (hk : fLab.kind = .ThreadFinish)
    (hnext : g.getEventLabel f.next = none) (ht : f.thread = jLab.childId) :
    g.tjPred jLab = some fLab := by
  rw [tjPred, if_pos hj, ← ht, getLastThreadLabel_of_next hf hnext, Option.filter_some,
    if_pos (decide_eq_true hk)]

/-- The end of a thread that is joined. -/
theorem getEventLabel_of_tjPred {fLab : EventLabel} (hg : GraphInv g)
    (h : g.tjPred lab = some fLab) :
    g.getEventLabel fLab.pos = some fLab ∧ fLab.pos.thread = lab.childId ∧
      fLab.kind = .ThreadFinish := by
  obtain ⟨-, hlast, hk⟩ := tjPred_eq_some h
  obtain ⟨hf, hpos⟩ := getEventLabel_of_last hg hlast
  exact ⟨hf, by rw [hpos], hk⟩

/-- Joins and ends of threads come after a begin. -/
theorem index_pos_of_tjPred {j : Event} {fLab : EventLabel} (hg : GraphInv g)
    (hj : g.getEventLabel j = some lab) (hf : g.tjPred lab = some fLab) :
    0 < j.index ∧ 0 < fLab.pos.index := by
  obtain ⟨hfl, -, hfk⟩ := getEventLabel_of_tjPred hg hf
  have hjk := (tjPred_eq_some hf).1
  refine ⟨index_pos_of_kind hg.threaded hj ?_ ?_, index_pos_of_kind hg.threaded hfl ?_ ?_⟩
  · rw [hjk]
    decide
  · rw [hjk]
    decide
  · rw [hfk]
    decide
  · rw [hfk]
    decide

section SameCauses

variable (hg : GraphInv g) (hc : Causal g) (hg' : GraphInv g') (hc' : Causal g')
  (h : SameCauses s g g')
include hg hc hg' hc' h

/-- What comes directly before a label does not change. -/
theorem SameCauses.causalEdge_iff (hs : Alike sync) (hb : s b) :
    CausalEdge sync g' a b ↔ CausalEdge sync g a b := by
  obtain ⟨lab, lab', hlab, hlab', hsame⟩ := h.label b hb
  have hread : lab'.isRead = lab.isRead := by
    rw [EventLabel.isRead, hsame.kind, EventLabel.isRead]
  have hstart : lab'.isThreadStart = lab.isThreadStart := by
    rw [EventLabel.isThreadStart, hsame.kind, EventLabel.isThreadStart]
  -- the source of a read
  have hsync : ∀ {w wLab wLab'}, lab.isRead = true → lab.rf = some w →
      g.getEventLabel w = some wLab → g'.getEventLabel w = some wLab' →
        sync wLab' lab' = sync wLab lab := by
    intro w wLab wLab' hr hw hwLab hwLab'
    obtain ⟨l, l', hl, hl', hsame'⟩ := h.label w (h.closed w b hb (.rf hlab hr hw hwLab rfl))
    obtain rfl := Option.some.inj (hwLab.symm.trans hl)
    obtain rfl := Option.some.inj (hwLab'.symm.trans hl')
    refine hs (hsame'.ordering (kind_ne_threadStart ?_)) hsame.kind
      (hsame.ordering (kind_ne_threadStart (.inl hr)))
    rcases hg.source b lab w hlab hr hw with rfl | ⟨vLab, hv, hvw, -⟩
    · obtain ⟨iLab, hi, hk⟩ := hg.threaded.main
      obtain rfl := Option.some.inj (hwLab.symm.trans hi)
      exact .inr (.inr hk)
    · obtain rfl := Option.some.inj (hwLab.symm.trans hv)
      exact .inr (.inl hvw)
  refine ⟨fun hab => ?_, fun hab => ?_⟩
  · cases hab with
    | po h₁ => exact .po (isSome_of_eq hlab)
    | tc h₁ hs' hcr =>
      obtain rfl := Option.some.inj (hlab'.symm.trans h₁)
      rw [hstart] at hs'
      rw [hsame.create hs'] at hcr
      exact .tc hlab hs' hcr
    | tj h₁ hf =>
      obtain rfl := Option.some.inj (hlab'.symm.trans h₁)
      have hk : lab.kind = .ThreadJoin := hsame.kind.symm.trans (tjPred_eq_some hf).1
      obtain ⟨fLab, hfLab, -⟩ := hc.joined b lab hlab hk
      obtain ⟨hfl, hft, hfk⟩ := getEventLabel_of_tjPred hg hfLab
      obtain ⟨l, l', hl, hl', hsame'⟩ := h.label _ (h.closed _ b hb (.tj hlab hfLab))
      obtain rfl := Option.some.inj (hfl.symm.trans hl)
      have hfk' := hsame'.kind.trans hfk
      have hf' := tjPred_of_finish (hsame.kind.trans hk) hl' hfk'
        (hc'.ended _ _ hl' (isTerminator_of_finish hfk')) (hft.trans (hsame.childId hk).symm)
      obtain rfl := Option.some.inj (hf.symm.trans hf')
      rw [hg'.threaded.slots _ _ hl']
      exact .tj hlab hfLab
    | lin h₁ ha =>
      rw [hc'.linPreds _ _ h₁] at ha
      cases ha
    | rf h₁ hr hw hwLab hs' =>
      obtain rfl := Option.some.inj (hlab'.symm.trans h₁)
      rw [hread] at hr
      rw [hsame.rf hr] at hw
      have hsome : (g.getEventLabel a).isSome := by
        rcases hg.source b lab a hlab hr hw with rfl | ⟨vLab, hv, -⟩
        · obtain ⟨iLab, hi, -⟩ := hg.threaded.main
          exact isSome_of_eq hi
        · exact isSome_of_eq hv
      obtain ⟨vLab, hv⟩ := Option.isSome_iff_exists.1 hsome
      exact .rf hlab hr hw hv ((hsync hr hw hv hwLab).symm.trans hs')
  · have ha := h.closed a b hb hab.all
    cases hab with
    | po h₁ => exact .po (isSome_of_eq hlab')
    | tc h₁ hs' hcr =>
      obtain rfl := Option.some.inj (hlab.symm.trans h₁)
      exact .tc hlab' (hstart.trans hs') ((hsame.create hs').trans hcr)
    | tj h₁ hf =>
      obtain rfl := Option.some.inj (hlab.symm.trans h₁)
      obtain ⟨hfl, hft, hfk⟩ := getEventLabel_of_tjPred hg hf
      obtain ⟨l, l', hl, hl', hsame'⟩ := h.label _ ha
      obtain rfl := Option.some.inj (hfl.symm.trans hl)
      have hfk' := hsame'.kind.trans hfk
      have hf' := tjPred_of_finish (hsame.kind.trans (tjPred_eq_some hf).1) hl' hfk'
        (hc'.ended _ _ hl' (isTerminator_of_finish hfk'))
        (hft.trans (hsame.childId (tjPred_eq_some hf).1).symm)
      have hedge : CausalEdge sync g' l'.pos b := .tj hlab' hf'
      rwa [hg'.threaded.slots _ _ hl'] at hedge
    | lin h₁ hin =>
      rw [hc.linPreds _ _ h₁] at hin
      cases hin
    | rf h₁ hr hw hwLab hs' =>
      obtain rfl := Option.some.inj (hlab.symm.trans h₁)
      obtain ⟨l, l', hl, hl', -⟩ := h.label a ha
      exact .rf hlab' (hread.trans hr) ((hsame.rf hr).trans hw) hl'
        ((hsync hr hw hwLab hl').trans hs')

/-- **Views stay right** as long as what comes before their labels does not change. -/
theorem SameCauses.exactAt (he : s e) (hvs : vs' e = vs e) (hx : ExactAt conf g vs e) :
    ExactAt conf g' vs' e := by
  have hshows : ∀ {sync v}, Alike sync → Shows sync g e v → Shows sync g' e v := by
    intro sync v hs hv x hx
    rw [hv x hx]
    exact (VectorClock.reflTransGen_iff_of_closed (fun a b hb hab => h.closed a b hb hab.all)
      (fun a b hb => h.causalEdge_iff hg hc hg' hc' hs hb) he).symm
  refine ⟨?_, ?_, fun hlin => ?_, ?_⟩
  · rw [hvs]
    exact hshows alike_sync71 hx.all
  · rw [hvs]
    exact hshows alike_sync72 hx.atomic
  · rw [hvs]
    exact hshows alike_sync73 (hx.lin hlin)
  · rw [hvs]
    exact hshows alike_sync71 hx.prefixView

end SameCauses

/-! ## The invariant -/

/-- The views of all labels are right, but for those with `p`. -/
structure ViewInv (conf : ViewConfig) (p : Event → Prop) (g : ExecutionGraph)
    (vs : Event → LabelViews) : Prop where
  causal : Causal g
  exact : ∀ e, Viewed g e → ¬ p e → ExactAt conf g vs e
  prefixView : ∀ w wLab, g.getEventLabel w = some wLab → wLab.isWrite = true → ¬ p w →
    wLab.prefixView = (vs w).prefixView

theorem viewed_of_isWrite (h : g.getEventLabel w = some lab) (hw : lab.isWrite = true) :
    Viewed g w :=
  viewed_iff.2 ⟨lab, h, not_isBlock_of_isMemAccess (EventLabel.isMemAccess_of_isWrite hw)⟩

namespace ViewInv

theorem mono (h : ViewInv conf p g vs) (hpq : ∀ e, Viewed g e → p e → q e) :
    ViewInv conf q g vs :=
  ⟨h.causal, fun e he hq => h.exact e he fun hp => hq (hpq e he hp), fun w wLab hw hwrite hq =>
    h.prefixView w wLab hw hwrite fun hp => hq (hpq w (viewed_of_isWrite hw hwrite) hp)⟩

/-- **An operation that leaves alone what comes before the labels with `s`.** -/
theorem transport (h : ViewInv conf p g vs) (hg : GraphInv g) (hg' : GraphInv g') (hc' : Causal g')
    (hs : SameCauses s g g') (hsp : ∀ e, s e → ¬ p e)
    (hq : ∀ e, (g'.getEventLabel e).isSome → ¬ q e → s e)
    (hpre : ∀ w wLab wLab', g.getEventLabel w = some wLab → g'.getEventLabel w = some wLab' →
      wLab.isWrite = true → wLab'.prefixView = wLab.prefixView) : ViewInv conf q g' vs := by
  refine ⟨hc', fun e he hqe => ?_, fun w wLab' hw hwrite hqw => ?_⟩
  · obtain ⟨lab', hlab', hb⟩ := viewed_iff.1 he
    have hse := hq e (isSome_of_eq hlab') hqe
    obtain ⟨lab, l', hlab, hl', hsame⟩ := hs.label e hse
    obtain rfl := Option.some.inj (hlab'.symm.trans hl')
    have hviewed : Viewed g e := by
      refine viewed_iff.2 ⟨lab, hlab, ?_⟩
      rw [EventLabel.isBlock, ← hsame.kind]
      exact hb
    exact hs.exactAt hg h.causal hg' hc' hse rfl (h.exact e hviewed (hsp e hse))
  · have hsw := hq w (isSome_of_eq hw) hqw
    obtain ⟨wLab, l', hwLab, hl', hsame⟩ := hs.label w hsw
    obtain rfl := Option.some.inj (hw.symm.trans hl')
    have hwrite' : wLab.isWrite = true := by
      rw [EventLabel.isWrite, ← hsame.kind]
      exact hwrite
    rw [hpre w wLab wLab' hwLab hw hwrite']
    exact h.prefixView w wLab hwLab hwrite' (hsp w hsw)

/-- **Computing the views of a label.** -/
theorem update (h : ViewInv conf q g vs) (hg : GraphInv g) (hr : g.getEventLabel r = some rLab)
    (hpre : rLab.isWrite = true → rLab.prefixView = (updateMMViews conf g vs rLab).prefixView)
    (hq : ∀ a, CausalEdge sync71 g a r → ¬ q a) :
    ViewInv conf (fun e => q e ∧ e ≠ r) g (updateLabelViews conf g r vs) := by
  have hvs : updateLabelViews conf g r vs =
      Function.update vs r (updateMMViews conf g vs rLab) := by
    rw [updateLabelViews, hr]
  have hself : updateLabelViews conf g r vs r = updateMMViews conf g vs rLab := by
    rw [hvs, Function.update_self]
  have hne : ∀ {e}, e ≠ r → updateLabelViews conf g r vs e = vs e := fun he => by
    rw [hvs, Function.update_of_ne he]
  refine ⟨h.causal, fun e he hqe => ?_, fun w wLab hw hwrite hqw => ?_⟩
  · by_cases her : e = r
    · rw [her]
      exact exactAt_updateMMViews hg h.causal hr (fun a ha =>
        h.exact a (viewed_of_causalEdge hg h.causal ha) (hq a ha)) hself
    · have hx := h.exact e he fun hq' => hqe ⟨hq', her⟩
      exact ⟨by rw [hne her]; exact hx.all, by rw [hne her]; exact hx.atomic,
        by rw [hne her]; exact hx.lin, by rw [hne her]; exact hx.prefixView⟩
  · by_cases hwr : w = r
    · subst hwr
      obtain rfl := Option.some.inj (hr.symm.trans hw)
      rw [hself]
      exact hpre hwrite
    · rw [hne hwr]
      exact h.prefixView w wLab hw hwrite fun hq' => hqw ⟨hq', hwr⟩

end ViewInv

/-! ## What comes before labels that are left -/

/-- The invariant of a graph that has some of the labels of another one. -/
theorem Causal.of_sub (hc : Causal g) (hg : GraphInv g) (hg' : GraphInv g')
    (hlabel : ∀ e lab', g'.getEventLabel e = some lab' → ∃ lab, g.getEventLabel e = some lab ∧
      lab'.kind = lab.kind ∧ (lab.kind = .ThreadJoin → lab'.childId = lab.childId) ∧
        linPredsOf lab' = [])
    (hmain : ∀ lab lab', g.getEventLabel Event.getInit = some lab →
      g'.getEventLabel Event.getInit = some lab' → lab.create = none ∧
        lab.ordering = initLabel.ordering → lab'.create = none ∧ lab'.ordering = initLabel.ordering)
    (hio : g'.insertionOrder.Sublist g.insertionOrder)
    (hjoin : ∀ j jLab fLab, (g'.getEventLabel j).isSome → g.getEventLabel j = some jLab →
      g.tjPred jLab = some fLab → (g'.getEventLabel fLab.pos).isSome) : Causal g' := by
  have hended : ∀ e lab, g'.getEventLabel e = some lab → lab.isTerminator = true →
      g'.getEventLabel e.next = none := by
    intro e lab' h hterm
    obtain ⟨lab, hlab, hk, -⟩ := hlabel e lab' h
    rw [EventLabel.isTerminator, hk] at hterm
    cases hn : g'.getEventLabel e.next with
    | none => rfl
    | some nLab' =>
      obtain ⟨nLab, hnLab, -⟩ := hlabel _ nLab' hn
      rw [hc.ended e lab hlab hterm] at hnLab
      cases hnLab
  refine ⟨fun lab' h => ?_, fun e lab' h hs => ?_, fun j jLab' h hk => ?_,
    fun e lab' h => ?_, hended⟩
  · obtain ⟨lab, hlab, -⟩ := hlabel _ lab' h
    exact hmain lab lab' hlab h (hc.main lab hlab)
  · obtain ⟨lab, hlab, hk, -⟩ := hlabel e lab' h
    rw [EventLabel.isThreadStart, hk] at hs
    exact hc.begins e lab hlab hs
  · obtain ⟨jLab, hj, hjk, hchild, -⟩ := hlabel j jLab' h
    have hk' := hjk.symm.trans hk
    obtain ⟨fLab, hf, hbefore⟩ := hc.joined j jLab hj hk'
    obtain ⟨hfl, hft, hfk⟩ := getEventLabel_of_tjPred hg hf
    have hsome := hjoin j jLab fLab (isSome_of_eq h) hj hf
    obtain ⟨fLab', hf'⟩ := Option.isSome_iff_exists.1 hsome
    obtain ⟨l, hl, hlk, -⟩ := hlabel _ fLab' hf'
    obtain rfl := Option.some.inj (hfl.symm.trans hl)
    have hfk' := hlk.trans hfk
    refine ⟨fLab', tjPred_of_finish hk hf' hfk' (hended _ _ hf' (isTerminator_of_finish hfk'))
      (hft.trans (hchild hk').symm), ?_⟩
    rw [hg'.threaded.slots _ _ hf']
    exact before_of_sublist hg.threaded.order hio ((hg'.threaded.inserted _).2 hsome)
      ((hg'.threaded.inserted _).2 (isSome_of_eq h)) hbefore
  · obtain ⟨-, -, -, -, hlin⟩ := hlabel e lab' h
    exact hlin

/-- Nothing comes after the last label of a thread, unless it is read, begun or joined. -/
theorem not_causalEdge_of_last (hg : GraphInv g) (hc : Causal g) (h : g.getEventLabel e = some lab)
    (hnext : g.getEventLabel e.next = none) (hw : lab.isWrite = false)
    (hi : lab.kind ≠ .Init) (hk : lab.kind ≠ .ThreadCreate) (hf : lab.kind ≠ .ThreadFinish) :
    ¬ CausalEdge sync g e b := by
  intro hab
  cases hab with
  | @po t i h₁ =>
    rw [show g.getEventLabel ⟨t, i + 1⟩ = none from hnext] at h₁
    cases h₁
  | tc h₁ hs hcr =>
    obtain ⟨t, i⟩ := b
    obtain rfl : i = 0 := hc.begins _ _ h₁ hs
    rcases Nat.eq_zero_or_pos t with rfl | ht
    · rw [(hc.main _ h₁).1] at hcr
      cases hcr
    · obtain ⟨cLab, hcr', hcLab, hk', -⟩ := created_of_threaded hg.threaded ht h₁
      obtain rfl := Option.some.inj (hcr.symm.trans hcr')
      obtain rfl := Option.some.inj (h.symm.trans hcLab)
      exact hk hk'
  | tj h₁ hfl =>
    obtain ⟨hfLab, -, hfk⟩ := getEventLabel_of_tjPred hg hfl
    obtain rfl := Option.some.inj (h.symm.trans hfLab)
    exact hf hfk
  | lin h₁ ha =>
    rw [hc.linPreds _ _ h₁] at ha
    cases ha
  | rf h₁ hr hrf hwLab =>
    rcases hg.source _ _ _ h₁ hr hrf with rfl | ⟨vLab, hv, hvw, -⟩
    · obtain ⟨iLab, hiLab, hik⟩ := hg.threaded.main
      obtain rfl := Option.some.inj (h.symm.trans hiLab)
      exact hi hik
    · obtain rfl := Option.some.inj (h.symm.trans hv)
      rw [hw] at hvw
      cases hvw

/-- A read that its thread has not gone on after. -/
def LastRead (g : ExecutionGraph) (r : Event) : Prop :=
  ∃ rLab, g.getEventLabel r = some rLab ∧ rLab.isRead = true ∧ g.getEventLabel r.next = none

theorem LastRead.not_causalEdge (hg : GraphInv g) (hc : Causal g) (h : LastRead g r) :
    ¬ CausalEdge sync g r b := by
  obtain ⟨rLab, hr, hread, hnext⟩ := h
  have hne : ∀ k : EventLabelKind, k.isRead = false → rLab.kind ≠ k := by
    rintro k hk rfl
    rw [EventLabel.isRead, hk] at hread
    cases hread
  exact not_causalEdge_of_last hg hc hr hnext (EventLabelKind.not_isWrite_of_isRead hread)
    (hne _ rfl) (hne _ rfl) (hne _ rfl)

/-- No label comes directly before itself. -/
theorem ne_of_causalEdge (hg : GraphInv g) (hc : Causal g) (h : CausalEdge sync g a b) : a ≠ b := by
  rintro rfl
  exact Nat.lt_irrefl _ (due_lt_of_causalEdge hg hc h)

/-! ## Adding labels -/

/-- A label that a thread adds while it runs.  A join finds that the other thread has ended. -/
structure Issues (g : ExecutionGraph) (lab : EventLabel) : Prop where
  running : ∀ e l, e.next = lab.pos → g.getEventLabel e = some l → l.isTerminator = false
  begins : lab.isThreadStart = true → lab.pos.index = 0
  linPreds : linPredsOf lab = []
  joined : lab.kind = .ThreadJoin → ∃ f fLab, g.getEventLabel f = some fLab ∧
    fLab.kind = .ThreadFinish ∧ f.thread = lab.childId

section Extends

variable (hg : GraphInv g) (hx : Extends lab g g') (hi : Issues g lab)
include hg hx hi

theorem Issues.causal (hc : Causal g) : Causal g' := by
  have hended : ∀ e l, g'.getEventLabel e = some l → l.isTerminator = true →
      g'.getEventLabel e.next = none := by
    intro e l h hterm
    rcases hx.cases h with ⟨rfl, -⟩ | ⟨-, h⟩
    · exact hx.next_eq_none
    · rw [hx.label, if_neg, hc.ended e l h hterm]
      intro heq
      rw [hi.running e l heq h] at hterm
      cases hterm
  have hjoin : ∀ {f fLab l}, g.getEventLabel f = some fLab → fLab.kind = .ThreadFinish →
      l.kind = .ThreadJoin → f.thread = l.childId → g'.tjPred l = some fLab := by
    intro f fLab l hf hfk hk ht
    have hf' := hx.old hf
    exact tjPred_of_finish hk hf' hfk (hended _ _ hf' (isTerminator_of_finish hfk)) ht
  refine ⟨fun l h => ?_, fun e l h hs => ?_, fun j l h hk => ?_, fun e l h => ?_, hended⟩
  · rcases hx.cases h with ⟨heq, -⟩ | ⟨-, h⟩
    · obtain ⟨iLab, hiLab, -⟩ := hg.threaded.main
      rw [heq, hx.new] at hiLab
      cases hiLab
    · exact hc.main l h
  · rcases hx.cases h with ⟨rfl, rfl⟩ | ⟨-, h⟩
    · exact hi.begins hs
    · exact hc.begins e l h hs
  · rw [hx.insertionOrder]
    rcases hx.cases h with ⟨rfl, rfl⟩ | ⟨-, h⟩
    · obtain ⟨f, fLab, hf, hfk, ht⟩ := hi.joined hk
      refine ⟨fLab, hjoin hf hfk hk ht, ?_⟩
      rw [hg.threaded.slots f fLab hf]
      exact before_concat ((hg.threaded.inserted f).2 (isSome_of_eq hf)) _
    · obtain ⟨fLab, hf, hbefore⟩ := hc.joined j l h hk
      obtain ⟨hfl, hft, hfk⟩ := getEventLabel_of_tjPred hg hf
      exact ⟨fLab, hjoin hfl hfk hk hft, hbefore.append _⟩
  · rcases hx.cases h with ⟨-, rfl⟩ | ⟨-, h⟩
    · exact hi.linPreds
    · exact hc.linPreds e l h

namespace ViewInv

variable (h : ViewInv conf (fun _ => False) g vs) (hg' : GraphInv g')
include h hg'

/-- The views of the other labels stay right. -/
theorem add : ViewInv conf (· = lab.pos) g' vs := by
  refine h.transport hg hg' (hi.causal hg hx h.causal) (s := fun e => (g.getEventLabel e).isSome)
    ⟨fun e he => ?_, fun a b _ hab => ?_⟩ (fun _ _ => id) (fun e he hne => ?_)
    fun w wLab wLab' hw hw' _ => ?_
  · obtain ⟨l, hl⟩ := Option.isSome_iff_exists.1 he
    exact ⟨l, l, hl, hx.old hl, .refl l⟩
  · obtain ⟨l, hl, -⟩ := viewed_iff.1 (viewed_of_causalEdge hg h.causal hab)
    exact isSome_of_eq hl
  · rw [hx.label, if_neg hne] at he
    exact he
  · rw [Option.some.inj (hw'.symm.trans (hx.old hw))]

/-- **Adding a label, and computing its views.** -/
theorem extend (hpre : lab.isWrite = true →
    lab.prefixView = (updateMMViews conf g' vs lab).prefixView) :
    ViewInv conf (fun _ => False) g' (updateLabelViews conf g' lab.pos vs) :=
  ((h.add hg hx hi hg').update hg' hx.self hpre fun _ hab =>
    ne_of_causalEdge hg' (hi.causal hg hx h.causal) hab).mono fun _ _ he => he.2 he.1

/-- Blocks have no views. -/
theorem extend_block (hb : lab.isBlock = true) : ViewInv conf (fun _ => False) g' vs := by
  refine (h.add hg hx hi hg').mono fun e he heq => ?_
  obtain ⟨l, hl, hnb⟩ := viewed_iff.1 he
  rw [heq, hx.self] at hl
  rw [← Option.some.inj hl, hb] at hnb
  cases hnb

end ViewInv

end Extends

/-! ## Changing labels -/

theorem LastRead.setRf (hg : GraphInv g) (hr : g.getEventLabel r = some rLab) (h : LastRead g e) :
    LastRead (g.setRf r (some w)) e := by
  obtain ⟨l, hl, hread, hnext⟩ := h
  obtain ⟨rs, m, hl'⟩ := to_setRf hg hr (w := w) hl
  refine ⟨_, hl', hread, ?_⟩
  rw [← Option.not_isSome_iff_eq_none, isSome_setRf hr, hnext]
  exact Bool.false_ne_true

section SetRf

variable (h : ViewInv conf p g vs) (hg : GraphInv g) (hr : g.getEventLabel r = some rLab)
  (hread : rLab.isRead = true) (hsrc : Source g rLab w) (hnext : g.getEventLabel r.next = none)
  (hp : ∀ e, p e → LastRead g e)
include h hg hr hread hsrc hnext hp

/-- Changing what a read reads from leaves the other views right. -/
theorem ViewInv.retarget : ViewInv conf (fun e => p e ∨ e = r) (g.setRf r (some w)) vs ∧
    ∀ e, p e ∨ e = r → LastRead (g.setRf r (some w)) e := by
  have hg' : GraphInv (g.setRf r (some w)) := hg.setRf hr hread hsrc hnext
  have hlast : ∀ e, p e ∨ e = r → LastRead g e := by
    rintro e (he | rfl)
    · exact hp e he
    · exact ⟨rLab, hr, hread, hnext⟩
  have hc' : Causal (g.setRf r (some w)) := by
    refine h.causal.of_sub hg hg' (fun e lab' h' => ?_) (fun lab lab' hlab hlab' hm => ?_) ?_
      fun j jLab fLab _ _ hf => ?_
    · obtain ⟨l, rs, m, hl, rfl⟩ := of_setRf hg hr h'
      exact ⟨l, hl, rfl, fun _ => rfl, h.causal.linPreds e l hl⟩
    · obtain ⟨l, rs, m, hl, rfl⟩ := of_setRf hg hr hlab'
      obtain rfl := Option.some.inj (hlab.symm.trans hl)
      exact hm
    · rw [insertionOrder_setRf]
    · rw [isSome_setRf hr]
      exact isSome_of_eq (getEventLabel_of_tjPred hg hf).1
  refine ⟨h.transport hg hg' hc' (s := fun e => (g.getEventLabel e).isSome ∧ ¬ (p e ∨ e = r))
    ⟨fun e he => ?_, fun a b _ hab => ⟨?_, fun ha => (hlast a ha).not_causalEdge hg h.causal hab⟩⟩
    (fun e he hpe => he.2 (.inl hpe)) (fun e he hne => ⟨?_, hne⟩) fun v vLab vLab' hv hv' _ => ?_,
    fun e he => (hlast e he).setRf hg hr⟩
  · obtain ⟨l, hl⟩ := Option.isSome_iff_exists.1 he.1
    obtain ⟨rs, m, hl'⟩ := to_setRf hg hr (w := w) hl
    refine ⟨l, _, hl, hl', rfl, fun _ => rfl, fun _ => rfl, fun _ => rfl, fun _ => if_neg ?_⟩
    exact fun her => he.2 (.inr her)
  · obtain ⟨l, hl, -⟩ := viewed_iff.1 (viewed_of_causalEdge hg h.causal hab)
    exact isSome_of_eq hl
  · rwa [isSome_setRf hr] at he
  · obtain ⟨l, rs, m, hl, rfl⟩ := of_setRf hg hr hv'
    rw [Option.some.inj (hv.symm.trans hl)]

end SetRf

/-- Computing the views of a read that comes last in its thread. -/
theorem ViewInv.updateRead (h : ViewInv conf p g vs) (hg : GraphInv g)
    (hp : ∀ e, p e → LastRead g e) (hr : LastRead g r) :
    ViewInv conf (fun e => p e ∧ e ≠ r) g (updateLabelViews conf g r vs) := by
  obtain ⟨rLab, hrLab, hread, -⟩ := hr
  refine h.update hg hrLab (fun hw => ?_) fun a hab ha =>
    (hp a ha).not_causalEdge hg h.causal hab
  have hnw : rLab.isWrite = false := EventLabelKind.not_isWrite_of_isRead hread
  exact absurd (hnw.symm.trans hw) Bool.false_ne_true

/-- **Changing what a read reads from, and computing its views anew.** -/
theorem ViewInv.setRf (h : ViewInv conf p g vs) (hg : GraphInv g)
    (hr : g.getEventLabel r = some rLab) (hread : rLab.isRead = true) (hsrc : Source g rLab w)
    (hnext : g.getEventLabel r.next = none) (hp : ∀ e, p e → LastRead g e) :
    ViewInv conf (fun e => p e ∧ e ≠ r) (g.setRf r (some w))
      (updateLabelViews conf (g.setRf r (some w)) r vs) := by
  obtain ⟨h', hlast⟩ := h.retarget hg hr hread hsrc hnext hp
  exact (h'.updateRead (hg.setRf hr hread hsrc hnext) hlast (hlast r (.inr rfl))).mono
    fun e _ he => ⟨he.1.resolve_right he.2, he.2⟩

/-- Changing nothing about labels that the order of events depends on. -/
theorem ViewInv.relabel (h : ViewInv conf (fun _ => False) g vs) (hg : GraphInv g)
    (hg' : GraphInv g') (hio : g'.insertionOrder = g.insertionOrder)
    (hsome : ∀ e, (g'.getEventLabel e).isSome = (g.getEventLabel e).isSome)
    (hlabel : ∀ e lab lab', g.getEventLabel e = some lab → g'.getEventLabel e = some lab' →
      SameOrder lab lab' ∧ (lab.isWrite = true → lab'.prefixView = lab.prefixView)) :
    ViewInv conf (fun _ => False) g' vs := by
  have hc' : Causal g' := by
    refine h.causal.of_sub hg hg' (fun e lab' h' => ?_) (fun lab lab' hlab hlab' hm => ?_) ?_
      fun j jLab fLab _ _ hf => ?_
    · obtain ⟨lab, hlab⟩ := Option.isSome_iff_exists.1 ((hsome e).symm.trans (isSome_of_eq h'))
      obtain ⟨hsame, -⟩ := hlabel e lab lab' hlab h'
      refine ⟨lab, hlab, hsame.kind, fun _ => hsame.childId, ?_⟩
      rw [← h.causal.linPreds e lab hlab, linPredsOf, linPredsOf, hsame.kind, hsame.linPreds]
    · obtain ⟨hsame, -⟩ := hlabel _ lab lab' hlab hlab'
      rw [hsame.create, hsame.ordering]
      exact hm
    · rw [hio]
    · rw [hsome]
      exact isSome_of_eq (getEventLabel_of_tjPred hg hf).1
  refine h.transport hg hg' hc' (s := fun e => (g.getEventLabel e).isSome)
    ⟨fun e he => ?_, fun a b _ hab => ?_⟩ (fun _ _ => id) (fun e he _ => (hsome e).symm.trans he)
    fun w wLab wLab' hw hw' hwrite => (hlabel w wLab wLab' hw hw').2 hwrite
  · obtain ⟨lab, hlab⟩ := Option.isSome_iff_exists.1 he
    obtain ⟨lab', hlab'⟩ := Option.isSome_iff_exists.1 ((hsome e).trans he)
    obtain ⟨hsame, -⟩ := hlabel e lab lab' hlab hlab'
    exact ⟨lab, lab', hlab, hlab', hsame.kind, fun _ => hsame.childId, fun _ => hsame.create,
      fun _ => hsame.ordering, fun _ => hsame.rf⟩
  · obtain ⟨l, hl, -⟩ := viewed_iff.1 (viewed_of_causalEdge hg h.causal hab)
    exact isSome_of_eq hl

/-! ## Going back -/

section Restrict

variable {keep : Event → Bool} (hr : Restricts keep g g')
include hr

/-- A begin that is left. -/
theorem Restricts.begin_back (hg : GraphInv g) (he : e.index = 0)
    (h : g'.getEventLabel e = some lab') : ∃ lab, g.getEventLabel e = some lab ∧
      lab'.kind = lab.kind ∧ (lab.kind = .Init ↔ e = Event.getInit) ∧
        (lab.kind = .Init ∨ lab.kind = .ThreadStart) := by
  obtain ⟨t, i⟩ := e
  obtain rfl : i = 0 := he
  have hlt := (lt_getNumThreads_of_getEventLabel h).trans_le hr.numThreads
  have hsome : (g.getEventLabel ⟨t, 0⟩).isSome := by
    rw [← (sameThreads_resetStamps g).isSome]
    exact ThreadInv.begun hg.threaded _ (by rwa [getNumThreads_resetStamps])
  obtain ⟨lab, hlab⟩ := Option.isSome_iff_exists.1 hsome
  obtain ⟨l, hl, hsame⟩ := (sameThreads_resetStamps g).forth hlab
  obtain ⟨l', hl', hsame'⟩ := (sameThreads_resetStamps g').forth h
  refine ⟨lab, hlab, ?_⟩
  rcases Nat.eq_zero_or_pos t with rfl | ht
  · have hk := hsame.kind.symm.trans (ThreadInv.main hg.threaded l hl).1
    have hk' := hsame'.kind.symm.trans (ThreadInv.main hr.threaded l' hl').1
    exact ⟨hk'.trans hk.symm, ⟨fun _ => rfl, fun _ => hk⟩, .inl hk⟩
  · have hk := hsame.kind.symm.trans (ThreadInv.created hg.threaded t l ht hl).1
    have hk' := hsame'.kind.symm.trans (ThreadInv.created hr.threaded t l' ht hl').1
    refine ⟨hk'.trans hk.symm, ⟨fun hi => ?_, fun heq => ?_⟩, .inr hk⟩
    · rw [hk] at hi
      cases hi
    · exact absurd (congrArg Event.thread heq) ht.ne'

/-- The kind of a label that is left. -/
theorem Restricts.kind_back (hg : GraphInv g) (h : g'.getEventLabel e = some lab') :
    ∃ lab, g.getEventLabel e = some lab ∧ lab'.kind = lab.kind := by
  rcases Nat.eq_zero_or_pos e.index with he | he
  · obtain ⟨lab, hlab, hk, -⟩ := hr.begin_back hg he h
    exact ⟨lab, hlab, hk⟩
  · obtain ⟨-, lab, hlab, hrl⟩ := hr.back he h
    exact ⟨lab, hlab, hrl.kind⟩

variable (hg : GraphInv g) (hg' : GraphInv g') (hc : Causal g)
  (hjoin : ∀ j jLab fLab, (g'.getEventLabel j).isSome → g.getEventLabel j = some jLab →
    g.tjPred jLab = some fLab → (g'.getEventLabel fLab.pos).isSome)
include hg hg' hc hjoin

theorem Restricts.causal : Causal g' := by
  refine hc.of_sub hg hg' (fun e lab' h => ?_) (fun lab lab' hlab hlab' => ?_)
    hr.insertionOrder hjoin
  · rcases Nat.eq_zero_or_pos e.index with he | he
    · obtain ⟨lab, hlab, hk, -, hi⟩ := hr.begin_back hg he h
      refine ⟨lab, hlab, hk, fun hj => ?_, ?_⟩
      · rcases hi with hi | hi <;> exact absurd (hi.symm.trans hj) (by decide)
      · rw [linPredsOf, if_neg]
        rw [hk]
        rcases hi with hi | hi <;> rw [hi] <;> decide
    · obtain ⟨-, lab, hlab, hrl⟩ := hr.back he h
      exact ⟨lab, hlab, hrl.kind, fun _ => (hr.label e lab lab' he hlab h).1,
        (hr.ordering e lab lab' he hlab h).2.2 (hc.linPreds e lab hlab)⟩
  · exact (hr.begins _ lab lab' rfl hlab hlab').2

/-- What comes before a label that is left, is left with it. -/
theorem Restricts.sameCauses :
    SameCauses (fun e => (g'.getEventLabel e).isSome ∧ ¬ Dangling g' e) g g' := by
  have hmain : ∀ {lab lab'}, g.getEventLabel Event.getInit = some lab →
      g'.getEventLabel Event.getInit = some lab' →
        lab.create = none ∧ lab'.create = none ∧ lab'.ordering = lab.ordering := by
    intro lab lab' h h'
    obtain ⟨hcr, hord⟩ := hc.main lab h
    obtain ⟨hcr', hord'⟩ := (hr.begins _ lab lab' rfl h h').2 ⟨hcr, hord⟩
    exact ⟨hcr, hcr', hord'.trans hord.symm⟩
  have hcreate : ∀ {t lab lab'}, 0 < t → g.getEventLabel ⟨t, 0⟩ = some lab →
      g'.getEventLabel ⟨t, 0⟩ = some lab' → lab'.create = lab.create := by
    intro t lab lab' ht h h'
    obtain ⟨-, hcr, -⟩ := created_of_threaded hg.threaded ht h
    obtain ⟨-, hcr', -⟩ := created_of_threaded hr.threaded ht h'
    rw [hcr, hcr', (hr.begins _ lab lab' rfl h h').1]
  refine ⟨fun e he => ?_, fun a b hb hab => ?_⟩
  · obtain ⟨lab', h'⟩ := Option.isSome_iff_exists.1 he.1
    rcases Nat.eq_zero_or_pos e.index with hi | hi
    · obtain ⟨lab, h, hk, hinit, hki⟩ := hr.begin_back hg hi h'
      have hread : lab.isRead = false := by
        rw [EventLabel.isRead]
        rcases hki with hki | hki <;> rw [hki] <;> rfl
      refine ⟨lab, lab', h, h', hk, fun hj => ?_, fun _ => ?_, fun hs => ?_, fun hrd => ?_⟩
      · rcases hki with hki | hki <;> exact absurd (hki.symm.trans hj) (by decide)
      · obtain ⟨t, i⟩ := e
        obtain rfl : i = 0 := hi
        rcases Nat.eq_zero_or_pos t with rfl | ht
        · obtain ⟨hcr, hcr', -⟩ := hmain h h'
          rw [hcr, hcr']
        · exact hcreate ht h h'
      · obtain rfl := hinit.1 (hki.resolve_right hs)
        exact (hmain h h').2.2
      · rw [hread] at hrd
        cases hrd
    · obtain ⟨-, lab, h, hrl⟩ := hr.back hi h'
      refine ⟨lab, lab', h, h', hrl.kind, fun _ => (hr.label e lab lab' hi h h').1, fun hs => ?_,
        fun _ => (hr.ordering e lab lab' hi h h').1, fun hread => ?_⟩
      · exact absurd (hc.begins e lab h hs) hi.ne'
      · -- a read that is not dangling has kept what it reads from
        have hread' : lab'.isRead = true := by
          rw [EventLabel.isRead, hrl.kind]
          exact hread
        cases hn : lab'.rf with
        | none => exact absurd ⟨lab', h', hread', hn⟩ he.2
        | some v =>
          rw [hrl.rf hread] at hn
          exact (Option.filter_eq_some_iff.1 hn).1.symm
  · have hnd : ∀ {l}, g'.getEventLabel a = some l → l.isRead = false →
        (g'.getEventLabel a).isSome ∧ ¬ Dangling g' a := by
      rintro l h hnr
      refine ⟨isSome_of_eq h, ?_⟩
      rintro ⟨l', h', hread, -⟩
      rw [Option.some.inj (h.symm.trans h'), hread] at hnr
      cases hnr
    cases hab with
    | @po t i _ =>
      obtain ⟨l, hl⟩ := Option.isSome_iff_exists.1
        (getEventLabel_isSome_of_le hb.1 (a := ⟨t, i⟩) rfl (Nat.le_succ i))
      refine ⟨isSome_of_eq hl, ?_⟩
      rintro ⟨l', hl', hread, hrf⟩
      have hnone := hg'.waiting ⟨t, i⟩ l' hl' hread hrf
      have hb' := hb.1
      rw [show (⟨t, i + 1⟩ : Event) = Event.next ⟨t, i⟩ from rfl, hnone] at hb'
      cases hb'
    | tc h hs hcr =>
      obtain ⟨t, i⟩ := b
      obtain rfl : i = 0 := hc.begins _ _ h hs
      rcases Nat.eq_zero_or_pos t with rfl | ht
      · rw [(hc.main _ h).1] at hcr
        cases hcr
      · obtain ⟨l', h'⟩ := Option.isSome_iff_exists.1 hb.1
        obtain ⟨cLab, hcr', hcLab, hk, -⟩ := created_of_threaded hr.threaded ht h'
        have heq := (hcreate ht h h').symm.trans hcr'
        rw [hcr] at heq
        obtain rfl := Option.some.inj heq
        refine hnd hcLab ?_
        rw [EventLabel.isRead, hk]
        rfl
    | tj h hf =>
      have hsome := hjoin _ _ _ hb.1 h hf
      obtain ⟨fLab', hf'⟩ := Option.isSome_iff_exists.1 hsome
      obtain ⟨hfl, -, hfk⟩ := getEventLabel_of_tjPred hg hf
      obtain ⟨l, hl, hk⟩ := hr.kind_back hg hf'
      obtain rfl := Option.some.inj (hfl.symm.trans hl)
      refine hnd hf' ?_
      rw [EventLabel.isRead, hk, hfk]
      rfl
    | lin h ha =>
      rw [hc.linPreds _ _ h] at ha
      cases ha
    | rf h hread hw _ _ =>
      obtain ⟨l', h'⟩ := Option.isSome_iff_exists.1 hb.1
      have hi := hg.readerInv.above b _ h (EventLabel.isMemAccess_of_isRead hread)
      obtain ⟨-, l, hl, hrl⟩ := hr.back hi h'
      obtain rfl := Option.some.inj (h.symm.trans hl)
      have hread' : l'.isRead = true := by
        rw [EventLabel.isRead, hrl.kind]
        exact hread
      have hrf : l'.rf = some a := by
        cases hn : l'.rf with
        | none => exact absurd ⟨l', h', hread', hn⟩ hb.2
        | some v =>
          rw [hrl.rf hread] at hn
          rw [← (Option.filter_eq_some_iff.1 hn).1, hw]
      rcases hg'.source b l' a h' hread' hrf with rfl | ⟨vLab, hv, hvw, -⟩
      · obtain ⟨iLab, hi', hk⟩ := hg'.threaded.main
        refine hnd hi' ?_
        rw [EventLabel.isRead, hk]
        rfl
      · refine hnd hv ?_
        by_contra hr'
        have hnw := EventLabelKind.not_isWrite_of_isRead (Bool.not_eq_false _ ▸ hr')
        rw [EventLabel.isWrite, hnw] at hvw
        cases hvw

/-- **Going back** leaves the views of what is left right, reads without a source apart. -/
theorem ViewInv.restrict (h : ViewInv conf (fun _ => False) g vs) :
    ViewInv conf (Dangling g') g' vs :=
  h.transport hg hg' (hr.causal hg hg' hc hjoin) (hr.sameCauses hg hg' hc hjoin) (fun _ _ => id)
    (fun e he hd => ⟨he, hd⟩) fun w wLab wLab' hw hw' hwrite => by
      have hi := hg.readerInv.above w wLab hw (EventLabel.isMemAccess_of_isWrite hwrite)
      exact (hr.ordering w wLab wLab' hi hw hw').2.1

end Restrict

/-- **Taking out the last label of a thread**, unless others have read, begun or joined it. -/
theorem ViewInv.removeLast {t : ℕ} (h : ViewInv conf (fun _ => False) g vs) (hg : GraphInv g)
    (hlast : g.getLastThreadLabel t = some lab) (hrem : Removable lab)
    (hk : lab.kind ≠ .ThreadFinish) :
    ViewInv conf (Dangling (g.removeLast t)) (g.removeLast t) vs := by
  have hr := restricts_removeLast hg hlast hrem
  refine h.restrict hr hg (hg.removeLast hlast hrem) h.causal fun j jLab fLab _ hj hf => ?_
  obtain ⟨hfl, -, hfk⟩ := getEventLabel_of_tjPred hg hf
  refine hr.restricted.kept _ (index_pos_of_tjPred hg hj hf).2 (decide_eq_true fun heq => hk ?_)
    (isSome_of_eq hfl)
  rw [heq, (getEventLabel_of_last hg hlast).1] at hfl
  rw [Option.some.inj hfl, hfk]

/-! ## Repairing -/

/-- A graph together with the views of its labels. -/
structure GraphViews where
  graph : ExecutionGraph
  views : Event → LabelViews

/-- Makes a read read from a write, and computes its views. -/
def GraphViews.setRf (conf : ViewConfig) (r w : Event) (s : GraphViews) : GraphViews :=
  ⟨s.graph.setRf r (some w), updateLabelViews conf (s.graph.setRf r (some w)) r s.views⟩

/-- Repairs the last label of a thread, if it is a read without a source, and computes its views. -/
def GraphViews.repairThread (conf : ViewConfig) (s : GraphViews) (i : ℕ) : GraphViews :=
  match s.graph.getLastThreadLabel i with
  | none => s
  | some lab =>
    if lab.isRead && lab.rf.isNone then s.setRf conf lab.pos (s.graph.coMax lab.addr) else s

/-- Makes all reads without a source read from the last write, and computes their views. -/
def GraphViews.repairDanglingReads (conf : ViewConfig) (s : GraphViews) : GraphViews :=
  (List.range s.graph.getNumThreads).foldl (GraphViews.repairThread conf) s

theorem graph_repairThread (s : GraphViews) (i : ℕ) :
    (s.repairThread conf i).graph = s.graph.repairThread i := by
  rw [GraphViews.repairThread, ExecutionGraph.repairThread]
  cases s.graph.getLastThreadLabel i with
  | none => rfl
  | some lab =>
    simp only
    split <;> rfl

theorem graph_foldl_repairThread (l : List ℕ) (s : GraphViews) :
    (l.foldl (GraphViews.repairThread conf) s).graph =
      l.foldl ExecutionGraph.repairThread s.graph := by
  induction l generalizing s with
  | nil => rfl
  | cons i l ih => rw [List.foldl_cons, List.foldl_cons, ih, graph_repairThread]

/-- The graph does not depend on the views. -/
theorem graph_repairDanglingReads (s : GraphViews) :
    (s.repairDanglingReads conf).graph = s.graph.repairDanglingReads :=
  graph_foldl_repairThread _ s

theorem lastRead_of_dangling (hg : GraphInv g) (h : Dangling g e) : LastRead g e := by
  obtain ⟨rLab, hr, hread, hrf⟩ := h
  exact ⟨rLab, hr, hread, hg.waiting e rLab hr hread hrf⟩

/-- Repairing a thread. -/
theorem ViewInv.repairThread {s : GraphViews} (h : ViewInv conf (Dangling s.graph) s.graph s.views)
    (hg : GraphInv s.graph) (i : ℕ) : GraphInv (s.repairThread conf i).graph ∧
      ViewInv conf (Dangling (s.repairThread conf i).graph) (s.repairThread conf i).graph
        (s.repairThread conf i).views := by
  rw [GraphViews.repairThread]
  cases hi : s.graph.getLastThreadLabel i with
  | none => exact ⟨hg, h⟩
  | some lab =>
    simp only
    split
    · rename_i hc
      obtain ⟨hread, hrf⟩ := (Bool.and_eq_true _ _).mp hc
      obtain ⟨hlab, -⟩ := getEventLabel_of_last hg hi
      have hnext := hg.waiting _ lab hlab hread (Option.isNone_iff_eq_none.1 hrf)
      have hsrc := hg.source_coMax lab
      refine ⟨hg.setRf hlab hread hsrc hnext, (h.setRf hg hlab hread hsrc hnext fun e he =>
        lastRead_of_dangling hg he).mono fun e _ he => ?_⟩
      -- the other reads without a source have none still
      obtain ⟨⟨rLab, hr, hread', hrf'⟩, hne⟩ := he
      obtain ⟨rs, m, hr'⟩ := to_setRf hg hlab (w := s.graph.coMax lab.addr) hr
      exact ⟨_, hr', hread', (if_neg hne).trans hrf'⟩
    · exact ⟨hg, h⟩

/-- **Repairing makes all views right.** -/
theorem ViewInv.repair {s : GraphViews} (h : ViewInv conf (Dangling s.graph) s.graph s.views)
    (hg : GraphInv s.graph) : ViewInv conf (fun _ => False) (s.repairDanglingReads conf).graph
      (s.repairDanglingReads conf).views := by
  have hfold : ∀ (l : List ℕ) (s : GraphViews), GraphInv s.graph →
      ViewInv conf (Dangling s.graph) s.graph s.views →
        ViewInv conf (Dangling (l.foldl (GraphViews.repairThread conf) s).graph)
          (l.foldl (GraphViews.repairThread conf) s).graph
          (l.foldl (GraphViews.repairThread conf) s).views := by
    intro l
    induction l with
    | nil => exact fun _ _ h => h
    | cons i l ih =>
      intro s hg h
      obtain ⟨hg', h'⟩ := h.repairThread hg i
      exact ih _ hg' h'
  refine (hfold _ s hg h).mono fun e _ he => ?_
  obtain ⟨rLab, hr, hread, hrf⟩ := he
  rw [graph_foldl_repairThread] at hr
  have hsome := (repairs_repairDanglingReads hg).2 e rLab hr hread
  rw [hrf] at hsome
  cases hsome

end SCChecker
end GenMC
