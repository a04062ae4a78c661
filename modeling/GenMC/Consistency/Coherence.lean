import GenMC.Consistency.Exploration
import GenMC.Consistency.Views

/-!
# Candidates for reads, writes and revisits

Before the driver tries anything, the memory model tells it what there is to try: the writes that a
read can read from, the places in coherence that a write can have, and the reads that a write can
revisit.  It reads them off the views of the labels, without looking for cycles.

* **`mem_getCoherentStores_iff`**: a read can read from a write unless a later write, or a read of
  one, comes before the read.  The fast path, for a thread that has written last itself, is no
  exception.
* **`mem_getCoherentStores_of_acyclic`**, `mem_getCoherentPlacings_of_acyclic`: nothing is lost:
  what is left out would make a cycle, or break a read-modify-write apart.
* `not_acyclic_of_filtered`: nor is a revisit lost.

The branches for memory models that track dependencies are left out: this one does not.
-/

set_option autoImplicit false

namespace GenMC

open ListOrder Relation ExecutionGraph

namespace SCChecker

variable {conf : ViewConfig} {g g' : ExecutionGraph} {vs : Event → LabelViews}
  {a b e p r v w x : Event} {lab rLab sLab wLab : EventLabel}
  {sync : EventLabel → EventLabel → Bool}

/-! ## Paths in a graph that has changed -/

/-- Every thread that is joined knows its join. -/
def JoinsKnown (g : ExecutionGraph) : Prop :=
  ∀ j jLab fLab, g.getEventLabel j = some jLab → g.tjPred jLab = some fLab → tjSucc fLab = some j

/-- `g'` has the labels of `g` with `s`, and what they say about each other. -/
structure Retains (s : Event → Prop) (g g' : ExecutionGraph) : Prop where
  isSome : ∀ e, s e → (g.getEventLabel e).isSome → (g'.getEventLabel e).isSome
  label : ∀ e lab lab', 0 < e.index → s e → g.getEventLabel e = some lab →
    g'.getEventLabel e = some lab' → lab'.kind = lab.kind ∧ lab'.childId = lab.childId ∧
      (∀ j, tjSucc lab = some j → s j → tjSucc lab' = some j) ∧
        (lab.isRead = true → ∀ w, lab.rf = some w → s w → lab'.rf = some w)

section Paths

variable (hg : GraphInv g) (hc : Causal g) (hj : JoinsKnown g)
include hg hc

/-- The initializer does not come after anything. -/
theorem ne_init_of_causalEdge (h : CausalEdge sync g a b) : b ≠ Event.getInit := by
  rintro rfl
  have hlt := due_lt_of_causalEdge hg hc h
  rw [show due g Event.getInit = 0 from if_pos rfl] at hlt
  exact Nat.not_lt_zero _ hlt

include hj

theorem orderEdge_of_causalEdge {s : Event → Prop} (hret : Retains s g g')
    (h : CausalEdge sync g a b) (hi : a ≠ Event.getInit) (ha : s a) (hb : s b) :
    OrderEdge g' a b := by
  have hlabel : ∀ {e lab}, g.getEventLabel e = some lab → 0 < e.index → s e → ∃ lab',
      g'.getEventLabel e = some lab' ∧ lab'.kind = lab.kind ∧ lab'.childId = lab.childId ∧
        (∀ j, tjSucc lab = some j → s j → tjSucc lab' = some j) ∧
          (lab.isRead = true → ∀ w, lab.rf = some w → s w → lab'.rf = some w) := by
    intro e lab hlab hpos hs
    obtain ⟨lab', hlab'⟩ := Option.isSome_iff_exists.1 (hret.isSome e hs (isSome_of_eq hlab))
    exact ⟨lab', hlab', hret.label e lab lab' hpos hs hlab hlab'⟩
  cases h with
  | po hb' => exact .po (hret.isSome _ hb hb')
  | tc hb' hs hcr =>
    obtain ⟨t, i⟩ := b
    obtain rfl : i = 0 := hc.begins _ _ hb' hs
    rcases Nat.eq_zero_or_pos t with rfl | ht
    · rw [(hc.main _ hb').1] at hcr
      cases hcr
    · obtain ⟨cLab, hcr', hcLab, hk, hchild, -⟩ := created_of_threaded hg.threaded ht hb'
      obtain rfl := Option.some.inj (hcr.symm.trans hcr')
      have hpos := index_pos_of_kind hg.threaded hcLab (by rw [hk]; decide) (by rw [hk]; decide)
      obtain ⟨cLab', hcLab', hk', hchild', -⟩ := hlabel hcLab hpos ha
      have hedge := OrderEdge.tc (g := g') hcLab' (hk'.trans hk) (by
        rw [hchild', hchild]
        exact hret.isSome _ hb (isSome_of_eq hb'))
      rwa [hchild', hchild] at hedge
  | tj hjLab hf =>
    obtain ⟨-, hlast, hk⟩ := tjPred_eq_some hf
    obtain ⟨hfLab, -⟩ := getEventLabel_of_last hg hlast
    have hpos := index_pos_of_kind hg.threaded hfLab (by rw [hk]; decide) (by rw [hk]; decide)
    obtain ⟨fLab', hfLab', -, -, htj, -⟩ := hlabel hfLab hpos ha
    exact .tj hfLab' (htj _ (hj _ _ _ hjLab hf) hb)
  | lin hb' ha' =>
    rw [hc.linPreds _ _ hb'] at ha'
    cases ha'
  | rf hr hread hw hwLab =>
    have hpos := hg.readerInv.above _ _ hr (EventLabel.isMemAccess_of_isRead hread)
    obtain ⟨rLab', hr', hk, -, -, hrf⟩ := hlabel hr hpos hb
    refine .rf hr' ?_ (hrf hread _ hw ha) hi
    rw [EventLabel.isRead, hk]
    exact hread

/-- What came before an event still does. -/
theorem reflTransGen_of_retains {s : Event → Prop} (hret : Retains s g g')
    (hs : ∀ a, ReflTransGen (CausalEdge sync g) a e → s a) (hx : x ≠ Event.getInit)
    (h : ReflTransGen (CausalEdge sync g) x e) : ReflTransGen (OrderEdge g') x e := by
  induction h using ReflTransGen.head_induction_on with
  | refl => exact .refl
  | @head a b hab hbe ih =>
    exact (ih (ne_init_of_causalEdge hg hc hab)).head
      (orderEdge_of_causalEdge hg hc hj hret hab hx (hs a (hbe.head hab)) (hs b hbe))

end Paths

/-! ## Candidates -/

/-- The reads of a write. -/
def readersAt (g : ExecutionGraph) (w : Event) : List Event :=
  ((g.getEventLabel w).map (·.readers)).getD []

/-- Whether a write, or a read of it, is in the view of a label. -/
def isWriteRfBefore (g : ExecutionGraph) (vs : Event → LabelViews) (lab : EventLabel) (w : Event) :
    Bool :=
  let before := (vs lab.pos).view 1
  before.contains w || (readersAt g w).any (before.contains ·)

/-- How many writes of a location there are up to the last one that is before a label. -/
def splitLocMOBefore (g : ExecutionGraph) (vs : Event → LabelViews) (addr : SAddr)
    (lab : EventLabel) : ℕ :=
  (g.co addr).length - (g.co addr).reverse.findIdx (isWriteRfBefore g vs lab)

/-- The writes that a read can read from. -/
def getCoherentStores (g : ExecutionGraph) (vs : Event → LabelViews) (rLab : EventLabel) :
    List Event :=
  let comax := g.coMax rLab.addr
  -- the last write comes before the read in its own thread
  if comax.thread = rLab.pos.thread ∧ comax.index < rLab.pos.index then [comax]
  else
    let begIt := splitLocMOBefore g vs rLab.addr rLab
    (if begIt = 0 then Event.getInit else (g.co rLab.addr).getD (begIt - 1) Event.getInit) ::
      (g.co rLab.addr).drop begIt

/-- The write before another one in coherence, or the initializer. -/
def coImmPred (g : ExecutionGraph) (addr : SAddr) (w : Event) : Event :=
  if (g.co addr).idxOf w = 0 then Event.getInit
  else (g.co addr).getD ((g.co addr).idxOf w - 1) Event.getInit

/-- Whether the label at a position is the write of a read-modify-write. -/
def isRMWAt (g : ExecutionGraph) (w : Event) : Bool := (g.getEventLabel w).any (·.isRMW)

/-- The writes after which a new write can come.  The source stops if the write of a
read-modify-write has no read, or the read no source. -/
def getCoherentPlacings (g : ExecutionGraph) (vs : Event → LabelViews) (wLab : EventLabel) :
    Option (List Event) :=
  if wLab.isRMW then
    (((g.poImmPred wLab).filter (·.isRead)).bind (·.rf)).map ([·])
  else
    let range := (g.co wLab.addr).drop (splitLocMOBefore g vs wLab.addr wLab)
    some ((range.filter (!isRMWAt g ·)).map (coImmPred g wLab.addr) ++ [g.coMax wLab.addr])

/-- The writes after a write in coherence, and their reads. -/
def getMOOptRfAfter (g : ExecutionGraph) (sLab : EventLabel) : List Event :=
  g.coSuccs sLab ++ (g.coSuccs sLab).flatMap (readersAt g)

/-- The reads that a write can revisit. -/
def filterCoherentRevisits (g : ExecutionGraph) (vs : Event → LabelViews) (sLab : EventLabel)
    (ls : List Event) : List Event :=
  if sLab.pos = g.coMax sLab.addr then ls
  else
    ls.filter fun r =>
      let before := (vs ⟨r.thread, r.index - 1⟩).view 1
      !(getMOOptRfAfter g sLab).any (before.contains ·)

/-! ## What comes before a label -/

/-- A write, or a read of it, comes before an event. -/
def RfBefore (g : ExecutionGraph) (w e : Event) : Prop :=
  ReflTransGen (CausalEdge sync72 g) w e ∨
    ∃ r ∈ readersAt g w, ReflTransGen (CausalEdge sync72 g) r e

theorem mem_readersAt_iff (hw : g.getEventLabel w = some wLab) :
    r ∈ readersAt g w ↔ r ∈ wLab.readers := by
  rw [readersAt, hw]
  rfl

section Views

variable (hg : GraphInv g) (hv : ∀ e, Viewed g e → ExactAt conf g vs e)
include hg hv

theorem isWriteRfBefore_iff {addr : SAddr} (hlab : g.getEventLabel e = some lab)
    (hb : lab.isBlock = false) (hw : w ∈ g.co addr) :
    isWriteRfBefore g vs lab w = true ↔ RfBefore g w e := by
  obtain ⟨wLab, hwLab, hwrite, -⟩ := hg.co addr w hw
  have hview : ∀ x, 0 < x.index → (((vs lab.pos).view 1).contains x = true ↔
      ReflTransGen (CausalEdge sync72 g) x e) := by
    intro x hx
    rw [hg.threaded.slots e lab hlab]
    exact (hv _ (viewed_iff.2 ⟨lab, hlab, hb⟩)).atomic x hx
  have hwi := hg.readerInv.above w wLab hwLab (EventLabel.isMemAccess_of_isWrite hwrite)
  rw [isWriteRfBefore, Bool.or_eq_true, List.any_eq_true, hview w hwi, RfBefore]
  refine or_congr_right (exists_congr fun r => and_congr_right fun hr => ?_)
  obtain ⟨rLab, hrLab, hread, -⟩ := (hg.readerInv.readers w wLab hwLab hwrite).2 r
    ((mem_readersAt_iff hwLab).1 hr)
  exact hview r (hg.readerInv.above r rLab hrLab (EventLabel.isMemAccess_of_isRead hread))

/-- The split is right after the last write that comes before the label, or a read of which does. -/
theorem splitLocMOBefore_cases (addr : SAddr) (hlab : g.getEventLabel e = some lab)
    (hb : lab.isBlock = false) :
    (splitLocMOBefore g vs addr lab = 0 ∧ ∀ w ∈ g.co addr, ¬ RfBefore g w e) ∨
      ∃ l₁ w l₂, g.co addr = l₁ ++ w :: l₂ ∧ RfBefore g w e ∧ (∀ v ∈ l₂, ¬ RfBefore g v e) ∧
        splitLocMOBefore g vs addr lab = l₁.length + 1 := by
  have hiff : ∀ w ∈ g.co addr, (isWriteRfBefore g vs lab w = true ↔ RfBefore g w e) :=
    fun w hw => isWriteRfBefore_iff hg hv hlab hb hw
  rcases findIdx_reverse_cases (isWriteRfBefore g vs lab) (g.co addr) with
    ⟨h0, hall⟩ | ⟨l₁, w, l₂, heq, hw, hrest, hlen⟩
  · refine .inl ⟨h0, fun w hw h => ?_⟩
    rw [← hiff w hw, hall w hw] at h
    cases h
  · refine .inr ⟨l₁, w, l₂, heq, ?_, fun v hv' h => ?_, hlen⟩
    · exact (hiff w (by rw [heq]; simp)).1 hw
    · rw [← hiff v (by rw [heq]; simp [hv']), hrest v hv'] at h
      cases h

/-! ## Reads -/

variable (hr : g.getEventLabel r = some rLab) (hread : rLab.isRead = true)
include hr hread

/-- The candidates for a read: everything, or the last write that comes before the read, or that a
read before it reads from, and the writes after this one.  The fast path finds the same. -/
theorem getCoherentStores_cases :
    (getCoherentStores g vs rLab = Event.getInit :: g.co rLab.addr ∧
      ∀ w ∈ g.co rLab.addr, ¬ RfBefore g w r) ∨
    ∃ l₁ w l₂, g.co rLab.addr = l₁ ++ w :: l₂ ∧ RfBefore g w r ∧ (∀ v ∈ l₂, ¬ RfBefore g v r) ∧
      getCoherentStores g vs rLab = w :: l₂ := by
  have hb := not_isBlock_of_isMemAccess (EventLabel.isMemAccess_of_isRead hread)
  have hsplit := splitLocMOBefore_cases hg hv rLab.addr hr hb
  rw [getCoherentStores]
  by_cases hfast : (g.coMax rLab.addr).thread = rLab.pos.thread ∧
      (g.coMax rLab.addr).index < rLab.pos.index
  · rw [if_pos hfast]
    rw [hg.threaded.slots r rLab hr] at hfast
    -- the last write comes before the read
    have hbefore : RfBefore g (g.coMax rLab.addr) r :=
      .inl (reflTransGen_po (isSome_of_eq hr) ⟨hfast.1, hfast.2.le⟩)
    rcases hsplit with ⟨-, hall⟩ | ⟨l₁, w, l₂, heq, hw, hrest, -⟩
    · refine .inl ⟨?_, hall⟩
      have hnil : g.co rLab.addr = [] := by
        by_contra hne
        refine hall _ ?_ hbefore
        rw [coMax, List.getLastD_eq_getLast?, List.getLast?_eq_some_getLast hne]
        exact List.getLast_mem hne
      rw [coMax, hnil]
      rfl
    · refine .inr ⟨l₁, w, l₂, heq, hw, hrest, ?_⟩
      rw [coMax, heq] at hbefore ⊢
      rcases List.eq_nil_or_concat l₂ with rfl | ⟨l, v, rfl⟩
      · rw [List.getLastD_concat]
      · rw [List.concat_eq_append, ← List.cons_append, ← List.append_assoc,
          List.getLastD_concat] at hbefore
        exact absurd hbefore (hrest v (by simp))
  · rw [if_neg hfast]
    rcases hsplit with ⟨h0, hall⟩ | ⟨l₁, w, l₂, heq, hw, hrest, hlen⟩
    · refine .inl ⟨?_, hall⟩
      rw [h0]
      rfl
    · refine .inr ⟨l₁, w, l₂, heq, hw, hrest, ?_⟩
      rw [hlen, heq]
      simp

/-- **What a read can read from**: the initializer or a write, unless a later write comes before the
read, or a read of a later write does. -/
theorem mem_getCoherentStores_iff : w ∈ getCoherentStores g vs rLab ↔
    (w = Event.getInit ∨ w ∈ g.co rLab.addr) ∧
      ∀ v ∈ g.co rLab.addr, w = Event.getInit ∨ Before (g.co rLab.addr) w v → ¬ RfBefore g v r := by
  rcases getCoherentStores_cases hg hv hr hread with ⟨heq, hall⟩ | ⟨l₁, u, l₂, hco, hu, hrest, heq⟩
  · rw [heq, List.mem_cons]
    exact ⟨fun hw => ⟨hw, fun v hv' _ => hall v hv'⟩, And.left⟩
  · have hnodup := hg.coNodup rLab.addr
    have hi : ∀ v ∈ g.co rLab.addr, v ≠ Event.getInit := fun v => hg.ne_init_of_mem_co
    rw [hco] at hnodup hi
    rw [heq, hco]
    refine ⟨fun hw => ⟨.inr (List.mem_append_right _ hw), fun v hv' hafter => hrest v ?_⟩, ?_⟩
    · -- what comes after one of the last writes is one of them
      have hb := hafter.resolve_left (hi w (List.mem_append_right _ hw))
      have hdisj := List.disjoint_of_nodup_append hnodup
      rcases List.mem_append.1 hv' with hv₁ | hv₂
      · exact absurd hw (hdisj (hb.mem_pre hnodup (List.prefix_append _ _) hv₁))
      · rcases List.mem_cons.1 hv₂ with rfl | hv₂
        · exact absurd hw (hdisj ((before_append_cons_iff hnodup).1 hb))
        · exact hv₂
    · rintro ⟨hw, hafter⟩
      by_contra hout
      refine hafter u (by simp) ?_ hu
      refine hw.imp_right fun hw => ?_
      rcases List.mem_append.1 hw with hw | hw
      · exact ⟨l₁, l₂, rfl, hw⟩
      · exact absurd hw hout

end Views

/-- The later writes. -/
theorem before_of_mem_coSuccs (h : w ∈ g.coSuccs lab) : Before (g.co lab.addr) lab.pos w := by
  have hwrite := isWrite_of_mem_coSuccs h
  rw [coSuccs, if_pos hwrite] at h
  by_cases hp : lab.pos ∈ g.co lab.addr
  · obtain ⟨l₁, l₂, heq, hnot⟩ := List.eq_append_cons_of_mem hp
    rw [heq, List.idxOf_append_of_notMem hnot, List.idxOf_cons_self, Nat.add_zero] at h
    have hdrop : (l₁ ++ lab.pos :: l₂).drop (l₁.length + 1) = l₂ := by simp
    rw [hdrop] at h
    obtain ⟨k₁, k₂, rfl⟩ := List.append_of_mem h
    rw [heq]
    exact ⟨l₁ ++ lab.pos :: k₁, k₂, by simp, by simp⟩
  · rw [List.idxOf_of_notMem hp, List.drop_eq_nil_of_le (Nat.le_succ _)] at h
    exact absurd h List.not_mem_nil

section Lossless

variable (hg : GraphInv g) (hc : Causal g) (hj : JoinsKnown g)
  (hv : ∀ e, Viewed g e → ExactAt conf g vs e)
include hg hc hj

/-- A write comes before everything that a read of it comes before. -/
theorem RfBefore.reflTransGen {s : Event → Prop} (h : RfBefore g v e) (hret : Retains s g g')
    (hv : g.getEventLabel v = some lab) (hwrite : lab.isWrite = true) (hsv : s v)
    (hs : ∀ a, ReflTransGen (CausalEdge sync72 g) a e → s a) :
    ReflTransGen (OrderEdge g') v e := by
  have hvi := hg.ne_init_of_isWrite hv hwrite
  rcases h with h | ⟨r, hr, h⟩
  · exact reflTransGen_of_retains hg hc hj hret hs hvi h
  · obtain ⟨rLab, hrLab, hread, hrf⟩ := (hg.readerInv.readers v lab hv hwrite).2 r
      ((mem_readersAt_iff hv).1 hr)
    have hm := EventLabel.isMemAccess_of_isRead hread
    obtain ⟨rLab', hrLab'⟩ := Option.isSome_iff_exists.1
      (hret.isSome r (hs r h) (isSome_of_eq hrLab))
    obtain ⟨hk, -, -, hrf'⟩ := hret.label r rLab rLab' (hg.readerInv.above r rLab hrLab hm) (hs r h)
      hrLab hrLab'
    refine (reflTransGen_of_retains hg hc hj hret hs (hg.readerInv.ne_init hrLab hm) h).head
      (.rf hrLab' ?_ (hrf' hread v hrf hsv) hvi)
    rw [EventLabel.isRead, hk]
    exact hread

include hv

/-- **No source of a new read is lost**: reading from what is no candidate would make a cycle. -/
theorem mem_getCoherentStores_of_acyclic (hr : g.getEventLabel r = some rLab)
    (hread : rLab.isRead = true) (hnone : rLab.rf = none)
    (hplaced : ∀ w wLab, g.getEventLabel w = some wLab → wLab.isWrite = true → w ∈ g.co wLab.addr)
    (hw : Source g rLab w) (hac : Acyclic (OrderEdge (g.setRf r (some w)))) :
    w ∈ getCoherentStores g vs rLab := by
  by_contra hout
  rw [mem_getCoherentStores_iff hg hv hr hread, not_and_or] at hout
  have hmem : w = Event.getInit ∨ w ∈ g.co rLab.addr := by
    refine hw.imp_right ?_
    rintro ⟨wLab, hwLab, hwrite, haddr⟩
    rw [← haddr]
    exact hplaced w wLab hwLab hwrite
  have hout := hout.resolve_left (not_not.2 hmem)
  simp only [not_forall, not_not] at hout
  obtain ⟨v, hvco, hafter, hbefore⟩ := hout
  obtain ⟨vLab, hvLab, hvwrite, -⟩ := hg.co _ v hvco
  have hret : Retains (fun _ => True) g (g.setRf r (some w)) := by
    refine ⟨fun e _ he => by rwa [isSome_setRf hr], fun e lab lab' _ _ hlab hlab' => ?_⟩
    obtain ⟨l, rs, m, hl, rfl⟩ := of_setRf hg hr hlab'
    obtain rfl := Option.some.inj (hlab.symm.trans hl)
    refine ⟨rfl, rfl, fun j h _ => h, fun _ u hu _ => ?_⟩
    show (if e = r then some w else lab.rf) = some u
    rw [if_neg, hu]
    rintro rfl
    obtain rfl := Option.some.inj (hlab.symm.trans hr)
    rw [hnone] at hu
    cases hu
  have hpath := hbefore.reflTransGen hg hc hj hret hvLab hvwrite trivial fun _ _ => trivial
  obtain ⟨rs, m, hr'⟩ := to_setRf hg hr hr (w := w)
  rw [if_pos rfl] at hr'
  -- the read comes before the later write
  have hfr : OrderEdge (g.setRf r (some w)) r v := by
    refine .fr hr' hread rfl ?_ ?_
    · rw [co_setRf]
      exact hvco
    · rw [co_setRf]
      exact hafter
  exact hac r (TransGen.head' hfr hpath)

/-- **A read that is filtered out cannot be revisited**: if it read from the write, in any graph
that still has what comes before the read, there would be a cycle. -/
theorem not_acyclic_of_filtered {s : Event → Prop} {ls : List Event} {lab' : EventLabel} {t i : ℕ}
    (hr : (g.getEventLabel ⟨t, i + 1⟩).isSome) (hmem : ⟨t, i + 1⟩ ∈ ls)
    (hout : ⟨t, i + 1⟩ ∉ filterCoherentRevisits g vs sLab ls) (hret : Retains s g g')
    (hs : ∀ a, ReflTransGen (CausalEdge sync71 g) a ⟨t, i⟩ → s a)
    (hr' : g'.getEventLabel ⟨t, i + 1⟩ = some lab') (hread : lab'.isRead = true)
    (hrf : lab'.rf = some sLab.pos) (haddr : lab'.addr = sLab.addr)
    (hco : ∀ u, s u → Before (g.co sLab.addr) sLab.pos u →
      Before (g'.co sLab.addr) sLab.pos u) : ¬ Acyclic (OrderEdge g') := by
  have hall : ∀ {a}, ReflTransGen (CausalEdge sync72 g) a ⟨t, i⟩ →
      ReflTransGen (CausalEdge sync71 g) a ⟨t, i⟩ := fun ha => ha.lift id fun _ _ => CausalEdge.all
  have hs' : ∀ a, ReflTransGen (CausalEdge sync72 g) a ⟨t, i⟩ → s a := fun a ha => hs a (hall ha)
  rw [filterCoherentRevisits] at hout
  split_ifs at hout with hmax
  · exact absurd hmem hout
  have hany : (getMOOptRfAfter g sLab).any (((vs ⟨t, i⟩).view 1).contains ·) = true := by
    by_contra hno
    refine hout (List.mem_filter.2 ⟨hmem, ?_⟩)
    rw [Bool.not_eq_true] at hno
    show (!(getMOOptRfAfter g sLab).any (((vs ⟨t, i⟩).view 1).contains ·)) = true
    rw [hno]
    rfl
  obtain ⟨x, hx, hin⟩ := List.any_eq_true.1 hany
  -- the label before the read is no block
  have hviewed : Viewed g ⟨t, i⟩ := by
    obtain ⟨pLab, hp⟩ := Option.isSome_iff_exists.1
      (getEventLabel_isSome_of_le hr (a := ⟨t, i⟩) rfl (Nat.le_succ i))
    refine viewed_iff.2 ⟨pLab, hp, ?_⟩
    by_contra hb
    have hnone := hc.ended _ pLab hp (isTerminator_of_isBlock (Bool.not_eq_false _ ▸ hb))
    rw [show (⟨t, i⟩ : Event).next = ⟨t, i + 1⟩ from rfl] at hnone
    rw [hnone] at hr
    cases hr
  have hview : ∀ {x}, 0 < x.index → ((vs ⟨t, i⟩).view 1).contains x = true →
      ReflTransGen (CausalEdge sync72 g) x ⟨t, i⟩ := fun hx => ((hv _ hviewed).atomic _ hx).1
  -- a later write, or a read of it, comes before the read
  obtain ⟨u, huv, hbefore, hsu⟩ : ∃ u, u ∈ g.coSuccs sLab ∧ RfBefore g u ⟨t, i⟩ ∧ s u := by
    have hwrite : ∀ {u}, u ∈ g.coSuccs sLab → ∃ uLab, g.getEventLabel u = some uLab ∧
        uLab.isWrite = true := fun hu => by
      obtain ⟨uLab, hu', huw, -⟩ := hg.co _ _ (mem_co_of_mem_coSuccs hu)
      exact ⟨uLab, hu', huw⟩
    rcases List.mem_append.1 hx with hx | hx
    · obtain ⟨uLab, hu, huw⟩ := hwrite hx
      have hux := hview (hg.readerInv.above x uLab hu (EventLabel.isMemAccess_of_isWrite huw)) hin
      exact ⟨x, hx, .inl hux, hs' x hux⟩
    · obtain ⟨u, hu, hxu⟩ := List.mem_flatMap.1 hx
      obtain ⟨uLab, hu', huw⟩ := hwrite hu
      obtain ⟨xLab, hx', hxr, hxrf⟩ := (hg.readerInv.readers u uLab hu' huw).2 x
        ((mem_readersAt_iff hu').1 hxu)
      have hxp := hview (hg.readerInv.above x xLab hx' (EventLabel.isMemAccess_of_isRead hxr)) hin
      refine ⟨u, hu, .inr ⟨x, hxu, hxp⟩, hs u ?_⟩
      exact (hall hxp).head (.rf hx' hxr hxrf hu' rfl)
  obtain ⟨uLab, hu, huw, -⟩ := hg.co _ u (mem_co_of_mem_coSuccs huv)
  have hlater := hco u hsu (before_of_mem_coSuccs huv)
  have hpath := hbefore.reflTransGen hg hc hj hret hu huw hsu hs'
  have hfr : OrderEdge g' ⟨t, i + 1⟩ u := by
    refine .fr hr' hread hrf ?_ (.inr ?_)
    · rw [haddr]
      obtain ⟨l₁, l₂, heq, -⟩ := hlater
      rw [heq]
      exact List.mem_append_right _ List.mem_cons_self
    · rw [haddr]
      exact hlater
  exact fun hac => hac _ (TransGen.head' hfr (hpath.tail (.po (isSome_of_eq hr'))))

end Lossless

/-! ## Writes -/

/-- A new write has no place in coherence yet, and no reads. -/
structure Unplaced (g : ExecutionGraph) (w : Event) (wLab : EventLabel) : Prop where
  label : g.getEventLabel w = some wLab
  write : wLab.isWrite = true
  new : w ∉ g.co wLab.addr
  readers : wLab.readers = []

/-- Placing a write takes nothing away. -/
theorem retains_addCo (p w : Event) (y : SAddr) : Retains (fun _ => True) g (g.addCo w p y) := by
  refine ⟨fun e _ he => he, fun e lab lab' _ _ hlab hlab' => ?_⟩
  obtain rfl := Option.some.inj (hlab.symm.trans hlab')
  exact ⟨rfl, rfl, fun _ h _ => h, fun _ _ h _ => h⟩

/-- The write of a read-modify-write comes right after the write that its read reads from. -/
def Atomic (g : ExecutionGraph) : Prop :=
  ∀ s sLab, g.getEventLabel s = some sLab → sLab.isWrite = true → sLab.isRMW = true →
    ∃ rLab, g.poImmPred sLab = some rLab ∧ rLab.isRead = true ∧
      rLab.rf = some (coImmPred g sLab.addr s)

section Placings

variable {addr : SAddr} {l₁ l₂ : List Event}

/-- What comes before a write at a known place. -/
theorem coImmPred_eq (hco : g.co addr = l₁ ++ w :: l₂) (hw : w ∉ l₁) :
    coImmPred g addr w = l₁.getLastD Event.getInit := by
  rw [coImmPred, hco, List.idxOf_append_of_notMem hw, List.idxOf_cons_self, Nat.add_zero,
    List.getLastD_eq_getLast?, List.getLast?_eq_getElem?]
  split_ifs with h0
  · rw [List.length_eq_zero_iff.1 h0]
    rfl
  · rw [List.getD_eq_getElem?_getD, List.getElem?_append_left (by omega)]

variable (hg : GraphInv g) (hc : Causal g) (hj : JoinsKnown g)
  (hv : ∀ e, Viewed g e → ExactAt conf g vs e)
  (hw : Unplaced g w wLab) (hac : Acyclic (OrderEdge (g.addCo w p wLab.addr)))
include hg hc hj hv hw hac

/-- The writes after the place of a new write come after everything that is before it. -/
theorem mem_drop_splitLocMOBefore (hco : g.co wLab.addr = l₁ ++ v :: l₂)
    (hco' : (g.addCo w p wLab.addr).co wLab.addr = l₁ ++ w :: v :: l₂) :
    v ∈ (g.co wLab.addr).drop (splitLocMOBefore g vs wLab.addr wLab) := by
  have hb := not_isBlock_of_isMemAccess (EventLabel.isMemAccess_of_isWrite hw.write)
  rcases splitLocMOBefore_cases hg hv wLab.addr hw.label hb with
    ⟨h0, -⟩ | ⟨k₁, u, k₂, heq, hu, -, hlen⟩
  · rw [h0, List.drop_zero, hco]
    simp
  · rw [hlen, heq]
    have hdrop : (k₁ ++ u :: k₂).drop (k₁.length + 1) = k₂ := by simp
    rw [hdrop]
    by_contra hout
    -- otherwise the write comes before something that comes before it
    have hnodup := hg.coNodup wLab.addr
    have huv : u ∈ v :: l₂ := by
      have hmem : u ∈ l₁ ++ v :: l₂ := by
        rw [← hco, heq]
        simp
      refine (List.mem_append.1 hmem).resolve_left fun hu₁ => ?_
      have hbefore : Before (g.co wLab.addr) u v := by
        rw [hco]
        exact ⟨l₁, l₂, rfl, hu₁⟩
      have hv₂ : v ∈ k₁ ++ u :: k₂ := by
        rw [← heq, hco]
        simp
      rcases List.mem_append.1 hv₂ with hv₁ | hv₂
      · refine not_before_symm hnodup hbefore ?_
        rw [heq]
        exact ⟨k₁, k₂, rfl, hv₁⟩
      · rcases List.mem_cons.1 hv₂ with rfl | hv₂
        · exact hbefore.ne hnodup rfl
        · exact hout hv₂
    have hedge : OrderEdge (g.addCo w p wLab.addr) w u := by
      refine .co (x := wLab.addr) ?_
      rw [hco']
      obtain ⟨m₁, m₂, hm⟩ := List.append_of_mem huv
      rw [hm]
      exact ⟨l₁ ++ w :: m₁, m₂, by simp, by simp⟩
    obtain ⟨uLab, hu', huw, -⟩ := hg.co wLab.addr u (by rw [heq]; simp)
    exact hac w (TransGen.head' hedge
      (hu.reflTransGen hg hc hj (retains_addCo p w _) hu' huw trivial
      fun _ _ => trivial))

/-- **No place of a new write is lost**: what is no candidate would make a cycle, or come between
the two halves of a read-modify-write. -/
theorem mem_getCoherentPlacings_of_acyclic (hp : p = Event.getInit ∨ p ∈ g.co wLab.addr)
    (hat : Atomic (g.addCo w p wLab.addr)) :
    ∃ cos, getCoherentPlacings g vs wLab = some cos ∧ p ∈ cos := by
  obtain ⟨l₁, l₂, hsplit, heq, hpred⟩ := insertAfter_split p w (g.co wLab.addr)
  have hco' : (g.addCo w p wLab.addr).co wLab.addr = l₁ ++ w :: l₂ := by
    rw [co_addCo, if_pos rfl, heq]
  have hlast : l₁.getLastD Event.getInit = p := by
    rcases hpred with ⟨hnp, rfl⟩ | ⟨l₀, rfl⟩
    · exact (hp.resolve_right hnp).symm
    · exact List.getLastD_concat ..
  have hnodup := hg.coNodup wLab.addr
  have hwl : w ∉ l₁ := fun h => hw.new (by rw [hsplit]; exact List.mem_append_left _ h)
  rw [getCoherentPlacings]
  by_cases hrmw : wLab.isRMW = true
  · obtain ⟨rLab, hr, hread, hrf⟩ := hat w wLab hw.label hw.write hrmw
    have hr' : g.poImmPred wLab = some rLab := hr
    rw [coImmPred_eq hco' hwl, hlast] at hrf
    refine ⟨[p], ?_, List.mem_singleton.2 rfl⟩
    rw [if_pos hrmw, hr', Option.filter_some, if_pos hread, Option.bind_some, hrf]
    rfl
  · refine ⟨_, if_neg hrmw, List.mem_append.2 ?_⟩
    cases l₂ with
    | nil =>
      refine .inr (List.mem_singleton.2 ?_)
      rw [coMax, hsplit, List.append_nil, hlast]
    | cons v l₂ =>
      have hvl : v ∉ l₁ := by
        rw [hsplit] at hnodup
        exact fun h => List.disjoint_of_nodup_append hnodup h List.mem_cons_self
      refine .inl (List.mem_map.2 ⟨v, List.mem_filter.2 ⟨?_, ?_⟩, ?_⟩)
      · exact mem_drop_splitLocMOBefore hg hc hj hv hw hac hsplit hco'
      · -- the next write would have to read from the new one
        obtain ⟨vLab, hvLab, hvw, hva⟩ := hg.co wLab.addr v (by rw [hsplit]; simp)
        rw [isRMWAt, hvLab, Option.any_some, Bool.not_eq_true', ← Bool.not_eq_true]
        intro hvrmw
        obtain ⟨rLab, hr, hread, hrf⟩ := hat v vLab hvLab hvw hvrmw
        have hco₂ : (g.addCo w p wLab.addr).co wLab.addr = (l₁ ++ [w]) ++ v :: l₂ := by
          rw [hco']
          simp
        have hvl' : v ∉ l₁ ++ [w] := by
          rw [List.mem_append, List.mem_singleton]
          rintro (h | rfl)
          · exact hvl h
          · exact hw.new (by rw [hsplit]; simp)
        rw [hva, coImmPred_eq hco₂ hvl', List.getLastD_concat] at hrf
        obtain ⟨i, -, hrLab, -⟩ := (poImmPred_eq_some hg.threaded.slots hvLab).1 hr
        rcases hg.readerInv.rf _ rLab w hrLab hread hrf with ⟨hi, -⟩ | ⟨wLab', hw', -, hmem⟩
        · exact hg.ne_init_of_isWrite hw.label hw.write hi
        · obtain rfl := Option.some.inj (hw.label.symm.trans hw')
          rw [hw.readers] at hmem
          exact absurd hmem List.not_mem_nil
      · rw [coImmPred_eq hsplit hvl, hlast]

end Placings

end SCChecker
end GenMC
