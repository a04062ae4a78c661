import GenMC.Consistency.Revisiting

/-!
# The worklist of an execution

What is left to do for a graph is a stack of revisits.  Each of them goes back to where its newest
label was added, so the labels that it needs are still there when it is its turn, and what was done
to the graph since then does not matter.

* `Keeps` says which labels an operation leaves alone, `Keeps.wellFormed` that a revisit of these
  stays possible.
* `Revisit.CyclesLeft` says where the graph may have cycles that a revisit will do away with, and
  `Worklist` is the invariant of a stack of revisits.
* `Worklist.of_acyclic`, `Worklist.of_cyclesAt` and `Worklist.goesBack` are its results: it holds
  after an operation without cycles, after a revisit of any outcome, and after going back.
-/

set_option autoImplicit false

namespace GenMC

open ListOrder Relation ExecutionGraph

/-- The revisits of reads, writes and optional blocks in the order of the program, and those of a
read by a newer write. -/
inductive Revisit
  | read (pos rev : Event)
  | write (pos pred : Event)
  | optional (pos : Event)
  | backward (pos rev : Event)
deriving DecidableEq, Repr

/-- The label that is revisited. -/
def Revisit.pos : Revisit → Event
  | .read pos _ => pos
  | .write pos _ => pos
  | .optional pos => pos
  | .backward pos _ => pos

/-- The label to which the graph goes back. -/
def Revisit.newest : Revisit → Event
  | .read pos _ => pos
  | .write pos _ => pos
  | .optional pos => pos
  | .backward _ rev => rev

namespace SCChecker

variable {g g' g'' : ExecutionGraph} {a b e r w x z : Event} {lab lab' : EventLabel}
  {p q s s' : Event → Prop} {env : Environment} {i : Revisit} {l : List Revisit}

/-! ## Labels that are left alone -/

/-- `g'` has the labels of `g` with `s`, in the same order. -/
structure Keeps (s : Event → Prop) (g g' : ExecutionGraph) : Prop where
  label : ∀ e lab, s e → g.getEventLabel e = some lab →
    ∃ lab', g'.getEventLabel e = some lab' ∧ lab'.kind = lab.kind ∧ lab'.addr = lab.addr
  before : ∀ a b, s a → s b → Before g.insertionOrder a b → Before g'.insertionOrder a b

/-- A label that revisits may be about. -/
def Chosen (g : ExecutionGraph) (e : Event) : Prop :=
  ∃ lab, g.getEventLabel e = some lab ∧ (lab.isMemAccess = true ∨ lab.kind = .Optional)

theorem chosen_of_isRead (h : g.getEventLabel e = some lab) (hread : lab.isRead = true) :
    Chosen g e := ⟨lab, h, .inl (EventLabel.isMemAccess_of_isRead hread)⟩

theorem chosen_of_isWrite (h : g.getEventLabel e = some lab) (hw : lab.isWrite = true) :
    Chosen g e := ⟨lab, h, .inl (EventLabel.isMemAccess_of_isWrite hw)⟩

theorem GraphInv.index_of_chosen (hg : GraphInv g) (h : Chosen g e) : 0 < e.index := by
  obtain ⟨lab, hlab, hm | hk⟩ := h
  · exact hg.readerInv.above e lab hlab hm
  · refine index_pos_of_kind hg.threaded hlab ?_ ?_
    · rw [hk]
      decide
    · rw [hk]
      decide

/-- Revisits are about no other labels. -/
theorem Chosen.ne (h : Chosen g e) (hlab : g.getEventLabel x = some lab)
    (hm : lab.isMemAccess = false) (hk : lab.kind ≠ .Optional) : e ≠ x := by
  rintro rfl
  obtain ⟨lab', hlab', hkind⟩ := h
  obtain rfl := Option.some.inj (hlab.symm.trans hlab')
  rcases hkind with hm' | hk'
  · rw [hm] at hm'
    cases hm'
  · exact hk hk'

namespace Keeps

theorem mono (h : Keeps s g g') (hs : ∀ e, s' e → s e) : Keeps s' g g' :=
  ⟨fun e lab he => h.label e lab (hs e he), fun a b ha hb => h.before a b (hs a ha) (hs b hb)⟩

theorem chosen (h : Keeps s g g') (hs : s e) (he : Chosen g e) : Chosen g' e := by
  obtain ⟨lab, hlab, hkind⟩ := he
  obtain ⟨lab', hlab', hk, -⟩ := h.label e lab hs hlab
  refine ⟨lab', hlab', hkind.imp (fun hm => ?_) hk.trans⟩
  rw [EventLabel.isMemAccess, hk]
  exact hm

theorem trans (h : Keeps s g g') (h' : Keeps s' g' g'') (hs : ∀ e, s e → s' e) :
    Keeps s g g'' := by
  refine ⟨fun e lab he hlab => ?_, fun a b ha hb hab =>
    h'.before a b (hs a ha) (hs b hb) (h.before a b ha hb hab)⟩
  obtain ⟨lab', hlab', hk, haddr⟩ := h.label e lab he hlab
  obtain ⟨lab'', hlab'', hk', haddr'⟩ := h'.label e lab' (hs e he) hlab'
  exact ⟨lab'', hlab'', hk'.trans hk, haddr'.trans haddr⟩

theorem trans_chosen (h : Keeps (Chosen g) g g') (h' : Keeps (Chosen g') g' g'') :
    Keeps (Chosen g) g g'' :=
  h.trans h' fun _ he => h.chosen he he

/-- Operations that leave the order of insertion alone. -/
theorem of_eq (hio : g'.insertionOrder = g.insertionOrder)
    (h : ∀ e lab, g.getEventLabel e = some lab →
      ∃ lab', g'.getEventLabel e = some lab' ∧ lab'.kind = lab.kind ∧ lab'.addr = lab.addr) :
    Keeps s g g' :=
  ⟨fun e lab _ => h e lab, fun a b _ _ hab => by rw [hio]; exact hab⟩

/-- Operations that remove labels. -/
theorem of_sublist (hg : g.Threaded) (hg' : g'.Threaded)
    (hio : g'.insertionOrder.Sublist g.insertionOrder)
    (h : ∀ e lab, s e → g.getEventLabel e = some lab →
      ∃ lab', g'.getEventLabel e = some lab' ∧ lab'.kind = lab.kind ∧ lab'.addr = lab.addr) :
    Keeps s g g' := by
  have hin : ∀ {e}, s e → e ∈ g.insertionOrder → e ∈ g'.insertionOrder := by
    intro e he hmem
    obtain ⟨lab, hlab⟩ := Option.isSome_iff_exists.1 ((hg.inserted e).1 hmem)
    obtain ⟨lab', hlab', -⟩ := h e lab he hlab
    exact (hg'.inserted e).2 (isSome_of_eq hlab')
  exact ⟨h, fun a b ha hb hab =>
    before_of_sublist hg.order hio (hin ha hab.mem_left) (hin hb hab.mem_right) hab⟩

end Keeps

theorem Extends.keeps (hx : Extends lab g g') : Keeps s g g' := by
  refine ⟨fun e l _ hl => ⟨l, hx.old hl, rfl, rfl⟩, fun a b _ _ hab => ?_⟩
  rw [hx.insertionOrder]
  exact hab.append _

theorem Relabels.keeps (hr : Relabels g g') : Keeps s g g' :=
  .of_eq hr.insertionOrder fun e l hl => by
    obtain ⟨l', hl', hsame⟩ := hr.forth hl
    exact ⟨l', hl', hsame.kind, hsame.addr⟩

theorem Places.keeps (hp : Places w g g') : Keeps s g g' :=
  .of_eq hp.insertionOrder fun e l hl => by
    obtain ⟨m, hl'⟩ := hp.forth hl
    exact ⟨_, hl', rfl, rfl⟩

theorem keeps_setRf (hg : GraphInv g) (hr : g.getEventLabel r = some lab) :
    Keeps s g (g.setRf r (some w)) :=
  .of_eq (insertionOrder_setRf r _) fun e l hl => by
    obtain ⟨rs, m, hl'⟩ := to_setRf hg hr (w := w) hl
    exact ⟨_, hl', rfl, rfl⟩

/-- A removal leaves the other labels alone. -/
theorem keeps_removeLast {t : ℕ} (hg : GraphInv g) (hlast : g.getLastThreadLabel t = some lab)
    (hrem : Removable lab) : Keeps (· ≠ lab.pos) g (g.removeLast t) := by
  refine .of_sublist hg.threaded (hg.removeLast hlast hrem).threaded
    (restricts_removeLast hg hlast hrem).insertionOrder fun e l hne hl => ?_
  refine ⟨g.unlinked lab l, ?_, rfl, rfl⟩
  rw [getEventLabel_removeLast_of_ne hg hlast hne, hl, Option.map_some]

/-- A block is not what revisits are about. -/
theorem Chosen.ne_block (h : Chosen g e) (hlab : g.getEventLabel x = some lab)
    (hb : lab.isBlock = true) : e ≠ x :=
  h.ne hlab (FreshBlock.not_isMemAccess_of_isBlock hb) (FreshBlock.kind_ne_of_isBlock hb rfl)

theorem RevisitedInPlace.keeps (hg : GraphInv g) (hr : RevisitedInPlace w r g g') :
    Keeps (Chosen g) g g' := by
  refine .of_sublist hg.threaded hr.graphInv.threaded hr.insertionOrder fun e l he hl => ?_
  have hb : l.isBlock = false := by
    obtain ⟨l', hl', hm | hk⟩ := he
    · obtain rfl := Option.some.inj (hl.symm.trans hl')
      exact not_isBlock_of_isMemAccess hm
    · obtain rfl := Option.some.inj (hl.symm.trans hl')
      rw [EventLabel.isBlock, hk]
      decide
  obtain ⟨l', hl', hk, haddr, -⟩ := hr.forth e l hl hb
  exact ⟨l', hl', hk, haddr⟩

/-- Going back leaves what is not cut off alone. -/
theorem GoesBack.keeps {keep : Event → Bool} (hg : GraphInv g) (hb : GoesBack keep g g') :
    Keeps (fun e => 0 < e.index ∧ keep e = true) g g' := by
  refine .of_sublist hg.threaded hb.graphInv.threaded hb.insertionOrder fun e l he hl => ?_
  obtain ⟨l', hl'⟩ := Option.isSome_iff_exists.1 (hb.kept e he.1 he.2 (isSome_of_eq hl))
  obtain ⟨-, l₀, hl₀, hk, haddr⟩ := hb.back e l' he.1 hl'
  obtain rfl := Option.some.inj (hl.symm.trans hl₀)
  exact ⟨l', hl', hk, haddr⟩

/-- A label that was inserted after another one, begins apart. -/
def After (g : ExecutionGraph) (x e : Event) : Prop := 0 < e.index ∧ Before g.insertionOrder x e

end SCChecker

/-! ## Revisits that are possible -/

open SCChecker

namespace Revisit

/-- What a revisit is about is in the graph, and not newer than the label to which the graph goes
back. -/
def WellFormed (g : ExecutionGraph) : Revisit → Prop
  | .read pos rev => ∃ rLab, g.getEventLabel pos = some rLab ∧ rLab.isRead = true ∧
      Source g rLab rev ∧ (rev = Event.getInit ∨ Before g.insertionOrder rev pos)
  | .write pos _ => ∃ wLab, g.getEventLabel pos = some wLab ∧ wLab.isWrite = true
  | .optional pos => ∃ lab, g.getEventLabel pos = some lab ∧ lab.kind = .Optional
  | .backward pos rev => ∃ rLab wLab, g.getEventLabel pos = some rLab ∧ rLab.isRead = true ∧
      g.getEventLabel rev = some wLab ∧ wLab.isWrite = true ∧ wLab.addr = rLab.addr ∧
        Before g.insertionOrder pos rev

/-- Where the graph may have cycles.  They are gone once the graph has gone back, but for those
through the label that is revisited, or through the writes after the one that revisits. -/
def CyclesLeft (g : ExecutionGraph) : Revisit → Prop
  | .read x _ => CyclesAt (fun e => e = x ∨ After g x e) (fun _ => False) g
  | .write x _ => CyclesAt (fun e => e = x ∨ After g x e) (fun _ => False) g
  | .optional x => CyclesAt (After g x) (fun _ => False) g
  | .backward _ w => CyclesAt (After g w) (Later g w) g

end Revisit

namespace SCChecker

variable {g g' g'' : ExecutionGraph} {a b e r w x z : Event} {lab lab' : EventLabel}
  {p q s s' : Event → Prop} {env : Environment} {i : Revisit} {l : List Revisit}

theorem chosen_newest (h : i.WellFormed g) : Chosen g i.newest := by
  cases i with
  | read pos rev =>
    obtain ⟨rLab, hr, hread, -⟩ := h
    exact chosen_of_isRead hr hread
  | write pos pred =>
    obtain ⟨wLab, hw, hwrite⟩ := h
    exact chosen_of_isWrite hw hwrite
  | optional pos =>
    obtain ⟨lab, hlab, hk⟩ := h
    exact ⟨lab, hlab, .inr hk⟩
  | backward pos rev =>
    obtain ⟨-, wLab, -, -, hw, hwrite, -⟩ := h
    exact chosen_of_isWrite hw hwrite

/-- A revisit stays possible as long as the labels up to its newest one are left alone. -/
theorem Keeps.wellFormed (h : Keeps s g g') (hi : i.WellFormed g)
    (hs : ∀ e, Chosen g e → e = i.newest ∨ Before g.insertionOrder e i.newest → s e) :
    i.WellFormed g' := by
  have hwrite : ∀ {v vLab}, s v → g.getEventLabel v = some vLab → vLab.isWrite = true →
      ∃ vLab', g'.getEventLabel v = some vLab' ∧ vLab'.isWrite = true ∧
        vLab'.addr = vLab.addr := by
    intro v vLab hsv hv hvw
    obtain ⟨vLab', hv', hk, haddr⟩ := h.label v vLab hsv hv
    refine ⟨vLab', hv', ?_, haddr⟩
    rw [EventLabel.isWrite, hk]
    exact hvw
  have hnewest := hs _ (chosen_newest hi) (.inl rfl)
  cases i with
  | read pos rev =>
    obtain ⟨rLab, hr, hread, hsrc, hbefore⟩ := hi
    obtain ⟨rLab', hr', hk, haddr⟩ := h.label pos rLab hnewest hr
    have hread' : rLab'.isRead = true := by
      rw [EventLabel.isRead, hk]
      exact hread
    refine ⟨rLab', hr', hread', ?_⟩
    rcases hbefore with hinit | hbefore
    · exact ⟨.inl hinit, .inl hinit⟩
    · rcases hsrc with hinit | ⟨wLab, hw, hww, hwa⟩
      · exact ⟨.inl hinit, .inl hinit⟩
      · have hsr := hs rev (chosen_of_isWrite hw hww) (.inr hbefore)
        obtain ⟨wLab', hw', hww', hwa'⟩ := hwrite hsr hw hww
        exact ⟨.inr ⟨wLab', hw', hww', (hwa'.trans hwa).trans haddr.symm⟩,
          .inr (h.before rev pos hsr hnewest hbefore)⟩
  | write pos pred =>
    obtain ⟨wLab, hw, hww⟩ := hi
    obtain ⟨wLab', hw', hww', -⟩ := hwrite hnewest hw hww
    exact ⟨wLab', hw', hww'⟩
  | optional pos =>
    obtain ⟨lab, hlab, hk⟩ := hi
    obtain ⟨lab', hlab', hk', -⟩ := h.label pos lab hnewest hlab
    exact ⟨lab', hlab', hk'.trans hk⟩
  | backward pos rev =>
    obtain ⟨rLab, wLab, hr, hread, hw, hww, hwa, hbefore⟩ := hi
    have hsp := hs pos (chosen_of_isRead hr hread) (.inr hbefore)
    obtain ⟨rLab', hr', hk, haddr⟩ := h.label pos rLab hsp hr
    obtain ⟨wLab', hw', hww', hwa'⟩ := hwrite hnewest hw hww
    refine ⟨rLab', wLab', hr', ?_, hw', hww', (hwa'.trans hwa).trans haddr.symm,
      h.before pos rev hsp hnewest hbefore⟩
    rw [EventLabel.isRead, hk]
    exact hread

theorem cyclesLeft_of_acyclic (h : Acyclic (OrderEdge g)) (i : Revisit) : i.CyclesLeft g := by
  cases i <;> exact cyclesAt_of_acyclic h

/-! ## Stacks of revisits -/

/-- The revisits go back to `x` at the latest. -/
def UpTo (g : ExecutionGraph) (x : Event) (l : List Revisit) : Prop :=
  ∀ i ∈ l, i.newest = x ∨ Before g.insertionOrder i.newest x

/-- The invariant of a stack of revisits, the last one first: each of them is possible, and goes
back at least as far as those before it. -/
structure Worklist (g : ExecutionGraph) (l : List Revisit) : Prop where
  wellFormed : ∀ i ∈ l, i.WellFormed g
  cyclesLeft : ∀ i ∈ l, i.CyclesLeft g
  sorted : l.Pairwise fun i j => j.newest = i.newest ∨ Before g.insertionOrder j.newest i.newest

namespace Worklist

theorem nil : Worklist g [] :=
  ⟨fun _ h => absurd h List.not_mem_nil, fun _ h => absurd h List.not_mem_nil, List.Pairwise.nil⟩

theorem tail (h : Worklist g (i :: l)) : Worklist g l ∧ UpTo g i.newest l :=
  ⟨⟨fun j hj => h.wellFormed j (List.mem_cons_of_mem _ hj),
    fun j hj => h.cyclesLeft j (List.mem_cons_of_mem _ hj), (List.pairwise_cons.1 h.sorted).2⟩,
    fun j hj => (List.pairwise_cons.1 h.sorted).1 j hj⟩

/-- Revisits that go back to the newest label are added on top. -/
theorem push {new : List Revisit} (h : Worklist g l) (hle : UpTo g x l)
    (hnew : ∀ i ∈ new, i.newest = x ∧ i.WellFormed g ∧ i.CyclesLeft g) : Worklist g (new ++ l) := by
  refine ⟨fun i hi => ?_, fun i hi => ?_, List.pairwise_append.2 ⟨?_, h.sorted, ?_⟩⟩
  · exact (List.mem_append.1 hi).elim (fun hi => (hnew i hi).2.1) (h.wellFormed i)
  · exact (List.mem_append.1 hi).elim (fun hi => (hnew i hi).2.2) (h.cyclesLeft i)
  · exact List.pairwise_of_forall_mem_list fun i hi j hj =>
      .inl ((hnew j hj).1.trans (hnew i hi).1.symm)
  · intro i hi j hj
    rw [(hnew i hi).1]
    exact hle j hj

/-- What the order of the revisits depends on is left alone. -/
theorem sorted_of_keeps (h : Worklist g l) (hk : Keeps s g g') (hs : ∀ i ∈ l, s i.newest) :
    l.Pairwise fun i j => j.newest = i.newest ∨ Before g'.insertionOrder j.newest i.newest := by
  refine h.sorted.imp_of_mem fun {i j} hi hj hij => hij.imp_right fun hb => ?_
  exact hk.before _ _ (hs j hj) (hs i hi) hb

/-- **After an operation that leaves no cycles.** -/
theorem of_acyclic (h : Worklist g l) (hk : Keeps (Chosen g) g g')
    (hac : Acyclic (OrderEdge g')) : Worklist g' l :=
  ⟨fun i hi => hk.wellFormed (h.wellFormed i hi) fun _ he _ => he,
    fun i _ => cyclesLeft_of_acyclic hac i,
    h.sorted_of_keeps hk fun i hi => chosen_newest (h.wellFormed i hi)⟩

end Worklist

theorem UpTo.of_keeps (h : UpTo g x l) (hk : Keeps (Chosen g) g g')
    (hl : Worklist g l) (hx : Chosen g x) : UpTo g' x l := fun i hi =>
  (h i hi).imp_right fun hb => hk.before _ _ (chosen_newest (hl.wellFormed i hi)) hx hb

/-- **After a revisit of any outcome**: the cycles that it may have left behind go through the label
that was revisited, or through newer labels. -/
theorem Worklist.of_cyclesAt (h : Worklist g l) (hle : UpTo g x l) (hk : Keeps (Chosen g) g g')
    (hg' : GraphInv g') (hx : Chosen g x) (hm : ∃ lab, g'.getEventLabel x = some lab ∧
      lab.isMemAccess = true)
    (hc : CyclesAt (fun e => e = x ∨ After g' x e) (fun _ => False) g')
    (hw : ∀ lab, g'.getEventLabel x = some lab → lab.isWrite = true →
      CyclesAt (fun _ => False) (Later g' x) g') : Worklist g' l := by
  have hxi : 0 < x.index := hg'.index_of_chosen (hk.chosen hx hx)
  refine ⟨fun i hi => hk.wellFormed (h.wellFormed i hi) fun _ he _ => he, fun i hi => ?_,
    h.sorted_of_keeps hk fun i hi => chosen_newest (h.wellFormed i hi)⟩
  have hwf : i.WellFormed g' := hk.wellFormed (h.wellFormed i hi) fun _ he _ => he
  have hafter : ∀ {k}, Before g'.insertionOrder k x → ∀ e, e = x ∨ After g' x e → After g' k e := by
    rintro k hkx e (rfl | ⟨hei, he⟩)
    · exact ⟨hxi, hkx⟩
    · exact ⟨hei, hkx.trans hg'.threaded.order he⟩
  have hle' := hle.of_keeps hk h hx i hi
  obtain ⟨xLab, hxLab, hxm⟩ := hm
  cases i with
  | read k rev =>
    refine hc.weaken hg' (fun e _ he => ?_) fun _ _ => id
    rcases hle' with rfl | hkx
    · exact he
    · exact .inr (hafter hkx e he)
  | write k pred =>
    refine hc.weaken hg' (fun e _ he => ?_) fun _ _ => id
    rcases hle' with rfl | hkx
    · exact he
    · exact .inr (hafter hkx e he)
  | optional k =>
    refine hc.weaken hg' (fun e _ he => ?_) fun _ _ => id
    rcases hle' with rfl | hkx
    · obtain ⟨lab, hlab, hkind⟩ := hwf
      obtain rfl := Option.some.inj (hxLab.symm.trans hlab)
      rw [EventLabel.isMemAccess, hkind] at hxm
      exact absurd hxm (by decide)
    · exact hafter hkx e he
  | backward pos k =>
    rcases hle' with rfl | hkx
    · obtain ⟨-, wLab, -, -, hwLab, hww, -⟩ := hwf
      exact (hw wLab hwLab hww).weaken hg' (fun _ _ => False.elim) fun _ _ => id
    · exact hc.weaken hg' (fun e _ => hafter hkx e) fun _ _ => False.elim

/-! ## Going back -/

section GoesBack

variable {keep : Event → Bool} (hg : GraphInv g) (hb : GoesBack keep g g')
include hg hb

theorem GoesBack.after (hx : (g'.getEventLabel x).isSome) (he : (g'.getEventLabel e).isSome)
    (h : After g x e) : After g' x e :=
  ⟨h.1, before_of_sublist hg.threaded.order hb.insertionOrder
    ((hb.graphInv.threaded.inserted x).2 hx) ((hb.graphInv.threaded.inserted e).2 he) h.2⟩

theorem GoesBack.later (hw : keep w = true) (he : (g'.getEventLabel e).isSome)
    (h : Later g w e) : Later g' w e := by
  obtain ⟨y, hy⟩ := h
  refine ⟨y, ?_⟩
  obtain ⟨eLab, heLab, hew, -⟩ := hg.co y e hy.mem_right
  obtain ⟨lab', hlab'⟩ := Option.isSome_iff_exists.1 he
  rw [hb.co, before_filter_iff]
  exact ⟨hy, hw, (hb.back e lab' (hg.index_of_chosen (chosen_of_isWrite heLab hew)) hlab').1⟩

/-- **After going back**, to no further than the newest label of the revisits. -/
theorem Worklist.goesBack (h : Worklist g l)
    (hkeep : ∀ i ∈ l, ∀ e, Chosen g e → e = i.newest ∨ Before g.insertionOrder e i.newest →
      keep e = true) : Worklist g' l := by
  have hk := hb.keeps hg
  have hs : ∀ i ∈ l, ∀ e, Chosen g e → e = i.newest ∨ Before g.insertionOrder e i.newest →
      0 < e.index ∧ keep e = true := fun i hi e he hle =>
    ⟨hg.index_of_chosen he, hkeep i hi e he hle⟩
  refine ⟨fun i hi => hk.wellFormed (h.wellFormed i hi) (hs i hi), fun i hi => ?_,
    h.sorted_of_keeps hk fun i hi => hs i hi _ (chosen_newest (h.wellFormed i hi)) (.inl rfl)⟩
  have hch := chosen_newest (h.wellFormed i hi)
  have hkn := hs i hi _ hch (.inl rfl)
  have hx : (g'.getEventLabel i.newest).isSome := by
    obtain ⟨lab, hlab, -⟩ := hk.chosen hkn hch
    exact isSome_of_eq hlab
  have hc := h.cyclesLeft i hi
  cases i with
  | read k rev =>
    exact hb.cycles _ _ _ _ hc (fun e he => Or.imp_right (hb.after hg hx he)) fun _ _ => id
  | write k pred =>
    exact hb.cycles _ _ _ _ hc (fun e he => Or.imp_right (hb.after hg hx he)) fun _ _ => id
  | optional k => exact hb.cycles _ _ _ _ hc (fun e he => hb.after hg hx he) fun _ _ => id
  | backward pos k =>
    exact hb.cycles _ _ _ _ hc (fun e he => hb.after hg hx he) fun e he => hb.later hg hkn.2 he

end GoesBack

end SCChecker
end GenMC
