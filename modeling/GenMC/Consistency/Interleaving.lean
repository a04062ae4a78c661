import GenMC.Consistency.ConsAcyclic
import GenMC.Library.MemoryReplay

/-!
# Consistent graphs and interleavings

An execution is sequentially consistent when its events can be performed one after the other: the
events of a thread in program order, the events of a child after its creation, and a join after the
end of the child.  Memory has one value for each location, so that a read reads from the last write.

`Interleaving` is such an order of all events of a graph, in which the reads read from where they
read from in the graph, and the writes to each location have their order in coherence.

* `isConsistentGraph_iff_exists_interleaving`: the checker accepts a graph exactly when it has an
  interleaving.
-/

set_option autoImplicit false

namespace GenMC

open ListOrder Relation ExecutionGraph MemoryReplay

namespace SCChecker

variable {g : ExecutionGraph} {a b : Event} {lab : EventLabel} {l : List Event}

/-! ## Interleavings -/

/-- What comes before what in every order in which the events can be performed. -/
inductive Precedes (g : ExecutionGraph) : Event → Event → Prop
  | po {a b : Event} {lab bLab : EventLabel} (h : g.getEventLabel a = some lab)
      (hb : g.poImmSucc lab = some bLab) (hpos : bLab.pos = b) : Precedes g a b
  | tc {a b : Event} {lab : EventLabel} (h : g.getEventLabel a = some lab)
      (hb : tcSucc g lab = some b) : Precedes g a b
  | tj {a b : Event} {lab : EventLabel} (h : g.getEventLabel a = some lab)
      (hb : tjSucc lab = some b) : Precedes g a b
  | lin {a b : Event} {lab : EventLabel} (h : g.getEventLabel a = some lab)
      (hb : b ∈ linSuccsOf lab) : Precedes g a b

/-- What the events of a graph read and write. -/
def memoryAccesses (g : ExecutionGraph) : Accesses Event SAddr where
  reads e := (g.getEventLabel e).bind fun lab => if lab.isRead then some lab.addr else none
  writes e := (g.getEventLabel e).bind fun lab => if lab.isWrite then some lab.addr else none
  source e := (g.getEventLabel e).bind fun lab => lab.rf.filter (!·.isInitializer)

/-- An order in which the events of a graph can be performed. -/
structure Interleaving (g : ExecutionGraph) (l : List Event) : Prop where
  perm : l.Perm g.insertionOrder
  ordered : ∀ a b, Precedes g a b → Before l a b
  replay : (memoryAccesses g).replay l = some g.co

/-- All writes have been placed in coherence, and all reads read from somewhere. -/
structure Executed (g : ExecutionGraph) : Prop where
  coNodup : ∀ a, (g.co a).Nodup
  write : ∀ w wLab, g.getEventLabel w = some wLab → wLab.isWrite = true → w ∈ g.co wLab.addr
  rf : ∀ r rLab, g.getEventLabel r = some rLab → rLab.isRead = true → ∃ w ∈ rLab.rf,
    w = Event.getInit ∨ ∃ wLab, g.getEventLabel w = some wLab ∧ wLab.isWrite = true ∧
      wLab.addr = rLab.addr ∧ r ∈ wLab.readers

theorem reads_eq_some_iff {e : Event} {x : SAddr} : (memoryAccesses g).reads e = some x ↔
    ∃ lab, g.getEventLabel e = some lab ∧ lab.isRead = true ∧ lab.addr = x := by
  simp [memoryAccesses, Option.bind_eq_some_iff]

theorem writes_eq_some_iff {e : Event} {x : SAddr} : (memoryAccesses g).writes e = some x ↔
    ∃ lab, g.getEventLabel e = some lab ∧ lab.isWrite = true ∧ lab.addr = x := by
  simp [memoryAccesses, Option.bind_eq_some_iff]

theorem source_eq {e : Event} (h : g.getEventLabel e = some lab) :
    (memoryAccesses g).source e = lab.rf.filter (!·.isInitializer) := by
  simp [memoryAccesses, h]

theorem disjoint_memoryAccesses (g : ExecutionGraph) : (memoryAccesses g).Disjoint := by
  intro e x hx
  obtain ⟨lab, hlab, hr, -⟩ := reads_eq_some_iff.1 hx
  have hw : lab.isWrite = false := EventLabelKind.not_isWrite_of_isRead hr
  simp [memoryAccesses, hlab, hw]

/-! ## Coherence as a list -/

/-- What stands after an element of a list without repetitions. -/
theorem mem_drop_idxOf_iff {k : List Event} (hk : k.Nodup) :
    b ∈ k.drop (k.idxOf a + 1) ↔ Before k a b := by
  refine ⟨fun h => ?_, ?_⟩
  · have ha : a ∈ k := by
      by_contra ha
      rw [List.idxOf_eq_length ha, List.drop_eq_nil_of_le (Nat.le_succ _)] at h
      exact List.not_mem_nil h
    obtain ⟨l₁, l₂, hl⟩ := List.append_of_mem h
    refine ⟨k.take (k.idxOf a + 1) ++ l₁, l₂, ?_, List.mem_append_left _ ?_⟩
    · rw [List.append_assoc, ← hl, List.take_append_drop]
    · rw [List.take_succ_eq_append_getElem (List.idxOf_lt_length_iff.2 ha), List.getElem_idxOf]
      simp
  · rintro ⟨l₁, l₂, rfl, ha⟩
    rw [List.idxOf_append_of_mem ha, List.drop_append_of_le_length]
    · simp
    · exact List.idxOf_lt_length_iff.2 ha

/-- The elements of a list come one after the other in another order as soon as neighbours do. -/
theorem pairwise_before {k : List Event} (hl : l.Nodup)
    (h : ∀ a b l₁ l₂, k = l₁ ++ a :: b :: l₂ → Before l a b) : k.Pairwise (Before l) := by
  have htrans : IsTrans Event (Before l) := ⟨fun _ _ _ hab hbc => hab.trans hl hbc⟩
  rw [← List.isChain_iff_pairwise]
  refine List.isChain_iff_forall_rel_of_append_cons_cons.2 fun {a b l₁ l₂} heq => ?_
  exact h a b l₁ l₂ heq

theorem coImmSucc_eq {w : Event} {l₁ l₂ : List Event} (hpos : lab.pos = a) (hw : lab.isWrite = true)
    (hnodup : (g.co lab.addr).Nodup)
    (h : g.co lab.addr = l₁ ++ a :: w :: l₂) : coImmSucc g lab = some w := by
  have ha : a ∉ l₁ := by
    rw [h] at hnodup
    exact fun ha => (List.nodup_append.1 hnodup).2.2 a ha a (by simp) rfl
  rw [coImmSucc, coSuccs, if_pos hw, hpos, h, List.idxOf_append_of_notMem ha, List.idxOf_cons_self]
  simp

section Equivalence

variable (hx : Searchable g) (he : Executed g)
include hx he

/-- Coherence goes along an order that follows the edges of the search. -/
theorem pairwise_co (hl : l.Nodup) (h : ∀ a b, ConsEdge g a b → Before l a b) (x : SAddr) :
    (g.co x).Pairwise (Before l) := by
  refine pairwise_before hl fun a b l₁ l₂ heq => ?_
  obtain ⟨lab, hlab, hw, rfl⟩ := hx.co x a (by rw [heq]; simp)
  exact h a b (.co hlab (coImmSucc_eq (hx.slots _ _ hlab) hw (he.coNodup _) heq))

/-- Where a read reads from, and what it comes before. -/
theorem frSuccs_cases {r : Event} {rLab : EventLabel} (hr : g.getEventLabel r = some rLab)
    (hread : rLab.isRead = true) :
    ((memoryAccesses g).source r = none ∧ g.frSuccs rLab = g.co rLab.addr) ∨
      ∃ w wLab, (memoryAccesses g).source r = some w ∧ g.getEventLabel w = some wLab ∧
        wLab.isWrite = true ∧ wLab.addr = rLab.addr ∧ r ∈ wLab.readers ∧
        g.frSuccs rLab = (g.co rLab.addr).drop ((g.co rLab.addr).idxOf w + 1) := by
  obtain ⟨w, hrf, hcases⟩ := he.rf r rLab hr hread
  rw [Option.mem_def] at hrf
  rcases hcases with rfl | ⟨wLab, hwLab, hwrite, haddr, hmem⟩
  · have hnone : rLab.rf.filter (!·.isInitializer) = none := by
      rw [hrf]
      rfl
    refine .inl ⟨by rw [source_eq hr, hnone], ?_⟩
    rw [frSuccs, if_pos hread, hnone]
  · have hne : w ≠ Event.getInit := by
      rintro rfl
      obtain ⟨iLab, hi, hk⟩ := hx.init
      obtain rfl := Option.some.inj (hi.symm.trans hwLab)
      rw [EventLabel.isWrite, hk] at hwrite
      exact absurd hwrite (by decide)
    have hsome : rLab.rf.filter (!·.isInitializer) = some w := by
      rw [hrf, Option.filter_some, if_pos]
      simp [Event.isInitializer, hne]
    refine .inr ⟨w, wLab, by rw [source_eq hr, hsome], hwLab, hwrite, haddr, hmem, ?_⟩
    rw [frSuccs, if_pos hread, hsome]

/-- **From an order that follows the edges of the search to an interleaving.** -/
theorem interleaving_of_ordering (hperm : l.Perm g.insertionOrder)
    (h : ∀ a b, ConsEdge g a b → Before l a b) : Interleaving g l := by
  have hl : l.Nodup := hperm.nodup_iff.2 hx.order
  have hco : ∀ x, (memoryAccesses g).writesTo x l = g.co x := by
    refine fun x => Accesses.writesTo_eq hl (he.coNodup x) (fun e => ?_) (pairwise_co hx he hl h x)
    rw [writes_eq_some_iff, hperm.mem_iff, hx.inserted]
    refine ⟨fun hmem => ?_, ?_⟩
    · obtain ⟨wLab, hwLab, hw, ha⟩ := hx.co x e hmem
      exact ⟨by rw [hwLab]; rfl, wLab, hwLab, hw, ha⟩
    · rintro ⟨-, wLab, hwLab, hw, rfl⟩
      exact he.write e wLab hwLab hw
  refine ⟨hperm, fun a b hab => h a b ?_,
    (Accesses.replay_eq_some_iff (disjoint_memoryAccesses g) hl).2 ⟨hco, fun r _ x hrx => ?_⟩⟩
  · cases hab with
    | po h hb hpos => exact .po h hb hpos
    | tc h hb => exact .tc h hb
    | tj h hb => exact .tj h hb
    | lin h hb => exact .lin h hb
  · obtain ⟨rLab, hr, hread, rfl⟩ := reads_eq_some_iff.1 hrx
    have hpair := pairwise_co hx he hl h rLab.addr
    -- the read comes before the next write, and so before all later ones
    have hfr : ∀ w ∈ g.frSuccs rLab, Before l r w := by
      intro w hw
      obtain ⟨k, hk⟩ := exists_frSuccs_eq_drop hread
      rw [hk] at hw
      cases hdrop : (g.co rLab.addr).drop k with
      | nil =>
        rw [hdrop] at hw
        exact absurd hw List.not_mem_nil
      | cons u rest =>
        have hu : Before l r u := h r u (.fr hr (by rw [frImmSucc, hk, hdrop]; rfl))
        rw [hdrop] at hw
        rcases List.mem_cons.1 hw with rfl | hw
        · exact hu
        · refine hu.trans hl ?_
          have hp := hpair.sublist (List.drop_sublist k _)
          rw [hdrop] at hp
          exact (List.pairwise_cons.1 hp).1 w hw
    rw [Accesses.ReadsRight]
    rcases frSuccs_cases hx he hr hread with
      ⟨hsrc, hfrs⟩ | ⟨w, wLab, hsrc, hwLab, hw, ha, hmem, hfrs⟩
    · rw [hsrc]
      exact fun w hw => hfr w (by rwa [hfrs])
    · rw [hsrc]
      refine ⟨ha ▸ he.write w wLab hwLab hw, h w r (.rf hwLab ?_), fun w' hww' => hfr w' ?_⟩
      · rw [rfSuccs, if_pos hw]
        exact hmem
      · rw [hfrs]
        exact (mem_drop_idxOf_iff (he.coNodup _)).2 hww'

/-- **An interleaving follows the edges of the search.** -/
theorem Interleaving.before (h : Interleaving g l) (hab : ConsEdge g a b) : Before l a b := by
  have hl : l.Nodup := h.perm.nodup_iff.2 hx.order
  obtain ⟨hco, hreads⟩ := (Accesses.replay_eq_some_iff (disjoint_memoryAccesses g) hl).1 h.replay
  have hmem : ∀ {e : Event} {lab : EventLabel}, g.getEventLabel e = some lab → e ∈ l :=
    fun h' => h.perm.mem_iff.2 ((hx.inserted _).2 (by rw [h']; rfl))
  have hright : ∀ {r : Event} {rLab : EventLabel}, g.getEventLabel r = some rLab →
      rLab.isRead = true → (memoryAccesses g).ReadsRight g.co l r rLab.addr := fun hr hread =>
    hreads _ (hmem hr) _ (reads_eq_some_iff.2 ⟨_, hr, hread, rfl⟩)
  have hbefore : ∀ {x : SAddr} {u w : Event}, Before (g.co x) u w → Before l u w := by
    intro x u w huw
    rw [← hco x] at huw
    exact (before_filter_iff.1 huw).1
  cases hab with
  | tc h' hb => exact h.ordered _ _ (.tc h' hb)
  | tj h' hb => exact h.ordered _ _ (.tj h' hb)
  | lin h' hb => exact h.ordered _ _ (.lin h' hb)
  | po h' hb hpos => exact h.ordered _ _ (.po h' hb hpos)
  | rf h' hb =>
    rw [rfSuccs] at hb
    split_ifs at hb with hw
    · obtain ⟨rLab, hr, hread, hrf⟩ := hx.readers _ _ _ h' hw hb
      have hsrc := hright hr hread
      rw [Accesses.ReadsRight] at hsrc
      rcases frSuccs_cases hx he hr hread with ⟨hnone, -⟩ | ⟨w, wLab, hsome, -⟩
      · -- a write is not the initializer
        rw [source_eq hr, hrf, Option.filter_some] at hnone
        split_ifs at hnone with hi
        have hinit : a = Event.getInit := by simpa using hi
        obtain ⟨iLab, hiLab, hk⟩ := hx.init
        rw [hinit] at h'
        obtain rfl := Option.some.inj (hiLab.symm.trans h')
        rw [EventLabel.isWrite, hk] at hw
        exact absurd hw (by decide)
      · rw [hsome] at hsrc
        rw [source_eq hr, hrf] at hsome
        obtain rfl := Option.some.inj (Option.filter_eq_some_iff.1 hsome).1
        exact hsrc.2.1
    · exact absurd hb List.not_mem_nil
  | co h' hb =>
    have hmem' := List.mem_of_head? hb
    rw [coSuccs, if_pos (isWrite_of_mem_coSuccs hmem'), hx.slots _ _ h'] at hmem'
    exact hbefore ((mem_drop_idxOf_iff (he.coNodup _)).1 hmem')
  | fr h' hb =>
    have hmem' := List.mem_of_head? hb
    have hread := isRead_of_mem_frSuccs hmem'
    have hsrc := hright h' hread
    rw [Accesses.ReadsRight] at hsrc
    rcases frSuccs_cases hx he h' hread with ⟨hnone, hfrs⟩ | ⟨w, wLab, hsome, -, -, -, -, hfrs⟩
    · rw [hnone] at hsrc
      exact hsrc b (by rwa [← hfrs])
    · rw [hsome] at hsrc
      refine hsrc.2.2 b ?_
      rw [hfrs] at hmem'
      exact (mem_drop_idxOf_iff (he.coNodup _)).1 hmem'

/-- **A graph without cycles has an interleaving**, and only such a graph has one. -/
theorem acyclic_iff_exists_interleaving : Acyclic (ConsEdge g) ↔ ∃ l, Interleaving g l := by
  refine ⟨fun hac => ?_, fun ⟨l, hl⟩ x hcycle => ?_⟩
  · obtain ⟨l, hperm, hord⟩ := exists_ordering hac hx.order
    refine ⟨l, interleaving_of_ordering hx he hperm fun a b hab => hord a ?_ b ?_ hab⟩
    · refine (hx.inserted a).2 ?_
      cases hab <;> simp_all
    · exact (hx.inserted b).2 (ConsEdge.isSome hx hab)
  · have hnodup : l.Nodup := hl.perm.nodup_iff.2 hx.order
    have hpath : ∀ y, TransGen (ConsEdge g) x y → Before l x y := by
      intro y hxy
      induction hxy with
      | single h => exact hl.before hx he h
      | tail _ h ih => exact ih.trans hnodup (hl.before hx he h)
    exact not_before_symm hnodup (hpath x hcycle) (hpath x hcycle)

end Equivalence

/-- **The check for sequential consistency**: a graph is accepted exactly when its events can be
performed in some order. -/
theorem isConsistentGraph_iff_exists_interleaving (hx : Searchable g) (he : Executed g) :
    isConsistentGraph g = some true ↔ ∃ l, Interleaving g l := by
  rw [isConsistentGraph_eq_some_true_iff hx]
  exact acyclic_iff_exists_interleaving hx he

/-- A thread that writes and reads back. -/
def writeRead : ExecutionGraph where
  events := [[{ kind := .Init, pos := ⟨0, 0⟩, stamp := some 0 },
    { kind := .Write, pos := ⟨0, 1⟩, stamp := some 1, readers := [⟨0, 2⟩] },
    { kind := .Read, pos := ⟨0, 2⟩, stamp := some 2, rf := some ⟨0, 1⟩ }]]
  insertionOrder := [⟨0, 0⟩, ⟨0, 1⟩, ⟨0, 2⟩]
  timestamp := 3
  coherence := fun x => if x = 0 then some [⟨0, 1⟩] else none
  initRfs := fun _ => none
  accessMap := fun _ => none
  initVals := fun _ => none

theorem isConsistentGraph_iff_exists_interleaving_writeRead :
    isConsistentGraph writeRead = some true ↔ ∃ l, Interleaving writeRead l := by
  have hcases : ∀ {e lab}, writeRead.getEventLabel e = some lab →
      (e = ⟨0, 0⟩ ∧ lab = { kind := .Init, pos := ⟨0, 0⟩, stamp := some 0 }) ∨
      (e = ⟨0, 1⟩ ∧
        lab = { kind := .Write, pos := ⟨0, 1⟩, stamp := some 1, readers := [⟨0, 2⟩] }) ∨
      (e = ⟨0, 2⟩ ∧ lab =
        { kind := .Read, pos := ⟨0, 2⟩, stamp := some 2, rf := some ⟨0, 1⟩ }) := by
    rintro ⟨t, i⟩ lab h
    rcases t with - | t
    · rcases i with - | - | - | i
      · exact .inl ⟨rfl, (Option.some.inj h).symm⟩
      · exact .inr (.inl ⟨rfl, (Option.some.inj h).symm⟩)
      · exact .inr (.inr ⟨rfl, (Option.some.inj h).symm⟩)
      · cases h
    · cases h
  have hco : ∀ {x w}, w ∈ writeRead.co x → x = 0 ∧ w = ⟨0, 1⟩ := by
    intro x w h
    by_cases hx : x = 0
    · subst hx
      exact ⟨rfl, List.mem_singleton.1 h⟩
    · simp [ExecutionGraph.co, writeRead, hx] at h
  refine isConsistentGraph_iff_exists_interleaving
    ⟨fun e lab h => ?_, ⟨_, rfl, rfl⟩, by decide, fun e => ?_, fun e e' he he' heq => ?_,
      fun w lab r h hw hr => ?_, fun x w h => ?_, fun e lab j h hj => ?_, fun e lab b h hb => ?_⟩
    ⟨fun x => ?_, fun w lab h hw => ?_, fun r lab h hr => ?_⟩
  · rcases hcases h with ⟨rfl, rfl⟩ | ⟨rfl, rfl⟩ | ⟨rfl, rfl⟩ <;> rfl
  · refine ⟨fun h => ?_, fun h => ?_⟩
    · simp only [writeRead, List.mem_cons, List.not_mem_nil, or_false] at h
      rcases h with rfl | rfl | rfl <;> rfl
    · obtain ⟨lab, h⟩ := Option.isSome_iff_exists.1 h
      rcases hcases h with ⟨rfl, -⟩ | ⟨rfl, -⟩ | ⟨rfl, -⟩ <;> decide
  · obtain ⟨lab, h⟩ := Option.isSome_iff_exists.1 he
    obtain ⟨lab', h'⟩ := Option.isSome_iff_exists.1 he'
    rcases hcases h with ⟨rfl, -⟩ | ⟨rfl, -⟩ | ⟨rfl, -⟩ <;>
      rcases hcases h' with ⟨rfl, -⟩ | ⟨rfl, -⟩ | ⟨rfl, -⟩ <;> revert heq <;> decide
  · rcases hcases h with ⟨rfl, rfl⟩ | ⟨rfl, rfl⟩ | ⟨rfl, rfl⟩
    · cases hw
    · obtain rfl := List.mem_singleton.1 hr
      exact ⟨_, rfl, rfl, rfl⟩
    · cases hw
  · obtain ⟨rfl, rfl⟩ := hco h
    exact ⟨_, rfl, rfl, rfl⟩
  · rcases hcases h with ⟨rfl, rfl⟩ | ⟨rfl, rfl⟩ | ⟨rfl, rfl⟩ <;> cases hj
  · rcases hcases h with ⟨rfl, rfl⟩ | ⟨rfl, rfl⟩ | ⟨rfl, rfl⟩ <;> cases hb
  · by_cases hx : x = 0
    · subst hx
      decide
    · simp [ExecutionGraph.co, writeRead, hx]
  · rcases hcases h with ⟨rfl, rfl⟩ | ⟨rfl, rfl⟩ | ⟨rfl, rfl⟩
    · cases hw
    · decide
    · cases hw
  · rcases hcases h with ⟨rfl, rfl⟩ | ⟨rfl, rfl⟩ | ⟨rfl, rfl⟩
    · cases hr
    · cases hr
    · exact ⟨⟨0, 1⟩, rfl, .inr ⟨_, rfl, rfl, rfl, List.mem_singleton_self _⟩⟩

end SCChecker
end GenMC
