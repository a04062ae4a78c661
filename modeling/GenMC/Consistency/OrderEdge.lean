import GenMC.Consistency.Interleaving
import GenMC.Verification.Restamping

/-!
# The edges of a graph under construction

The search for cycles follows the next write in coherence only, and takes a read without a source to
read from the initializer.  `OrderEdge` has the edges to all later writes, and leaves out the reads
without a source.  It is what operations on a graph are easily described by: an operation that
changes one label leaves the edges between the others alone.

* `GraphInv` is what the operations of the driver keep, cycles apart, and `Complete` says that no
  read and no write is left unfinished.
* `acyclic_consEdge_iff`: both kinds of edges have the same cycles in a complete graph.
* `isConsistent_iff` says what the check for one label means for them.
-/

set_option autoImplicit false

namespace GenMC

open ListOrder Relation ExecutionGraph

namespace SCChecker

variable {g : ExecutionGraph} {a b e r w x : Event} {lab : EventLabel}

/-! ## Edges -/

/-- An event comes before another one in every order in which the events can be performed. -/
inductive OrderEdge (g : ExecutionGraph) : Event → Event → Prop
  | po {t i : ℕ} (h : (g.getEventLabel ⟨t, i + 1⟩).isSome) : OrderEdge g ⟨t, i⟩ ⟨t, i + 1⟩
  | tc {a : Event} {lab : EventLabel} (h : g.getEventLabel a = some lab)
      (hk : lab.kind = .ThreadCreate) (hb : (g.getEventLabel ⟨lab.childId, 0⟩).isSome) :
      OrderEdge g a ⟨lab.childId, 0⟩
  | tj {a b : Event} {lab : EventLabel} (h : g.getEventLabel a = some lab)
      (hb : tjSucc lab = some b) : OrderEdge g a b
  | rf {r w : Event} {rLab : EventLabel} (h : g.getEventLabel r = some rLab)
      (hr : rLab.isRead = true) (hw : rLab.rf = some w) (hne : w ≠ Event.getInit) :
      OrderEdge g w r
  | co {x : SAddr} {a b : Event} (h : Before (g.co x) a b) : OrderEdge g a b
  | fr {r w b : Event} {rLab : EventLabel} (h : g.getEventLabel r = some rLab)
      (hr : rLab.isRead = true) (hw : rLab.rf = some w) (hb : b ∈ g.co rLab.addr)
      (h' : w = Event.getInit ∨ Before (g.co rLab.addr) w b) : OrderEdge g r b

/-! ## Graphs under construction -/

/-- What the operations of the driver keep. -/
structure GraphInv (g : ExecutionGraph) : Prop where
  threaded : g.Threaded
  stampsUp : g.StampsUp
  readerInv : g.ReaderInv
  coNodup : ∀ a, (g.co a).Nodup
  co : ∀ a, ∀ w ∈ g.co a, ∃ wLab, g.getEventLabel w = some wLab ∧ wLab.isWrite = true ∧
    wLab.addr = a
  source : ∀ r rLab w, g.getEventLabel r = some rLab → rLab.isRead = true → rLab.rf = some w →
    w = Event.getInit ∨ ∃ wLab, g.getEventLabel w = some wLab ∧ wLab.isWrite = true ∧
      wLab.addr = rLab.addr
  /-- A thread does not go on before its read has a source. -/
  waiting : ∀ r rLab, g.getEventLabel r = some rLab → rLab.isRead = true → rLab.rf = none →
    g.getEventLabel r.next = none
  settled : ∀ r rLab w, g.getEventLabel r = some rLab → rLab.isRead = true → rLab.rf = some w →
    (g.getEventLabel r.next).isSome → w = Event.getInit ∨ Before g.insertionOrder w r.next
  parentJoin : ∀ e eLab j, g.getEventLabel e = some eLab → tjSucc eLab = some j →
    ∃ jLab, g.getEventLabel j = some jLab ∧ jLab.kind = .ThreadJoin
  linSuccs : ∀ e eLab, g.getEventLabel e = some eLab → linSuccsOf eLab = []

/-- All reads have a source, and all writes have a place in coherence. -/
structure Complete (g : ExecutionGraph) : Prop where
  rf : ∀ r rLab, g.getEventLabel r = some rLab → rLab.isRead = true → rLab.rf.isSome
  write : ∀ w wLab, g.getEventLabel w = some wLab → wLab.isWrite = true → w ∈ g.co wLab.addr

theorem isSome_of_eq (h : g.getEventLabel e = some lab) : (g.getEventLabel e).isSome := by
  rw [h]
  rfl

section Inv

variable (hg : GraphInv g)
include hg

theorem GraphInv.ne_init_of_isWrite (h : g.getEventLabel w = some lab) (hw : lab.isWrite = true) :
    w ≠ Event.getInit :=
  hg.readerInv.ne_init h (EventLabel.isMemAccess_of_isWrite hw)

theorem GraphInv.ne_init_of_mem_co {x : SAddr} (h : w ∈ g.co x) : w ≠ Event.getInit := by
  obtain ⟨wLab, hw, hwrite, -⟩ := hg.co x w h
  exact hg.ne_init_of_isWrite hw hwrite

/-- Edges are between events of the graph. -/
theorem GraphInv.isSome_of_orderEdge (h : OrderEdge g a b) :
    (g.getEventLabel a).isSome ∧ (g.getEventLabel b).isSome := by
  have hco : ∀ {y : SAddr} {v : Event}, v ∈ g.co y → (g.getEventLabel v).isSome := by
    intro y v hv
    obtain ⟨vLab, hvLab, -⟩ := hg.co y v hv
    exact isSome_of_eq hvLab
  cases h with
  | @po t i h => exact ⟨getEventLabel_isSome_of_le h (a := ⟨t, i⟩) rfl (Nat.le_succ i), h⟩
  | tc h hk hb => exact ⟨isSome_of_eq h, hb⟩
  | tj h hb =>
    obtain ⟨jLab, hj, -⟩ := hg.parentJoin _ _ _ h hb
    exact ⟨isSome_of_eq h, isSome_of_eq hj⟩
  | rf h hread hw hne =>
    obtain ⟨wLab, hwLab, -⟩ := (hg.source _ _ _ h hread hw).resolve_left hne
    exact ⟨isSome_of_eq hwLab, isSome_of_eq h⟩
  | co h => exact ⟨hco h.mem_left, hco h.mem_right⟩
  | fr h hread hw hb h' => exact ⟨isSome_of_eq h, hco hb⟩

/-- What comes after a read: the next label, and the writes after its source. -/
theorem GraphInv.orderEdge_read (h : g.getEventLabel r = some lab) (hread : lab.isRead = true)
    (hb : OrderEdge g r b) : b = r.next ∨ (b ∈ g.co lab.addr ∧
      ∃ w, lab.rf = some w ∧ (w = Event.getInit ∨ Before (g.co lab.addr) w b)) := by
  have hkind : ∀ {l : EventLabel}, g.getEventLabel r = some l → l = lab := fun hl =>
    Option.some.inj (hl.symm.trans h)
  have hnotWrite : lab.isWrite = false := EventLabelKind.not_isWrite_of_isRead hread
  cases hb with
  | po hb => exact .inl rfl
  | tc h' hk hb =>
    rw [hkind h'] at hk
    rw [EventLabel.isRead, hk] at hread
    exact absurd hread (by decide)
  | tj h' hb =>
    rw [hkind h', tjSucc] at hb
    split_ifs at hb with hk
    rw [EventLabel.isRead, hk] at hread
    exact absurd hread (by decide)
  | rf h' hread' hw hne =>
    obtain ⟨wLab, hwLab, hwrite, -⟩ := (hg.source _ _ _ h' hread' hw).resolve_left hne
    rw [hkind hwLab, hnotWrite] at hwrite
    cases hwrite
  | co h' =>
    obtain ⟨wLab, hwLab, hwrite, -⟩ := hg.co _ _ h'.mem_left
    rw [hkind hwLab, hnotWrite] at hwrite
    cases hwrite
  | fr h' hread' hw hb h'' =>
    obtain rfl := hkind h'
    exact .inr ⟨hb, _, hw, h''⟩

/-- What comes after a write: the next label, the reads of the write, and the later writes. -/
theorem GraphInv.orderEdge_write (h : g.getEventLabel w = some lab) (hw : lab.isWrite = true)
    (hb : OrderEdge g w b) : b = w.next ∨
      (∃ rLab, g.getEventLabel b = some rLab ∧ rLab.isRead = true ∧ rLab.rf = some w) ∨
        Before (g.co lab.addr) w b := by
  have hkind : ∀ {l : EventLabel}, g.getEventLabel w = some l → l = lab := fun hl =>
    Option.some.inj (hl.symm.trans h)
  cases hb with
  | po hb => exact .inl rfl
  | tc h' hk hb =>
    rw [hkind h'] at hk
    rw [EventLabel.isWrite, hk] at hw
    exact absurd hw (by decide)
  | tj h' hb =>
    rw [hkind h', tjSucc] at hb
    split_ifs at hb with hk
    rw [EventLabel.isWrite, hk] at hw
    exact absurd hw (by decide)
  | rf h' hread' hrf hne => exact .inr (.inl ⟨_, h', hread', hrf⟩)
  | co h' =>
    obtain ⟨wLab, hwLab, -, haddr⟩ := hg.co _ _ h'.mem_left
    rw [← hkind hwLab, haddr]
    exact .inr (.inr h')
  | fr h' hread' hrf hb h'' =>
    rw [hkind h'] at hread'
    rw [EventLabel.isWrite, EventLabelKind.not_isWrite_of_isRead hread'] at hw
    cases hw

/-- No write comes after the last one. -/
theorem GraphInv.not_after_coMax {x : SAddr} (hb : b ∈ g.co x) :
    ¬ (g.coMax x = Event.getInit ∨ Before (g.co x) (g.coMax x) b) := by
  obtain ⟨l, v, hco⟩ : ∃ l v, g.co x = l ++ [v] := by
    rcases List.eq_nil_or_concat (g.co x) with hnil | ⟨l, v, hco⟩
    · rw [hnil] at hb
      exact absurd hb List.not_mem_nil
    · exact ⟨l, v, by simpa using hco⟩
  have hmax : g.coMax x = v := by rw [coMax, hco]; simp
  rw [hmax]
  rintro (hi | h)
  · refine hg.ne_init_of_mem_co (x := x) (w := v) ?_ hi
    rw [hco]
    simp
  · have hnodup := hg.coNodup x
    rw [hco] at hb hnodup h
    have hne := h.ne hnodup
    have hb' : b ∈ l := (List.mem_append.1 hb).resolve_right fun h' =>
      hne (List.mem_singleton.1 h').symm
    exact not_before_symm hnodup h (before_concat hb' v)

theorem GraphInv.isThreadStart (ht : (g.getEventLabel ⟨e.thread, 0⟩).isSome) :
    ∃ bLab, g.getFirstThreadLabel e.thread = some bLab ∧ bLab.pos = ⟨e.thread, 0⟩ := by
  obtain ⟨bLab, hb⟩ := Option.isSome_iff_exists.1 ht
  obtain ⟨bLab', hb', hsame⟩ := (sameThreads_resetStamps g).forth hb
  have hk : bLab.kind = .Init ∨ bLab.kind = .ThreadStart := by
    rw [← hsame.kind]
    rcases Nat.eq_zero_or_pos e.thread with h0 | hpos
    · rw [h0] at hb'
      exact .inl (ThreadInv.main hg.threaded bLab' hb').1
    · exact .inr (ThreadInv.created hg.threaded e.thread bLab' hpos hb').1
  refine ⟨bLab, Option.filter_eq_some_iff.2 ⟨hb, ?_⟩, hg.threaded.slots _ _ hb⟩
  rw [EventLabel.isThreadStart]
  rcases hk with hk | hk
  · rw [hk]
    rfl
  · rw [hk]
    rfl

theorem GraphInv.searchable : Searchable g where
  slots := hg.threaded.slots
  init := hg.threaded.main
  order := hg.threaded.order
  inserted := hg.threaded.inserted
  stamps e e' he he' heq := by
    by_contra hne
    obtain ⟨lab, hlab⟩ := Option.isSome_iff_exists.1 he
    obtain ⟨lab', hlab'⟩ := Option.isSome_iff_exists.1 he'
    obtain ⟨s, hs⟩ := Option.isSome_iff_exists.1 (hg.stampsUp.stamped e lab hlab)
    obtain ⟨s', hs'⟩ := Option.isSome_iff_exists.1 (hg.stampsUp.stamped e' lab' hlab')
    have heq : s = s' := by simpa [stampAt, EventLabel.getStamp, hlab, hlab', hs, hs'] using heq
    rcases before_of_mem hg.threaded.order ((hg.threaded.inserted e).2 he)
      ((hg.threaded.inserted e').2 he') hne with h | h
    · exact (hg.stampsUp.up _ _ _ _ _ _ h hlab hlab' hs hs').ne heq
    · exact (hg.stampsUp.up _ _ _ _ _ _ h hlab' hlab hs' hs).ne heq.symm
  readers w wLab r hw hwrite hr := (hg.readerInv.readers w wLab hw hwrite).2 r hr
  co := hg.co
  parentJoin e eLab j he hj := by
    obtain ⟨jLab, hjLab, -⟩ := hg.parentJoin e eLab j he hj
    exact isSome_of_eq hjLab
  linSuccs e eLab b he hb := by
    rw [hg.linSuccs e eLab he] at hb
    exact absurd hb List.not_mem_nil

theorem GraphInv.executed (hc : Complete g) : Executed g where
  coNodup := hg.coNodup
  write := hc.write
  rf r rLab hr hread := by
    obtain ⟨w, hw⟩ := Option.isSome_iff_exists.1 (hc.rf r rLab hr hread)
    refine ⟨w, hw, ?_⟩
    rcases hg.source r rLab w hr hread hw with h | ⟨wLab, hwLab, hwrite, haddr⟩
    · exact .inl h
    · refine .inr ⟨wLab, hwLab, hwrite, haddr, ?_⟩
      rcases hg.readerInv.rf r rLab w hr hread hw with ⟨hinit, -⟩ | ⟨wLab', hwLab', -, hmem⟩
      · exact absurd hinit (hg.ne_init_of_isWrite hwLab hwrite)
      · obtain rfl := Option.some.inj (hwLab.symm.trans hwLab')
        exact hmem

/-- What a read comes before, by the source it has. -/
theorem GraphInv.mem_frSuccs_iff {rLab : EventLabel} (hr : rLab.isRead = true)
    (hw : rLab.rf = some w) : b ∈ g.frSuccs rLab ↔
      b ∈ g.co rLab.addr ∧ (w = Event.getInit ∨ Before (g.co rLab.addr) w b) := by
  rw [frSuccs, if_pos hr, hw, Option.filter_some]
  by_cases hi : w = Event.getInit
  · have hi' : ¬ (!w.isInitializer) = true := by simp [Event.isInitializer, hi]
    rw [if_neg hi']
    exact (and_iff_left (.inl hi)).symm
  · have hi' : (!w.isInitializer) = true := by simp [Event.isInitializer, hi]
    rw [if_pos hi']
    refine (mem_drop_idxOf_iff (hg.coNodup _)).trans ⟨fun h => ⟨h.mem_right, .inr h⟩, ?_⟩
    rintro ⟨-, h | h⟩
    · exact absurd h hi
    · exact h

/-- **The edges of the search are edges.** -/
theorem GraphInv.orderEdge (hc : Complete g) (h : ConsEdge g a b) : OrderEdge g a b := by
  have hslots := hg.threaded.slots
  cases h with
  | tc h hb =>
    rw [tcSucc] at hb
    split_ifs at hb with hk
    obtain ⟨bLab, hbLab, rfl⟩ := Option.map_eq_some_iff.1 hb
    have hbLab' := (Option.filter_eq_some_iff.1 hbLab).1
    rw [hslots _ _ hbLab']
    exact .tc h hk (isSome_of_eq hbLab')
  | tj h hb => exact .tj h hb
  | lin h hb =>
    rw [hg.linSuccs _ _ h] at hb
    exact absurd hb List.not_mem_nil
  | rf h hb =>
    rw [rfSuccs] at hb
    split_ifs at hb with hw
    · obtain ⟨rLab, hr, hread, hrf⟩ := (hg.readerInv.readers _ _ h hw).2 b hb
      exact .rf hr hread hrf (hg.ne_init_of_isWrite h hw)
    · exact absurd hb List.not_mem_nil
  | co h hb =>
    have hmem := List.mem_of_head? hb
    rw [coSuccs, if_pos (isWrite_of_mem_coSuccs hmem), hslots _ _ h] at hmem
    exact .co ((mem_drop_idxOf_iff (hg.coNodup _)).1 hmem)
  | fr h hb =>
    have hmem := List.mem_of_head? hb
    have hread := isRead_of_mem_frSuccs hmem
    obtain ⟨w, hw⟩ := Option.isSome_iff_exists.1 (hc.rf a _ h hread)
    obtain ⟨h1, h2⟩ := (hg.mem_frSuccs_iff hread hw).1 hmem
    exact .fr h hread hw h1 h2
  | po h hb hpos =>
    rw [poImmSucc, hslots _ _ h] at hb
    obtain rfl : a.next = b := (hslots _ _ hb).symm.trans hpos
    exact .po (isSome_of_eq hb)

/-- Along coherence the search gets to all later writes. -/
theorem GraphInv.transGen_of_before {x : SAddr} (h : Before (g.co x) a b) :
    TransGen (ConsEdge g) a b := by
  have hnext : ∀ l₂ l₁ a, g.co x = l₁ ++ a :: l₂ → ∀ b ∈ l₂, TransGen (ConsEdge g) a b := by
    intro l₂
    induction l₂ with
    | nil => exact fun _ _ _ b hb => absurd hb List.not_mem_nil
    | cons c l₂ ih =>
      intro l₁ a heq b hb
      obtain ⟨lab, hlab, hw, rfl⟩ := hg.co x a (by rw [heq]; simp)
      have hedge : ConsEdge g a c :=
        .co hlab (coImmSucc_eq (hg.threaded.slots _ _ hlab) hw (hg.coNodup _) heq)
      rcases List.mem_cons.1 hb with rfl | hb
      · exact .single hedge
      · exact .head hedge (ih (l₁ ++ [a]) c (by rw [heq]; simp) b hb)
  obtain ⟨l₁, l₂, heq, ha⟩ := h
  obtain ⟨k₁, k₂, rfl⟩ := List.append_of_mem ha
  exact hnext (k₂ ++ b :: l₂) k₁ a (by rw [heq]; simp) b (by simp)

/-- **The search gets along every edge.** -/
theorem GraphInv.transGen_consEdge (h : OrderEdge g a b) : TransGen (ConsEdge g) a b := by
  have hslots := hg.threaded.slots
  cases h with
  | @po t i h =>
    obtain ⟨bLab, hb⟩ := Option.isSome_iff_exists.1 h
    obtain ⟨lab, hlab⟩ := Option.isSome_iff_exists.1
      (getEventLabel_isSome_of_le h (a := ⟨t, i⟩) rfl (Nat.le_succ i))
    refine .single (.po hlab ?_ (hslots _ _ hb))
    rw [poImmSucc, hslots _ _ hlab]
    exact hb
  | @tc _ lab h hk hb =>
    obtain ⟨bLab, hbLab, hpos⟩ := hg.isThreadStart (e := ⟨lab.childId, 0⟩) hb
    refine .single (.tc h ?_)
    rw [tcSucc, if_pos hk]
    exact Option.map_eq_some_iff.2 ⟨bLab, hbLab, hpos⟩
  | tj h hb => exact .single (.tj h hb)
  | @rf _ _ rLab h hr hw hne =>
    rcases hg.readerInv.rf b rLab a h hr hw with ⟨hi, -⟩ | ⟨wLab, hwLab, hwrite, hmem⟩
    · exact absurd hi hne
    · refine .single (.rf hwLab ?_)
      rw [rfSuccs, if_pos hwrite]
      exact hmem
  | co h => exact hg.transGen_of_before h
  | @fr _ w _ rLab h hr hw hb h' =>
    have hmem := (hg.mem_frSuccs_iff hr hw).2 ⟨hb, h'⟩
    obtain ⟨k, hk⟩ := exists_frSuccs_eq_drop (g := g) hr
    rw [hk] at hmem
    cases hdrop : (g.co rLab.addr).drop k with
    | nil =>
      rw [hdrop] at hmem
      exact absurd hmem List.not_mem_nil
    | cons c rest =>
      have hedge : ConsEdge g a c := .fr h (by rw [frImmSucc, hk, hdrop]; rfl)
      rw [hdrop] at hmem
      rcases List.mem_cons.1 hmem with rfl | hmem
      · exact .single hedge
      · refine .head hedge (hg.transGen_of_before (x := rLab.addr) ?_)
        obtain ⟨l₁, l₂, rfl⟩ := List.append_of_mem hmem
        refine ⟨(g.co rLab.addr).take k ++ c :: l₁, l₂, ?_, by simp⟩
        rw [List.append_assoc, List.cons_append, ← hdrop, List.take_append_drop]

theorem GraphInv.transGen_iff (hc : Complete g) :
    TransGen (ConsEdge g) a b ↔ TransGen (OrderEdge g) a b := by
  refine ⟨fun h => TransGen.mono (fun _ _ => hg.orderEdge hc) a b h, fun h => ?_⟩
  induction h with
  | single h => exact hg.transGen_consEdge h
  | tail _ h ih => exact ih.trans (hg.transGen_consEdge h)

/-- **Both kinds of edges have the same cycles.** -/
theorem GraphInv.acyclic_consEdge_iff (hc : Complete g) :
    Acyclic (ConsEdge g) ↔ Acyclic (OrderEdge g) :=
  forall_congr' fun _ => not_congr (hg.transGen_iff hc)

/-- What the check for all labels says about the edges. -/
theorem GraphInv.isConsistentGraph_iff (hc : Complete g) :
    isConsistentGraph g = some true ↔ Acyclic (OrderEdge g) := by
  rw [isConsistentGraph_eq_some_true_iff hg.searchable, hg.acyclic_consEdge_iff hc]

/-- What the check for one label says about the edges. -/
theorem GraphInv.isConsistent_iff (hc : Complete g) (he : (g.getEventLabel e).isSome) :
    isConsistent g e = some true ↔ NoCycleFrom (OrderEdge g) e := by
  rw [isConsistent_eq_some_true_iff hg.searchable he]
  refine forall_congr' fun x => ?_
  rw [reflTransGen_iff_eq_or_transGen, reflTransGen_iff_eq_or_transGen, hg.transGen_iff hc,
    hg.transGen_iff hc]

end Inv

end SCChecker
end GenMC
