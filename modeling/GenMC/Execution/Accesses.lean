import GenMC.Execution.Readers

/-!
# Access lists

For each location a graph keeps a list of the labels that access it.  Adding a label appends it,
removing a label takes it off, cutting filters the list; a copy registers every label when it is
cloned, and then goes over the lists of the original once more.

* Deallocations are registered beside the memory accesses (the source calls this a temporary fix),
  and a cut drops the list of a location of which no memory access is left, whatever else is on it.
* `AccessesListed` is what holds of all graphs: a location's list has every memory access to the
  location, and nothing but accesses to and deallocations of it (`built_accessesListed`).  As long
  as no copy is made, nothing is on a list twice.
* `AccessesExact` asks for the memory accesses and nothing else, once each.  Neither a deallocation
  nor a copy keeps it (`not_accessesExact`).
-/

set_option autoImplicit false

namespace GenMC

/-- Labels that are put on an access list. -/
def EventLabel.isRegistered (lab : EventLabel) : Bool := lab.isMemAccess || lab.isFree

theorem EventLabel.isRegistered_of_isMemAccess {lab : EventLabel} (h : lab.isMemAccess = true) :
    lab.isRegistered = true := by
  rw [isRegistered, h]
  rfl

namespace ExecutionGraph

variable {g : ExecutionGraph}

/-- The access list of a location. -/
def accesses (g : ExecutionGraph) (a : SAddr) : List Event := (g.accessMap a).getD []

/-- A location's list has the memory accesses to the location, once each, and nothing else. -/
def AccessesExact (g : ExecutionGraph) : Prop :=
  ∀ a e, (g.accesses a).count e =
    if (g.getEventLabel e).any fun lab => lab.isMemAccess && lab.addr = a then 1 else 0

/-- A location's list has every memory access to the location, and nothing but accesses to and
deallocations of the location. -/
structure AccessesListed (g : ExecutionGraph) : Prop where
  listed : ∀ e lab, g.getEventLabel e = some lab → lab.isMemAccess = true → e ∈ g.accesses lab.addr
  registered : ∀ a e, e ∈ g.accesses a →
    ∃ lab, g.getEventLabel e = some lab ∧ lab.isRegistered = true ∧ lab.addr = a

/-- The graphs the operations build, with or without copies.  The first label of a thread is its
begin. -/
inductive Built (copies : Bool) : ExecutionGraph → Prop
  | init : Built copies init
  | addNewThread {g : ExecutionGraph} : Built copies g → Built copies g.addNewThread
  | addLabelToGraph {g : ExecutionGraph} {lab : EventLabel} :
      Built copies g → Fresh g lab → (lab.pos.index = 0 → lab.isThreadStart = true) →
        Built copies (g.addLabelToGraph lab)
  | setRf {g : ExecutionGraph} {r : Event} {rLab : EventLabel} {rf : Option Event} :
      Built copies g → g.getEventLabel r = some rLab → rLab.isRead = true → ValidRf g rf →
        Built copies (g.setRf r rf)
  | addCo {g : ExecutionGraph} (w pred : Event) (a : SAddr) :
      Built copies g → Built copies (g.addCo w pred a)
  | moveCo {g : ExecutionGraph} (w pred : Event) (a : SAddr) :
      Built copies g → Built copies (g.moveCo w pred a)
  | removeLast {g : ExecutionGraph} (t : ℕ) : Built copies g → Built copies (g.removeLast t)
  | cutToStamp {g : ExecutionGraph} (stamp : ℕ) :
      Built copies g → Built copies (g.cutToStamp stamp)
  | copyGraphUpTo {g : ExecutionGraph} (v : View) :
      copies = true → Built copies g → g.Slots → Built copies (g.copyGraphUpTo v)

theorem Built.reachable {copies : Bool} (h : Built copies g) : Reachable g := by
  induction h with
  | init => exact .init
  | addNewThread _ ih => exact ih.addNewThread
  | addLabelToGraph _ hfresh _ ih => exact ih.addLabelToGraph hfresh
  | setRf _ hr hread hrf ih => exact ih.setRf hr hread hrf
  | addCo w pred a _ ih => exact ih.addCo w pred a
  | moveCo w pred a _ ih => exact ih.moveCo w pred a
  | removeLast t _ ih => exact ih.removeLast t
  | cutToStamp stamp _ ih => exact ih.cutToStamp stamp
  | copyGraphUpTo v _ _ hs ih => exact ih.copyGraphUpTo v hs

/-! ## The lists after each operation -/

theorem accesses_trackLabel (lab : EventLabel) (a : SAddr) :
    (g.trackLabel lab).accesses a =
      g.accesses a ++ if lab.isRegistered && lab.addr = a then [lab.pos] else [] := by
  have hreg : (lab.isMemAccess || lab.isFree) = lab.isRegistered := rfl
  rw [trackLabel, hreg]
  cases lab.isRegistered with
  | false => simp
  | true =>
    by_cases ha : lab.addr = a
    · subst ha
      simp [accesses, pushAccess, trackCoherenceAtLoc]
    · simp [accesses, pushAccess, trackCoherenceAtLoc, ha, Ne.symm ha]

theorem accessMap_placeLabel (lab : EventLabel) : (g.placeLabel lab).accessMap = g.accessMap := by
  rw [placeLabel]
  split
  · split <;> rfl
  · rfl

theorem accesses_addLabelToGraph (lab : EventLabel) (a : SAddr) :
    (g.addLabelToGraph lab).accesses a =
      g.accesses a ++ if lab.isRegistered && lab.addr = a then [lab.pos] else [] := by
  rw [addLabelToGraph, accesses, accessMap_placeLabel]
  exact accesses_trackLabel lab a

/-- Adding labels one after the other puts them on the lists one after the other. -/
theorem accesses_foldl_addLabelToGraph (L : List EventLabel) (a : SAddr) :
    (L.foldl (fun other lab => other.addLabelToGraph lab) g).accesses a =
      g.accesses a ++ (L.filter fun lab => lab.isRegistered && lab.addr = a).map (·.pos) := by
  induction L generalizing g with
  | nil => simp
  | cons lab L ih =>
    rw [List.foldl_cons, ih, accesses_addLabelToGraph, List.filter_cons, List.append_assoc]
    split <;> rfl

theorem mem_accesses_cloneLabels (hs : g.Slots) {v : View} {a : SAddr} {e : Event}
    (he : e ∈ (g.cloneLabels v).accesses a) :
    v.contains e = true ∧
      ∃ lab, g.getEventLabel e = some lab ∧ lab.isRegistered = true ∧ lab.addr = a := by
  have hinit : (init.resize g.getNumThreads).accesses a = [] := rfl
  rw [cloneLabels, accesses_foldl_addLabelToGraph, hinit, List.nil_append, List.mem_map] at he
  obtain ⟨lab', hlab', rfl⟩ := he
  rw [List.mem_filter, List.mem_flatMap] at hlab'
  obtain ⟨⟨t, -, hmem⟩, hcond⟩ := hlab'
  rw [Bool.and_eq_true, decide_eq_true_eq] at hcond
  obtain ⟨i, hi⟩ := List.mem_iff_getElem?.1
    (List.mem_append_right (if t = 0 then [freshInit] else [])
    hmem)
  have hget : (g.clonedThread v t)[i]? = some lab' := hi
  rw [getElem?_clonedThread v ⟨t, i⟩] at hget
  split at hget
  · cases hget
    exact absurd hcond.1 Bool.false_ne_true
  · split at hget
    · rename_i hc
      obtain ⟨lab, hlab, rfl⟩ := Option.map_eq_some_iff.1 hget
      have hpos : lab.clone.pos = ⟨t, i⟩ := hs _ lab hlab
      rw [hpos]
      exact ⟨hc, lab, hlab, hcond⟩
    · cases hget

/-- The list of a location in a copy: what was registered when the labels were cloned, and then
what the view keeps of the original list. -/
theorem accesses_copyGraphUpTo (hs : g.Slots) (hst : g.Stamped) (v : View) (a : SAddr) :
    (g.copyGraphUpTo v).accesses a =
      (g.cloneLabels v).accesses a ++
        if (g.coherence a).isSome then (g.accesses a).filter (v.contains ·) else [] := by
  have hmap : ((g.orderedCopy v).accessMap a) = (g.cloneLabels v).accessMap a := by
    rw [orderedCopy, fixInsertionOrder_eq]
    show (g.cleanedCopy v).accessMap a = _
    rw [(cleanedUp_cleanedCopy hs hst v).accessMap]
  have heq : (g.copyGraphUpTo v).accesses a =
      (appendKept v g.coherence g.accessMap (g.orderedCopy v).accessMap a).getD [] := rfl
  rw [heq, appendKept]
  cases g.coherence a with
  | none =>
    rw [hmap]
    exact (List.append_nil _).symm
  | some l =>
    have hkept : ((g.accessMap a).getD []).filter (v.contains ·) =
        (g.accesses a).filter (v.contains ·) := rfl
    simp only [Option.isSome_some, if_true, hkept, hmap]
    split
    · rename_i hnil
      rw [hnil, List.append_nil]
      rfl
    · rfl

theorem accessMap_setRf (r : Event) (rf : Option Event) :
    (g.setRf r rf).accessMap = g.accessMap :=
  frame_setRf (·.accessMap) (fun _ _ => rfl) (fun _ _ => rfl) r rf

theorem accessMap_unlinkLabel (lab : EventLabel) :
    (g.unlinkLabel lab).accessMap = g.accessMap :=
  frame_unlinkLabel (·.accessMap) (fun _ _ => rfl) (fun _ _ => rfl) lab

/-- Removing a label takes it off its list. -/
theorem accesses_removeLast {t : ℕ} {lab : EventLabel} (hlast : g.getLastThreadLabel t = some lab)
    (a : SAddr) :
    (g.removeLast t).accesses a =
      if lab.isRegistered && lab.addr = a then (g.accesses a).filter (· ≠ lab.pos)
      else g.accesses a := by
  have hmap : (g.removeLast t).accessMap = (if lab.isMemAccess || lab.isFree then
      { g.unlinkLabel lab with
        accessMap := Function.update (g.unlinkLabel lab).accessMap lab.addr
          (some ((((g.unlinkLabel lab).accessMap lab.addr).getD []).filter (· ≠ lab.pos))) }
      else g.unlinkLabel lab).accessMap := by
    rw [ExecutionGraph.removeLast, hlast]
    dsimp -zeta only
    extract_lets g₂ g₃ g₄ g₅
    have hcreate : g₄.accessMap = g₃.accessMap := by
      simp only [g₄]
      split
      · split <;> rfl
      · rfl
    have hjoin : g₅.accessMap = g₄.accessMap := by
      simp only [g₅]
      split
      · split
        · rfl
        · split <;> rfl
      · rfl
    exact hjoin.trans hcreate
  rw [accesses, hmap]
  have hreg : (lab.isMemAccess || lab.isFree) = lab.isRegistered := rfl
  rw [hreg]
  cases lab.isRegistered with
  | false => rw [if_neg Bool.false_ne_true, accessMap_unlinkLabel]; rfl
  | true =>
    rw [if_pos rfl, accessMap_unlinkLabel]
    by_cases ha : lab.addr = a
    · subst ha
      simp [accesses]
    · simp [accesses, ha, Ne.symm ha]

/-! ## The invariant -/

/-- The invariant behind `AccessesListed`. -/
structure AccessInv (g : ExecutionGraph) : Prop extends AccessesListed g where
  located : ∀ a e, e ∈ g.accesses a → (g.coherence a).isSome
  begins : ∀ t lab, g.getEventLabel ⟨t, 0⟩ = some lab → lab.isRegistered = false

theorem index_pos_of_isRegistered
    (hbegins : ∀ t lab, g.getEventLabel ⟨t, 0⟩ = some lab → lab.isRegistered = false) {e : Event}
    {lab : EventLabel} (hlab : g.getEventLabel e = some lab) (hreg : lab.isRegistered = true) :
    0 < e.index := by
  obtain ⟨t, i⟩ := e
  refine Nat.pos_of_ne_zero fun hi => ?_
  obtain rfl : i = 0 := hi
  rw [hbegins t lab hlab] at hreg
  exact Bool.false_ne_true hreg

/-- Changing other parts of labels keeps the invariant. -/
theorem AccessInv.congr (h : AccessInv g) {g' : ExecutionGraph} {f : EventLabel → EventLabel}
    (hf : ∀ lab, (f lab).kind = lab.kind ∧ (f lab).addr = lab.addr)
    (hlab : ∀ e, g'.getEventLabel e = (g.getEventLabel e).map f)
    (hacc : g'.accessMap = g.accessMap)
    (hco : ∀ a, (g.coherence a).isSome → (g'.coherence a).isSome) : AccessInv g' := by
  have hmem : ∀ lab, (f lab).isMemAccess = lab.isMemAccess := fun lab => by
    rw [EventLabel.isMemAccess, (hf lab).1, EventLabel.isMemAccess]
  have hreg : ∀ lab, (f lab).isRegistered = lab.isRegistered := fun lab => by
    rw [EventLabel.isRegistered, hmem, EventLabel.isFree, (hf lab).1]
    rfl
  have haccesses : ∀ a, g'.accesses a = g.accesses a := fun a => by
    rw [accesses, hacc, accesses]
  refine ⟨⟨fun e lab' h' hm => ?_, fun a e he => ?_⟩, fun a e he => ?_, fun t lab' h' => ?_⟩
  · rw [hlab] at h'
    obtain ⟨lab, h1, rfl⟩ := Option.map_eq_some_iff.1 h'
    rw [haccesses, (hf lab).2]
    exact h.listed e lab h1 (by rwa [hmem] at hm)
  · rw [haccesses] at he
    obtain ⟨lab, h1, h2, h3⟩ := h.registered a e he
    refine ⟨f lab, by rw [hlab, h1]; rfl, by rw [hreg]; exact h2, by rw [(hf lab).2]; exact h3⟩
  · rw [haccesses] at he
    exact hco a (h.located a e he)
  · rw [hlab] at h'
    obtain ⟨lab, h1, rfl⟩ := Option.map_eq_some_iff.1 h'
    rw [hreg]
    exact h.begins t lab h1

/-- Restricting a graph keeps the invariant, if its lists have what is left of the memory accesses
and nothing but what is left of the registered labels. -/
theorem AccessInv.restrict (h : AccessInv g) {keep : Event → Bool} {g' : ExecutionGraph}
    (hr : RestrictedTo keep g g')
    (hbegins : ∀ t lab, g'.getEventLabel ⟨t, 0⟩ = some lab → lab.isRegistered = false)
    (hlisted : ∀ e lab, g.getEventLabel e = some lab → lab.isMemAccess = true → keep e = true →
      e ∈ g'.accesses lab.addr)
    (hregistered : ∀ a e, e ∈ g'.accesses a → keep e = true ∧ (g'.coherence a).isSome ∧
      ∃ lab, g.getEventLabel e = some lab ∧ lab.isRegistered = true ∧ lab.addr = a) :
    AccessInv g' := by
  refine ⟨⟨fun e lab' h' hm => ?_, fun a e he => ?_⟩, fun a e he => (hregistered a e he).2.1,
    hbegins⟩
  · have hpos := index_pos_of_isRegistered hbegins h' (EventLabel.isRegistered_of_isMemAccess hm)
    obtain ⟨hkeep, lab, h1, h2⟩ := hr.label e lab' hpos h'
    rw [h2.addr]
    refine hlisted e lab h1 ?_ hkeep
    rwa [EventLabel.isMemAccess, h2.kind] at hm
  · obtain ⟨hkeep, -, lab, h1, h2, h3⟩ := hregistered a e he
    have hpos := index_pos_of_isRegistered h.begins h1 h2
    obtain ⟨lab', h'⟩ := Option.isSome_iff_exists.1 (hr.kept e hpos hkeep (by rw [h1]; rfl))
    obtain ⟨-, lab₁, h4, h5⟩ := hr.label e lab' hpos h'
    obtain rfl : lab = lab₁ := Option.some.inj (h1.symm.trans h4)
    refine ⟨lab', h', ?_, h5.addr.trans h3⟩
    rw [EventLabel.isRegistered, EventLabel.isMemAccess, EventLabel.isFree, h5.kind]
    exact h2

/-! ## One operation -/

theorem accessInv_init : AccessInv init := by
  have hnone : ∀ a, init.accesses a = [] := fun _ => rfl
  have hlab : ∀ e lab, init.getEventLabel e = some lab → lab.isRegistered = false := by
    intro e lab h
    obtain ⟨t, i⟩ := e
    cases t with
    | zero =>
      cases i with
      | zero =>
        cases h
        rfl
      | succ i => cases h
    | succ t => cases h
  refine ⟨⟨fun e lab h hm => ?_, fun a e he => ?_⟩, fun a e he => ?_, fun t lab h => hlab _ lab h⟩
  · exact absurd (EventLabel.isRegistered_of_isMemAccess hm) (by rw [hlab e lab h]; decide)
  · rw [hnone] at he
    exact absurd he List.not_mem_nil
  · rw [hnone] at he
    exact absurd he List.not_mem_nil

theorem AccessInv.addLabelToGraph (h : AccessInv g) (hs : g.Seated) {lab : EventLabel}
    (hfresh : Fresh g lab) (hbegin : lab.pos.index = 0 → lab.isThreadStart = true) :
    AccessInv (g.addLabelToGraph lab) := by
  have hget := getEventLabel_addLabelToGraph hs hfresh.thread hfresh.index
  have hsame := stampLabel_same (g := g) lab
  have hreg : (g.stampLabel lab).1.isRegistered = lab.isRegistered := by
    rw [EventLabel.isRegistered, EventLabel.isMemAccess, EventLabel.isFree, hsame.kind]
    rfl
  have hnone : g.getEventLabel lab.pos = none := getEventLabel_of_index_ge hfresh.index.ge
  have hold : ∀ {e lab'}, g.getEventLabel e = some lab' →
      (g.addLabelToGraph lab).getEventLabel e = some lab' := by
    intro e lab' h'
    rw [hget, if_neg (fun he => by rw [he, hnone] at h'; cases h')]
    exact h'
  have hco : ∀ a, (g.coherence a).isSome ∨ (lab.isRegistered = true ∧ lab.addr = a) →
      ((g.addLabelToGraph lab).coherence a).isSome := by
    intro a ha
    rw [addLabelToGraph_eq hs hfresh.index]
    exact (tracked_trackLabel lab a).2 ha
  refine ⟨⟨fun e lab' h' hm => ?_, fun a e he => ?_⟩, fun a e he => ?_, fun t lab' h' => ?_⟩
  · rw [accesses_addLabelToGraph, List.mem_append]
    rw [hget] at h'
    split at h'
    · rename_i he
      cases h'
      have hreg' := EventLabel.isRegistered_of_isMemAccess hm
      rw [hreg] at hreg'
      rw [hsame.addr, he, hreg']
      simp
    · exact .inl (h.listed e lab' h' hm)
  · rw [accesses_addLabelToGraph, List.mem_append] at he
    rcases he with he | he
    · obtain ⟨lab', h1, h2⟩ := h.registered a e he
      exact ⟨lab', hold h1, h2⟩
    · split at he
      · rename_i hcond
        rw [Bool.and_eq_true, decide_eq_true_eq] at hcond
        refine ⟨(g.stampLabel lab).1, ?_, by rw [hreg]; exact hcond.1, hsame.addr.trans hcond.2⟩
        rw [hget, if_pos (List.mem_singleton.1 he)]
      · exact absurd he List.not_mem_nil
  · rw [accesses_addLabelToGraph, List.mem_append] at he
    rcases he with he | he
    · exact hco a (.inl (h.located a e he))
    · split at he
      · rename_i hcond
        rw [Bool.and_eq_true, decide_eq_true_eq] at hcond
        exact hco a (.inr hcond)
      · exact absurd he List.not_mem_nil
  · rw [hget] at h'
    split at h'
    · rename_i he
      cases h'
      have hstart := hbegin (by rw [← he])
      rw [hreg, EventLabel.isRegistered, EventLabel.isMemAccess, EventLabel.isFree]
      rw [EventLabel.isThreadStart] at hstart
      cases hk : lab.kind <;> rw [hk] at hstart <;> first | rfl | cases hstart
    · exact h.begins t lab' h'

theorem AccessInv.setRf (h : AccessInv g) {r : Event} {rLab : EventLabel}
    (hr : g.getEventLabel r = some rLab) (hpos : rLab.pos = r) (rf : Option Event) :
    AccessInv (g.setRf r rf) := by
  obtain ⟨f, hget, hf⟩ := rewiredBy_setRf hr hpos rf
  exact h.congr (fun lab => ⟨(hf lab).kind, (hf lab).addr⟩) hget (accessMap_setRf r rf)
    fun a ha => by rw [coherence_setRf]; exact ha

theorem AccessInv.moveCo (h : AccessInv g) (w pred : Event) (a : SAddr) :
    AccessInv (g.moveCo w pred a) := by
  refine h.congr (f := fun lab => if lab.pos = w then _ else lab) (fun lab => ?_)
    (fun e => getEventLabel_modify _ _ e) rfl fun _ h' => isSome_update (isSome_update h')
  split <;> exact ⟨rfl, rfl⟩

theorem AccessInv.removeLast (h : AccessInv g) (hg : ReaderInv g) (t : ℕ) :
    AccessInv (g.removeLast t) := by
  cases hlast : g.getLastThreadLabel t with
  | none =>
    rw [ExecutionGraph.removeLast, hlast]
    exact h
  | some lab =>
    obtain ⟨-, hlab⟩ := getLastThreadLabel_eq_some.1 hlast
    obtain ⟨f, hf, -, hget⟩ := hg.getEventLabel_removeLast hlast
    have hacc := accesses_removeLast hlast
    have hcoh : (g.removeLast t).coherence = g.coherence := by
      obtain ⟨k, hk, acc, heq⟩ := removeLast_eq hlast
      rw [heq]
      exact (unlinkLabel_frame lab).2
    refine h.restrict (hg.restrictedTo_removeLast hlast) (fun t' lab' h' => ?_)
      (fun e lab' h' hm hkeep => ?_) fun a e he => ?_
    · rw [hget] at h'
      split at h'
      · cases h'
      · obtain ⟨l, h1, rfl⟩ := Option.map_eq_some_iff.1 h'
        rw [EventLabel.isRegistered, EventLabel.isMemAccess, EventLabel.isFree, (hf l).2.2]
        exact h.begins t' l h1
    · rw [hacc]
      split
      · exact List.mem_filter.2 ⟨h.listed e lab' h' hm, hkeep⟩
      · exact h.listed e lab' h' hm
    · rw [hacc] at he
      split at he
      · obtain ⟨he, hne⟩ := List.mem_filter.1 he
        exact ⟨hne, by rw [hcoh]; exact h.located a e he, h.registered a e he⟩
      · -- what is on another list is another label
        rename_i hcond
        obtain ⟨lab', h1, h2, h3⟩ := h.registered a e he
        refine ⟨?_, by rw [hcoh]; exact h.located a e he, lab', h1, h2, h3⟩
        rw [decide_eq_true_eq]
        rintro rfl
        have hpos := index_pos_of_isRegistered h.begins h1 h2
        rw [hg.seated.getEventLabel_pos hlab hpos] at h1
        cases h1
        exact hcond (by rw [h2, h3]; simp)

/-- After cutting, a list is filtered, or the location is gone together with its memory accesses. -/
theorem AccessInv.accesses_removeAfter (h : AccessInv g) (preds : View) (a : SAddr) :
    ((g.removeAfter preds).accesses a = (g.accesses a).filter (preds.contains ·) ∧
        ((g.coherence a).isSome → ((g.removeAfter preds).coherence a).isSome)) ∨
      ((g.removeAfter preds).accesses a = [] ∧ ∀ e lab, preds.contains e = true →
        g.getEventLabel e = some lab → lab.isMemAccess = true → lab.addr ≠ a) := by
  by_cases hco : (g.coherence a).isNone = true
  · left
    have hnil : g.accesses a = [] := by
      rw [List.eq_nil_iff_forall_not_mem]
      intro e he
      have hsome := h.located a e he
      rw [Option.isNone_iff_eq_none.1 hco] at hsome
      exact Bool.false_ne_true hsome
    have hsame : (g.removeAfter preds).accesses a = g.accesses a := by
      simp only [removeAfter, accesses]
      rw [if_pos hco]
    rw [hsame, hnil, Option.isNone_iff_eq_none.1 hco]
    exact ⟨rfl, fun hsome => absurd hsome Bool.false_ne_true⟩
  · by_cases hkeep : ((g.keptEvents preds).flatten.any fun lab =>
        lab.isMemAccess && lab.addr = a) = true
    · left
      simp only [removeAfter, accesses]
      rw [if_neg hco, if_neg hco, if_pos hkeep, if_pos hkeep]
      exact ⟨rfl, fun _ => rfl⟩
    · right
      refine ⟨?_, fun e lab he hlab hm ha => hco ?_⟩
      · simp only [removeAfter, accesses]
        rw [if_neg hco, if_neg hkeep]
        rfl
      · -- an access in the view keeps its location alive
        subst ha
        have hsome : (g.coherence lab.addr).isSome :=
          h.located _ e (h.listed e lab hlab hm)
        have hkept := (isSome_removeAfter hlab he hm hsome).1
        simp only [removeAfter] at hkept
        rw [if_neg hco, if_neg hkeep] at hkept
        cases hkept

/-- Cleaning up and stamping leave the maps alone. -/
theorem maps_cutToStamp (hs : g.Seated) (stamp : ℕ) :
    (g.cutToStamp stamp).accessMap = (g.removeAfter (g.getViewFromStamp stamp)).accessMap ∧
      (g.cutToStamp stamp).coherence = (g.removeAfter (g.getViewFromStamp stamp)).coherence := by
  set g₁ := g.restrictTo (g.getViewFromStamp stamp) with hg₁
  have hclean := cleanedUp_cleanupBegins (g := g₁) (fun _ bLab => bLab.create.isNone)
    g₁.getNumThreads (hs.restrictTo _) fun t ht => by rw [getThreadSize_eq_zero ht]; omega
  have hcut : g.cutToStamp stamp =
      (g₁.cleanupBegins (fun _ bLab => bLab.create.isNone) g₁.getNumThreads).resetStamps := rfl
  rw [hcut, resetStamps_eq]
  exact ⟨hclean.accessMap, hclean.coherence⟩

theorem accesses_cutToStamp (hs : g.Seated) (stamp : ℕ) (a : SAddr) :
    (g.cutToStamp stamp).accesses a = (g.removeAfter (g.getViewFromStamp stamp)).accesses a := by
  rw [accesses, (maps_cutToStamp hs stamp).1, accesses]

theorem AccessInv.cutToStamp (h : AccessInv g) (hg : ReaderInv g) (stamp : ℕ) :
    AccessInv (g.cutToStamp stamp) := by
  have hacc := accesses_cutToStamp hg.seated stamp
  refine h.restrict (hg.restrictedTo_cutToStamp stamp) (fun t lab' h' => ?_)
    (fun e lab h' hm hkeep => ?_) fun a e he => ?_
  · obtain ⟨t₀, lab, h1, hk, -⟩ := begin_cutToStamp hg.seated stamp h'
    rw [EventLabel.isRegistered, EventLabel.isMemAccess, EventLabel.isFree, hk]
    exact h.begins t₀ lab h1
  · rw [hacc]
    rcases h.accesses_removeAfter (g.getViewFromStamp stamp) lab.addr with ⟨heq, -⟩ | ⟨-, hne⟩
    · rw [heq]
      exact List.mem_filter.2 ⟨h.listed e lab h' hm, hkeep⟩
    · exact absurd rfl (hne e lab hkeep h' hm)
  · rw [hacc] at he
    rcases h.accesses_removeAfter (g.getViewFromStamp stamp) a with ⟨heq, hsome⟩ | ⟨hnil, -⟩
    · rw [heq, List.mem_filter] at he
      rw [(maps_cutToStamp hg.seated stamp).2]
      exact ⟨he.2, hsome (h.located a e he.1), h.registered a e he.1⟩
    · rw [hnil] at he
      exact absurd he List.not_mem_nil

theorem AccessInv.copyGraphUpTo (h : AccessInv g) (hg : ReaderInv g) (hs : g.Slots) (v : View) :
    AccessInv (g.copyGraphUpTo v) := by
  have hacc := accesses_copyGraphUpTo hs hg.stamped v
  have hclone := cloned_cloneLabels hs hg.stamped v
  have hco : ∀ a e lab, v.contains e = true → g.getEventLabel e = some lab →
      lab.isRegistered = true → lab.addr = a → ((g.copyGraphUpTo v).coherence a).isSome := by
    intro a e lab hc hlab hreg ha
    have hcloned : ((g.cloneLabels v).coherence a).isSome := by
      refine (hclone.tracked a).2 ⟨e.thread, lt_getNumThreads_of_getEventLabel hlab, lab.clone,
        List.mem_of_getElem? (i := e.index) ?_, hreg, ha⟩
      have hpos := index_pos_of_isRegistered h.begins hlab hreg
      rw [getElem?_clonedThread, if_neg (fun h0 => by rw [h0] at hpos; exact lt_irrefl _ hpos),
        if_pos hc, hlab]
      rfl
    refine isSome_appendKept ?_
    show ((g.orderedCopy v).coherence a).isSome
    rw [orderedCopy, fixInsertionOrder_eq]
    show ((g.cleanedCopy v).coherence a).isSome
    rwa [(cleanedUp_cleanedCopy hs hg.stamped v).coherence]
  refine h.restrict (hg.restrictedTo_copyGraphUpTo hs v) (fun t lab' h' => ?_)
    (fun e lab h' hm hkeep => ?_) fun a e he => ?_
  · rw [EventLabel.isRegistered, EventLabel.isMemAccess, EventLabel.isFree]
    rcases (begin_copyGraphUpTo hs hg.stamped v h').1 with hk | ⟨t₀, lab, h1, hk⟩
    · rw [hk]
      rfl
    · rw [hk]
      exact h.begins t₀ lab h1
  · rw [hacc, if_pos (hg.tracked e lab h' hm)]
    exact List.mem_append_right _ (List.mem_filter.2 ⟨h.listed e lab h' hm, hkeep⟩)
  · have hlab : v.contains e = true ∧
        ∃ lab, g.getEventLabel e = some lab ∧ lab.isRegistered = true ∧ lab.addr = a := by
      rw [hacc, List.mem_append] at he
      rcases he with he | he
      · exact mem_accesses_cloneLabels hs he
      · split at he
        · obtain ⟨he, hc⟩ := List.mem_filter.1 he
          exact ⟨hc, h.registered a e he⟩
        · exact absurd he List.not_mem_nil
    obtain ⟨hc, lab, h1, h2, h3⟩ := hlab
    exact ⟨hc, hco a e lab hc h1 h2 h3, lab, h1, h2, h3⟩

/-! ## All graphs -/

theorem Built.accessInv {copies : Bool} (h : Built copies g) : AccessInv g := by
  induction h with
  | init => exact accessInv_init
  | addNewThread _ ih =>
    exact ih.congr (f := id) (fun _ => ⟨rfl, rfl⟩)
      (fun e => by rw [getEventLabel_addNewThread, Option.map_id_fun, id]) rfl fun _ => id
  | addLabelToGraph hb hfresh hbegin ih =>
    exact ih.addLabelToGraph hb.reachable.readerInv.seated hfresh hbegin
  | setRf hb hr hread _ ih =>
    have hinv := hb.reachable.readerInv
    have hpos := hinv.above _ _ hr (EventLabel.isMemAccess_of_isRead hread)
    exact ih.setRf hr (hinv.seated.pos_eq hr hpos) _
  | addCo w pred a _ ih =>
    exact ih.congr (f := id) (fun _ => ⟨rfl, rfl⟩) (fun e => by rw [Option.map_id_fun, id]; rfl) rfl
      fun _ => isSome_update
  | moveCo w pred a _ ih => exact ih.moveCo w pred a
  | removeLast t hb ih => exact ih.removeLast hb.reachable.readerInv t
  | cutToStamp stamp hb ih => exact ih.cutToStamp hb.reachable.readerInv stamp
  | copyGraphUpTo v _ hb hs ih => exact ih.copyGraphUpTo hb.reachable.readerInv hs v

/-- Without copies nothing is registered twice. -/
theorem Built.nodup_accesses (h : Built false g) (a : SAddr) : (g.accesses a).Nodup := by
  induction h with
  | init => exact List.nodup_nil
  | addNewThread _ ih => exact ih
  | @addLabelToGraph g lab hb hfresh _ ih =>
    rw [accesses_addLabelToGraph]
    split
    · refine List.nodup_append.2 ⟨ih, List.nodup_singleton _, fun e he e' he' => ?_⟩
      rintro rfl
      obtain ⟨lab', h1, -⟩ := hb.accessInv.registered a e he
      rw [List.mem_singleton.1 he', getEventLabel_of_index_ge hfresh.index.ge] at h1
      cases h1
    · rwa [List.append_nil]
  | setRf _ _ _ _ ih =>
    rw [accesses, accessMap_setRf]
    exact ih
  | addCo w pred a _ ih => exact ih
  | moveCo w pred a _ ih => exact ih
  | @removeLast g t _ ih =>
    cases hlast : g.getLastThreadLabel t with
    | none =>
      rw [ExecutionGraph.removeLast, hlast]
      exact ih
    | some lab =>
      rw [accesses_removeLast hlast]
      split
      · exact ih.filter _
      · exact ih
  | @cutToStamp g stamp hb ih =>
    rw [accesses_cutToStamp hb.reachable.readerInv.seated]
    rcases hb.accessInv.accesses_removeAfter (g.getViewFromStamp stamp) a with ⟨heq, -⟩ | ⟨hnil, -⟩
    · rw [heq]
      exact ih.filter _
    · rw [hnil]
      exact List.nodup_nil
  | copyGraphUpTo v hc _ _ _ => exact absurd hc Bool.false_ne_true

/-- **What is on the access lists of any graph**: the memory accesses, and nothing but accesses and
deallocations; once each, if the graph was built without copies. -/
theorem built_accessesListed {copies : Bool} (h : Built copies g) :
    AccessesListed g ∧
      (copies = false → ∀ a e, e ∈ g.accesses a → (g.accesses a).count e = 1) := by
  refine ⟨h.accessInv.toAccessesListed, fun hc a e he => ?_⟩
  subst hc
  exact List.count_eq_one_of_mem (h.nodup_accesses a) he

/-- A thread that stores and then loads. -/
def storeLoad : ExecutionGraph :=
  (init.addLabelToGraph { kind := .Write, pos := ⟨0, 1⟩, addr := 7 }).addLabelToGraph
    { kind := .Read, pos := ⟨0, 2⟩, addr := 7 }

theorem built_storeLoad (copies : Bool) : Built copies storeLoad := by
  refine .addLabelToGraph (.addLabelToGraph .init ?_ nofun) ?_ nofun
  · exact ⟨by decide, rfl, rfl, rfl, fun _ => by decide⟩
  · exact ⟨by decide, rfl, rfl, rfl, fun _ => by decide⟩

theorem storeLoad_listed :
    storeLoad.accesses 7 = [⟨0, 1⟩, ⟨0, 2⟩] ∧ AccessesListed storeLoad ∧
      (false = false → ∀ a e, e ∈ storeLoad.accesses a →
        (storeLoad.accesses a).count e = 1) :=
  ⟨rfl, built_accessesListed (built_storeLoad false)⟩

/-- A thread that frees a location. -/
def freed : ExecutionGraph := init.addLabelToGraph { kind := .Free, pos := ⟨0, 1⟩, addr := 7 }

/-- Deallocations are on the lists, and a copy registers every access twice. -/
theorem not_accessesExact :
    (Built false freed ∧ ¬ AccessesExact freed) ∧
      Built true (storeLoad.copyGraphUpTo ⟨fun _ => 2⟩) ∧
      ¬ AccessesExact (storeLoad.copyGraphUpTo ⟨fun _ => 2⟩) := by
  refine ⟨⟨.addLabelToGraph .init ⟨by decide, rfl, rfl, rfl, fun _ => by decide⟩ nofun,
    fun h => ?_⟩, .copyGraphUpTo _ rfl (built_storeLoad true) ?_, fun h => ?_⟩
  · exact absurd (h 7 ⟨0, 1⟩) (by decide)
  · decide
  · exact absurd (h 7 ⟨0, 1⟩) (by decide)

end ExecutionGraph
end GenMC
