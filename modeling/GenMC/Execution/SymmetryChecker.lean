import GenMC.Execution.Operations
import GenMC.Library.Relabel

/-!
# Symmetry reduction

Threads that run the same code are linked into chains, each begin knowing its symmetric
predecessor and successor.  Graphs that differ only in how the threads of a chain are named need
not all be explored, and `isSymmetryOK` is meant to accept the representative: it compares a label
with the label at the same index of every thread of the chain, as long as the two threads have
read the same so far, and insists that the label of the thread that comes first in the chain is
not behind the other one in coherence.

* `Precedes g p q` says that, at some index up to which they agree, thread `p` has an access that
  is before the access of `q` in coherence, so that the check wants `p` to come first in the chain.
* `permute` renames threads, and `passes_iff` reduces the check on all labels of a graph to:
  `Precedes` never goes against the order of a chain.
* `exists_representative_iff` is the result: some renaming of symmetric threads passes the check if
  and only if `Precedes` has no cycle inside a chain.  There can be one, as the check looks at every
  index up to which two threads agree, and agreement ignores where writes are placed in coherence:
  two threads that write `x` and then `y` may be ordered one way at `x` and the other way at `y`
  (`twoPlusTwoW_no_representative`).
-/

set_option autoImplicit false

namespace GenMC
namespace SymmetryChecker

open ExecutionGraph Relation

/-! ## The check -/

/-- The symmetric predecessor of a thread. -/
def symmPredTid (g : ExecutionGraph) (t : ℕ) : Option ℕ :=
  (g.getFirstThreadLabel t).bind (·.symmPredTid)

/-- The symmetric successor of a thread. -/
def symmSuccTid (g : ExecutionGraph) (t : ℕ) : Option ℕ :=
  (g.getFirstThreadLabel t).bind (·.symmSuccTid)

/-- Whether the `j`-th labels of two threads look alike: they are of the same kind, and if they are
reads, they read from the same write, or each from its own thread at the same index. -/
def agreeAt (g : ExecutionGraph) (symm t j : ℕ) : Bool :=
  match g.getEventLabel ⟨symm, j⟩, g.getEventLabel ⟨t, j⟩ with
  | some labA, some labB =>
    labA.kind = labB.kind && (!labA.isRead ||
      (labA.rf.any (·.thread = symm) && labB.rf.any (·.thread = t) &&
        labA.rf.map (·.index) = labB.rf.map (·.index)) ||
      labA.rf = labB.rf)
  | _, _ => false

/-- The largest index up to which thread `symm` agrees with the thread of a label, below the
label. -/
def calcLargestSymmPrefixBeforeSR (g : ExecutionGraph) (symm : ℕ) (lab : EventLabel) : ℤ :=
  if g.getNumThreads ≤ symm then -1
  else
    let limit := min (lab.pos.index : ℤ) (g.getThreadSize symm - 1)
    match (List.range limit.toNat).find? fun j => !agreeAt g symm lab.pos.thread j with
    | some j => (j : ℤ) - 1
    | none => limit

/-- Whether thread `symm` agrees with the thread of a label up to the label. -/
def sharePrefixSR (g : ExecutionGraph) (symm : ℕ) (lab : EventLabel) : Bool :=
  calcLargestSymmPrefixBeforeSR g symm lab = lab.pos.index

/-- Whether a label is before the label at the same index of thread `tid`: in coherence, from-read,
or one of these followed by reads-from. -/
def isEcoBefore (g : ExecutionGraph) (lab : EventLabel) (tid : ℕ) : Bool :=
  let symmPos : Event := ⟨tid, lab.pos.index⟩
  let hits : Event → Bool := fun s =>
    s = symmPos || (((g.getEventLabel s).map (·.readers)).getD []).contains symmPos
  lab.isMemAccess && ((g.coSuccs lab).any hits || (g.frSuccs lab).any hits)

/-- The check of a label against one symmetric predecessor. -/
def isPredSymmetryOKAt (g : ExecutionGraph) (lab : EventLabel) (symm : ℕ) : Bool :=
  if !sharePrefixSR g symm lab || !g.containsPos ⟨symm, lab.pos.index⟩ then true
  else
    match g.getEventLabel ⟨symm, lab.pos.index⟩ with
    | none => true
    | some symmLab => symmLab.kind ≠ lab.kind || !isEcoBefore g lab symm

/-- The check of a label against one symmetric successor. -/
def isSuccSymmetryOKAt (g : ExecutionGraph) (lab : EventLabel) (symm : ℕ) : Bool :=
  if !sharePrefixSR g symm lab || !g.containsPos ⟨symm, lab.pos.index⟩ then true
  else
    match g.getEventLabel ⟨symm, lab.pos.index⟩ with
    | none => true
    | some symmLab => symmLab.kind ≠ lab.kind || !isEcoBefore g symmLab lab.pos.thread

/-- The threads reached from `t` by following links, `fuel` of them at most. -/
def follow (next : ℕ → Option ℕ) : ℕ → ℕ → List ℕ
  | 0, _ => []
  | fuel + 1, t =>
    match next t with
    | none => []
    | some s => s :: follow next fuel s

def isPredSymmetryOK (g : ExecutionGraph) (lab : EventLabel) : Bool :=
  (follow (symmPredTid g) g.getNumThreads lab.pos.thread).all (isPredSymmetryOKAt g lab)

def isSuccSymmetryOK (g : ExecutionGraph) (lab : EventLabel) : Bool :=
  (follow (symmSuccTid g) g.getNumThreads lab.pos.thread).all (isSuccSymmetryOKAt g lab)

/-- Whether a label is compatible with the graph being the representative one. -/
def isSymmetryOK (g : ExecutionGraph) (lab : EventLabel) : Bool :=
  isPredSymmetryOK g lab && isSuccSymmetryOK g lab

/-- Whether the check accepts all memory accesses of a graph. -/
def Passes (g : ExecutionGraph) : Prop :=
  ∀ e lab, g.getEventLabel e = some lab → lab.isMemAccess = true → isSymmetryOK g lab = true

/-! ## Chains -/

/-- Thread `a` is the symmetric predecessor of thread `b`. -/
def Link (g : ExecutionGraph) (a b : ℕ) : Prop := symmPredTid g b = some a

/-- Thread `a` comes before thread `b` in a chain. -/
def SymmBefore (g : ExecutionGraph) : ℕ → ℕ → Prop := TransGen (Link g)

/-- Two threads of one chain. -/
def SameChain (g : ExecutionGraph) (a b : ℕ) : Prop :=
  ReflTransGen (Link g) a b ∨ ReflTransGen (Link g) b a

/-- The links are those of chains, and symmetric threads have begins like any other thread. -/
structure SymmLinked (g : ExecutionGraph) : Prop where
  slots : g.Slots
  begun : ∀ t < g.getNumThreads, (g.getEventLabel ⟨t, 0⟩).isSome
  main : ∀ lab, g.getEventLabel ⟨0, 0⟩ = some lab → lab.kind = .Init
  begins : ∀ t lab, 0 < t → g.getEventLabel ⟨t, 0⟩ = some lab → lab.kind = .ThreadStart
  pred : ∀ a b, symmPredTid g b = some a → 0 < a ∧ a < b ∧ symmSuccTid g a = some b
  succ : ∀ a b, symmSuccTid g a = some b → symmPredTid g b = some a
  rf : ∀ e lab w, g.getEventLabel e = some lab → lab.rf = some w → w.index = 0 →
    w = Event.getInit

/-- **What the check asks for**: thread `p` has an access that is before the access of thread `q` at
an index up to which the two agree. -/
def Precedes (g : ExecutionGraph) (p q : ℕ) : Prop :=
  ∃ i lab symmLab, g.getEventLabel ⟨p, i⟩ = some lab ∧ g.getEventLabel ⟨q, i⟩ = some symmLab ∧
    symmLab.kind = lab.kind ∧ sharePrefixSR g q lab = true ∧ isEcoBefore g lab q = true

/-! ## Renaming threads -/

/-- Renames the thread of an event.  Begins keep their place. -/
def rename (σ : Equiv.Perm ℕ) (e : Event) : Event :=
  if e.index = 0 then e else ⟨σ e.thread, e.index⟩

/-- Renames the threads in a label. -/
def renameLabel (σ : Equiv.Perm ℕ) (lab : EventLabel) : EventLabel :=
  { lab with
    pos := rename σ lab.pos
    prefixView := ⟨fun t => lab.prefixView.getMax (σ.symm t)⟩
    rf := lab.rf.map (rename σ)
    readers := lab.readers.map (rename σ)
    createId := rename σ lab.createId
    create := lab.create.map (rename σ)
    parentJoin := lab.parentJoin.map (rename σ)
    linPreds := lab.linPreds.map (rename σ)
    linSuccs := lab.linSuccs.map (rename σ) }

/-- The graph in which thread `σ t` has the labels that thread `t` had, begins apart. -/
def permute (σ : Equiv.Perm ℕ) (g : ExecutionGraph) : ExecutionGraph :=
  { g with
    events := (List.range g.getNumThreads).map fun t =>
      (((g.events.getD t []).take 1) ++ (g.events.getD (σ.symm t) []).drop 1).map (renameLabel σ)
    insertionOrder := g.insertionOrder.map (rename σ)
    coherence := fun a => (g.coherence a).map (·.map (rename σ))
    initRfs := fun a => (g.initRfs a).map (·.map (rename σ))
    accessMap := fun a => (g.accessMap a).map (·.map (rename σ)) }

/-! ## The order of a chain -/

section Chain

variable {g : ExecutionGraph}

/-- Following links that decrease a measure reaches all that can be reached. -/
theorem mem_follow {next : ℕ → Option ℕ} {μ : ℕ → ℕ}
    (hμ : ∀ a b, next a = some b → μ b < μ a) {fuel t : ℕ} (hf : μ t ≤ fuel) {s : ℕ} :
    s ∈ follow next fuel t ↔ TransGen (fun a b => next a = some b) t s := by
  induction fuel generalizing t with
  | zero =>
    refine ⟨fun h => absurd h List.not_mem_nil, fun h => ?_⟩
    obtain ⟨b, hb, -⟩ := TransGen.head'_iff.1 h
    have := hμ t b hb
    omega
  | succ fuel ih =>
    rw [follow]
    cases hn : next t with
    | none =>
      refine ⟨fun h => absurd h List.not_mem_nil, fun h => ?_⟩
      obtain ⟨b, hb, -⟩ := TransGen.head'_iff.1 h
      rw [hn] at hb
      cases hb
    | some b =>
      have hlt := hμ t b hn
      show s ∈ b :: follow next fuel b ↔ _
      rw [List.mem_cons, ih (by omega)]
      refine ⟨?_, fun h => ?_⟩
      · rintro (rfl | h)
        · exact .single hn
        · exact .head hn h
      · obtain ⟨c, hc, hs⟩ := TransGen.head'_iff.1 h
        rw [hn] at hc
        cases hc
        rcases reflTransGen_iff_eq_or_transGen.1 hs with h' | h'
        · exact Or.inl h'
        · exact Or.inr h'

variable (h : SymmLinked g)
include h

theorem SymmLinked.link_lt {a b : ℕ} (hab : Link g a b) : a < b := (h.pred a b hab).2.1

theorem SymmLinked.symmBefore_lt {a b : ℕ} (hab : SymmBefore g a b) : a < b := by
  induction hab with
  | single hl => exact h.link_lt hl
  | tail _ hl ih => exact ih.trans (h.link_lt hl)

omit h in
theorem lt_getNumThreads_of_symmPredTid {a b : ℕ} (hab : symmPredTid g b = some a) :
    b < g.getNumThreads := by
  obtain ⟨lab, hlab, -⟩ := Option.bind_eq_some_iff.1 hab
  rw [getFirstThreadLabel, Option.filter_eq_some_iff, getEventLabel_eq_some] at hlab
  obtain ⟨⟨thr, hthr, -⟩, -⟩ := hlab
  exact (List.getElem?_eq_some_iff.1 hthr).1

theorem SymmLinked.mem_preds {t s : ℕ} (ht : t < g.getNumThreads) :
    s ∈ follow (symmPredTid g) g.getNumThreads t ↔ SymmBefore g s t := by
  have hdec : ∀ a b, symmPredTid g a = some b → b < a := fun a b hab => h.link_lt hab
  rw [mem_follow (μ := fun a => a) hdec ht.le]
  exact transGen_swap

theorem SymmLinked.mem_succs {t s : ℕ} :
    s ∈ follow (symmSuccTid g) g.getNumThreads t ↔ SymmBefore g t s := by
  have hrel : (fun a b => symmSuccTid g a = some b) = Link g := by
    funext a b
    exact propext ⟨fun hab => h.succ a b hab, fun hab => (h.pred a b hab).2.2⟩
  rw [mem_follow (μ := fun a => g.getNumThreads - a) (fun a b hab => ?_) (Nat.sub_le _ _), hrel]
  · rfl
  · have hlink := h.succ a b hab
    have h1 := h.link_lt hlink
    have h2 := lt_getNumThreads_of_symmPredTid hlink
    omega

theorem SymmLinked.sameChain_trans {a b c : ℕ} (hab : SameChain g a b) (hbc : SameChain g b c) :
    SameChain g a c := by
  have hright : Relator.RightUnique (Link g) := by
    intro x y z hy hz
    have h1 := (h.pred x y hy).2.2
    have h2 := (h.pred x z hz).2.2
    rw [h1] at h2
    exact Option.some.inj h2
  have hleft : Relator.RightUnique (Function.swap (Link g)) := by
    intro x y z hy hz
    exact Option.some.inj (hy.symm.trans hz)
  rcases hab with hab | hab
  · rcases hbc with hbc | hbc
    · exact Or.inl (hab.trans hbc)
    · have := ReflTransGen.total_of_right_unique hleft (reflTransGen_swap.2 hab)
        (reflTransGen_swap.2 hbc)
      exact this.symm.imp reflTransGen_swap.1 reflTransGen_swap.1
  · rcases hbc with hbc | hbc
    · exact ReflTransGen.total_of_right_unique hright hab hbc
    · exact Or.inr (hbc.trans hab)

omit h in
theorem sameChain_symm {a b : ℕ} (hab : SameChain g a b) : SameChain g b a := hab.symm

theorem SymmLinked.symmBefore_iff {a b : ℕ} : SymmBefore g a b ↔ SameChain g a b ∧ a < b := by
  refine ⟨fun hab => ?_, ?_⟩
  · exact ⟨Or.inl hab.to_reflTransGen, h.symmBefore_lt hab⟩
  · rintro ⟨hab | hab, hlt⟩
    · rcases reflTransGen_iff_eq_or_transGen.1 hab with h' | h'
      · omega
      · exact h'
    · rcases reflTransGen_iff_eq_or_transGen.1 hab with h' | h'
      · omega
      · have := h.symmBefore_lt h'
        omega

/-- The threads of a chain are threads of the graph, and not the main thread. -/
theorem SymmLinked.of_sameChain {a b : ℕ} (hab : SameChain g a b) (hne : a ≠ b) :
    0 < a ∧ a < g.getNumThreads := by
  have hpair : ∀ {x y}, SymmBefore g x y → (0 < x ∧ 0 < y) ∧ x < g.getNumThreads ∧
      y < g.getNumThreads := by
    intro x y hxy
    have hlt := h.symmBefore_lt hxy
    obtain ⟨z, hz, -⟩ := TransGen.head'_iff.1 hxy
    obtain ⟨w, -, hw⟩ := TransGen.tail'_iff.1 hxy
    have h1 := (h.pred x z hz).1
    have h2 := lt_getNumThreads_of_symmPredTid hw
    omega
  rcases lt_or_gt_of_ne hne with hlt | hgt
  · have := hpair (h.symmBefore_iff.2 ⟨hab, hlt⟩)
    omega
  · have := hpair (h.symmBefore_iff.2 ⟨sameChain_symm hab, hgt⟩)
    omega

end Chain

/-! ## The check on a whole graph -/

section Passes

variable {g : ExecutionGraph}

theorem agreeAt_comm (g : ExecutionGraph) (p q j : ℕ) : agreeAt g p q j = agreeAt g q p j := by
  rw [agreeAt, agreeAt]
  cases g.getEventLabel ⟨p, j⟩ with
  | none => cases g.getEventLabel ⟨q, j⟩ <;> rfl
  | some labA =>
    cases g.getEventLabel ⟨q, j⟩ with
    | none => rfl
    | some labB =>
      simp only
      by_cases hk : labA.kind = labB.kind
      · have hr : labA.isRead = labB.isRead := by simp only [EventLabel.isRead, hk]
        have hrf : decide (labA.rf = labB.rf) = decide (labB.rf = labA.rf) :=
          decide_eq_decide.2 eq_comm
        have hidx : decide (labA.rf.map (·.index) = labB.rf.map (·.index)) =
            decide (labB.rf.map (·.index) = labA.rf.map (·.index)) := decide_eq_decide.2 eq_comm
        rw [hr, hk, Bool.and_comm (labA.rf.any _), hrf, hidx]
      · simp [hk, Ne.symm hk]

/-- Two threads share a prefix up to a label if both reach that far and agree below. -/
theorem sharePrefixSR_iff {q : ℕ} {lab : EventLabel} :
    sharePrefixSR g q lab = true ↔ (g.getEventLabel ⟨q, lab.pos.index⟩).isSome ∧
      ∀ j < lab.pos.index, agreeAt g q lab.pos.thread j = true := by
  rw [sharePrefixSR, decide_eq_true_eq, calcLargestSymmPrefixBeforeSR]
  have hsome : (g.getEventLabel ⟨q, lab.pos.index⟩).isSome ↔
      q < g.getNumThreads ∧ lab.pos.index < g.getThreadSize q := by
    rw [← containsPos_eq_isSome, containsPos, Bool.and_eq_true, decide_eq_true_eq,
      decide_eq_true_eq]
  rw [hsome]
  by_cases hq : g.getNumThreads ≤ q
  · rw [if_pos hq]
    refine ⟨fun h => ?_, fun h => ?_⟩
    · omega
    · omega
  · rw [if_neg hq]
    simp only
    split
    · rename_i j hj
      have hmem := List.mem_range.1 (List.mem_of_find?_eq_some hj)
      have hbad := List.find?_some hj
      refine ⟨fun h => ?_, ?_⟩
      · omega
      · rintro ⟨-, h⟩
        rw [h j (by omega)] at hbad
        cases hbad
    · rename_i hnone
      rw [List.find?_eq_none] at hnone
      refine ⟨fun h => ?_, ?_⟩
      · refine ⟨⟨not_le.1 hq, by omega⟩, fun j hj => ?_⟩
        have := hnone j (List.mem_range.2 (by omega))
        simpa using this
      · rintro ⟨⟨-, h⟩, -⟩
        omega

variable (h : SymmLinked g)
include h

/-- Sharing a prefix does not depend on the side from which one looks. -/
theorem SymmLinked.sharePrefixSR_comm {p q i : ℕ} {labP labQ : EventLabel}
    (hp : g.getEventLabel ⟨p, i⟩ = some labP) (hq : g.getEventLabel ⟨q, i⟩ = some labQ) :
    sharePrefixSR g q labP = sharePrefixSR g p labQ := by
  rw [Bool.eq_iff_iff, sharePrefixSR_iff, sharePrefixSR_iff, h.slots _ _ hp, h.slots _ _ hq]
  simp only [hp, hq, agreeAt_comm g q p, Option.isSome_some]

/-- **The check accepts a graph when no thread precedes a thread before it in its chain.** -/
theorem SymmLinked.passes_iff : Passes g ↔ ∀ p q, SymmBefore g p q → ¬ Precedes g q p := by
  refine ⟨?_, fun hnot e lab hlab hmem => ?_⟩
  · rintro hpass p q hpq ⟨i, lab, symmLab, hlab, hsymm, hkind, hshare, heco⟩
    have hmem : lab.isMemAccess = true := by
      rw [isEcoBefore, Bool.and_eq_true] at heco
      exact heco.1
    have hpos : lab.pos = ⟨q, i⟩ := h.slots _ _ hlab
    have hok := hpass _ _ hlab hmem
    rw [isSymmetryOK, Bool.and_eq_true, isPredSymmetryOK, List.all_eq_true, hpos] at hok
    have hp := hok.1 p ((h.mem_preds (lt_getNumThreads_of_getEventLabel hlab)).2 hpq)
    rw [isPredSymmetryOKAt, hpos, containsPos_eq_isSome, hsymm, hshare] at hp
    simp [hkind, heco] at hp
  · have hpos : lab.pos = e := h.slots _ _ hlab
    obtain ⟨t, i⟩ := e
    rw [isSymmetryOK, Bool.and_eq_true, isPredSymmetryOK, isSuccSymmetryOK, List.all_eq_true,
      List.all_eq_true, hpos]
    refine ⟨fun p hp => ?_, fun q hq => ?_⟩
    · rw [h.mem_preds (lt_getNumThreads_of_getEventLabel hlab)] at hp
      rw [isPredSymmetryOKAt]
      split
      · rfl
      · rename_i hshare
        rw [hpos]
        cases hsymm : g.getEventLabel ⟨p, i⟩ with
        | none => rfl
        | some symmLab =>
          by_contra hbad
          simp only [Bool.or_eq_true, Bool.not_eq_true, decide_eq_true_eq, not_or] at hbad hshare
          refine hnot p t hp ⟨i, lab, symmLab, hlab, hsymm, ?_, ?_, ?_⟩
          all_goals simp_all
    · rw [h.mem_succs] at hq
      rw [isSuccSymmetryOKAt]
      split
      · rfl
      · rename_i hshare
        rw [hpos]
        cases hsymm : g.getEventLabel ⟨q, i⟩ with
        | none => rfl
        | some symmLab =>
          by_contra hbad
          have hcomm := h.sharePrefixSR_comm hlab hsymm
          simp only [Bool.or_eq_true, Bool.not_eq_true, decide_eq_true_eq, not_or] at hbad hshare
          refine hnot t q hq ⟨i, symmLab, lab, hsymm, hlab, ?_, ?_, ?_⟩
          all_goals simp_all

end Passes

/-! ## What renaming does to the check -/

section Rename

variable {g : ExecutionGraph} {σ : Equiv.Perm ℕ}

@[simp] theorem rename_index (e : Event) : (rename σ e).index = e.index := by
  rw [rename]
  split <;> rfl

theorem rename_of_pos {t i : ℕ} (hi : 0 < i) : rename σ ⟨t, i⟩ = ⟨σ t, i⟩ :=
  if_neg hi.ne'

theorem rename_injective : Function.Injective (rename σ) := by
  intro a b hab
  have hi : a.index = b.index := by simpa using congrArg Event.index hab
  rw [rename, rename, hi] at hab
  split at hab
  · exact hab
  · exact Event.ext_iff'.2 ⟨σ.injective (congrArg Event.thread hab), hi⟩

theorem rename_symm (e : Event) : rename σ (rename σ.symm e) = e := by
  obtain ⟨t, i⟩ := e
  rcases Nat.eq_zero_or_pos i with rfl | hi
  · rfl
  · rw [rename_of_pos hi, rename_of_pos hi, Equiv.apply_symm_apply]

theorem rename_isInitializer (e : Event) : (rename σ e).isInitializer = e.isInitializer := by
  have hinit : rename σ Event.getInit = Event.getInit := rfl
  rw [Bool.eq_iff_iff, Event.isInitializer_iff, Event.isInitializer_iff]
  refine ⟨fun h => ?_, ?_⟩
  · exact rename_injective (h.trans hinit.symm)
  · rintro rfl
    exact hinit

/-- A renaming of threads within their chains. -/
def Respects (g : ExecutionGraph) (σ : Equiv.Perm ℕ) : Prop := ∀ t, SameChain g t (σ t)

variable (h : SymmLinked g) (hσ : Respects g σ)
include h hσ

theorem SymmLinked.perm_lt_iff (t : ℕ) : σ t < g.getNumThreads ↔ t < g.getNumThreads := by
  by_cases hne : t = σ t
  · rw [← hne]
  · have h1 := (h.of_sameChain (hσ t) hne).2
    have h2 := (h.of_sameChain (sameChain_symm (hσ t)) (Ne.symm hne)).2
    exact ⟨fun _ => h1, fun _ => h2⟩

/-- The labels of the renamed graph. -/
theorem SymmLinked.getEventLabel_permute (e : Event) :
    (permute σ g).getEventLabel (rename σ e) = (g.getEventLabel e).map (renameLabel σ) := by
  have hthread : ∀ t < g.getNumThreads, (permute σ g).events.getD t [] =
      (((g.events.getD t []).take 1) ++ (g.events.getD (σ.symm t) []).drop 1).map
        (renameLabel σ) := by
    intro t ht
    rw [permute, List.getD_eq_getElem?_getD, List.getElem?_map, List.getElem?_range ht]
    rfl
  have hlen : ∀ t < g.getNumThreads, ((g.events.getD t []).take 1).length = 1 := by
    intro t ht
    obtain ⟨lab, hlab⟩ := Option.isSome_iff_exists.1 (h.begun t ht)
    have := lt_getThreadSize_of_getEventLabel hlab
    rw [getThreadSize] at this
    rw [List.length_take]
    simp only at this
    omega
  have hnone : ∀ (g' : ExecutionGraph) (e : Event), g'.getNumThreads ≤ e.thread →
      g'.getEventLabel e = none := by
    intro g' e he
    rw [getEventLabel, List.getD_eq_getElem?_getD, List.getElem?_eq_none he]
    rfl
  have hnum : (permute σ g).getNumThreads = g.getNumThreads := by
    simp [permute, getNumThreads]
  obtain ⟨t, i⟩ := e
  rcases Nat.eq_zero_or_pos i with rfl | hi
  · have hself : rename σ ⟨t, 0⟩ = ⟨t, 0⟩ := rfl
    rw [hself]
    by_cases ht : t < g.getNumThreads
    · simp only [getEventLabel]
      rw [hthread t ht, List.getElem?_map, List.getElem?_append_left (by rw [hlen t ht]; omega),
        List.getElem?_take_of_lt one_pos]
    · rw [hnone _ _ (by rw [hnum]; exact not_lt.1 ht), hnone _ _ (not_lt.1 ht)]
      rfl
  · rw [rename_of_pos hi]
    by_cases ht : t < g.getNumThreads
    · have ht' := (h.perm_lt_iff hσ t).2 ht
      simp only [getEventLabel]
      rw [hthread _ ht', List.getElem?_map,
        List.getElem?_append_right (by rw [hlen _ ht']; omega), hlen _ ht',
        List.getElem?_drop, Equiv.symm_apply_apply]
      congr 2
      omega
    · have ht' := (h.perm_lt_iff hσ t).not.2 ht
      rw [hnone _ _ (by rw [hnum]; exact not_lt.1 ht'), hnone _ _ (not_lt.1 ht)]
      rfl

omit h hσ in
theorem co_permute (a : SAddr) : (permute σ g).co a = (g.co a).map (rename σ) := by
  show ((g.coherence a).map _).getD [] = ((g.coherence a).getD []).map _
  cases g.coherence a <;> rfl

omit h hσ in
theorem drop_idxOf_map (l : List Event) (w : Event) :
    (l.map (rename σ)).drop ((l.map (rename σ)).idxOf (rename σ w) + 1) =
      (l.drop (l.idxOf w + 1)).map (rename σ) := by
  have hidx : (l.map (rename σ)).idxOf (rename σ w) = l.idxOf w := by
    induction l with
    | nil => rfl
    | cons x l ih =>
      rw [List.map_cons, List.idxOf_cons, List.idxOf_cons, ih]
      have : (rename σ x == rename σ w) = (x == w) := by
        rw [Bool.eq_iff_iff, beq_iff_eq, beq_iff_eq]
        exact rename_injective.eq_iff
      rw [this]
  rw [hidx, List.map_drop]

omit h hσ in
theorem coSuccs_permute (lab : EventLabel) :
    (permute σ g).coSuccs (renameLabel σ lab) = (g.coSuccs lab).map (rename σ) := by
  show (if lab.isWrite then ((permute σ g).co lab.addr).drop
    (((permute σ g).co lab.addr).idxOf (rename σ lab.pos) + 1) else []) = _
  rw [coSuccs, co_permute, drop_idxOf_map]
  split <;> rfl

omit h hσ in
theorem frSuccs_permute (lab : EventLabel) :
    (permute σ g).frSuccs (renameLabel σ lab) = (g.frSuccs lab).map (rename σ) := by
  have hrf : (lab.rf.map (rename σ)).filter (!·.isInitializer) =
      (lab.rf.filter (!·.isInitializer)).map (rename σ) := by
    cases lab.rf with
    | none => rfl
    | some w =>
      simp only [Option.map_some, Option.filter_some, rename_isInitializer]
      split <;> rfl
  have hread : (renameLabel σ lab).isRead = lab.isRead := rfl
  have hrf' : (renameLabel σ lab).rf = lab.rf.map (rename σ) := rfl
  have haddr : (renameLabel σ lab).addr = lab.addr := rfl
  rw [frSuccs, frSuccs, hread, hrf', hrf, haddr, co_permute]
  split
  · cases lab.rf.filter (!·.isInitializer) with
    | none => rfl
    | some w => exact drop_idxOf_map _ w
  · rfl

/-- Above the begins, being before the label of another thread survives renaming. -/
theorem SymmLinked.isEcoBefore_permute {lab : EventLabel} (q : ℕ) (hi : 0 < lab.pos.index) :
    isEcoBefore (permute σ g) (renameLabel σ lab) (σ q) = isEcoBefore g lab q := by
  have hpos : (⟨σ q, (renameLabel σ lab).pos.index⟩ : Event) = rename σ ⟨q, lab.pos.index⟩ := by
    rw [rename_of_pos hi]
    show (⟨σ q, (rename σ lab.pos).index⟩ : Event) = _
    rw [rename_index]
  have hreaders : ∀ s, (((permute σ g).getEventLabel (rename σ s)).map (·.readers)).getD [] =
      (((g.getEventLabel s).map (·.readers)).getD []).map (rename σ) := by
    intro s
    rw [h.getEventLabel_permute hσ]
    cases g.getEventLabel s <;> rfl
  have hhit : ∀ s, (rename σ s = rename σ ⟨q, lab.pos.index⟩ ||
      ((((permute σ g).getEventLabel (rename σ s)).map (·.readers)).getD []).contains
        (rename σ ⟨q, lab.pos.index⟩)) =
      (s = ⟨q, lab.pos.index⟩ ||
        (((g.getEventLabel s).map (·.readers)).getD []).contains ⟨q, lab.pos.index⟩) := by
    intro s
    rw [hreaders, Bool.eq_iff_iff]
    simp only [Bool.or_eq_true, decide_eq_true_eq, List.contains_iff_mem,
      rename_injective.eq_iff, List.mem_map_of_injective rename_injective]
  rw [isEcoBefore, isEcoBefore, hpos, coSuccs_permute, frSuccs_permute]
  simp only [List.any_map, Function.comp_def, hhit]
  rfl

/-- Agreement of threads of chains survives renaming. -/
theorem SymmLinked.agreeAt_permute {p q : ℕ} (hp : 0 < p) (hp' : p < g.getNumThreads) (hq : 0 < q)
    (hq' : q < g.getNumThreads) (j : ℕ) :
    agreeAt (permute σ g) (σ p) (σ q) j = agreeAt g p q j := by
  have hpos : ∀ t, 0 < t → 0 < σ t := by
    intro t ht
    by_cases hne : t = σ t
    · rwa [← hne]
    · exact (h.of_sameChain (sameChain_symm (hσ t)) (Ne.symm hne)).1
  rcases Nat.eq_zero_or_pos j with rfl | hj
  · -- begins are all alike
    have hbegin : ∀ t, 0 < t → t < g.getNumThreads → ∃ lab lab', g.getEventLabel ⟨t, 0⟩ = some lab ∧
        (permute σ g).getEventLabel ⟨t, 0⟩ = some lab' ∧ lab.kind = .ThreadStart ∧
          lab'.kind = .ThreadStart := by
      intro t ht htn
      obtain ⟨lab, hlab⟩ := Option.isSome_iff_exists.1 (h.begun t htn)
      have hperm := h.getEventLabel_permute hσ ⟨t, 0⟩
      rw [hlab] at hperm
      have hkind := h.begins t lab ht hlab
      exact ⟨lab, _, hlab, hperm, hkind, hkind⟩
    have hlike : ∀ (g' : ExecutionGraph) (a b : ℕ) (labA labB : EventLabel),
        g'.getEventLabel ⟨a, 0⟩ = some labA → g'.getEventLabel ⟨b, 0⟩ = some labB →
          labA.kind = .ThreadStart → labB.kind = .ThreadStart → agreeAt g' a b 0 = true := by
      intro g' a b labA labB hA hB hkA hkB
      have hr : labA.isRead = false := by
        rw [EventLabel.isRead, hkA]
        rfl
      rw [agreeAt, hA, hB]
      simp [hkA, hkB, hr]
    obtain ⟨labP, -, h1, -, h2, -⟩ := hbegin p hp hp'
    obtain ⟨labQ, -, h3, -, h4, -⟩ := hbegin q hq hq'
    obtain ⟨-, labP', -, h5, -, h6⟩ := hbegin (σ p) (hpos p hp) ((h.perm_lt_iff hσ p).2 hp')
    obtain ⟨-, labQ', -, h7, -, h8⟩ := hbegin (σ q) (hpos q hq) ((h.perm_lt_iff hσ q).2 hq')
    rw [hlike _ _ _ _ _ h1 h3 h2 h4, hlike _ _ _ _ _ h5 h7 h6 h8]
  · have hlabel : ∀ t, (permute σ g).getEventLabel ⟨σ t, j⟩ =
        (g.getEventLabel ⟨t, j⟩).map (renameLabel σ) := by
      intro t
      rw [← h.getEventLabel_permute hσ, rename_of_pos hj]
    rw [agreeAt, agreeAt, hlabel, hlabel]
    cases hA : g.getEventLabel ⟨p, j⟩ with
    | none => rfl
    | some labA =>
      cases hB : g.getEventLabel ⟨q, j⟩ with
      | none => rfl
      | some labB =>
        -- reading from one's own thread is reading from one's own thread after renaming
        have hown : ∀ (lab : EventLabel) (t : ℕ), 0 < t → (∃ e, g.getEventLabel e = some lab) →
            (lab.rf.map (rename σ)).any (·.thread = σ t) = lab.rf.any (·.thread = t) := by
          rintro lab t ht ⟨e, he⟩
          cases hrf : lab.rf with
          | none => rfl
          | some w =>
            simp only [Option.map_some, Option.any_some, decide_eq_decide]
            rcases Nat.eq_zero_or_pos w.index with hw | hw
            · rw [h.rf e lab w he hrf hw]
              show 0 = σ t ↔ 0 = t
              have := hpos t ht
              omega
            · obtain ⟨s, i⟩ := w
              rw [rename_of_pos hw]
              exact σ.injective.eq_iff
        have hidx : ∀ lab : EventLabel, (lab.rf.map (rename σ)).map (·.index) =
            lab.rf.map (·.index) := by
          intro lab
          rw [Option.map_map]
          exact Option.map_congr fun w _ => rename_index w
        have hrf : decide (labA.rf.map (rename σ) = labB.rf.map (rename σ)) =
            decide (labA.rf = labB.rf) :=
          decide_eq_decide.2 (Option.map_injective rename_injective).eq_iff
        show (decide (labA.kind = labB.kind) && (!labA.isRead ||
          ((labA.rf.map (rename σ)).any (·.thread = σ p) &&
            (labB.rf.map (rename σ)).any (·.thread = σ q) &&
              decide ((labA.rf.map (rename σ)).map (·.index) =
                (labB.rf.map (rename σ)).map (·.index))) ||
                  decide (labA.rf.map (rename σ) = labB.rf.map (rename σ)))) = _
        rw [hown labA p hp ⟨_, hA⟩, hown labB q hq ⟨_, hB⟩, hidx, hidx, hrf]

theorem SymmLinked.symmTid_permute (t : ℕ) : symmPredTid (permute σ g) t = symmPredTid g t ∧
    symmSuccTid (permute σ g) t = symmSuccTid g t := by
  have hfirst : (permute σ g).getFirstThreadLabel t =
      (g.getFirstThreadLabel t).map (renameLabel σ) := by
    rw [getFirstThreadLabel, getFirstThreadLabel]
    have hperm : (permute σ g).getEventLabel ⟨t, 0⟩ = _ := h.getEventLabel_permute hσ ⟨t, 0⟩
    rw [hperm]
    cases g.getEventLabel ⟨t, 0⟩ with
    | none => rfl
    | some lab =>
      simp only [Option.map_some, Option.filter_some]
      show (if lab.isThreadStart then _ else _) = _
      split <;> rfl
  rw [symmPredTid, symmPredTid, symmSuccTid, symmSuccTid, hfirst]
  cases g.getFirstThreadLabel t <;> exact ⟨rfl, rfl⟩

theorem SymmLinked.link_permute : Link (permute σ g) = Link g := by
  funext a b
  rw [Link, Link, (h.symmTid_permute hσ b).1]

/-- Renaming within chains keeps the chains. -/
theorem SymmLinked.permute : SymmLinked (permute σ g) := by
  have hlabel : ∀ e lab', (SymmetryChecker.permute σ g).getEventLabel e = some lab' →
      ∃ lab, g.getEventLabel (rename σ.symm e) = some lab ∧ lab' = renameLabel σ lab := by
    intro e lab' h'
    rw [← rename_symm (σ := σ) e, h.getEventLabel_permute hσ] at h'
    obtain ⟨lab, h1, h2⟩ := Option.map_eq_some_iff.1 h'
    exact ⟨lab, h1, h2.symm⟩
  have hnum : (SymmetryChecker.permute σ g).getNumThreads = g.getNumThreads := by
    simp [SymmetryChecker.permute, getNumThreads]
  refine ⟨fun e lab' h' => ?_, fun t ht => ?_, fun lab' h' => ?_, fun t lab' ht h' => ?_,
    fun a b hab => ?_, fun a b hab => ?_, fun e lab' w h' hrf hw => ?_⟩
  · obtain ⟨lab, h1, rfl⟩ := hlabel e lab' h'
    show rename σ lab.pos = e
    rw [h.slots _ _ h1, rename_symm]
  · rw [hnum] at ht
    have hperm := h.getEventLabel_permute hσ ⟨t, 0⟩
    rw [show rename σ ⟨t, 0⟩ = ⟨t, 0⟩ from rfl] at hperm
    rw [hperm, Option.isSome_map]
    exact h.begun t ht
  · obtain ⟨lab, h1, rfl⟩ := hlabel _ lab' h'
    exact h.main lab h1
  · obtain ⟨lab, h1, rfl⟩ := hlabel _ lab' h'
    exact h.begins t lab ht h1
  · rw [(h.symmTid_permute hσ _).1] at hab
    rw [(h.symmTid_permute hσ _).2]
    exact h.pred a b hab
  · rw [(h.symmTid_permute hσ _).2] at hab
    rw [(h.symmTid_permute hσ _).1]
    exact h.succ a b hab
  · obtain ⟨lab, h1, rfl⟩ := hlabel _ lab' h'
    obtain ⟨w', h2, rfl⟩ := Option.map_eq_some_iff.1 hrf
    rw [rename_index] at hw
    rw [h.rf _ lab w' h1 h2 hw]
    rfl

omit hσ in
/-- What precedes something is above the begins. -/
theorem SymmLinked.index_pos {p i q : ℕ} {lab : EventLabel} (hp : 0 < p)
    (hlab : g.getEventLabel ⟨p, i⟩ = some lab) (heco : isEcoBefore g lab q = true) : 0 < i := by
  rw [Nat.pos_iff_ne_zero]
  rintro rfl
  rw [isEcoBefore, Bool.and_eq_true, EventLabel.isMemAccess, h.begins p lab hp hlab] at heco
  exact absurd heco.1 Bool.false_ne_true

/-- **Renaming carries over what the check asks for.** -/
theorem SymmLinked.precedes_permute {p q : ℕ} (hp : 0 < p) (hp' : p < g.getNumThreads) (hq : 0 < q)
    (hq' : q < g.getNumThreads) (hσp : 0 < σ p) :
    Precedes (SymmetryChecker.permute σ g) (σ p) (σ q) ↔ Precedes g p q := by
  have hlabel : ∀ {i}, 0 < i → ∀ t, (SymmetryChecker.permute σ g).getEventLabel ⟨σ t, i⟩ =
      (g.getEventLabel ⟨t, i⟩).map (renameLabel σ) := by
    intro i hi t
    rw [← h.getEventLabel_permute hσ, rename_of_pos hi]
  have hcheck : ∀ {i lab}, 0 < i → g.getEventLabel ⟨p, i⟩ = some lab →
      (sharePrefixSR (SymmetryChecker.permute σ g) (σ q) (renameLabel σ lab) = true ↔
        sharePrefixSR g q lab = true) ∧
      isEcoBefore (SymmetryChecker.permute σ g) (renameLabel σ lab) (σ q) =
        isEcoBefore g lab q := by
    intro i lab hi hlab
    have hpos : lab.pos = ⟨p, i⟩ := h.slots _ _ hlab
    have hpos' : (renameLabel σ lab).pos = ⟨σ p, i⟩ := by
      show rename σ lab.pos = _
      rw [hpos, rename_of_pos hi]
    refine ⟨?_, h.isEcoBefore_permute hσ q (by rw [hpos]; exact hi)⟩
    rw [sharePrefixSR_iff, sharePrefixSR_iff, hpos, hpos']
    simp only [hlabel hi, Option.isSome_map, h.agreeAt_permute hσ hq hq' hp hp']
  refine ⟨?_, ?_⟩
  · rintro ⟨i, lab', symmLab', h1, h2, h3, h4, h5⟩
    have hi := (h.permute hσ).index_pos hσp h1 h5
    rw [hlabel hi] at h1 h2
    obtain ⟨lab, h6, rfl⟩ := Option.map_eq_some_iff.1 h1
    obtain ⟨symmLab, h7, rfl⟩ := Option.map_eq_some_iff.1 h2
    exact ⟨i, lab, symmLab, h6, h7, h3, (hcheck hi h6).1.1 h4, (hcheck hi h6).2 ▸ h5⟩
  · rintro ⟨i, lab, symmLab, h1, h2, h3, h4, h5⟩
    have hi := h.index_pos hp h1 h5
    exact ⟨i, renameLabel σ lab, renameLabel σ symmLab, by rw [hlabel hi, h1]; rfl,
      by rw [hlabel hi, h2]; rfl, h3, (hcheck hi h1).1.2 h4, (hcheck hi h1).2.trans h5⟩

end Rename

/-! ## Representatives -/

/-- What the check asks for of two threads of one chain. -/
def ChainPrecedes (g : ExecutionGraph) (p q : ℕ) : Prop :=
  SameChain g p q ∧ p ≠ q ∧ Precedes g p q

section Representative

variable {g : ExecutionGraph} (h : SymmLinked g)
include h

/-- A renaming passes exactly when names increase along what the check asks for. -/
theorem SymmLinked.passes_permute_iff {σ : Equiv.Perm ℕ} (hσ : Respects g σ) :
    Passes (SymmetryChecker.permute σ g) ↔ ∀ p q, ChainPrecedes g p q → σ p < σ q := by
  have hchain : ∀ {p q}, SameChain g p q → SameChain g (σ p) (σ q) := by
    intro p q hpq
    exact h.sameChain_trans (sameChain_symm (hσ p)) (h.sameChain_trans hpq (hσ q))
  have hprec : ∀ {p q}, SameChain g p q → p ≠ q →
      (Precedes (SymmetryChecker.permute σ g) (σ p) (σ q) ↔ Precedes g p q) := by
    intro p q hpq hne
    obtain ⟨h1, h2⟩ := h.of_sameChain hpq hne
    obtain ⟨h3, h4⟩ := h.of_sameChain (sameChain_symm hpq) (Ne.symm hne)
    exact h.precedes_permute hσ h1 h2 h3 h4
      (h.of_sameChain (hchain hpq) (fun heq => hne (σ.injective heq))).1
  have hbefore : ∀ a b, SymmBefore (SymmetryChecker.permute σ g) a b ↔
      SameChain g a b ∧ a < b := by
    intro a b
    rw [SymmBefore, h.link_permute hσ]
    exact h.symmBefore_iff
  rw [(h.permute hσ).passes_iff]
  refine ⟨?_, fun hmono a b hab hba => ?_⟩
  · rintro hpass p q ⟨hpq, hne, hp⟩
    by_contra hge
    have hne' : σ p ≠ σ q := fun heq => hne (σ.injective heq)
    exact hpass (σ q) (σ p) ((hbefore _ _).2 ⟨hchain (sameChain_symm hpq), by omega⟩)
      ((hprec hpq hne).2 hp)
  · obtain ⟨hsame, hlt⟩ := (hbefore a b).1 hab
    obtain ⟨p, rfl⟩ := σ.surjective a
    obtain ⟨q, rfl⟩ := σ.surjective b
    have hqp : SameChain g q p :=
      h.sameChain_trans (hσ q) (h.sameChain_trans (sameChain_symm hsame) (sameChain_symm (hσ p)))
    have hne : q ≠ p := by
      rintro rfl
      exact lt_irrefl _ hlt
    have := hmono q p ⟨hqp, hne, (hprec hqp hne).1 hba⟩
    omega

theorem SymmLinked.acyclic_of_passes {σ : Equiv.Perm ℕ} (hσ : Respects g σ)
    (hpass : Passes (SymmetryChecker.permute σ g)) (t : ℕ) : ¬ TransGen (ChainPrecedes g) t t := by
  have hmono := (h.passes_permute_iff hσ).1 hpass
  have hpath : ∀ a b, TransGen (ChainPrecedes g) a b → σ a < σ b := by
    intro a b hab
    induction hab with
    | single hl => exact hmono _ _ hl
    | tail _ hl ih => exact ih.trans (hmono _ _ hl)
  exact fun ht => lt_irrefl _ (hpath t t ht)

theorem SymmLinked.exists_passes_of_acyclic (hac : ∀ t, ¬ TransGen (ChainPrecedes g) t t) :
    ∃ σ : Equiv.Perm ℕ, Respects g σ ∧ Passes (SymmetryChecker.permute σ g) := by
  classical
  set n := g.getNumThreads with hn
  -- a chain is named by its smallest thread
  have hself : ∀ t, ∃ s, SameChain g s t := fun t => ⟨t, Or.inl .refl⟩
  set c : Fin n → ℕ := fun t => Nat.find (hself t) with hc
  have hclass : ∀ a b : Fin n, c a = c b ↔ SameChain g a b := by
    intro a b
    have ha : SameChain g (c a) a := Nat.find_spec (hself a)
    have hb : SameChain g (c b) b := Nat.find_spec (hself b)
    refine ⟨fun heq => ?_, fun hab => ?_⟩
    · rw [heq] at ha
      exact h.sameChain_trans (sameChain_symm ha) hb
    · refine le_antisymm (Nat.find_min' _ ?_) (Nat.find_min' _ ?_)
      · exact h.sameChain_trans hb (sameChain_symm hab)
      · exact h.sameChain_trans ha hab
  obtain ⟨τ, hτc, hτ⟩ := Relabel.exists_perm_of_acyclic c (fun a b => ChainPrecedes g a b)
    (fun a b hab => (hclass a b).2 hab.1)
    (fun a ha => hac a (ha.lift (fun x : Fin n => (x : ℕ)) fun _ _ hxy => hxy))
  set σ : Equiv.Perm ℕ := τ.extendDomain Fin.equivSubtype with hσ
  have hσin : ∀ t (ht : t < n), σ t = τ ⟨t, ht⟩ := by
    intro t ht
    exact Equiv.Perm.extendDomain_apply_subtype τ Fin.equivSubtype ht
  have hσout : ∀ t, ¬ t < n → σ t = t := fun t ht =>
    Equiv.Perm.extendDomain_apply_not_subtype τ Fin.equivSubtype ht
  have hresp : Respects g σ := by
    intro t
    by_cases ht : t < n
    · rw [hσin t ht]
      exact (hclass ⟨t, ht⟩ _).1 (hτc _).symm
    · rw [hσout t ht]
      exact Or.inl .refl
  refine ⟨σ, hresp, (h.passes_permute_iff hresp).2 fun p q hpq => ?_⟩
  have hp := (h.of_sameChain hpq.1 hpq.2.1).2
  have hq := (h.of_sameChain (sameChain_symm hpq.1) (Ne.symm hpq.2.1)).2
  rw [hσin p hp, hσin q hq]
  exact hτ ⟨p, hp⟩ ⟨q, hq⟩ hpq

end Representative

/-- **When symmetry reduction keeps a representative.**  Some renaming of threads within their
chains passes the check at every memory access if and only if, in no chain, threads precede each
other in a cycle. -/
theorem exists_representative_iff (g : ExecutionGraph) (h : SymmLinked g) :
    (∃ σ : Equiv.Perm ℕ, Respects g σ ∧ Passes (permute σ g)) ↔
      ∀ t, ¬ TransGen (ChainPrecedes g) t t := by
  refine ⟨?_, ?_⟩
  · rintro ⟨σ, hσ, hpass⟩
    exact h.acyclic_of_passes hσ hpass
  · exact h.exists_passes_of_acyclic

/-! ## Two threads that write twice -/

/-- The edges of coherence: program order on one location, reads-from, coherence and from-read. -/
inductive CoherenceEdge (g : ExecutionGraph) : Event → Event → Prop
  | po {t i j : ℕ} {lab lab' : EventLabel} (h : g.getEventLabel ⟨t, i⟩ = some lab)
      (h' : g.getEventLabel ⟨t, j⟩ = some lab') (hij : i < j) (hm : lab.isMemAccess = true)
      (hm' : lab'.isMemAccess = true) (ha : lab.addr = lab'.addr) : CoherenceEdge g ⟨t, i⟩ ⟨t, j⟩
  | rf {e w : Event} {lab : EventLabel} (h : g.getEventLabel e = some lab)
      (hr : lab.isRead = true) (hw : lab.rf = some w) : CoherenceEdge g w e
  | co {e w : Event} {lab : EventLabel} (h : g.getEventLabel e = some lab)
      (hw : w ∈ g.coSuccs lab) : CoherenceEdge g e w
  | fr {e w : Event} {lab : EventLabel} (h : g.getEventLabel e = some lab)
      (hw : w ∈ g.frSuccs lab) : CoherenceEdge g e w

/-- A graph that is sequentially consistent on each location. -/
def Coherent (g : ExecutionGraph) : Prop := ∀ e, ¬ TransGen (CoherenceEdge g) e e

/-- A rank that increases along the edges at one label. -/
def CoherentAt (g : ExecutionGraph) (rank : Event → ℕ) (e : Event) (lab : EventLabel) : Prop :=
  (∀ i < e.index, ∀ lab' ∈ g.getEventLabel ⟨e.thread, i⟩, lab'.isMemAccess = true →
      lab.isMemAccess = true → lab'.addr = lab.addr → rank ⟨e.thread, i⟩ < rank e) ∧
    (lab.isRead = true → ∀ w ∈ lab.rf, rank w < rank e) ∧
    (∀ w ∈ g.coSuccs lab, rank e < rank w) ∧ ∀ w ∈ g.frSuccs lab, rank e < rank w

instance (g : ExecutionGraph) (rank : Event → ℕ) (e : Event) (lab : EventLabel) :
    Decidable (CoherentAt g rank e lab) :=
  inferInstanceAs (Decidable (_ ∧ _ ∧ _ ∧ _))

theorem coherent_of_rank {g : ExecutionGraph} (rank : Event → ℕ)
    (h : ∀ e ∈ g.positions, ∀ lab ∈ g.getEventLabel e, CoherentAt g rank e lab) : Coherent g := by
  have h' := forall_label_iff.2 h
  have hedge : ∀ a b, CoherenceEdge g a b → rank a < rank b := by
    intro a b hab
    cases hab with
    | po h1 h2 hij hm hm' ha => exact (h' _ _ h2).1 _ hij _ h1 hm hm' ha
    | rf h1 hr hw => exact (h' _ _ h1).2.1 hr _ hw
    | co h1 hw => exact (h' _ _ h1).2.2.1 _ hw
    | fr h1 hw => exact (h' _ _ h1).2.2.2 _ hw
  have hpath : ∀ a b, TransGen (CoherenceEdge g) a b → rank a < rank b := by
    intro a b hab
    induction hab with
    | single hl => exact hedge _ _ hl
    | tail _ hl ih => exact ih.trans (hedge _ _ hl)
  exact fun e he => lt_irrefl _ (hpath e e he)

/-- Threads of one chain that agree up to some index do the same there. -/
def RunsSameCode (g : ExecutionGraph) : Prop :=
  ∀ p q i labP labQ, SameChain g p q → g.getEventLabel ⟨p, i⟩ = some labP →
    g.getEventLabel ⟨q, i⟩ = some labQ → (∀ j < i, agreeAt g p q j = true) →
      labP.kind = labQ.kind ∧ labP.addr = labQ.addr ∧ labP.value = labQ.value

/-- Two symmetric threads write `x` and then `y`.  The first one is first at `x`, and the second one
at `y`. -/
def twoPlusTwoW : ExecutionGraph :=
  { init with
    events :=
      [[{ initLabel with stamp := some 0 },
        { kind := .ThreadCreate, pos := ⟨0, 1⟩, stamp := some 1, childId := 1 },
        { kind := .ThreadCreate, pos := ⟨0, 2⟩, stamp := some 3, childId := 2 }],
       [{ kind := .ThreadStart, pos := ⟨1, 0⟩, stamp := some 2, createId := ⟨0, 1⟩,
          create := some ⟨0, 1⟩, symmSuccTid := some 2 },
        { kind := .Write, pos := ⟨1, 1⟩, stamp := some 5, addr := 8, value := 1 },
        { kind := .Write, pos := ⟨1, 2⟩, stamp := some 8, addr := 16, value := 1 }],
       [{ kind := .ThreadStart, pos := ⟨2, 0⟩, stamp := some 4, createId := ⟨0, 2⟩,
          create := some ⟨0, 2⟩, symmPredTid := some 1 },
        { kind := .Write, pos := ⟨2, 1⟩, stamp := some 6, addr := 8, value := 1 },
        { kind := .Write, pos := ⟨2, 2⟩, stamp := some 7, addr := 16, value := 1 }]]
    insertionOrder := [⟨0, 0⟩, ⟨0, 1⟩, ⟨1, 0⟩, ⟨0, 2⟩, ⟨2, 0⟩, ⟨1, 1⟩, ⟨2, 1⟩, ⟨2, 2⟩, ⟨1, 2⟩]
    timestamp := 9
    coherence := fun a => if a = 8 then some [⟨1, 1⟩, ⟨2, 1⟩]
      else if a = 16 then some [⟨2, 2⟩, ⟨1, 2⟩] else none
    initRfs := fun a => if a = 8 ∨ a = 16 then some [] else none }

theorem twoPlusTwoW_symmLinked : SymmLinked twoPlusTwoW where
  slots := by decide
  begun := by decide
  main := fun lab h => by cases h; rfl
  begins := by
    have h := (forall_label_iff (g := twoPlusTwoW) (p := fun e lab => 0 < e.thread →
      e.index = 0 → lab.kind = .ThreadStart)).2 (by decide)
    exact fun t lab ht hlab => h _ lab hlab ht rfl
  pred := fun a b hab => by
    match b, hab with
    | 0, hab => cases hab
    | 1, hab => cases hab
    | 2, hab => cases hab; decide
    | b + 3, hab => cases hab
  succ := fun a b hab => by
    match a, hab with
    | 0, hab => cases hab
    | 1, hab => cases hab; rfl
    | 2, hab => cases hab
    | a + 3, hab => cases hab
  rf := by
    have h := (forall_label_iff (g := twoPlusTwoW) (p := fun _ lab => ∀ w ∈ lab.rf, w.index = 0 →
      w = Event.getInit)).2 (by decide)
    exact fun e lab w hlab hrf hw => h e lab hlab w hrf hw

theorem twoPlusTwoW_link {a b : ℕ} (h : Link twoPlusTwoW a b) : a = 1 ∧ b = 2 := by
  match b, h with
  | 0, h => cases h
  | 1, h => cases h
  | 2, h => cases h; exact ⟨rfl, rfl⟩
  | b + 3, h => cases h

theorem twoPlusTwoW_runsSameCode : RunsSameCode twoPlusTwoW := by
  have hpath : ∀ {a b}, ReflTransGen (Link twoPlusTwoW) a b → a = b ∨ (a = 1 ∧ b = 2) := by
    intro a b hab
    induction hab with
    | refl => exact Or.inl rfl
    | tail _ hl ih =>
      obtain ⟨rfl, rfl⟩ := twoPlusTwoW_link hl
      omega
  have hpair : ∀ i labP labQ, twoPlusTwoW.getEventLabel ⟨1, i⟩ = some labP →
      twoPlusTwoW.getEventLabel ⟨2, i⟩ = some labQ →
        labP.kind = labQ.kind ∧ labP.addr = labQ.addr ∧ labP.value = labQ.value := by
    intro i labP labQ hP hQ
    match i, hP, hQ with
    | 0, hP, hQ => cases hP; cases hQ; exact ⟨rfl, rfl, rfl⟩
    | 1, hP, hQ => cases hP; cases hQ; exact ⟨rfl, rfl, rfl⟩
    | 2, hP, hQ => cases hP; cases hQ; exact ⟨rfl, rfl, rfl⟩
    | i + 3, hP, hQ => cases hP
  intro p q i labP labQ hpq hP hQ _
  have hcases : p = q ∨ (p = 1 ∧ q = 2) ∨ (q = 1 ∧ p = 2) := by
    rcases hpq with h | h
    · exact (hpath h).imp_right Or.inl
    · exact (hpath h).imp Eq.symm Or.inr
  rcases hcases with rfl | ⟨rfl, rfl⟩ | ⟨rfl, rfl⟩
  · rw [hP] at hQ
    cases hQ
    exact ⟨rfl, rfl, rfl⟩
  · exact hpair i labP labQ hP hQ
  · obtain ⟨h1, h2, h3⟩ := hpair i labQ labP hQ hP
    exact ⟨h1.symm, h2.symm, h3.symm⟩

/-- The two threads precede each other, one at `x` and the other at `y`. -/
theorem twoPlusTwoW_cycle : TransGen (ChainPrecedes twoPlusTwoW) 1 1 := by
  have hlink : ReflTransGen (Link twoPlusTwoW) 1 2 := .single rfl
  have h1 : ChainPrecedes twoPlusTwoW 1 2 :=
    ⟨Or.inl hlink, by decide, 1, _, _, rfl, rfl, rfl, by decide, by decide⟩
  have h2 : ChainPrecedes twoPlusTwoW 2 1 :=
    ⟨Or.inr hlink, by decide, 2, _, _, rfl, rfl, rfl, by decide, by decide⟩
  exact .head h1 (.single h2)

/-- The check rejects every renaming of the two threads. -/
theorem twoPlusTwoW_no_representative :
    SymmLinked twoPlusTwoW ∧ Coherent twoPlusTwoW ∧ RunsSameCode twoPlusTwoW ∧
      ¬ ∃ σ : Equiv.Perm ℕ, Respects twoPlusTwoW σ ∧ Passes (permute σ twoPlusTwoW) := by
  refine ⟨twoPlusTwoW_symmLinked, ?_, twoPlusTwoW_runsSameCode, ?_⟩
  · exact coherent_of_rank (fun e => if e = ⟨2, 1⟩ ∨ e = ⟨1, 2⟩ then 1 else 0) (by decide)
  · rintro ⟨σ, hσ, hpass⟩
    exact twoPlusTwoW_symmLinked.acyclic_of_passes hσ hpass 1 twoPlusTwoW_cycle

/-- A cycle of threads that precede each other leaves no representative. -/
theorem twoPlusTwoW_representative_iff :
    ¬ ∃ σ : Equiv.Perm ℕ, Respects twoPlusTwoW σ ∧ Passes (permute σ twoPlusTwoW) := by
  rw [exists_representative_iff twoPlusTwoW twoPlusTwoW_symmLinked]
  exact fun h => h 1 twoPlusTwoW_cycle

end SymmetryChecker
end GenMC
