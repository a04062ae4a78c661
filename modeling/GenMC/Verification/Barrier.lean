import GenMC.Execution.LabelRemoval
import GenMC.Support.RMWOps
import GenMC.Verification.Revisits

/-!
# Barriers

A barrier of the runtime is a counter that is never reset.  A thread that waits increments it from
`old`, reads it again, and goes on if the number of full rounds has increased meanwhile.  The model
checker does not execute the assumption that says so: it blocks the thread itself after a read of a
value that is not large enough, which it computes in a different way.

* `readsBarrierUnblockingValue` is the test of the model checker, and `barrierAssumption` that of
  the runtime.  They agree as long as nothing overflows (`unblocks_iff`, `barrierAssumption_iff`).
* `Step` is a step of threads that wait for each other again and again.  `Inv` relates the counter
  to the number of calls each thread has made: no thread is ahead of the rounds that are full by
  more than one, and none is behind.
-/

set_option autoImplicit false

namespace GenMC

/-- The word that holds a value. -/
def word (v : SVal) : SVal64 := UInt64.ofInt v

/-- What an assumption of the program is for. -/
inductive AssumeType
  | User | Barrier | Spinloop
deriving DecidableEq, Repr

def createAssumeBlock (pos : Event) : AssumeType → EventLabel
  | .User => { kind := .UserBlock, pos := pos }
  | .Barrier => { kind := .BarrierBlock, pos := pos }
  | .Spinloop => { kind := .SpinloopBlock, pos := pos }

/-- What a handler returns for a read. -/
inductive ReadResult
  | value (v : SVal64)
  | reset
  | invalid
deriving DecidableEq, Repr

namespace Barrier

open ExecutionGraph

/-! ## The tests -/

section Tests

variable (env : Environment) (g : ExecutionGraph)

def getReturnValue (rLab : EventLabel) : Option SVal64 :=
  rLab.rf.map fun w => word (env.resolveAccessValue g w rLab.addr)

/-- The number of threads, which a thread reads before it increments the counter. -/
def findBarrierInitValue (wLab : EventLabel) : Option SVal64 := do
  let fLab ← g.poImmPred wLab
  let irLab ← (g.poImmPred fLab).filter (·.isRead)
  getReturnValue env g irLab

def isLastInBarrierRound (wLab : EventLabel) : Option Bool :=
  (findBarrierInitValue env g wLab).map fun iVal => word wLab.value % iVal = 0

/-- The thread of a read that follows its increment may go on. -/
def readsBarrierUnblockingValue (rLab : EventLabel) : Option Bool := do
  let wLab ← (g.poImmPred rLab).filter (·.kind = .BIncFaiWrite)
  let iVal ← findBarrierInitValue env g wLab
  let val ← getReturnValue env g rLab
  let isLast ← isLastInBarrierRound env g wLab
  some (word wLab.value / iVal * iVal + (if isLast then 0 else iVal) ≤ val)

/-- The value of a read, unless the thread is blocked after it.  `type` belongs to the annotation of
the read. -/
def getReadRetValue (ipr inErrorReplay : Bool) (type : AssumeType) (rLab : EventLabel) :
    Option ((ReadResult × ℕ) × ExecutionGraph) :=
  let blocked := fun type =>
    (if inErrorReplay then (.invalid, 1) else (.reset, 0),
      g.blockThread (createAssumeBlock rLab.pos.next type))
  match rLab.rf with
  | none => if inErrorReplay then some ((.invalid, 1), g) else none
  | some w =>
    let res := env.resolveAccessValue g w rLab.addr
    if ipr && rLab.annot.any (fun expr => !expr res) then some (blocked type)
    else if rLab.kind = .BWaitRead then
      (readsBarrierUnblockingValue env g rLab).map fun unblocking =>
        if !unblocking then blocked .Barrier else ((.value (word res), 1), g)
    else some ((.value (word res), 1), g)

end Tests

/-- What `pthread_barrier_wait` assumes, with integers of 32 bits. -/
def barrierAssumption (iVal bOld bNew : SVal64) : Bool :=
  ((bits 32 bOld).sdiv (bits 32 iVal)).slt ((bits 32 bNew).sdiv (bits 32 iVal))

/-- The value `val` of a barrier for `iVal` threads unblocks the thread that wrote `wVal`. -/
def unblocks (iVal wVal val : SVal64) : Bool :=
  wVal / iVal * iVal + (if wVal % iVal = 0 then 0 else iVal) ≤ val

/-- What a thread leaves in the graph when it waits for `n` threads: it reads their number,
increments the counter from `old`, and then reads `new`. -/
structure Waits (env : Environment) (g : ExecutionGraph) (n old new : SVal64) (rLab : EventLabel) :
    Prop where
  kind : rLab.kind = .BWaitRead
  value : getReturnValue env g rLab = some new
  increment : ∃ wLab fLab irLab, g.poImmPred rLab = some wLab ∧ g.poImmPred wLab = some fLab ∧
    g.poImmPred fLab = some irLab ∧ wLab.kind = .BIncFaiWrite ∧ fLab.kind = .BIncFaiRead ∧
    irLab.isRead = true ∧ getReturnValue env g irLab = some n ∧
    getReturnValue env g fLab = some old ∧ word wLab.value = executeRMWBinOp old 1 4 .Add

/-! ## The tests agree -/

variable {n old new : SVal64} {env : Environment} {g : ExecutionGraph} {rLab : EventLabel}

theorem readsBarrierUnblockingValue_eq (h : Waits env g n old new rLab) :
    readsBarrierUnblockingValue env g rLab = some (unblocks n (old + 1) new) := by
  obtain ⟨wLab, fLab, irLab, h1, h2, h3, h4, -, h6, h7, -, h9⟩ := h.increment
  have hinit : findBarrierInitValue env g wLab = some n := by
    rw [findBarrierInitValue, h2, Option.bind_eq_bind, Option.bind_some, h3,
      Option.filter_some_pos h6]
    exact h7
  have hlast : isLastInBarrierRound env g wLab = some (decide ((old + 1) % n = 0)) := by
    rw [isLastInBarrierRound, hinit, h9]
    rfl
  have hfilter : (some wLab).filter (·.kind = .BIncFaiWrite) = some wLab :=
    Option.filter_some_pos (decide_eq_true h4)
  rw [readsBarrierUnblockingValue, h1, hfilter]
  simp only [Option.bind_eq_bind, Option.bind_some, hinit, h.value, hlast, h9, executeRMWBinOp,
    unblocks, decide_eq_true_eq]

/-- The driver blocks the thread if the test fails. -/
theorem getReadRetValue_eq (h : Waits env g n old new rLab) (ipr inErrorReplay : Bool)
    (type : AssumeType) (hannot : rLab.annot = none) :
    getReadRetValue env g ipr inErrorReplay type rLab =
      some (if unblocks n (old + 1) new then ((.value new, 1), g)
        else (if inErrorReplay then (.invalid, 1) else (.reset, 0),
          g.blockThread (createAssumeBlock rLab.pos.next .Barrier))) := by
  obtain ⟨w, hw, hnew⟩ := Option.map_eq_some_iff.1 h.value
  rw [getReadRetValue, hw]
  simp only [hannot, Option.any_none, Bool.and_false, Bool.false_eq_true, if_false, h.kind, if_true,
    readsBarrierUnblockingValue_eq h, Option.map_some, hnew]
  cases unblocks n (old + 1) new <;> rfl

/-- The end of the round of an increment from `old`. -/
theorem roundEnd_eq (n old : ℕ) :
    (old + 1) / n * n + (if (old + 1) % n = 0 then 0 else n) = (old / n + 1) * n := by
  have hdiv : (old + 1) / n = _ := Nat.succ_div
  by_cases h : (old + 1) % n = 0
  · rw [if_pos (Nat.dvd_of_mod_eq_zero h)] at hdiv
    rw [if_pos h, hdiv, Nat.add_zero]
  · rw [if_neg (mt Nat.mod_eq_zero_of_dvd h)] at hdiv
    rw [if_neg h, hdiv, Nat.add_zero]
    ring

/-- **The test of the model checker** is that more rounds are full than before the increment. -/
theorem unblocks_iff (hn : 1 ≤ n.toNat) (hn' : n.toNat < 2 ^ 31) (hold : old.toNat + 1 < 2 ^ 31) :
    unblocks n (old + 1) new = true ↔ old.toNat / n.toNat < new.toNat / n.toNat := by
  have hw : (old + 1).toNat = old.toNat + 1 := by
    rw [UInt64.toNat_add, UInt64.toNat_one]
    exact Nat.mod_eq_of_lt (by omega)
  have hmul : (old.toNat + 1) / n.toNat * n.toNat ≤ old.toNat + 1 := Nat.div_mul_le_self _ _
  have hdiv : ((old + 1) / n * n).toNat = (old.toNat + 1) / n.toNat * n.toNat := by
    rw [UInt64.toNat_mul, UInt64.toNat_div, hw]
    exact Nat.mod_eq_of_lt (by omega)
  have hzero : (old + 1) % n = 0 ↔ (old.toNat + 1) % n.toNat = 0 := by
    rw [← UInt64.toNat_inj, UInt64.toNat_mod, hw]
    rfl
  have hround : ((old + 1) / n * n + (if (old + 1) % n = 0 then 0 else n)).toNat =
      (old.toNat / n.toNat + 1) * n.toNat := by
    rw [← roundEnd_eq, UInt64.toNat_add, hdiv]
    by_cases h : (old.toNat + 1) % n.toNat = 0
    · rw [if_pos (hzero.2 h), if_pos h]
      exact Nat.mod_eq_of_lt (by rw [UInt64.toNat_zero]; omega)
    · rw [if_neg (mt hzero.1 h), if_neg h]
      exact Nat.mod_eq_of_lt (by omega)
  rw [unblocks, decide_eq_true_eq, UInt64.le_iff_toNat_le, hround, ← Nat.le_div_iff_mul_le hn]
  exact Nat.succ_le_iff

theorem toInt_sdiv_bits {x y : SVal64} (hx : x.toNat < 2 ^ 31) (hy : y.toNat < 2 ^ 31) :
    ((bits 32 x).sdiv (bits 32 y)).toInt = (x.toNat / y.toNat : ℕ) := by
  have hpos : ∀ {z : SVal64}, z.toNat < 2 ^ 31 → (bits 32 z).toInt = z.toNat := fun {z} hz => by
    rw [toInt_bits (by omega) (by omega), if_pos hz]
  have hle : x.toNat / y.toNat ≤ x.toNat := Nat.div_le_self _ _
  rw [BitVec.toInt_sdiv, hpos hx, hpos hy, ← Int.ofNat_tdiv]
  generalize x.toNat / y.toNat = q at hle
  exact Int.bmod_eq_of_le_mul_two (by omega) (by omega)

/-- **The assumption of the runtime** is the same, as long as its integers do not overflow. -/
theorem barrierAssumption_iff (hn : n.toNat < 2 ^ 31) (hold : old.toNat < 2 ^ 31)
    (hnew : new.toNat < 2 ^ 31) :
    barrierAssumption n old new = true ↔ old.toNat / n.toNat < new.toNat / n.toNat := by
  rw [barrierAssumption, BitVec.slt_eq_decide, decide_eq_true_eq, toInt_sdiv_bits hold hn,
    toInt_sdiv_bits hnew hn]
  exact Int.ofNat_lt

/-! ## Rounds -/

/-- The counter of a barrier, and for each thread how often it has incremented the counter, how
often it has gone on, and the value it incremented last if it has not gone on yet. -/
structure State (T : Type*) where
  counter : SVal64
  arrived : T → ℕ
  returned : T → ℕ
  waiting : T → Option SVal64

variable {T : Type*}

namespace State

/-- After `pthread_barrier_init`. -/
def initial : State T where
  counter := 0
  arrived := fun _ => 0
  returned := fun _ => 0
  waiting := fun _ => none

variable [DecidableEq T]

/-- A thread increments the counter. -/
def arrive (s : State T) (t : T) : State T where
  counter := executeRMWBinOp s.counter 1 4 .Add
  arrived := Function.update s.arrived t (s.arrived t + 1)
  returned := s.returned
  waiting := Function.update s.waiting t (some s.counter)

/-- A thread goes on. -/
def goOn (s : State T) (t : T) : State T :=
  { s with
    returned := Function.update s.returned t (s.returned t + 1)
    waiting := Function.update s.waiting t none }

end State

/-- What threads do that wait for each other.  The value that a waiting thread reads need not be the
last one.  The counter does not overflow. -/
inductive Step [DecidableEq T] (n : SVal64) (s : State T) : State T → Prop
  | arrive (t : T) (hw : s.waiting t = none) (hlt : s.counter.toNat + 1 < 2 ^ 31) :
      Step n s (s.arrive t)
  | goOn (t : T) (old val : SVal64) (hw : s.waiting t = some old) (hval : val ≤ s.counter)
      (hgo : unblocks n (old + 1) val = true) : Step n s (s.goOn t)

/-- The states of all runs. -/
def Reachable [DecidableEq T] (n : SVal64) (s : State T) : Prop :=
  Relation.ReflTransGen (Step n) State.initial s

/-- A thread that has gone on has seen all its rounds full; one that waits has seen all but the
last, in which it incremented the counter from `old`.  Every thread has arrived once in each full
round. -/
structure Inv [Fintype T] (n : ℕ) (s : State T) : Prop where
  small : s.counter.toNat < 2 ^ 31
  total : ∑ t, s.arrived t = s.counter.toNat
  rounds : ∀ t, s.counter.toNat / n ≤ s.arrived t
  idle : ∀ t, s.waiting t = none → s.returned t = s.arrived t ∧ s.arrived t ≤ s.counter.toNat / n
  waiting : ∀ t old, s.waiting t = some old → s.arrived t = s.returned t + 1 ∧
    s.returned t = old.toNat / n ∧ old.toNat < s.counter.toNat

variable [Fintype T] {s s' : State T} {k : ℕ}

theorem inv_initial : Inv k (State.initial : State T) where
  small := show (0 : SVal64).toNat < 2 ^ 31 by decide
  total := Finset.sum_const_zero
  rounds _ := (Nat.zero_div k).le
  idle _ _ := ⟨rfl, Nat.zero_le _⟩
  waiting _ _ h := nomatch h

/-- A thread has gone on as often as there are full rounds at most. -/
theorem Inv.returned_le (h : Inv k s) (t : T) : s.returned t ≤ s.counter.toNat / k := by
  cases hw : s.waiting t with
  | none =>
    obtain ⟨h1, h2⟩ := h.idle t hw
    exact h1.trans_le h2
  | some old =>
    obtain ⟨-, h2, h3⟩ := h.waiting t old hw
    exact h2.trans_le (Nat.div_le_div_right h3.le)

/-- No thread is ahead by more than one round. -/
theorem Inv.arrived_le (h : Inv k s) (t : T) : s.arrived t ≤ s.counter.toNat / k + 1 := by
  cases hw : s.waiting t with
  | none => exact (h.idle t hw).2.trans (Nat.le_succ _)
  | some old =>
    rw [(h.waiting t old hw).1]
    exact Nat.succ_le_succ (h.returned_le t)

variable [DecidableEq T]

/-- The last thread of a round finds all others there. -/
theorem Inv.rounds_arrive (h : Inv k s) (hk : Fintype.card T = k) {t : T}
    (hw : s.waiting t = none) (u : T) :
    (s.counter.toNat + 1) / k ≤ Function.update s.arrived t (s.arrived t + 1) u := by
  set f := Function.update s.arrived t (s.arrived t + 1)
  have hge : s.arrived u ≤ f u := by
    by_cases hu : u = t
    · subst hu
      simp [f]
    · simp [f, hu]
  have hdiv : (s.counter.toNat + 1) / k = _ := Nat.succ_div
  by_cases hlast : k ∣ s.counter.toNat + 1
  · rw [if_pos hlast] at hdiv
    rw [hdiv]
    have hle : ∀ v ∈ Finset.univ, f v ≤ s.counter.toNat / k + 1 := by
      intro v _
      by_cases hv : v = t
      · subst hv
        simpa [f] using (h.idle v hw).2
      · simpa [f, hv] using h.arrived_le v
    have hsum : ∑ v, f v = ∑ _v : T, (s.counter.toNat / k + 1) := by
      rw [Finset.sum_update_of_mem (Finset.mem_univ t), Finset.sum_const, Finset.card_univ, hk,
        smul_eq_mul, ← hdiv, Nat.mul_div_cancel' hlast, ← h.total,
        ← Finset.add_sum_erase _ _ (Finset.mem_univ t), Finset.sdiff_singleton_eq_erase]
      ring
    exact ((Finset.sum_eq_sum_iff_of_le hle).1 hsum u (Finset.mem_univ u)).ge
  · rw [if_neg hlast, Nat.add_zero] at hdiv
    rw [hdiv]
    exact (h.rounds u).trans hge

/-- **A step keeps the invariant.** -/
theorem Inv.step (h : Inv n.toNat s) (hk : Fintype.card T = n.toNat) (hn : 1 ≤ n.toNat)
    (hn' : n.toNat < 2 ^ 31) (hs : Step n s s') : Inv n.toNat s' := by
  cases hs with
  | arrive t hw hlt =>
    have hcounter : (s.arrive t).counter.toNat = s.counter.toNat + 1 := by
      rw [State.arrive, executeRMWBinOp, UInt64.toNat_add, UInt64.toNat_one]
      exact Nat.mod_eq_of_lt (by omega)
    obtain ⟨hret, hle⟩ := h.idle t hw
    refine ⟨hcounter.trans_lt hlt, ?_, fun u => ?_, fun u hu => ?_, fun u old hu => ?_⟩
    · rw [hcounter, ← h.total]
      show ∑ v, Function.update s.arrived t (s.arrived t + 1) v = _
      rw [Finset.sum_update_of_mem (Finset.mem_univ t),
        ← Finset.add_sum_erase _ s.arrived (Finset.mem_univ t), Finset.sdiff_singleton_eq_erase]
      ring
    · rw [hcounter]
      exact h.rounds_arrive hk hw u
    · have hut : u ≠ t := by
        rintro rfl
        simp [State.arrive] at hu
      simp only [State.arrive, Function.update_of_ne hut] at hu ⊢
      obtain ⟨h1, h2⟩ := h.idle u hu
      exact ⟨h1, h2.trans (Nat.div_le_div_right (hcounter ▸ Nat.le_succ _))⟩
    · rw [hcounter]
      by_cases hut : u = t
      · subst hut
        simp only [State.arrive, Function.update_self, Option.some.injEq] at hu ⊢
        subst hu
        exact ⟨by rw [hret], by rw [hret]; exact le_antisymm hle (h.rounds u), Nat.lt_succ_self _⟩
      · simp only [State.arrive, Function.update_of_ne hut] at hu ⊢
        obtain ⟨h1, h2, h3⟩ := h.waiting u old hu
        exact ⟨h1, h2, Nat.lt_succ_of_lt h3⟩
  | goOn t old val hw hval hgo =>
    obtain ⟨h1, h2, h3⟩ := h.waiting t old hw
    have hsmall := h.small
    rw [unblocks_iff hn hn' (by omega)] at hgo
    have hfull : val.toNat / n.toNat ≤ s.counter.toNat / n.toNat :=
      Nat.div_le_div_right (UInt64.le_iff_toNat_le.1 hval)
    refine ⟨h.small, h.total, h.rounds, fun u hu => ?_, fun u old' hu => ?_⟩
    · by_cases hut : u = t
      · subst hut
        simp only [State.goOn, Function.update_self]
        exact ⟨h1.symm, by rw [h1, h2]; omega⟩
      · simp only [State.goOn, Function.update_of_ne hut] at hu ⊢
        exact h.idle u hu
    · have hut : u ≠ t := by
        rintro rfl
        simp [State.goOn] at hu
      simp only [State.goOn, Function.update_of_ne hut] at hu ⊢
      exact h.waiting u old' hu

theorem inv_of_reachable (hk : Fintype.card T = n.toNat) (hn : 1 ≤ n.toNat)
    (hn' : n.toNat < 2 ^ 31) (h : Reachable n s) : Inv n.toNat s := by
  induction h with
  | refl => exact inv_initial
  | tail _ hs ih => exact ih.step hk hn hn' hs

/-- **Barriers are safe.**  The model checker lets a thread go on if and only if the runtime does,
which is if more rounds are full than before its increment; and no thread has gone on more often
than another one has arrived. -/
theorem barrier_safe {T : Type*} [DecidableEq T] [Fintype T] (n : SVal64) (hn : 1 ≤ n.toNat)
    (hn' : n.toNat < 2 ^ 31) :
    (∀ env g rLab (old new : SVal64), Waits env g n old new rLab → old.toNat + 1 < 2 ^ 31 →
      new.toNat < 2 ^ 31 → ∃ b, readsBarrierUnblockingValue env g rLab = some b ∧
        b = barrierAssumption n old new ∧
        (b = true ↔ old.toNat / n.toNat < new.toNat / n.toNat)) ∧
    (Fintype.card T = n.toNat → ∀ s : State T, Reachable n s →
      ∀ t u, s.returned t ≤ s.arrived u) := by
  refine ⟨fun env g rLab old new h hold hnew => ?_, fun hk s h t u => ?_⟩
  · have hiff : unblocks n (old + 1) new = true ↔ _ := unblocks_iff hn hn' hold
    refine ⟨_, readsBarrierUnblockingValue_eq h, ?_, hiff⟩
    rw [Bool.eq_iff_iff, hiff, barrierAssumption_iff hn' (by omega) hnew]
  · have hinv := inv_of_reachable hk hn hn' h
    exact (hinv.returned_le t).trans (hinv.rounds u)

/-- One of two threads has arrived, and reads its own increment. -/
def waitingGraph : ExecutionGraph :=
  { ExecutionGraph.init with
    events := [[ExecutionGraph.initLabel,
      { kind := .Write, pos := ⟨0, 1⟩, addr := 8, value := 2 },
      { kind := .Read, pos := ⟨0, 2⟩, addr := 8, rf := some ⟨0, 1⟩ },
      { kind := .BIncFaiRead, pos := ⟨0, 3⟩, addr := 12, rf := some Event.getInit },
      { kind := .BIncFaiWrite, pos := ⟨0, 4⟩, addr := 12, value := 1 }]] }

def waitingRead : EventLabel :=
  { kind := .BWaitRead, pos := ⟨0, 5⟩, addr := 12, rf := some ⟨0, 4⟩ }

theorem waits_waitingRead : Waits plainEnvironment waitingGraph 2 0 1 waitingRead :=
  ⟨rfl, by decide, _, _, _, rfl, rfl, rfl, rfl, rfl, rfl, by decide, by decide, by decide⟩

/-- Two threads have arrived, and one of them has gone on. -/
def fullRound : State (Fin 2) :=
  let first := ⟨0, Nat.zero_lt_two⟩
  ((State.initial.arrive first).arrive ⟨1, Nat.one_lt_two⟩).goOn first

theorem fullRound_reachable : Reachable 2 fullRound :=
  (((Relation.ReflTransGen.refl.tail (.arrive 0 rfl (by decide))).tail
    (.arrive 1 rfl (by decide))).tail (.goOn 0 0 2 rfl (by decide) (by decide)))

theorem barrier_safe_two :
    (∃ b, readsBarrierUnblockingValue plainEnvironment waitingGraph waitingRead = some b ∧
      b = barrierAssumption 2 0 1 ∧
      (b = true ↔ (0 : SVal64).toNat / (2 : SVal64).toNat <
        (1 : SVal64).toNat / (2 : SVal64).toNat)) ∧
    fullRound.returned 0 ≤ fullRound.arrived 1 :=
  have h := barrier_safe (T := Fin 2) 2 (by decide) (by decide)
  ⟨h.1 _ _ _ 0 1 waits_waitingRead (by decide) (by decide), h.2 rfl _ fullRound_reachable 0 1⟩

end Barrier
end GenMC
