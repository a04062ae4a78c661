import Mathlib.Logic.Function.Basic
import Mathlib.Tactic

/-!
# Reader-writer locks

The runtime models a `pthread_rwlock_t` as an array of mutexes, one for each thread.  A reader takes
its own mutex and a writer takes all of them.  `pthread_rwlock_unlock` has to know which of the two
it undoes, and reads it off `__VERIFIER_rwlock_reader`, a flag that every thread has *once*, for all
locks: each acquiring call sets it, also one that fails.  A thread that holds several locks can
therefore release one as if it held it in the mode of another.

* `next` has a step for each call and for each mutex operation a call makes.
* `Safe` is what one wants: writers exclude everyone, and an unlock releases exactly the mutexes
  that its thread has acquired for the lock.
* `Matched` is the condition under which an unlock takes the right path: the last acquiring call of
  the thread, on whatever lock, had the mode in which the thread holds the lock it releases.
* `safe_of_reachable` says that this is enough in every run, and `writer_left_behind` that it is
  needed.
-/

set_option autoImplicit false

namespace GenMC
namespace RwLock

variable {Lock : Type} [DecidableEq Lock] {N : ℕ}

/-- How far a thread is with a lock.  The argument of a loop is the mutex it handles next. -/
inductive Stage where
  | free
  | rdlock
  | tryrdlock
  | wrlock (i : ℕ)
  | read
  | write
  | unlockReader
  | unlockWriter (i : ℕ)
deriving DecidableEq

/-- The state of the locks. -/
structure State (Lock : Type) where
  /-- Who has locked the mutexes of a lock. -/
  priv : Lock → ℕ → Option ℕ
  /-- `__VERIFIER_rwlock_reader` of each thread. -/
  reader : ℕ → Bool
  stage : ℕ → Lock → Stage
  /-- The lock a thread is inside a call for. -/
  calling : ℕ → Option Lock

namespace State

/-- After `pthread_rwlock_init` of all locks. -/
def initial : State Lock where
  priv := fun _ _ => none
  reader := fun _ => false
  stage := fun _ _ => .free
  calling := fun _ => none

/-- Moves a thread on with a lock. -/
def setStage (s : State Lock) (t : ℕ) (ℓ : Lock) (st : Stage) : State Lock :=
  { s with stage := Function.update s.stage t (Function.update (s.stage t) ℓ st) }

/-- `__VERIFIER_mutex_lock` of a free mutex, and `__VERIFIER_mutex_unlock`. -/
def setMutex (s : State Lock) (ℓ : Lock) (i : ℕ) (o : Option ℕ) : State Lock :=
  { s with priv := Function.update s.priv ℓ (Function.update (s.priv ℓ) i o) }

/-- A thread enters a call. -/
def enter (s : State Lock) (t : ℕ) (ℓ : Lock) (st : Stage) : State Lock :=
  { s.setStage t ℓ st with calling := Function.update s.calling t (some ℓ) }

/-- A thread returns from a call. -/
def leave (s : State Lock) (t : ℕ) (ℓ : Lock) (st : Stage) : State Lock :=
  { s.setStage t ℓ st with calling := Function.update s.calling t none }

/-- Sets the flag of a thread. -/
def setReader (s : State Lock) (t : ℕ) (b : Bool) : State Lock :=
  { s with reader := Function.update s.reader t b }

end State

open State

/-- What threads do. -/
inductive Act (Lock : Type) where
  | rdlock (t : ℕ) (ℓ : Lock)
  | tryrdlock (t : ℕ) (ℓ : Lock)
  | wrlock (t : ℕ) (ℓ : Lock)
  | unlock (t : ℕ) (ℓ : Lock)
  /-- The next step of the call the thread is in. -/
  | continue (t : ℕ)

/-- The next step of the call in which thread `t` is at a stage with lock `ℓ`. -/
def continueCall (N : ℕ) (s : State Lock) (t : ℕ) (ℓ : Lock) : Stage → Option (State Lock)
  | .rdlock =>
    if s.priv ℓ t = none then some ((s.setMutex ℓ t (some t)).leave t ℓ .read) else none
  | .tryrdlock =>
    if s.priv ℓ t = none then some ((s.setMutex ℓ t (some t)).leave t ℓ .read)
    else some (s.leave t ℓ .free)
  | .wrlock i =>
    if i < N then
      if s.priv ℓ i = none then some ((s.setMutex ℓ i (some t)).setStage t ℓ (.wrlock (i + 1)))
      else none
    else some (s.leave t ℓ .write)
  | .unlockReader => some ((s.setMutex ℓ t none).leave t ℓ .free)
  | .unlockWriter i =>
    if i < N then some ((s.setMutex ℓ i none).setStage t ℓ (.unlockWriter (i + 1)))
    else some (s.leave t ℓ .free)
  | .free => none
  | .read => none
  | .write => none

/-- The steps of threads.  All calls assert that the thread has a mutex of its own; a lock that is
acquired is not held yet, and one that is released is held. -/
def next (N : ℕ) (s : State Lock) : Act Lock → Option (State Lock)
  | .rdlock t ℓ =>
    if t < N ∧ s.calling t = none ∧ s.stage t ℓ = .free then
      some ((s.setReader t true).enter t ℓ .rdlock)
    else none
  | .tryrdlock t ℓ =>
    if t < N ∧ s.calling t = none ∧ s.stage t ℓ = .free then
      some ((s.setReader t true).enter t ℓ .tryrdlock)
    else none
  | .wrlock t ℓ =>
    if t < N ∧ s.calling t = none ∧ s.stage t ℓ = .free then
      some ((s.setReader t false).enter t ℓ (.wrlock 0))
    else none
  | .unlock t ℓ =>
    if t < N ∧ s.calling t = none ∧ (s.stage t ℓ = .read ∨ s.stage t ℓ = .write) then
      some (s.enter t ℓ (if s.reader t then .unlockReader else .unlockWriter 0))
    else none
  | .continue t =>
    match s.calling t with
    | none => none
    | some ℓ => continueCall N s t ℓ (s.stage t ℓ)

/-- An unlock finds the flag as the acquisition of this lock has set it. -/
def Matched (s : State Lock) : Act Lock → Prop
  | .unlock t ℓ => s.reader t = true ↔ s.stage t ℓ = .read
  | _ => True

/-- The states of the runs in which `P` holds before every step. -/
inductive Reachable (N : ℕ) (P : State Lock → Act Lock → Prop) : State Lock → Prop
  | initial : Reachable N P State.initial
  | step {s s' : State Lock} {a : Act Lock} (h : Reachable N P s) (hP : P s a)
      (hs : next N s a = some s') : Reachable N P s'

/-- The mutex that an unlock of `ℓ` by thread `t` releases next. -/
def ReleasesNext (N : ℕ) (s : State Lock) (t : ℕ) (ℓ : Lock) (i : ℕ) : Prop :=
  (s.stage t ℓ = .unlockReader ∧ i = t) ∨ (s.stage t ℓ = .unlockWriter i ∧ i < N)

/-- Writers exclude everyone else; an unlock releases mutexes of its own thread only, and a thread
that is done with a lock has none of its mutexes left. -/
structure Safe (N : ℕ) (s : State Lock) : Prop where
  exclusive : ∀ ℓ t t', s.stage t ℓ = .write → s.stage t' ℓ = .read ∨ s.stage t' ℓ = .write →
    t' = t
  releasesOwn : ∀ ℓ t i, ReleasesNext N s t ℓ i → s.priv ℓ i = some t
  nothingLeft : ∀ ℓ t i, i < N → s.stage t ℓ = .free → s.priv ℓ i ≠ some t

/-! ## The invariant -/

/-- The mutexes that thread `t` has at a stage. -/
def Stage.Owns (t i : ℕ) : Stage → Prop
  | free => False
  | rdlock => False
  | tryrdlock => False
  | wrlock j => i < j
  | read => i = t
  | write => True
  | unlockReader => i = t
  | unlockWriter j => j ≤ i

/-- Every mutex is with the thread whose stage says so, and only threads with a mutex of their own
use the locks. -/
structure Inv (N : ℕ) (s : State Lock) : Prop where
  owner : ∀ ℓ i t, i < N → (s.priv ℓ i = some t ↔ (s.stage t ℓ).Owns t i)
  self : ∀ ℓ t, s.stage t ℓ ≠ .free → t < N

omit [DecidableEq Lock] in
theorem inv_initial : Inv N (State.initial : State Lock) where
  owner := fun _ _ _ _ => ⟨nofun, nofun⟩
  self := fun _ _ h => absurd rfl h

/-! ## What the operations change -/

theorem stage_setStage (s : State Lock) (t t' : ℕ) (ℓ ℓ' : Lock) (st : Stage) :
    (s.setStage t ℓ st).stage t' ℓ' = if t' = t ∧ ℓ' = ℓ then st else s.stage t' ℓ' := by
  rw [setStage]
  by_cases ht : t' = t
  · subst ht
    by_cases hl : ℓ' = ℓ
    · subst hl
      simp
    · simp [hl]
  · simp [ht]

theorem priv_setMutex (s : State Lock) (ℓ ℓ' : Lock) (i i' : ℕ) (o : Option ℕ) :
    (s.setMutex ℓ i o).priv ℓ' i' = if ℓ' = ℓ ∧ i' = i then o else s.priv ℓ' i' := by
  rw [setMutex]
  by_cases hl : ℓ' = ℓ
  · subst hl
    by_cases hi : i' = i
    · subst hi
      simp
    · simp [hi]
  · simp [hl]

/-- A step that changes one stage and no mutex. -/
theorem Inv.setStage {s s' : State Lock} (h : Inv N s) {t : ℕ} {ℓ : Lock} {st : Stage}
    (hpriv : s'.priv = s.priv) (hstage : s'.stage = (s.setStage t ℓ st).stage) (ht : t < N)
    (howns : ∀ i < N, st.Owns t i ↔ (s.stage t ℓ).Owns t i) : Inv N s' where
  owner := by
    intro ℓ' i t' hi
    rw [hpriv, hstage, stage_setStage, h.owner ℓ' i t' hi]
    split
    · rename_i heq
      obtain ⟨rfl, rfl⟩ := heq
      exact (howns i hi).symm
    · exact Iff.rfl
  self := by
    intro ℓ' t' hne
    rw [hstage, stage_setStage] at hne
    split at hne
    · rename_i heq
      rw [heq.1]
      exact ht
    · exact h.self ℓ' t' hne

/-- A step that changes one stage and one mutex of the lock. -/
theorem Inv.setMutex {s s' : State Lock} (h : Inv N s) {t i : ℕ} {ℓ : Lock} {st : Stage}
    {o : Option ℕ} (hpriv : s'.priv = (s.setMutex ℓ i o).priv)
    (hstage : s'.stage = (s.setStage t ℓ st).stage) (ht : t < N)
    (howns : ∀ j < N, j ≠ i → (st.Owns t j ↔ (s.stage t ℓ).Owns t j))
    (hself : i < N → (o = some t ↔ st.Owns t i))
    (hother : i < N → ∀ t', t' ≠ t → o ≠ some t' ∧ ¬ (s.stage t' ℓ).Owns t' i) : Inv N s' where
  owner := by
    intro ℓ' j t' hj
    rw [hpriv, hstage, stage_setStage, priv_setMutex]
    by_cases hl : ℓ' = ℓ
    · subst hl
      by_cases hji : j = i
      · subst hji
        by_cases htt : t' = t
        · subst htt
          rw [if_pos ⟨rfl, rfl⟩, if_pos ⟨rfl, rfl⟩]
          exact hself hj
        · rw [if_pos ⟨rfl, rfl⟩, if_neg (fun hc => htt hc.1)]
          obtain ⟨ho, hno⟩ := hother hj t' htt
          exact ⟨fun hc => absurd hc ho, fun hc => absurd hc hno⟩
      · rw [if_neg (fun hc => hji hc.2), h.owner ℓ' j t' hj]
        by_cases htt : t' = t
        · subst htt
          rw [if_pos ⟨rfl, rfl⟩]
          exact (howns j hj hji).symm
        · rw [if_neg (fun hc => htt hc.1)]
    · rw [if_neg (fun hc => hl hc.1), if_neg (fun hc => hl hc.2)]
      exact h.owner ℓ' j t' hj
  self := by
    intro ℓ' t' hne
    rw [hstage, stage_setStage] at hne
    split at hne
    · rename_i heq
      rw [heq.1]
      exact ht
    · exact h.self ℓ' t' hne

omit [DecidableEq Lock] in
/-- A mutex that no thread has locked belongs to no stage. -/
theorem Inv.not_owns_of_none {s : State Lock} (h : Inv N s) {ℓ : Lock} {i : ℕ} (hi : i < N)
    (hfree : s.priv ℓ i = none) (t : ℕ) : ¬ (s.stage t ℓ).Owns t i := by
  intro hown
  rw [← h.owner ℓ i t hi, hfree] at hown
  cases hown

omit [DecidableEq Lock] in
/-- A mutex belongs to one stage only. -/
theorem Inv.not_owns_of_ne {s : State Lock} (h : Inv N s) {ℓ : Lock} {i t : ℕ} (hi : i < N)
    (hown : (s.stage t ℓ).Owns t i) {t' : ℕ} (hne : t' ≠ t) : ¬ (s.stage t' ℓ).Owns t' i := by
  intro hown'
  rw [← h.owner ℓ i t hi] at hown
  rw [← h.owner ℓ i t' hi, hown] at hown'
  exact hne (Option.some.inj hown').symm

/-! ## One step -/

/-- A step inside a call keeps the invariant. -/
theorem Inv.continueCall {s s' : State Lock} (h : Inv N s) {t : ℕ} {ℓ : Lock} {st : Stage}
    (hst : s.stage t ℓ = st) (hs : continueCall N s t ℓ st = some s') : Inv N s' := by
  have ht : st ≠ .free → t < N := fun hne => h.self ℓ t (by rwa [hst])
  cases st with
  | rdlock =>
    simp only [RwLock.continueCall] at hs
    split at hs
    · rename_i hfree
      cases hs
      have ht := ht (by decide)
      exact h.setMutex (t := t) (i := t) rfl rfl ht
        (fun j _ hj => by rw [hst]; exact ⟨fun hc => absurd hc hj, False.elim⟩)
        (fun _ => ⟨fun _ => rfl, fun _ => rfl⟩)
        (fun _ t' hne => ⟨fun hc => hne (Option.some.inj hc).symm, h.not_owns_of_none ht hfree t'⟩)
    · cases hs
  | tryrdlock =>
    simp only [RwLock.continueCall] at hs
    have ht := ht (by decide)
    split at hs
    · rename_i hfree
      cases hs
      exact h.setMutex (t := t) (i := t) rfl rfl ht
        (fun j _ hj => by rw [hst]; exact ⟨fun hc => absurd hc hj, False.elim⟩)
        (fun _ => ⟨fun _ => rfl, fun _ => rfl⟩)
        (fun _ t' hne => ⟨fun hc => hne (Option.some.inj hc).symm, h.not_owns_of_none ht hfree t'⟩)
    · cases hs
      exact h.setStage rfl rfl ht fun i _ => by rw [hst]; exact Iff.rfl
  | wrlock i =>
    have ht := ht (nofun)
    simp only [RwLock.continueCall] at hs
    split at hs
    · rename_i hi
      split at hs
      · rename_i hfree
        cases hs
        refine h.setMutex rfl rfl ht (fun j _ hj => ?_) (fun _ => ?_)
          (fun _ t' hne => ⟨fun hc => hne (Option.some.inj hc).symm,
            h.not_owns_of_none hi hfree t'⟩)
        · rw [hst]
          show j < i + 1 ↔ j < i
          omega
        · exact ⟨fun _ => Nat.lt_succ_self i, fun _ => rfl⟩
      · cases hs
    · rename_i hi
      cases hs
      -- the loop has been through all mutexes
      refine h.setStage rfl rfl ht fun j hj => ?_
      rw [hst]
      show True ↔ j < i
      exact ⟨fun _ => by omega, fun _ => trivial⟩
  | unlockReader =>
    have ht := ht (by decide)
    cases hs
    refine h.setMutex (t := t) (i := t) rfl rfl ht (fun j _ hj => ?_) (fun _ => ?_)
      (fun hi t' hne => ⟨nofun, h.not_owns_of_ne hi (by rw [hst]; rfl) hne⟩)
    · rw [hst]
      exact ⟨False.elim, fun hc => absurd hc hj⟩
    · exact ⟨nofun, False.elim⟩
  | unlockWriter i =>
    have ht := ht (nofun)
    simp only [RwLock.continueCall] at hs
    split at hs
    · cases hs
      refine h.setMutex rfl rfl ht (fun j _ hj => ?_) (fun _ => ?_)
        (fun hi t' hne => ⟨nofun,
          h.not_owns_of_ne hi (by rw [hst]; exact Nat.le_refl i) hne⟩)
      · rw [hst]
        show i + 1 ≤ j ↔ i ≤ j
        omega
      · refine ⟨nofun, fun hc => ?_⟩
        exact absurd hc (Nat.not_succ_le_self i)
    · rename_i hi
      cases hs
      refine h.setStage rfl rfl ht fun j hj => ?_
      rw [hst]
      show False ↔ i ≤ j
      exact ⟨False.elim, fun hc => by omega⟩
  | free => cases hs
  | read => cases hs
  | write => cases hs

/-- A call that acquires a lock has no mutex of it at first. -/
theorem Inv.enter_free {s s' : State Lock} (h : Inv N s) {t : ℕ} {ℓ : Lock} {st : Stage}
    (ht : t < N) (hfree : s.stage t ℓ = .free) (hpriv : s'.priv = s.priv)
    (hstage : s'.stage = (s.setStage t ℓ st).stage) (hst : ∀ i, ¬ st.Owns t i) : Inv N s' :=
  h.setStage hpriv hstage ht fun i _ => by
    rw [hfree]
    exact ⟨fun hc => absurd hc (hst i), False.elim⟩

/-- **A step keeps the invariant**, if an unlock finds the flag as its lock needs it. -/
theorem Inv.next {s s' : State Lock} (h : Inv N s) {a : Act Lock} (hm : Matched s a)
    (hs : next N s a = some s') : Inv N s' := by
  cases a with
  | rdlock t ℓ =>
    simp only [RwLock.next] at hs
    split at hs
    · rename_i hg
      cases hs
      exact h.enter_free hg.1 hg.2.2 rfl rfl fun i hc => hc
    · cases hs
  | tryrdlock t ℓ =>
    simp only [RwLock.next] at hs
    split at hs
    · rename_i hg
      cases hs
      exact h.enter_free hg.1 hg.2.2 rfl rfl fun i hc => hc
    · cases hs
  | wrlock t ℓ =>
    simp only [RwLock.next] at hs
    split at hs
    · rename_i hg
      cases hs
      exact h.enter_free hg.1 hg.2.2 rfl rfl fun i hc => absurd hc (Nat.not_lt_zero i)
    · cases hs
  | unlock t ℓ =>
    simp only [RwLock.next] at hs
    split at hs
    · rename_i hg
      cases hs
      refine h.setStage (t := t) rfl rfl hg.1 fun i _ => ?_
      have hm : s.reader t = true ↔ s.stage t ℓ = .read := hm
      rcases hg.2.2 with hread | hwrite
      · rw [if_pos (hm.2 hread), hread]
        exact Iff.rfl
      · have hflag : ¬ s.reader t = true := by
          rw [hm, hwrite]
          exact nofun
        rw [if_neg hflag, hwrite]
        exact ⟨fun _ => trivial, fun _ => Nat.zero_le i⟩
    · cases hs
  | «continue» t =>
    simp only [RwLock.next] at hs
    split at hs
    · cases hs
    · exact h.continueCall rfl hs

omit [DecidableEq Lock] in
/-- The invariant makes the locks safe. -/
theorem Inv.safe {s : State Lock} (h : Inv N s) : Safe N s where
  exclusive := by
    intro ℓ t t' hw hh
    rcases hh with hr | hw'
    · -- the reader's own mutex
      have ht' : t' < N := h.self ℓ t' (by rw [hr]; exact nofun)
      by_contra hne
      exact h.not_owns_of_ne ht' (t := t) (by rw [hw]; trivial) hne (by rw [hr]; rfl)
    · have ht : t < N := h.self ℓ t (by rw [hw]; exact nofun)
      by_contra hne
      exact h.not_owns_of_ne ht (t := t) (by rw [hw]; trivial) hne (by rw [hw']; trivial)
  releasesOwn := by
    intro ℓ t i hi
    rcases hi with ⟨hst, rfl⟩ | ⟨hst, hi⟩
    · have ht : i < N := h.self ℓ i (by rw [hst]; exact nofun)
      rw [h.owner ℓ i i ht, hst]
      rfl
    · rw [h.owner ℓ i t hi, hst]
      exact Nat.le_refl i
  nothingLeft := by
    intro ℓ t i hi hst hown
    rw [h.owner ℓ i t hi, hst] at hown
    exact hown

/-! ## Whole runs -/

theorem Reachable.inv {s : State Lock} (h : Reachable N Matched s) : Inv N s := by
  induction h with
  | initial => exact inv_initial
  | step _ hm hs ih => exact ih.next hm hs

/-- **Locks are safe in every run in which each unlock finds the flag as its lock needs it**, for
any number of locks and threads and any interleaving. -/
theorem safe_of_reachable {s : State Lock} (h : Reachable N Matched s) : Safe N s :=
  h.inv.safe

/-- A thread reads under two locks and releases one of them, while another one waits to write. -/
theorem readers_safe : ∃ s : State Bool, s.stage 0 true = .read ∧ s.stage 1 true = .wrlock 0 ∧
    Safe 2 s := by
  have h0 : Reachable 2 Matched (State.initial : State Bool) := .initial
  have h1 := (h0.step (a := .rdlock 0 true) trivial rfl).step (a := .continue 0) trivial rfl
  have h2 := (h1.step (a := .rdlock 0 false) trivial rfl).step (a := .continue 0) trivial rfl
  have h3 := (h2.step (a := .unlock 0 false) ⟨fun _ => rfl, fun _ => rfl⟩ rfl).step
    (a := .continue 0) trivial rfl
  have h4 := h3.step (a := .wrlock 1 true) trivial rfl
  exact ⟨_, rfl, rfl, safe_of_reachable h4⟩

/-- Runs a list of steps. -/
def run (N : ℕ) (s : State Lock) (as : List (Act Lock)) : Option (State Lock) :=
  as.foldlM (next N) s

theorem reachable_of_run {s s' : State Lock} (h : Reachable N (fun _ _ => True) s)
    {as : List (Act Lock)} (hs : run N s as = some s') :
    Reachable N (fun _ _ => True) s' := by
  induction as generalizing s with
  | nil =>
    cases hs
    exact h
  | cons a as ih =>
    rw [run, List.foldlM_cons, Option.bind_eq_bind, Option.bind_eq_some_iff] at hs
    obtain ⟨s₁, h1, h2⟩ := hs
    exact ih (h.step trivial h1) h2

/-- Thread `0` takes lock `false` as a writer and lock `true` as a reader, and releases the first.
There are two threads. -/
def writeThenRead : List (Act Bool) :=
  [.wrlock 0 false, .continue 0, .continue 0, .continue 0,
    .rdlock 0 true, .continue 0,
    .unlock 0 false, .continue 0]

/-- **The flag of the second lock decides how the first one is released**: the unlock takes the path
of a reader, and the mutex of the other thread stays locked for good. -/
theorem writer_left_behind :
    ∃ s : State Bool, Reachable 2 (fun _ _ => True) s ∧ ¬ Safe 2 s := by
  obtain ⟨s, hs⟩ : ∃ s, run 2 State.initial writeThenRead = some s := ⟨_, rfl⟩
  refine ⟨s, reachable_of_run .initial hs, fun hsafe => ?_⟩
  cases hs
  exact hsafe.nothingLeft false 0 1 (by decide) rfl rfl

end RwLock
end GenMC
