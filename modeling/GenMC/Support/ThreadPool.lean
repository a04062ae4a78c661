import Mathlib.Data.Fintype.Card
import Mathlib.Tactic

/-!
# The worker pool

Workers share a queue of tasks.  A task may submit further tasks while it is executed, and the pool
counts the tasks that are queued or being executed: when the count reaches zero everyone goes home.

A pop is attempted outside the mutex that guards the count and the condition variable.  A task can
therefore be submitted between a failed pop and the wait that follows it, and the worker then goes
to sleep although there is work: its wake-up has been missed.  That the task is not stranded is
because only a worker that is executing a task submits, and that worker looks at the queue before
it sleeps.

* `Pool` is the state and `Step` has one step for each mutex section and each queue operation.
* `Pool.Inv` is the invariant: the count is right, and someone is about to look at a queue that is
  not empty.
* `Reachable.inv` is the invariant over whole runs, and `tasks_not_lost` what it means for the pool.
-/

set_option autoImplicit false

namespace GenMC
namespace ThreadPool

variable {Task : Type} {n : ℕ}

/-- Where a worker is. -/
inductive Worker (Task : Type) where
  /-- At the top of the loop of `popTask`. -/
  | popping
  /-- After a failed pop, before the mutex section of `popTask`. -/
  | idle
  /-- In `stateCV_.wait`. -/
  | asleep
  | executing (t : Task)
  /-- Out of the loop of `addWorker`. -/
  | finished
deriving DecidableEq

/-- Whether a worker has a task. -/
def Worker.isExecuting : Worker Task → Bool
  | executing _ => true
  | _ => false

/-- Whether a worker is going to look at the queue before it does anything else about sleeping. -/
def Worker.isAlert : Worker Task → Bool
  | popping => true
  | executing _ => true
  | _ => false

/-- What waking up does: the worker goes back to the top of the loop. -/
def Worker.wake : Worker Task → Worker Task
  | asleep => popping
  | w => w

/-- The state of a pool of `n` workers. -/
structure Pool (Task : Type) (n : ℕ) where
  queue : List Task
  remainingTasks : ℕ
  shouldHalt : Bool
  workers : Fin n → Worker Task

namespace Pool

/-- A pool before its workers run: the first task is submitted before they are spawned. -/
def initial (t : Task) : Pool Task n where
  queue := [t]
  remainingTasks := 1
  shouldHalt := false
  workers := fun _ => .popping

/-- Moves a worker. -/
def setWorker (s : Pool Task n) (i : Fin n) (w : Worker Task) : Pool Task n :=
  { s with workers := Function.update s.workers i w }

/-- `stateCV_.notify_all`. -/
def notifyAll (s : Pool Task n) : Pool Task n := { s with workers := fun i => (s.workers i).wake }

/-- The mutex section of `submit`, up to the notification. -/
def submit (t : Task) (s : Pool Task n) : Pool Task n :=
  { s with
    remainingTasks := s.remainingTasks + 1
    queue := s.queue ++ [t] }

/-- `GlobalWorkQueue::tryPop`, called by worker `i` in `popTask`. -/
def tryPop (i : Fin n) (s : Pool Task n) : Pool Task n :=
  match s.queue.getLast? with
  | none => s.setWorker i .idle
  | some t => { s.setWorker i (.executing t) with queue := s.queue.dropLast }

/-- Whether the mutex section of `popTask` returns null. -/
def returnsNull (s : Pool Task n) : Bool := s.shouldHalt || s.remainingTasks == 0

/-- The mutex section of `popTask`. -/
def waitForTask (i : Fin n) (s : Pool Task n) : Pool Task n :=
  if s.returnsNull then s.setWorker i .finished else s.setWorker i .asleep

/-- The mutex section in which a worker reports that it has executed its task. -/
def completeTask (i : Fin n) (s : Pool Task n) : Pool Task n :=
  let s' := { s with remainingTasks := s.remainingTasks - 1 }
  if s'.remainingTasks = 0 then s'.notifyAll.setWorker i .finished else s'.setWorker i .popping

/-- `ThreadPool::halt`. -/
def halt (s : Pool Task n) : Pool Task n := { s with shouldHalt := true }.notifyAll

/-- The number of tasks that are being executed. -/
def numExecuting (s : Pool Task n) : ℕ :=
  (Finset.univ.filter fun i => (s.workers i).isExecuting = true).card

end Pool

open Pool

/-- The steps of the pool.  `stateCV_.notify_one` wakes any one of the sleeping workers; a sleeping
worker may also wake up for no reason. -/
inductive Step : Pool Task n → Pool Task n → Prop
  | submitWake {s : Pool Task n} {i j : Fin n} {t : Task} (u : Task)
      (hi : s.workers i = .executing t) (hj : s.workers j = .asleep) :
      Step s ((s.submit u).setWorker j .popping)
  | submit {s : Pool Task n} {i : Fin n} {t : Task} (u : Task) (hi : s.workers i = .executing t)
      (hj : ∀ j, s.workers j ≠ .asleep) : Step s (s.submit u)
  | tryPop {s : Pool Task n} {i : Fin n} (hi : s.workers i = .popping) : Step s (s.tryPop i)
  | waitForTask {s : Pool Task n} {i : Fin n} (hi : s.workers i = .idle) :
      Step s (s.waitForTask i)
  | wakeUp {s : Pool Task n} {i : Fin n} (hi : s.workers i = .asleep) :
      Step s (s.setWorker i .popping)
  | completeTask {s : Pool Task n} {i : Fin n} {t : Task} (hi : s.workers i = .executing t) :
      Step s (s.completeTask i)
  | halt {s : Pool Task n} : Step s s.halt

/-- The states of a pool that starts with some task. -/
inductive Reachable : Pool Task n → Prop
  | initial (t : Task) : Reachable (Pool.initial t)
  | step {s s' : Pool Task n} (h : Reachable s) (hs : Step s s') : Reachable s'

/-- The invariant of the pool. -/
structure Pool.Inv (s : Pool Task n) : Prop where
  count : s.remainingTasks = s.queue.length + s.numExecuting
  alert : s.queue ≠ [] → ∃ i, (s.workers i).isAlert = true

/-! ## Counting the tasks that are executed -/

@[simp] theorem workers_setWorker_self (s : Pool Task n) (i : Fin n) (w : Worker Task) :
    (s.setWorker i w).workers i = w := by
  simp [setWorker]

theorem workers_setWorker_of_ne (s : Pool Task n) {i j : Fin n} (h : j ≠ i) (w : Worker Task) :
    (s.setWorker i w).workers j = s.workers j := by
  simp [setWorker, h]

theorem numExecuting_congr {s s' : Pool Task n}
    (h : ∀ i, (s'.workers i).isExecuting = (s.workers i).isExecuting) :
    s'.numExecuting = s.numExecuting := by
  simp only [numExecuting, h]

theorem isExecuting_wake (w : Worker Task) : w.wake.isExecuting = w.isExecuting := by
  cases w <;> rfl

theorem isAlert_wake {w : Worker Task} (h : w.isAlert = true) : w.wake.isAlert = true := by
  cases w with
  | popping => rfl
  | executing t => rfl
  | idle => exact absurd h Bool.false_ne_true
  | asleep => exact absurd h Bool.false_ne_true
  | finished => exact absurd h Bool.false_ne_true

/-- Moving a worker that has no task to where it has none. -/
theorem numExecuting_setWorker (s : Pool Task n) {i : Fin n} {w : Worker Task}
    (h : w.isExecuting = (s.workers i).isExecuting) :
    (s.setWorker i w).numExecuting = s.numExecuting := by
  refine numExecuting_congr fun j => ?_
  by_cases hj : j = i
  · rw [hj, workers_setWorker_self, h]
  · rw [workers_setWorker_of_ne s hj]

/-- A worker that gets a task. -/
theorem numExecuting_start (s : Pool Task n) {i : Fin n} (t : Task)
    (h : (s.workers i).isExecuting = false) :
    (s.setWorker i (.executing t)).numExecuting = s.numExecuting + 1 := by
  have hfilter : (Finset.univ.filter fun j =>
      ((s.setWorker i (.executing t)).workers j).isExecuting = true) =
      insert i (Finset.univ.filter fun j => (s.workers j).isExecuting = true) := by
    ext j
    by_cases hj : j = i
    · subst hj
      simp only [Finset.mem_filter, Finset.mem_univ, true_and, workers_setWorker_self,
        Finset.mem_insert, true_or, iff_true]
      rfl
    · simp [hj, workers_setWorker_of_ne s hj]
  rw [numExecuting, hfilter, Finset.card_insert_of_notMem (by simp [h]), numExecuting]

/-- A worker that is done with its task. -/
theorem numExecuting_stop (s : Pool Task n) {i : Fin n} {w : Worker Task}
    (h : (s.workers i).isExecuting = true) (hw : w.isExecuting = false) :
    (s.setWorker i w).numExecuting + 1 = s.numExecuting := by
  have hfilter : (Finset.univ.filter fun j =>
      ((s.setWorker i w).workers j).isExecuting = true) =
      (Finset.univ.filter fun j => (s.workers j).isExecuting = true).erase i := by
    ext j
    by_cases hj : j = i
    · simp [hj, hw]
    · simp [hj, workers_setWorker_of_ne s hj]
  rw [numExecuting, hfilter, Finset.card_erase_of_mem (by simp [h]), numExecuting]
  have : 0 < (Finset.univ.filter fun j => (s.workers j).isExecuting = true).card :=
    Finset.card_pos.2 ⟨i, by simp [h]⟩
  omega

theorem numExecuting_notifyAll (s : Pool Task n) : s.notifyAll.numExecuting = s.numExecuting :=
  numExecuting_congr fun i => isExecuting_wake (s.workers i)

/-! ## One step -/

/-- An alert worker stays alert while another worker moves. -/
theorem exists_alert_setWorker {s : Pool Task n} {i j : Fin n} {w : Worker Task} (hne : j ≠ i)
    (h : (s.workers j).isAlert = true) : ∃ k, ((s.setWorker i w).workers k).isAlert = true :=
  ⟨j, by rwa [workers_setWorker_of_ne s hne]⟩

theorem exists_alert_self {s : Pool Task n} {i : Fin n} {w : Worker Task} (h : w.isAlert = true) :
    ∃ k, ((s.setWorker i w).workers k).isAlert = true :=
  ⟨i, by rwa [workers_setWorker_self]⟩

/-- A worker that is not alert can move without leaving the queue unattended. -/
theorem exists_alert_of_not_alert {s : Pool Task n} {i : Fin n} {w : Worker Task}
    (hi : (s.workers i).isAlert = false) (h : ∃ j, (s.workers j).isAlert = true) :
    ∃ k, ((s.setWorker i w).workers k).isAlert = true := by
  obtain ⟨j, hj⟩ := h
  refine exists_alert_setWorker (fun hji => ?_) hj
  rw [hji, hi] at hj
  exact absurd hj Bool.false_ne_true

theorem Pool.Inv.submit {s : Pool Task n} (h : s.Inv) {i : Fin n} {t : Task}
    (hi : s.workers i = .executing t) (u : Task) : (s.submit u).Inv where
  count := by
    show s.remainingTasks + 1 = (s.queue ++ [u]).length + s.numExecuting
    rw [h.count, List.length_append, List.length_singleton]
    omega
  alert := fun _ => ⟨i, by show (s.workers i).isAlert = true; rw [hi]; rfl⟩

theorem Pool.Inv.wakeUp {s : Pool Task n} (h : s.Inv) {i : Fin n}
    (hi : s.workers i = .asleep) : (s.setWorker i .popping).Inv where
  count := by
    rw [numExecuting_setWorker s (by rw [hi]; rfl)]
    exact h.count
  alert := fun _ => exists_alert_self rfl

theorem Pool.Inv.tryPop {s : Pool Task n} (h : s.Inv) {i : Fin n}
    (hi : s.workers i = .popping) : (s.tryPop i).Inv := by
  rw [Pool.tryPop]
  cases hq : s.queue.getLast? with
  | none =>
    -- the queue is empty, so nobody has to be alert
    have hnil : s.queue = [] := List.getLast?_eq_none_iff.1 hq
    refine ⟨?_, fun hne => absurd hnil hne⟩
    rw [numExecuting_setWorker s (by rw [hi]; rfl)]
    exact h.count
  | some t =>
    refine ⟨?_, fun _ => exists_alert_self rfl⟩
    have hne : s.queue ≠ [] := by
      rintro hnil
      rw [hnil] at hq
      cases hq
    have hlen : 0 < s.queue.length := List.length_pos_of_ne_nil hne
    have hstart := numExecuting_start s (i := i) t (by rw [hi]; rfl)
    show s.remainingTasks = s.queue.dropLast.length + (s.setWorker i (.executing t)).numExecuting
    rw [hstart, List.length_dropLast, h.count]
    omega

theorem Pool.Inv.waitForTask {s : Pool Task n} (h : s.Inv) {i : Fin n}
    (hi : s.workers i = .idle) : (s.waitForTask i).Inv := by
  have hexec : ∀ w : Worker Task, w.isExecuting = false →
      (s.setWorker i w).numExecuting = s.numExecuting := by
    intro w hw
    exact numExecuting_setWorker s (by rw [hi, hw]; rfl)
  have halert : ∀ w : Worker Task, s.queue ≠ [] →
      ∃ k, ((s.setWorker i w).workers k).isAlert = true := by
    intro w hne
    exact exists_alert_of_not_alert (by rw [hi]; rfl) (h.alert hne)
  rw [Pool.waitForTask]
  split
  · exact ⟨by rw [hexec _ rfl]; exact h.count, halert _⟩
  · exact ⟨by rw [hexec _ rfl]; exact h.count, halert _⟩

theorem Pool.Inv.completeTask {s : Pool Task n} (h : s.Inv) {i : Fin n} {t : Task}
    (hi : s.workers i = .executing t) : (s.completeTask i).Inv := by
  have hexec : (s.workers i).isExecuting = true := by rw [hi]; rfl
  rw [Pool.completeTask]
  split
  · rename_i hzero
    -- nothing is left: the queue is empty, and no one else executes a task
    have hstop := numExecuting_stop s.notifyAll (i := i) (w := .finished)
      (by rw [Pool.notifyAll, isExecuting_wake, hexec]) rfl
    rw [numExecuting_notifyAll] at hstop
    have hcount := h.count
    have hzero' : s.remainingTasks - 1 = 0 := hzero
    refine ⟨?_, fun hne => ?_⟩
    · show s.remainingTasks - 1 =
        s.queue.length + (s.notifyAll.setWorker i .finished).numExecuting
      omega
    · have hlen : 0 < s.queue.length := List.length_pos_of_ne_nil hne
      omega
  · refine ⟨?_, fun _ => exists_alert_self rfl⟩
    have hstop := numExecuting_stop s (i := i) (w := .popping) hexec rfl
    have hcount := h.count
    show s.remainingTasks - 1 = s.queue.length + (s.setWorker i .popping).numExecuting
    omega

theorem Pool.Inv.halt {s : Pool Task n} (h : s.Inv) : s.halt.Inv where
  count := by
    rw [Pool.halt, numExecuting_notifyAll]
    exact h.count
  alert := fun hne => by
    obtain ⟨j, hj⟩ := h.alert hne
    exact ⟨j, isAlert_wake hj⟩

/-- **Every step of the pool keeps the invariant.** -/
theorem Step.inv {s s' : Pool Task n} (hs : Step s s') (h : s.Inv) : s'.Inv := by
  cases hs with
  | submitWake u hi hj => exact (h.submit hi u).wakeUp hj
  | submit u hi _ => exact h.submit hi u
  | tryPop hi => exact h.tryPop hi
  | waitForTask hi => exact h.waitForTask hi
  | wakeUp hi => exact h.wakeUp hi
  | completeTask hi => exact h.completeTask hi
  | halt => exact h.halt

/-! ## Whole runs -/

/-- A pool that has a worker starts with the invariant. -/
theorem inv_initial (t : Task) : (Pool.initial t : Pool Task (n + 1)).Inv where
  count := by
    have : (Pool.initial t : Pool Task (n + 1)).numExecuting = 0 := by
      rw [numExecuting, Finset.card_eq_zero]
      exact Finset.filter_eq_empty_iff.2 fun i _ h => absurd h (by simp [Pool.initial,
        Worker.isExecuting])
    rw [this]
    rfl
  alert := fun _ => ⟨0, rfl⟩

/-- **The invariant holds in every state of every run.** -/
theorem Reachable.inv {s : Pool Task (n + 1)} (h : Reachable s) : s.Inv := by
  induction h with
  | initial t => exact inv_initial t
  | step _ hs ih => exact hs.inv ih

/-- Without tasks left nothing is queued and nothing is executed. -/
theorem Pool.Inv.idle_of_remainingTasks_eq_zero {s : Pool Task n} (h : s.Inv)
    (h0 : s.remainingTasks = 0) :
    s.queue = [] ∧ ∀ i, (s.workers i).isExecuting = false := by
  have hcount := h.count
  refine ⟨List.length_eq_zero_iff.1 (by omega), fun i => ?_⟩
  by_contra hi
  have hpos : 0 < s.numExecuting :=
    Finset.card_pos.2 ⟨i, by simpa using hi⟩
  omega

/-- **No task is lost and the pool does not stall.**  The count is that of the tasks queued or
executed; if a task is queued then, before a halt, some worker is neither asleep nor finished; and
without a halt `popTask` returns null only when there is no task anywhere. -/
theorem tasks_not_lost {s : Pool Task (n + 1)} (h : Reachable s) :
    s.remainingTasks = s.queue.length + s.numExecuting ∧
      (s.queue ≠ [] → s.shouldHalt = false →
        ∃ i, s.workers i ≠ .asleep ∧ s.workers i ≠ .finished) ∧
      ∀ i, s.workers i = .idle → (s.waitForTask i).workers i = .finished →
        s.shouldHalt = false → s.queue = [] ∧ ∀ j, (s.workers j).isExecuting = false := by
  have hinv := h.inv
  refine ⟨hinv.count, fun hne _ => ?_, fun i hi hnull hhalt => ?_⟩
  · obtain ⟨i, hi⟩ := hinv.alert hne
    refine ⟨i, fun hw => ?_, fun hw => ?_⟩
    · rw [hw] at hi
      exact absurd hi Bool.false_ne_true
    · rw [hw] at hi
      exact absurd hi Bool.false_ne_true
  · refine hinv.idle_of_remainingTasks_eq_zero ?_
    by_contra h0
    have hret : s.returnsNull = false := by simp [returnsNull, hhalt, h0]
    rw [Pool.waitForTask, if_neg (by rw [hret]; exact Bool.false_ne_true),
      workers_setWorker_self] at hnull
    cases hnull

/-- Two workers.  The second one finds the queue empty, the first one submits a task, and the
second one goes to sleep although the queue is not empty. -/
def missedWakeUp : Pool ℕ 2 :=
  let first := ⟨0, Nat.zero_lt_two⟩
  let second := ⟨1, Nat.one_lt_two⟩
  ((((Pool.initial 0).tryPop first).tryPop second).submit 1).waitForTask second

theorem missedWakeUp_reachable : Reachable missedWakeUp := by
  have h0 : Reachable (Pool.initial 0 : Pool ℕ 2) := .initial 0
  have h1 := h0.step (.tryPop (i := 0) rfl)
  have h2 := h1.step (.tryPop (i := 1) rfl)
  have h3 := h2.step (.submit (i := 0) 1 rfl (by decide))
  exact h3.step (.waitForTask (i := 1) rfl)

/-- A task is queued and a worker sleeps, but the other one is still there. -/
theorem missedWakeUp_not_lost :
    missedWakeUp.queue = [1] ∧ missedWakeUp.workers 1 = .asleep ∧
      missedWakeUp.remainingTasks = missedWakeUp.queue.length + missedWakeUp.numExecuting :=
  ⟨rfl, rfl, (tasks_not_lost missedWakeUp_reachable).1⟩

end ThreadPool
end GenMC
