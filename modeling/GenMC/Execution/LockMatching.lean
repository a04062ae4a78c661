import GenMC.Execution.EventLabel
import GenMC.Library.BracketScan

/-!
# Matching locks and unlocks

To find the lock that belongs to an unlock, the labels before it are scanned backwards, with a stack
of the other unlocks of the location that were passed.  The unlock that belongs to a lock is found
by a scan forwards, with a stack of locks.

* `findMatchingLock_iff`, `findMatchingUnlock_iff`: what each scan finds.
* `findMatchingLock_eq_iff`: both find **the same pairs**, and what is between a lock and its unlock
  is properly nested.
-/

set_option autoImplicit false

namespace GenMC

open DyckStep BracketScan

namespace EventLabel

/-- `UnlockWriteLabel`. -/
def isUnlockWrite (lab : EventLabel) : Bool :=
  EventLabelKind.classofRange .UnlockWrite .AbstractUnlockWrite lab.kind

/-- `LockCasWriteLabel`. -/
def isLockCasWrite (lab : EventLabel) : Bool :=
  EventLabelKind.classofRange .LockCasWrite .AbstractLockCasWrite lab.kind

/-- `TrylockCasWriteLabel`. -/
def isTrylockCasWrite (lab : EventLabel) : Bool := lab.kind = .TrylockCasWrite

/-- The CAS writes that take a lock. -/
def isLockWrite (lab : EventLabel) : Bool :=
  lab.kind.isCasWrite && (lab.isLockCasWrite || lab.isTrylockCasWrite)

theorem isUnlockWrite_eq_false {lab : EventLabel} (h : lab.isLockWrite = true) :
    lab.isUnlockWrite = false := by
  rw [isLockWrite, isLockCasWrite, isTrylockCasWrite] at h
  rw [isUnlockWrite]
  revert h
  cases lab.kind <;> decide

end EventLabel

/-- A label of a thread, with its index. -/
abbrev Slot := EventLabel × ℕ

/-- The labels before an index, the last one first. -/
def poPreds (po : List EventLabel) (i : ℕ) : List Slot := (po.take i).zipIdx.reverse

/-- The labels after an index. -/
def poSuccs (po : List EventLabel) (i : ℕ) : List Slot := (po.drop (i + 1)).zipIdx (i + 1)

/-- The loop of `findMatchingLock`, with the unlocks that were passed. -/
def scanLocks (addr : SAddr) : List Slot → List Slot → Option ℕ
  | [], _ => none
  | s :: rest, locUnlocks =>
    let locUnlocks :=
      if s.1.isUnlockWrite && s.1.addr = addr then s :: locUnlocks else locUnlocks
    if s.1.isLockWrite && s.1.addr = addr then
      match locUnlocks with
      | [] => some s.2
      | _ :: locUnlocks => scanLocks addr rest locUnlocks
    else scanLocks addr rest locUnlocks

/-- The lock that belongs to the unlock with an index. -/
def findMatchingLock (po : List EventLabel) (u : ℕ) : Option ℕ :=
  po[u]?.bind fun uLab => scanLocks uLab.addr (poPreds po u) []

/-- The loop of `findMatchingUnlock`, with the locks that were passed. -/
def scanUnlocks (addr : SAddr) : List Slot → List Slot → Option ℕ
  | [], _ => none
  | s :: rest, locLocks =>
    let locLocks := if s.1.isLockWrite && s.1.addr = addr then s :: locLocks else locLocks
    if s.1.isUnlockWrite && s.1.addr = addr then
      match locLocks with
      | [] => some s.2
      | _ :: locLocks => scanUnlocks addr rest locLocks
    else scanUnlocks addr rest locLocks

/-- The unlock that belongs to the lock with an index, which has to be one. -/
def findMatchingUnlock (po : List EventLabel) (l : ℕ) : Option ℕ :=
  po[l]?.bind fun lLab =>
    if lLab.isLockWrite then scanUnlocks lLab.addr (poSuccs po l) [] else none

/-! ## Locks as brackets -/

/-- What a label is for the lock of a location. -/
def bracket (addr : SAddr) (lab : EventLabel) : Option DyckStep :=
  if lab.addr = addr then
    if lab.isLockWrite then some U else if lab.isUnlockWrite then some D else none
  else none

/-- The locks and unlocks of a location. -/
def brackets (addr : SAddr) (labs : List EventLabel) : List DyckStep :=
  labs.filterMap (bracket addr)

theorem bracket_eq_U {addr : SAddr} {lab : EventLabel} :
    bracket addr lab = some U ↔ lab.isLockWrite = true ∧ lab.addr = addr := by
  rw [bracket]
  split_ifs <;> simp_all

theorem bracket_eq_D {addr : SAddr} {lab : EventLabel} :
    bracket addr lab = some D ↔ lab.isUnlockWrite = true ∧ lab.addr = addr := by
  rw [bracket]
  split_ifs with haddr hlock
  · simp [EventLabel.isUnlockWrite_eq_false hlock]
  · simp_all
  · simp_all
  · simp_all

theorem isLockWrite_and (addr : SAddr) (lab : EventLabel) :
    (lab.isLockWrite && decide (lab.addr = addr)) = decide (bracket addr lab = some U) := by
  rw [Bool.eq_iff_iff, decide_eq_true_iff, bracket_eq_U, Bool.and_eq_true, decide_eq_true_iff]

theorem isUnlockWrite_and (addr : SAddr) (lab : EventLabel) :
    (lab.isUnlockWrite && decide (lab.addr = addr)) = decide (bracket addr lab = some D) := by
  rw [Bool.eq_iff_iff, decide_eq_true_iff, bracket_eq_D, Bool.and_eq_true, decide_eq_true_iff]

/-! ## What the scans find -/

/-- Forwards, locks open and unlocks close. -/
theorem scanUnlocks_eq (addr : SAddr) (l stack : List Slot) :
    scanUnlocks addr l stack =
      (findClosing (fun s : Slot => bracket addr s.1) l stack).map (·.2) := by
  induction l generalizing stack with
  | nil => rfl
  | cons s l ih =>
    rw [scanUnlocks, isLockWrite_and, isUnlockWrite_and]
    cases hb : bracket addr s.1 with
    | none =>
      have hnone : findClosing (fun s : Slot => bracket addr s.1) (s :: l) stack =
          findClosing (fun s : Slot => bracket addr s.1) l stack := findClosing_of_none hb
      simpa [hnone] using ih stack
    | some d =>
      cases d with
      | U =>
        have hopening : findClosing (fun s : Slot => bracket addr s.1) (s :: l) stack =
            findClosing (fun s : Slot => bracket addr s.1) l (s :: stack) :=
          findClosing_of_opening hb
        rw [hopening]
        simpa using ih (s :: stack)
      | D =>
        cases stack with
        | nil =>
          have hclosing : findClosing (fun s : Slot => bracket addr s.1) (s :: l) [] = some s :=
            findClosing_of_closing hb
          simp [hclosing]
        | cons t stack =>
          have hclosing : findClosing (fun s : Slot => bracket addr s.1) (s :: l) (t :: stack) =
              findClosing (fun s : Slot => bracket addr s.1) l stack := findClosing_of_closing hb
          rw [hclosing]
          simpa using ih stack

/-- Backwards, unlocks open and locks close. -/
theorem scanLocks_eq (addr : SAddr) (l stack : List Slot) :
    scanLocks addr l stack =
      (findClosing (fun s : Slot => (bracket addr s.1).map flip) l stack).map (·.2) := by
  induction l generalizing stack with
  | nil => rfl
  | cons s l ih =>
    rw [scanLocks, isLockWrite_and, isUnlockWrite_and]
    cases hb : bracket addr s.1 with
    | none =>
      rw [findClosing_of_none (by rw [hb]; rfl)]
      simpa using ih stack
    | some d =>
      cases d with
      | U =>
        rw [findClosing_of_closing (by rw [hb]; rfl)]
        cases stack with
        | nil => simp
        | cons t stack => simpa using ih stack
      | D =>
        rw [findClosing_of_opening (by rw [hb]; rfl)]
        simpa using ih (s :: stack)

/-- The labels between two indices. -/
def between (po : List EventLabel) (l u : ℕ) : List EventLabel := (po.take u).drop (l + 1)

variable {po : List EventLabel} {l u : ℕ} {lLab uLab : EventLabel}

/-- The lock that is found is the one after which the location is properly nested. -/
theorem findMatchingLock_iff (hl : po[l]? = some lLab) (hlock : lLab.isLockWrite = true)
    (hu : po[u]? = some uLab) : findMatchingLock po u = some l ↔
      l < u ∧ lLab.addr = uLab.addr ∧ IsDyck (brackets uLab.addr (between po l u)) := by
  rw [findMatchingLock, hu, Option.bind_some, scanLocks_eq, poPreds, findClosing_reverse_zipIdx]
  refine ⟨?_, ?_⟩
  · rintro ⟨k, lab, rfl, hk, hstep, hdyck⟩
    rw [Nat.zero_add] at hl ⊢
    rw [List.getElem?_take] at hk
    split at hk
    · rename_i hlt
      obtain rfl : lLab = lab := Option.some.inj (hl.symm.trans hk)
      exact ⟨hlt, (bracket_eq_U.1 hstep).2, hdyck⟩
    · cases hk
  · rintro ⟨hlt, haddr, hdyck⟩
    refine ⟨l, lLab, (Nat.zero_add l).symm, ?_, bracket_eq_U.2 ⟨hlock, haddr⟩, hdyck⟩
    rw [List.getElem?_take_of_lt hlt, hl]

/-- The unlock that is found is the one before which the location is properly nested. -/
theorem findMatchingUnlock_iff (hl : po[l]? = some lLab) (hlock : lLab.isLockWrite = true)
    (hu : po[u]? = some uLab) (hunlock : uLab.isUnlockWrite = true) :
    findMatchingUnlock po l = some u ↔
      l < u ∧ lLab.addr = uLab.addr ∧ IsDyck (brackets uLab.addr (between po l u)) := by
  rw [findMatchingUnlock, hl, Option.bind_some, if_pos hlock, scanUnlocks_eq, poSuccs,
    findClosing_zipIdx]
  refine ⟨?_, ?_⟩
  · rintro ⟨k, lab, rfl, hk, hstep, hdyck⟩
    rw [List.getElem?_drop, hu] at hk
    cases hk
    have haddr := (bracket_eq_D.1 hstep).2
    rw [← haddr] at hdyck
    refine ⟨by omega, haddr.symm, ?_⟩
    rwa [between, List.drop_take, Nat.add_sub_cancel_left]
  · rintro ⟨hlt, haddr, hdyck⟩
    obtain ⟨k, rfl⟩ := Nat.exists_eq_add_of_le (Nat.succ_le_of_lt hlt)
    refine ⟨k, uLab, rfl, ?_, bracket_eq_D.2 ⟨hunlock, haddr.symm⟩, ?_⟩
    · rw [List.getElem?_drop]
      exact hu
    · rw [between, List.drop_take, Nat.succ_eq_add_one, Nat.add_sub_cancel_left, ← haddr] at hdyck
      exact hdyck

/-- **Both scans find the same pairs** of a lock and an unlock, and the labels of the location
between them are properly nested. -/
theorem findMatchingLock_eq_iff (hl : po[l]? = some lLab) (hlock : lLab.isLockWrite = true)
    (hu : po[u]? = some uLab) (hunlock : uLab.isUnlockWrite = true) :
    (findMatchingLock po u = some l ↔ findMatchingUnlock po l = some u) ∧
      (findMatchingLock po u = some l → l < u ∧ lLab.addr = uLab.addr ∧
        IsDyck (brackets uLab.addr (between po l u))) :=
  ⟨(findMatchingLock_iff hl hlock hu).trans (findMatchingUnlock_iff hl hlock hu hunlock).symm,
    (findMatchingLock_iff hl hlock hu).1⟩

/-- A thread that takes two locks, one of them twice, and releases one too many. -/
def nestedLocks : List EventLabel :=
  [{ kind := .LockCasWrite, pos := ⟨1, 0⟩, addr := 8 },
    { kind := .TrylockCasWrite, pos := ⟨1, 1⟩, addr := 16 },
    { kind := .LockCasWrite, pos := ⟨1, 2⟩, addr := 8 },
    { kind := .UnlockWrite, pos := ⟨1, 3⟩, addr := 8 },
    { kind := .Write, pos := ⟨1, 4⟩, addr := 8 },
    { kind := .UnlockWrite, pos := ⟨1, 5⟩, addr := 8 },
    { kind := .UnlockWrite, pos := ⟨1, 6⟩, addr := 8 }]

theorem findMatchingLock_eq_iff_nestedLocks :
    findMatchingLock nestedLocks 5 = some 0 ∧ findMatchingUnlock nestedLocks 0 = some 5 ∧
      IsDyck (brackets 8 (between nestedLocks 0 5)) := by
  obtain ⟨hiff, hdyck⟩ := @findMatchingLock_eq_iff nestedLocks 0 5 _ _ rfl (by decide) rfl
    (by decide)
  have hfound : findMatchingLock nestedLocks 5 = some 0 := by decide
  exact ⟨hfound, hiff.1 hfound, (hdyck hfound).2.2⟩

end GenMC
