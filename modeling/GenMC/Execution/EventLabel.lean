import GenMC.Execution.Event

/-!
# Event labels

The labels of an execution graph.  `EventLabelKind` lists the kinds in the order of the source's
label table, because that order carries meaning: the class of a label (read, write, block, ...) is
a *range* of kinds.  `EventLabel` is one record for all classes; a field that only some class of
labels has keeps its default elsewhere.

Pointers between labels are kept as the positions of the labels they point to.  A label also
remembers its own position, as in the source: the slot it sits in can differ from it, since
removing the begin of a thread moves the threads above it down by one.
-/

set_option autoImplicit false

namespace GenMC

/-- Memory addresses. -/
abbrev SAddr := ℕ

/-- Values. -/
abbrev SVal := ℤ

/-- The kinds of labels, in the order of the label table. -/
inductive EventLabelKind where
  | ThreadStart | Init
  | SpinloopBlock | FaiZNEBlock | LockZNEBlock | HelpedCASBlock | ConfirmationBlock | BarrierBlock
  | ErrorBlock | UserBlock | JoinBlock | ReadOptBlock
  | ThreadKill | ThreadFinish
  | Read | BWaitRead | SpeculativeRead | ConfirmingRead | CondVarWaitRead
  | CasRead | LockCasRead | AbstractLockCasRead | TrylockCasRead | HelpedCasRead | ConfirmingCasRead
  | FaiRead | NoRetFaiRead | BIncFaiRead
  | Write | CondVarInitWrite | CondVarSignalWrite | CondVarBcastWrite | CondVarDestroyWrite
  | UnlockWrite | AbstractUnlockWrite
  | CasWrite | LockCasWrite | AbstractLockCasWrite | TrylockCasWrite | HelpedCasWrite
  | ConfirmingCasWrite
  | FaiWrite | NoRetFaiWrite | BIncFaiWrite
  | Malloc | Free | HpRetire
  | Fence
  | ThreadCreate | ThreadJoin | HpProtect | HelpingCas | Optional | LoopBegin | SpinStart
  | FaiZNESpinEnd | LockZNESpinEnd | Empty | MethodBegin | MethodEnd | Output | Error
deriving DecidableEq, Repr, Inhabited

namespace EventLabelKind

/-- A class of labels is the range of kinds from `first` to `last`. -/
def classofRange (first last k : EventLabelKind) : Bool :=
  first.ctorIdx ≤ k.ctorIdx && k.ctorIdx ≤ last.ctorIdx

def isThreadStart (k : EventLabelKind) : Bool := classofRange ThreadStart Init k
def isTerminator (k : EventLabelKind) : Bool := classofRange SpinloopBlock ThreadFinish k
def isBlock (k : EventLabelKind) : Bool := classofRange SpinloopBlock ReadOptBlock k
def isMemAccess (k : EventLabelKind) : Bool := classofRange Read BIncFaiWrite k
def isRead (k : EventLabelKind) : Bool := classofRange Read BIncFaiRead k
def isCasRead (k : EventLabelKind) : Bool := classofRange CasRead ConfirmingCasRead k
def isFaiRead (k : EventLabelKind) : Bool := classofRange FaiRead BIncFaiRead k
def isWrite (k : EventLabelKind) : Bool := classofRange Write BIncFaiWrite k
def isCasWrite (k : EventLabelKind) : Bool := classofRange CasWrite ConfirmingCasWrite k
def isFaiWrite (k : EventLabelKind) : Bool := classofRange FaiWrite BIncFaiWrite k
def isFree (k : EventLabelKind) : Bool := classofRange Free HpRetire k

theorem isMemAccess_eq (k : EventLabelKind) : k.isMemAccess = (k.isRead || k.isWrite) := by
  cases k <;> rfl

theorem not_isWrite_of_isRead {k : EventLabelKind} (h : k.isRead = true) : k.isWrite = false := by
  cases k <;> first | rfl | exact absurd h (by decide)

end EventLabelKind

/-- Memory orderings. -/
inductive MemOrdering where
  | NotAtomic | Relaxed | Acquire | Release | AcquireRelease | SequentiallyConsistent
deriving DecidableEq, Repr, Inhabited

/-- A label of an execution graph. -/
structure EventLabel where
  kind : EventLabelKind
  /-- The position the label was created for. -/
  pos : Event
  ordering : MemOrdering := .Relaxed
  /-- When the label was added to its graph. -/
  stamp : Option ℕ := none
  /-- The events before this one in program order and reads-from, this one included. -/
  prefixView : View := View.empty
  revisitable : Bool := true
  /-- Memory labels: the address. -/
  addr : SAddr := 0
  /-- Memory accesses: whether the access was maximal in coherence when it was added. -/
  maximal : Bool := true
  /-- Reads: the write read from. -/
  rf : Option Event := none
  /-- Writes: the reads that read from it. -/
  readers : List Event := []
  /-- Writes: the value.  Thread ends: what the thread returns. -/
  value : SVal := 0
  /-- Reads: the condition under which the thread goes on after the read. -/
  annot : Option (SVal → Bool) := none
  /-- Begins: the position of the creation, and the creation itself. -/
  createId : Event := Event.getInit
  create : Option Event := none
  /-- Begins: the neighbours in the chain of symmetric threads. -/
  symmPredTid : Option ℕ := none
  symmSuccTid : Option ℕ := none
  /-- Thread creations and joins: the child. -/
  childId : ℕ := 0
  /-- Thread ends: the join that waits for the thread. -/
  parentJoin : Option Event := none
  /-- Method begins and ends: the method, what it is called with, and what it returns. -/
  name : String := ""
  argument : ℤ := 0
  result : ℤ := 0
  /-- Method begins and ends: linearization edges. -/
  linPreds : List Event := []
  linSuccs : List Event := []
  /-- Optional blocks: whether the block is executed. -/
  expanded : Bool := false
deriving Inhabited

namespace EventLabel

def isThreadStart (lab : EventLabel) : Bool := lab.kind.isThreadStart
def isTerminator (lab : EventLabel) : Bool := lab.kind.isTerminator
def isBlock (lab : EventLabel) : Bool := lab.kind.isBlock
def isMemAccess (lab : EventLabel) : Bool := lab.kind.isMemAccess
def isRead (lab : EventLabel) : Bool := lab.kind.isRead
def isWrite (lab : EventLabel) : Bool := lab.kind.isWrite
def isFree (lab : EventLabel) : Bool := lab.kind.isFree

/-- Whether the label is a non-atomic access. -/
def isNotAtomic (lab : EventLabel) : Bool := lab.ordering = .NotAtomic

/-- A label that can be neither revisited nor deleted. -/
def isStable (lab : EventLabel) : Bool :=
  !lab.revisitable || (lab.isMemAccess && !lab.maximal)

/-- The clone of a label.  Reader lists are intrusive, and copying one gives an empty list. -/
def clone (lab : EventLabel) : EventLabel := { lab with readers := [] }

theorem isMemAccess_of_isRead {lab : EventLabel} (h : lab.isRead = true) :
    lab.isMemAccess = true := by
  rw [isMemAccess]
  rw [EventLabelKind.isMemAccess_eq, Bool.or_eq_true]
  exact Or.inl h

theorem isMemAccess_of_isWrite {lab : EventLabel} (h : lab.isWrite = true) :
    lab.isMemAccess = true := by
  rw [isMemAccess]
  rw [EventLabelKind.isMemAccess_eq, Bool.or_eq_true]
  exact Or.inr h

end EventLabel

end GenMC
