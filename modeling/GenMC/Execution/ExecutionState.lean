import GenMC.ADT.IntervalSet
import GenMC.Execution.AccessSummary
import GenMC.Execution.Allocation
import GenMC.Support.SExpr

/-!
# The state of an execution

While the threads of a program run, the state of the execution keeps what has happened to memory:
which bytes are allocated, initialized or protected by hazard pointers, the last writes to them, and
what each loop has read.  All of it is in maps from intervals of addresses.  The handlers of the
state are called once for each event of the program.

* `State`, `Call`, `State.exec`: the state, the calls of its handlers and what a call does.
* `State.run_invariant`: what the calls keep holds of every state that they lead to.
* `State.onNALoad_eq` and so on: what each handler changes, and what it leaves as it is.
* `State.exec_effect`: what a call does to the maps of the writes and of the atomic accesses.

A handler is `none` when one of its checks fails, and the program stops.  The handlers of this file
are those of a build without labels for accesses that are not atomic; the initial data of static
variables and their ranges are left out, as no handler reads them.
-/

set_option autoImplicit false

namespace GenMC

/-- The greatest address. -/
instance : OrderTop Storage.SAddr where
  top := ⟨BitVec.ofNat 64 (2 ^ 64 - 1)⟩
  le_top a := Nat.le_of_lt_succ (n := 2 ^ 64 - 1) a.addr.isLt

namespace ExecutionState

/-! ## Values -/

/-- A value in memory, with the provenance of a pointer. -/
structure SVal where
  value : SVal64
  provenance : SVal64
deriving DecidableEq, Repr

namespace SVal

/-- Values are compared without their provenance. -/
instance : BEq SVal := ⟨fun v w => v.value = w.value⟩

def get (v : SVal) : SVal64 := v.value

def ofWord (w : SVal64) : SVal := ⟨w, 0⟩

/-- Binary operations keep the provenance of the left value. -/
instance : AndOp SVal := ⟨fun v w => { v with value := v.value &&& w.value }⟩

instance : OrOp SVal := ⟨fun v w => { v with value := v.value ||| w.value }⟩

instance : HShiftLeft SVal SVal SVal := ⟨fun v w => { v with value := v.value <<< w.value }⟩

instance : HShiftRight SVal SVal SVal := ⟨fun v w => { v with value := v.value >>> w.value }⟩

theorem beq_iff {v w : SVal} : (v == w) = true ↔ v.value = w.value := decide_eq_true_iff

/-- The provenance that some values agree on. -/
def commonProvenance (provenances : List SVal64) : SVal64 :=
  if provenances.IsChain (· = ·) then provenances.headD 0 else 0

end SVal

/-- A value that is overwritten by another one if that is there. -/
abbrev NonRevertibleOptional (T : Type) := Option T

theorem beq_some_iff {v w : SVal} : ((some v : Option SVal) == some w) = true ↔ v.value = w.value :=
  SVal.beq_iff

instance : EquivBEq (NonRevertibleOptional SVal) where
  rfl {x} := by
    cases x with
    | none => rfl
    | some v => exact beq_some_iff.2 rfl
  symm {x y} h := by
    cases x <;> cases y <;> first | exact h | exact beq_some_iff.2 (beq_some_iff.1 h).symm
  trans {x y z} h h' := by
    cases x <;> cases y <;> cases z <;>
      first | exact h | exact h' | exact Bool.noConfusion h | exact Bool.noConfusion h' |
        exact beq_some_iff.2 ((beq_some_iff.1 h).trans (beq_some_iff.1 h'))

/-- `IntervalMap::add` with a value that overwrites others. -/
def overwrite {T : Type} [BEq T] (m : IntervalMap SAddr (NonRevertibleOptional T))
    (iv : SAddr × SAddr) (val : NonRevertibleOptional T) :
    IntervalMap SAddr (NonRevertibleOptional T) :=
  m.add iv.1 iv.2 val fun _ x => val.or x

/-- `IntervalMap::add` with an update. -/
def addUpdate (m : AdaptiveViewMap) (iv : SAddr × SAddr) (pos : Event) (view : CowView) :
    AdaptiveViewMap :=
  m.add iv.1 iv.2 (.update pos view) fun others x => x.addUpdate (addresses others) pos view

/-- `Interval::operator&`. -/
def intersect (a b : SAddr × SAddr) : SAddr × SAddr :=
  (max a.1 b.1, max (max a.1 b.1) (min a.2 b.2))

/-- The access to one of the bytes of an access. -/
def AAccess.byte (access : AAccess) (i : ℕ) : AAccess := ⟨access.addr + Fin.ofNat (2 ^ 64) i, 1⟩

/-- The address that the allocator uses. -/
def toStorage (a : SAddr) : Storage.SAddr := ⟨⟨a⟩⟩

def ofStorage (a : Storage.SAddr) : SAddr := a.addr.toFin

/-- `SAddr::isDynamic`. -/
def isDynamic (a : SAddr) : Bool := !(toStorage a).isStatic

/-! ## The state -/

structure State where
  /-- The allocator and the allocations. -/
  storage : Storage.ExecutionState
  initialized : AdaptiveViewMap
  lastNAWriteVal : IntervalMap SAddr (NonRevertibleOptional SVal)
  lastIsNA : IntervalMap SAddr (NonRevertibleOptional Bool)
  lastNAWriteEvent : IntervalMap SAddr (NonRevertibleOptional Event)
  lastNAReadView : AdaptiveViewMap
  lastAReadView : AdaptiveViewMap
  lastAWriteView : AdaptiveViewMap
  /-- The loop that a thread is in. -/
  currentLoop : ℕ → Option Event
  loopAccess : Event → Option (IntervalSet SAddr)
  /-- The loops with side effects. -/
  loopSideEffects : Event → Bool
  lastReleaseIdx : ℕ → ℕ
  lastMemAccess : CowView
  /-- The last access of a thread that was not atomic, and whether it was a read. -/
  previousNA : ℕ → Option (ℕ × Bool)
  /-- The addresses that hazard pointers protect. -/
  hpProtectMap : SAddr → Option SAddr
  hpProtectCount : IntervalMap SAddr ℤ
  lastUnprotectedAccess : AdaptiveViewMap

namespace State

def init : State where
  storage := .init
  initialized := .empty .empty
  lastNAWriteVal := .empty none
  lastIsNA := .empty none
  lastNAWriteEvent := .empty none
  lastNAReadView := .empty .empty
  lastAReadView := .empty .empty
  lastAWriteView := .empty .empty
  currentLoop _ := none
  loopAccess _ := none
  loopSideEffects _ := false
  lastReleaseIdx _ := 0
  lastMemAccess := .empty
  previousNA _ := none
  hpProtectMap _ := none
  hpProtectCount := .empty 0
  lastUnprotectedAccess := .empty .empty

/-! ### Queries -/

/-- What is known about the allocation that an address is in. -/
def getAllocInfo (s : State) (addr : SAddr) : Option Storage.AllocInfo :=
  (s.storage.allocInfoMap.findEntry (toStorage addr)).bind (·.value)

def getAllocPos (s : State) (addr : SAddr) : Option Event := (s.getAllocInfo addr).map (·.pos)

def getAllocAccess (s : State) (addr : SAddr) : Option AAccess :=
  (s.getAllocInfo addr).map fun info => ⟨ofStorage info.access.addr, info.access.size.toFin⟩

def getInitView (s : State) (access : AAccess) : AdaptiveView := getMaxView s.initialized access

def getMaxAWriteView (s : State) (access : AAccess) : AdaptiveView :=
  getMaxView s.lastAWriteView access

def getMaxNAWriteEvent (s : State) (access : AAccess) : AdaptiveView :=
  .events ((s.lastNAWriteEvent.entriesIn (makeInterval access).1
    (makeInterval access).2).filterMap (·.value))

def isInitialized (s : State) (access : AAccess) : Bool := !(s.getInitView access).isEmpty

/-- Whether the segment of a map that has all of an access is the one of the access. -/
def matchesSegment (m : AdaptiveViewMap) (access : AAccess) : Bool :=
  match m.findInterval (makeInterval access).1 (makeInterval access).2 with
  | some it => it.start = access.addr && it.stop - it.start = access.size
  | none => true

def isAtomicAccessConsistent (s : State) (access : AAccess) : Bool :=
  matchesSegment s.lastAWriteView access && matchesSegment s.lastAReadView access

def isInLoop (s : State) (thread : ℕ) : Bool :=
  (s.currentLoop thread).any (!·.isInitializer)

def doesCurrLoopHaveSideEffects (s : State) (thread : ℕ) : Bool :=
  s.isInLoop thread && (s.currentLoop thread).any s.loopSideEffects

def isLocReadInLoop (s : State) (thread : ℕ) (access : AAccess) : Bool :=
  s.isInLoop thread && (((s.currentLoop thread).bind s.loopAccess).any
    (·.overlaps (makeInterval access)))

/-- The loop of `isProtected`, from where the addresses are not known to be protected on. -/
def coversUpTo (stop : SAddr) : SAddr → List (IntervalMap.Entry SAddr ℤ) → Bool
  | lastUncovered, [] => stop ≤ lastUncovered
  | lastUncovered, it :: rest =>
    let lastUncovered :=
      if it.value > 0 ∧ it.start ≤ lastUncovered ∧ it.stop > lastUncovered then it.stop
      else lastUncovered
    if it.start > lastUncovered then false else coversUpTo stop lastUncovered rest

def isProtected (s : State) (access : AAccess) : Bool :=
  coversUpTo (access.addr + access.size) access.addr
    (s.hpProtectCount.entriesIn (makeInterval access).1 (makeInterval access).2)

/-! ### Values of memory -/

/-- The recorded value of one address. -/
def getNAByte (s : State) (addr : SAddr) : Option SVal := (s.lastNAWriteVal.find addr).bind (·.2)

def getNAWriteValue (s : State) (access : AAccess) : Option SVal := do
  let bytes ← (List.range access.size).mapM fun i => s.getNAByte (access.byte i).addr
  let res := bytes.zipIdx.foldl
    (fun res b => res ||| (b.1.get &&& 0xFF) <<< UInt64.ofNat (b.2 * 8)) 0
  some ⟨res, SVal.commonProvenance (bytes.map (·.provenance))⟩

/-- Overwrites the bytes that a view does not have the last write of, and collects their
provenances. -/
def overwriteByte (s : State) (access : AAccess) (atomicView : CowView)
    (acc : SVal × List SVal64) (i : ℕ) : Option (SVal × List SVal64) :=
  if (s.getMaxNAWriteEvent (access.byte i)).containedIn atomicView then some acc
  else do
    let res := acc.1 &&& SVal.ofWord (~~~(0xFF <<< UInt64.ofNat (i * 8)))
    let byteVal := (← s.getNAWriteValue (access.byte i)) <<< SVal.ofWord (UInt64.ofNat (i * 8))
    some (res ||| byteVal, acc.2 ++ [byteVal.provenance])

/-- The slow path of `reconstructMemValue`. -/
def reconstructBytes (s : State) (access : AAccess) (atomicView : CowView) (atomicVal : SVal) :
    Option SVal := do
  let (res, provenances) ← (List.range access.size).foldlM
    (s.overwriteByte access atomicView) (atomicVal, [])
  some ⟨res.get, SVal.commonProvenance provenances⟩

def reconstructMemValue (s : State) (access : AAccess) (atomicView : CowView) (atomicVal : SVal) :
    Option SVal :=
  if (s.getMaxNAWriteEvent access).containedIn atomicView then some atomicVal
  else s.reconstructBytes access atomicView atomicVal

/-! ### Parts of the handlers -/

/-- The end of `recordMemAccess` and of `recordNAWrite`. -/
def noteMemAccess (s : State) (access : AAccess) (pos : Event) (view : CowView) : State :=
  { s with
    lastMemAccess := s.lastMemAccess.updateIdx [] pos
    lastUnprotectedAccess :=
      if s.isProtected access then s.lastUnprotectedAccess
      else addUpdate s.lastUnprotectedAccess (makeInterval access) pos view }

def recordNAWrite (s : State) (access : AAccess) (pos : Event) (view : CowView) : State :=
  { s with lastNAWriteEvent := overwrite s.lastNAWriteEvent (makeInterval access) (some pos)
    }.noteMemAccess access pos view

/-- The parts of an interval that a map has no values for. -/
def uninitParts (m : AdaptiveViewMap) (iv : SAddr × SAddr) : IntervalSet SAddr :=
  (m.entriesIn iv.1 iv.2).foldl
    (fun parts it =>
      let cut := intersect (it.start, it.stop) iv
      parts.subtract cut.1 cut.2)
    (IntervalSet.empty.add iv.1 iv.2)

def markInitializedIn (m : AdaptiveViewMap) (access : AAccess) (pos : Event) (view : CowView) :
    AdaptiveViewMap :=
  let interval := makeInterval access
  if (m.findInterval interval.1 interval.2).isSome then m
  else (uninitParts m interval).intervals.foldl (fun m iv => addUpdate m iv pos view) m

def markInitialized (s : State) (access : AAccess) (pos : Event) (view : CowView) : State :=
  { s with initialized := markInitializedIn s.initialized access pos view }

def updateLastWriteType (s : State) (access : AAccess) (isAtomic : Bool) : State :=
  { s with lastIsNA := overwrite s.lastIsNA (makeInterval access) (some !isAtomic) }

def updateSideEffects (s : State) (pos : Event) : Option State :=
  match s.currentLoop pos.thread with
  | some loop =>
    if loop.isInitializer then none
    else some { s with loopSideEffects := Function.update s.loopSideEffects loop true }
  | none => none

def noteRelease (s : State) (pos : Event) (isRelease : Bool) : State :=
  if isRelease then
    { s with lastReleaseIdx := Function.update s.lastReleaseIdx pos.thread pos.index }
  else s

def checkLoopSideEffects (s : State) (pos : Event) (access : AAccess) (isRelease : Bool) :
    Option State :=
  let s := s.noteRelease pos isRelease
  if !s.isInLoop pos.thread || s.doesCurrLoopHaveSideEffects pos.thread then some s
  else if isRelease || !isDynamic access.addr then s.updateSideEffects pos
  else do
    let allocPos ← s.getAllocPos access.addr
    let lastRelIdx := s.lastReleaseIdx pos.thread
    if allocPos.thread ≠ pos.thread then s.updateSideEffects pos
    else if lastRelIdx > allocPos.index ∧ lastRelIdx < pos.index then s.updateSideEffects pos
    else if s.isLocReadInLoop pos.thread access then s.updateSideEffects pos
    else some s

/-- What a load adds to the loop of its thread. -/
def addLoopAccess (s : State) (pos : Event) (access : AAccess) : State :=
  match s.currentLoop pos.thread with
  | some loop =>
    if s.isInLoop pos.thread && !s.doesCurrLoopHaveSideEffects pos.thread then
      let parts := (s.loopAccess loop).getD .empty
      { s with
        loopAccess := Function.update s.loopAccess loop
          (some (parts.add (makeInterval access).1 (makeInterval access).2)) }
    else s
  | none => s

def updateHpCount (s : State) (addr : SAddr) (count : ℤ) : Option State := do
  let protectedAddr ← s.hpProtectMap addr
  let allocAccess ← s.getAllocAccess protectedAddr
  if allocAccess.addr = protectedAddr then
    let interval := makeInterval allocAccess
    some { s with
      hpProtectCount := s.hpProtectCount.add interval.1 interval.2 count fun _ x => x + count }
  else none

/-- The hazard pointer, if there is one, does not protect anything any more. -/
def unprotect (s : State) (hpAddr : SAddr) : Option State :=
  match s.hpProtectMap hpAddr with
  | some protectedAddr => if protectedAddr ≠ 0 then s.updateHpCount hpAddr (-1) else some s
  | none => some s

/-! ### Handlers -/

def addStaticRange (s : State) (size alignment : Storage.Width) (persistent internal : Bool) :
    Option State :=
  (s.storage.addStaticRange size alignment persistent internal).map fun p =>
    { s with storage := p.2 }

def onNALoad (s : State) (pos : Event) (access : AAccess) (view : CowView) : State :=
  ({ s with
    lastNAReadView := recordMemAccess s.lastNAReadView access pos view
    previousNA := Function.update s.previousNA pos.thread (some (pos.index, true))
    }.noteMemAccess access pos view).addLoopAccess pos access

def onATLoad (s : State) (pos : Event) (access : AAccess) (view : CowView) : State :=
  ({ s with lastAReadView := recordMemAccess s.lastAReadView access pos view
    }.noteMemAccess access pos view).addLoopAccess pos access

/-- The loop of `onDeferredValueUpdate`, for one byte. -/
def updateByte (lastIsNA : IntervalMap SAddr (NonRevertibleOptional Bool)) (access : AAccess)
    (val : SVal) (m : IntervalMap SAddr (NonRevertibleOptional SVal)) (i : ℕ) :
    Option (IntervalMap SAddr (NonRevertibleOptional SVal)) := do
  let byteVal := (val >>> SVal.ofWord (UInt64.ofNat (i * 8))) &&& SVal.ofWord 0xFF
  let addr := (access.byte i).addr
  let isNA ← (lastIsNA.find addr).bind (·.2)
  -- what atomic writes have overwritten is ignored
  if isNA then some (overwrite m (makeInterval (access.byte i)) (some byteVal)) else some m

def onDeferredValueUpdate (s : State) (access : AAccess) (val : SVal) : Option State := do
  let m ← (List.range access.size).foldlM (updateByte s.lastIsNA access val) s.lastNAWriteVal
  some { s with lastNAWriteVal := m }

/-- The value that the runtime sends with a store, if it does. -/
def storeValue (s : State) (access : AAccess) : Option SVal → Option State
  | some val => s.onDeferredValueUpdate access val
  | none => some s

def onNAStore (s : State) (pos : Event) (access : AAccess) (view : CowView) (val : Option SVal) :
    Option State := do
  let s := { s.updateLastWriteType access false with
    previousNA := Function.update s.previousNA pos.thread (some (pos.index, false)) }
  let s ← s.storeValue access val
  let s := (s.markInitialized access pos view).recordNAWrite access pos view
  s.checkLoopSideEffects pos access false

/-- A store to a hazard pointer ends what it protects. -/
def overwriteHp (s : State) (addr : SAddr) : Option State :=
  if (s.hpProtectMap addr).any (· ≠ 0) then
    (s.updateHpCount addr (-1)).map fun s =>
      { s with hpProtectMap := Function.update s.hpProtectMap addr (some 0) }
  else some s

def onATStore (s : State) (pos : Event) (access : AAccess) (view : CowView)
    (isEffectful isRelease : Bool) : Option State := do
  let s := { s with lastAWriteView := recordMemAccess s.lastAWriteView access pos view
    }.noteMemAccess access pos view
  let s := (s.markInitialized access pos view).updateLastWriteType access true
  let s ← s.overwriteHp access.addr
  if isEffectful then s.checkLoopSideEffects pos access isRelease else some s

def onFence (s : State) (pos : Event) (isRelease : Bool) : State := s.noteRelease pos isRelease

def onLoopBegin (s : State) (pos : Event) : State :=
  { s with currentLoop := Function.update s.currentLoop pos.thread (some pos) }

/-- Whether the loop has had side effects since the last check, which is `none` outside of loops. -/
def onSpinStart (s : State) (pos : Event) : Option (Bool × State) :=
  match s.currentLoop pos.thread with
  | some loop =>
    if loop.isInitializer then none
    else some (s.doesCurrLoopHaveSideEffects pos.thread,
      { s with loopSideEffects := Function.update s.loopSideEffects loop false })
  | none => none

def onAlloc (s : State) (pos : Event) (size alignment : Storage.Width)
    (sdur : Storage.StorageDuration) (styp : Storage.StorageType) (spc : Storage.AddressSpace) :
    Option (SAddr × State) :=
  (s.storage.onAlloc pos size alignment sdur styp spc).map fun p =>
    (ofStorage p.1, { s with storage := p.2 })

/-- The allocation of an address is freed or retired. -/
def setFree (storage : Storage.ExecutionState) (pos : Event) (addr : SAddr) (isRetire : Bool) :
    Option Storage.ExecutionState := do
  let it ← storage.allocInfoMap.findEntry (toStorage addr)
  let oldVal ← it.value
  let newVal := { oldVal with freePos := some pos, isRetire := isRetire }
  some { storage with
    allocInfoMap := storage.allocInfoMap.add it.start it.stop (some newVal) fun _ _ => some newVal }

def onFree (s : State) (pos : Event) (addr : SAddr) (isRetire : Bool) : Option State := do
  let storage ← setFree s.storage pos addr isRetire
  let s ← { s with storage := storage }.unprotect addr
  some { s with hpProtectMap := Function.update s.hpProtectMap addr none }

def onProtect (s : State) (hpAddr protAddr : SAddr) : Option State := do
  let s ← s.unprotect hpAddr
  let s := { s with hpProtectMap := Function.update s.hpProtectMap hpAddr (some protAddr) }
  if protAddr ≠ 0 then s.updateHpCount hpAddr 1 else some s

/-- Only the pools of the dynamic addresses start again. -/
def clear (s : State) : State :=
  { init with storage := ⟨{ s.storage.alloctor with dynamicPool := fun _ => 1 }, .empty none⟩ }

end State

/-! ## Calls -/

/-- The calls of the handlers. -/
inductive Call where
  | addStaticRange (size alignment : Storage.Width) (persistent internal : Bool)
  | onNALoad (pos : Event) (access : AAccess) (view : CowView)
  | onATLoad (pos : Event) (access : AAccess) (view : CowView)
  | onNAStore (pos : Event) (access : AAccess) (view : CowView) (val : Option SVal)
  | onATStore (pos : Event) (access : AAccess) (view : CowView) (isEffectful isRelease : Bool)
  | onFence (pos : Event) (isRelease : Bool)
  | onLoopBegin (pos : Event)
  | onSpinStart (pos : Event)
  | onAlloc (pos : Event) (size alignment : Storage.Width) (sdur : Storage.StorageDuration)
      (styp : Storage.StorageType) (spc : Storage.AddressSpace)
  | onFree (pos : Event) (addr : SAddr) (isRetire : Bool)
  | onProtect (hpAddr protAddr : SAddr)
  | onDeferredValueUpdate (access : AAccess) (val : SVal)
  | clear

namespace State

/-- The state after a call. -/
def exec (s : State) : Call → Option State
  | .addStaticRange size alignment persistent internal =>
    s.addStaticRange size alignment persistent internal
  | .onNALoad pos access view => some (s.onNALoad pos access view)
  | .onATLoad pos access view => some (s.onATLoad pos access view)
  | .onNAStore pos access view val => s.onNAStore pos access view val
  | .onATStore pos access view isEffectful isRelease =>
    s.onATStore pos access view isEffectful isRelease
  | .onFence pos isRelease => some (s.onFence pos isRelease)
  | .onLoopBegin pos => some (s.onLoopBegin pos)
  | .onSpinStart pos => (s.onSpinStart pos).map (·.2)
  | .onAlloc pos size alignment sdur styp spc =>
    (s.onAlloc pos size alignment sdur styp spc).map (·.2)
  | .onFree pos addr isRetire => s.onFree pos addr isRetire
  | .onProtect hpAddr protAddr => s.onProtect hpAddr protAddr
  | .onDeferredValueUpdate access val => s.onDeferredValueUpdate access val
  | .clear => some s.clear

/-- The state after some calls. -/
def run (s : State) (calls : List Call) : Option State := calls.foldlM exec s

/-- The states that calls lead to. -/
def Reachable (s : State) : Prop := ∃ calls, init.run calls = some s

theorem run_concat (s : State) (calls : List Call) (c : Call) :
    s.run (calls ++ [c]) = (s.run calls).bind (·.exec c) := by
  rw [run, List.foldlM_append]
  refine congrArg ((s.run calls).bind ·) (funext fun s' => ?_)
  rw [List.foldlM_cons]
  cases s'.exec c <;> rfl

/-- **What the calls keep holds of every state that they lead to.** -/
theorem run_invariant {P : List Call → State → Prop} (hinit : P [] init)
    (hstep : ∀ {calls s c s'}, P calls s → s.exec c = some s' → P (calls ++ [c]) s')
    {calls : List Call} {s : State} (h : init.run calls = some s) : P calls s := by
  induction calls using List.reverseRecOn generalizing s with
  | nil =>
    obtain rfl := Option.some.inj h
    exact hinit
  | append_singleton calls c ih =>
    rw [run_concat, Option.bind_eq_some_iff] at h
    obtain ⟨s₁, hrun, hexec⟩ := h
    exact hstep (ih hrun) hexec

/-! ### What the parts of the handlers leave as it is -/

theorem updateSideEffects_eq {s s' : State} {pos : Event}
    (h : s.updateSideEffects pos = some s') : ∃ f, s' = { s with loopSideEffects := f } := by
  rw [updateSideEffects] at h
  split at h
  · split at h
    · cases h
    · exact ⟨_, (Option.some.inj h).symm⟩
  · cases h

theorem noteRelease_eq (s : State) (pos : Event) (isRelease : Bool) :
    ∃ f, s.noteRelease pos isRelease = { s with lastReleaseIdx := f } := by
  rw [noteRelease]
  split
  · exact ⟨_, rfl⟩
  · exact ⟨_, rfl⟩

theorem checkLoopSideEffects_eq {s s' : State} {pos : Event} {access : AAccess} {isRelease : Bool}
    (h : s.checkLoopSideEffects pos access isRelease = some s') :
    ∃ f g, s' = { s with lastReleaseIdx := f, loopSideEffects := g } := by
  obtain ⟨f, hf⟩ := noteRelease_eq s pos isRelease
  have hsame : s.noteRelease pos isRelease = s' →
      ∃ f g, s' = { s with lastReleaseIdx := f, loopSideEffects := g } := by
    rintro rfl
    exact ⟨f, _, hf⟩
  have hupdate : (s.noteRelease pos isRelease).updateSideEffects pos = some s' →
      ∃ f g, s' = { s with lastReleaseIdx := f, loopSideEffects := g } := by
    rw [hf]
    intro h
    obtain ⟨g, rfl⟩ := updateSideEffects_eq h
    exact ⟨f, g, rfl⟩
  rw [checkLoopSideEffects] at h
  dsimp only at h
  split at h
  · exact hsame (Option.some.inj h)
  split at h
  · exact hupdate h
  obtain ⟨allocPos, -, h⟩ := Option.bind_eq_some_iff.1 h
  split at h
  · exact hupdate h
  split at h
  · exact hupdate h
  split at h
  · exact hupdate h
  · exact hsame (Option.some.inj h)

theorem addLoopAccess_eq (s : State) (pos : Event) (access : AAccess) :
    ∃ f, s.addLoopAccess pos access = { s with loopAccess := f } := by
  rw [addLoopAccess]
  split
  · split
    · exact ⟨_, rfl⟩
    · exact ⟨_, rfl⟩
  · exact ⟨_, rfl⟩

theorem updateHpCount_eq {s s' : State} {addr : SAddr} {count : ℤ}
    (h : s.updateHpCount addr count = some s') : ∃ m, s' = { s with hpProtectCount := m } := by
  obtain ⟨protectedAddr, -, h⟩ := Option.bind_eq_some_iff.1 h
  obtain ⟨allocAccess, -, h⟩ := Option.bind_eq_some_iff.1 h
  split at h
  · exact ⟨_, (Option.some.inj h).symm⟩
  · cases h

theorem unprotect_eq {s s' : State} {hpAddr : SAddr} (h : s.unprotect hpAddr = some s') :
    ∃ m, s' = { s with hpProtectCount := m } := by
  rw [unprotect] at h
  split at h
  · split at h
    · exact updateHpCount_eq h
    · exact ⟨_, (Option.some.inj h).symm⟩
  · exact ⟨_, (Option.some.inj h).symm⟩

theorem onDeferredValueUpdate_eq {s s' : State} {access : AAccess} {val : SVal}
    (h : s.onDeferredValueUpdate access val = some s') :
    ∃ m, (List.range access.size).foldlM (updateByte s.lastIsNA access val) s.lastNAWriteVal =
      some m ∧ s' = { s with lastNAWriteVal := m } := by
  obtain ⟨m, hm, h⟩ := Option.bind_eq_some_iff.1 h
  exact ⟨m, hm, (Option.some.inj h).symm⟩

theorem overwriteHp_eq {s s' : State} {addr : SAddr} (h : s.overwriteHp addr = some s') :
    ∃ map count, s' = { s with hpProtectMap := map, hpProtectCount := count } := by
  rw [overwriteHp] at h
  split at h
  · obtain ⟨s₁, hcount, rfl⟩ := Option.map_eq_some_iff.1 h
    obtain ⟨m, rfl⟩ := updateHpCount_eq hcount
    exact ⟨_, m, rfl⟩
  · exact ⟨_, _, (Option.some.inj h).symm⟩

/-! ### What the handlers leave as it is -/

section Handlers

variable {s s' : State} {pos : Event} {access : AAccess} {view : CowView}

theorem onNALoad_eq (s : State) (pos : Event) (access : AAccess) (view : CowView) :
    ∃ last unprotected prev f, s.onNALoad pos access view = { s with
      lastNAReadView := recordMemAccess s.lastNAReadView access pos view
      lastMemAccess := last, lastUnprotectedAccess := unprotected, previousNA := prev
      loopAccess := f } := by
  obtain ⟨f, hf⟩ := addLoopAccess_eq ({ s with
    lastNAReadView := recordMemAccess s.lastNAReadView access pos view
    previousNA := Function.update s.previousNA pos.thread (some (pos.index, true))
    }.noteMemAccess access pos view) pos access
  exact ⟨_, _, _, f, hf⟩

theorem onATLoad_eq (s : State) (pos : Event) (access : AAccess) (view : CowView) :
    ∃ last unprotected f, s.onATLoad pos access view = { s with
      lastAReadView := recordMemAccess s.lastAReadView access pos view
      lastMemAccess := last, lastUnprotectedAccess := unprotected, loopAccess := f } := by
  obtain ⟨f, hf⟩ := addLoopAccess_eq ({ s with
    lastAReadView := recordMemAccess s.lastAReadView access pos view
    }.noteMemAccess access pos view) pos access
  exact ⟨_, _, f, hf⟩

/-- The value, if there is one, is recorded after the type of the write. -/
theorem onNAStore_eq {val : Option SVal} (h : s.onNAStore pos access view val = some s') :
    ∃ m last unprotected prev f g,
      (∀ v, val = some v → (List.range access.size).foldlM
        (updateByte (overwrite s.lastIsNA (makeInterval access) (some true)) access v)
        s.lastNAWriteVal = some m) ∧ (val = none → m = s.lastNAWriteVal) ∧
      s' = { s with
        initialized := markInitializedIn s.initialized access pos view
        lastIsNA := overwrite s.lastIsNA (makeInterval access) (some true)
        lastNAWriteEvent := overwrite s.lastNAWriteEvent (makeInterval access) (some pos)
        lastNAWriteVal := m
        lastMemAccess := last, lastUnprotectedAccess := unprotected, previousNA := prev
        lastReleaseIdx := f, loopSideEffects := g } := by
  rw [onNAStore.eq_def] at h
  obtain ⟨s₁, hval, h⟩ := Option.bind_eq_some_iff.1 h
  obtain ⟨f, g, rfl⟩ := checkLoopSideEffects_eq h
  cases val with
  | none =>
    obtain rfl := Option.some.inj hval
    exact ⟨_, _, _, _, f, g, fun v hv => (nomatch hv), fun _ => rfl, rfl⟩
  | some val =>
    obtain ⟨m, hm, rfl⟩ := onDeferredValueUpdate_eq hval
    refine ⟨m, _, _, _, f, g, fun v hv => ?_, fun hv => (nomatch hv), rfl⟩
    obtain rfl := Option.some.inj hv
    exact hm

/-- A store to a hazard pointer comes after the recordings. -/
theorem onATStore_eq {isEffectful isRelease : Bool}
    (h : s.onATStore pos access view isEffectful isRelease = some s') :
    ∃ s₁ last unprotected f g, { s with
        initialized := markInitializedIn s.initialized access pos view
        lastIsNA := overwrite s.lastIsNA (makeInterval access) (some false)
        lastAWriteView := recordMemAccess s.lastAWriteView access pos view
        lastMemAccess := last, lastUnprotectedAccess := unprotected
        }.overwriteHp access.addr = some s₁ ∧
      s' = { s₁ with lastReleaseIdx := f, loopSideEffects := g } := by
  rw [onATStore] at h
  obtain ⟨s₁, hhp, h⟩ := Option.bind_eq_some_iff.1 h
  split at h
  · obtain ⟨f, g, rfl⟩ := checkLoopSideEffects_eq h
    exact ⟨s₁, _, _, f, g, hhp, rfl⟩
  · exact ⟨s₁, _, _, _, _, hhp, (Option.some.inj h).symm⟩

theorem onSpinStart_eq {p : Bool × State} (h : s.onSpinStart pos = some p) :
    ∃ f, p.2 = { s with loopSideEffects := f } := by
  rw [onSpinStart] at h
  split at h
  · split at h
    · cases h
    · obtain rfl := Option.some.inj h
      exact ⟨_, rfl⟩
  · cases h

theorem onFree_eq {addr : SAddr} {isRetire : Bool} (h : s.onFree pos addr isRetire = some s') :
    ∃ storage m, setFree s.storage pos addr isRetire = some storage ∧
      { s with storage := storage }.unprotect addr =
        some { s with storage := storage, hpProtectCount := m } ∧
      s' = { s with
        storage := storage, hpProtectCount := m
        hpProtectMap := Function.update s.hpProtectMap addr none } := by
  obtain ⟨storage, hfree, h⟩ := Option.bind_eq_some_iff.1 h
  obtain ⟨s₁, hun, h⟩ := Option.bind_eq_some_iff.1 h
  obtain ⟨m, rfl⟩ := unprotect_eq hun
  exact ⟨storage, m, hfree, hun, (Option.some.inj h).symm⟩

theorem onProtect_eq {hpAddr protAddr : SAddr} (h : s.onProtect hpAddr protAddr = some s') :
    ∃ m m', s.unprotect hpAddr = some { s with hpProtectCount := m } ∧
      s' = { s with
        hpProtectCount := m'
        hpProtectMap := Function.update s.hpProtectMap hpAddr (some protAddr) } := by
  obtain ⟨s₁, hun, h⟩ := Option.bind_eq_some_iff.1 h
  obtain ⟨m, rfl⟩ := unprotect_eq hun
  split at h
  · obtain ⟨m', rfl⟩ := updateHpCount_eq h
    exact ⟨m, m', hun, rfl⟩
  · exact ⟨m, m, hun, (Option.some.inj h).symm⟩

end Handlers

end State

/-! ### What a call does to the maps -/

namespace Call

def onInitialized (m : AdaptiveViewMap) : Call → AdaptiveViewMap
  | .onNAStore pos access view _ => State.markInitializedIn m access pos view
  | .onATStore pos access view _ _ => State.markInitializedIn m access pos view
  | .clear => .empty .empty
  | _ => m

def onLastIsNA (m : IntervalMap SAddr (NonRevertibleOptional Bool)) :
    Call → IntervalMap SAddr (NonRevertibleOptional Bool)
  | .onNAStore _ access _ _ => overwrite m (makeInterval access) (some true)
  | .onATStore _ access _ _ _ => overwrite m (makeInterval access) (some false)
  | .clear => .empty none
  | _ => m

def onLastNAWriteEvent (m : IntervalMap SAddr (NonRevertibleOptional Event)) :
    Call → IntervalMap SAddr (NonRevertibleOptional Event)
  | .onNAStore pos access _ _ => overwrite m (makeInterval access) (some pos)
  | .clear => .empty none
  | _ => m

/-- The values are written when it is known which bytes the call has left to accesses that are not
atomic. -/
def onLastNAWriteVal (lastIsNA : IntervalMap SAddr (NonRevertibleOptional Bool))
    (m : IntervalMap SAddr (NonRevertibleOptional SVal)) :
    Call → Option (IntervalMap SAddr (NonRevertibleOptional SVal))
  | .onNAStore _ access _ (some val) =>
    (List.range access.size).foldlM (State.updateByte lastIsNA access val) m
  | .onDeferredValueUpdate access val =>
    (List.range access.size).foldlM (State.updateByte lastIsNA access val) m
  | .clear => some (.empty none)
  | _ => some m

def onLastAReadView (m : AdaptiveViewMap) : Call → AdaptiveViewMap
  | .onATLoad pos access view => recordMemAccess m access pos view
  | .clear => .empty .empty
  | _ => m

def onLastAWriteView (m : AdaptiveViewMap) : Call → AdaptiveViewMap
  | .onATStore pos access view _ _ => recordMemAccess m access pos view
  | .clear => .empty .empty
  | _ => m

/-- What a call does to the maps of a state. -/
structure Effect (c : Call) (s s' : State) : Prop where
  initialized : s'.initialized = c.onInitialized s.initialized
  lastIsNA : s'.lastIsNA = c.onLastIsNA s.lastIsNA
  lastNAWriteEvent : s'.lastNAWriteEvent = c.onLastNAWriteEvent s.lastNAWriteEvent
  lastNAWriteVal : c.onLastNAWriteVal s'.lastIsNA s.lastNAWriteVal = some s'.lastNAWriteVal
  lastAReadView : s'.lastAReadView = c.onLastAReadView s.lastAReadView
  lastAWriteView : s'.lastAWriteView = c.onLastAWriteView s.lastAWriteView

end Call

namespace State

/-- **What a call does to the maps.** -/
theorem exec_effect {s s' : State} {c : Call} (h : s.exec c = some s') : c.Effect s s' := by
  cases c with
  | addStaticRange size alignment persistent internal =>
    obtain ⟨p, -, rfl⟩ := Option.map_eq_some_iff.1 h
    exact ⟨rfl, rfl, rfl, rfl, rfl, rfl⟩
  | onNALoad pos access view =>
    obtain ⟨_, _, _, _, heq⟩ := onNALoad_eq s pos access view
    obtain rfl := heq.symm.trans (Option.some.inj h)
    exact ⟨rfl, rfl, rfl, rfl, rfl, rfl⟩
  | onATLoad pos access view =>
    obtain ⟨_, _, _, heq⟩ := onATLoad_eq s pos access view
    obtain rfl := heq.symm.trans (Option.some.inj h)
    exact ⟨rfl, rfl, rfl, rfl, rfl, rfl⟩
  | onNAStore pos access view val =>
    obtain ⟨m, _, _, _, _, _, hsome, hnone, rfl⟩ := onNAStore_eq h
    refine ⟨rfl, rfl, rfl, ?_, rfl, rfl⟩
    cases val with
    | none => exact congrArg some (hnone rfl).symm
    | some val => exact hsome val rfl
  | onATStore pos access view isEffectful isRelease =>
    obtain ⟨s₁, _, _, _, _, hhp, rfl⟩ := onATStore_eq h
    obtain ⟨_, _, rfl⟩ := overwriteHp_eq hhp
    exact ⟨rfl, rfl, rfl, rfl, rfl, rfl⟩
  | onFence pos isRelease =>
    obtain ⟨_, heq⟩ := noteRelease_eq s pos isRelease
    obtain rfl := heq.symm.trans (Option.some.inj h)
    exact ⟨rfl, rfl, rfl, rfl, rfl, rfl⟩
  | onLoopBegin pos =>
    obtain rfl := Option.some.inj h
    exact ⟨rfl, rfl, rfl, rfl, rfl, rfl⟩
  | onSpinStart pos =>
    obtain ⟨p, hp, rfl⟩ := Option.map_eq_some_iff.1 h
    obtain ⟨_, heq⟩ := onSpinStart_eq hp
    rw [heq]
    exact ⟨rfl, rfl, rfl, rfl, rfl, rfl⟩
  | onAlloc pos size alignment sdur styp spc =>
    obtain ⟨p, hp, rfl⟩ := Option.map_eq_some_iff.1 h
    obtain ⟨q, -, rfl⟩ := Option.map_eq_some_iff.1 hp
    exact ⟨rfl, rfl, rfl, rfl, rfl, rfl⟩
  | onFree pos addr isRetire =>
    obtain ⟨storage, m, -, -, rfl⟩ := onFree_eq h
    exact ⟨rfl, rfl, rfl, rfl, rfl, rfl⟩
  | onProtect hpAddr protAddr =>
    obtain ⟨m, m', -, rfl⟩ := onProtect_eq h
    exact ⟨rfl, rfl, rfl, rfl, rfl, rfl⟩
  | onDeferredValueUpdate access val =>
    obtain ⟨m, hm, rfl⟩ := onDeferredValueUpdate_eq h
    exact ⟨rfl, rfl, rfl, hm, rfl, rfl⟩
  | clear =>
    obtain rfl := Option.some.inj h
    exact ⟨rfl, rfl, rfl, rfl, rfl, rfl⟩

end State

end ExecutionState
end GenMC
