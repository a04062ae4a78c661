import GenMC.Execution.EventLabel

/-!
# Execution graphs

The graph the model checker builds: the labels of each thread, the order in which they were
added, the coherence order of each location, and the maps the source keeps beside them.

* `addLabelToGraph` and `removeLast` add and remove one label.
* `setRf`, `addCo` and `moveCo` change what a read reads from and where a write sits in coherence.
* `cutToStamp` restricts a graph to the labels added up to some moment.
* `copyGraphUpTo` builds a new graph from the labels in a view.  It works in passes: clone the
  labels thread by thread, drop the begins of threads that lost their creation, restore the
  insertion order, and then relink reads, writes, begins and ends and rebuild the maps.

Both restrictions keep the begin of *every* thread at first, and clean up afterwards, from the
last thread downwards, for as long as a thread is nothing but a begin (`cleanupBegins`).

The labels of a thread are kept once; the source also has them in an intrusive list per thread
(`poLists`) with the same contents.  Its hash maps are functions to `Option`, and a loop over all
locations is a pointwise definition, since the rounds for different locations are independent.
-/

set_option autoImplicit false

namespace GenMC

/-- An execution graph. -/
@[ext] structure ExecutionGraph where
  /-- The labels of each thread. -/
  events : List (List EventLabel)
  /-- The positions of the labels in the order in which they were added. -/
  insertionOrder : List Event
  /-- The next stamp. -/
  timestamp : ℕ
  /-- The writes to each location in coherence order. -/
  coherence : SAddr → Option (List Event)
  /-- The reads of each location that read from the initializer. -/
  initRfs : SAddr → Option (List Event)
  /-- The accesses to each location. -/
  accessMap : SAddr → Option (List Event)
  initVals : SAddr → Option SVal

namespace ExecutionGraph

/-! ## Getters -/

/-- The number of threads. -/
def getNumThreads (g : ExecutionGraph) : ℕ := g.events.length

/-- The number of labels of a thread. -/
def getThreadSize (g : ExecutionGraph) (t : ℕ) : ℕ := (g.events.getD t []).length

/-- The label at a position. -/
def getEventLabel (g : ExecutionGraph) (e : Event) : Option EventLabel :=
  (g.events.getD e.thread [])[e.index]?

/-- The begin of a thread. -/
def getFirstThreadLabel (g : ExecutionGraph) (t : ℕ) : Option EventLabel :=
  (g.getEventLabel ⟨t, 0⟩).filter (·.isThreadStart)

/-- The last label of a thread. -/
def getLastThreadLabel (g : ExecutionGraph) (t : ℕ) : Option EventLabel :=
  (g.events.getD t []).getLast?

/-- Whether there is a label at a position. -/
def containsPos (g : ExecutionGraph) (e : Event) : Bool :=
  e.thread < g.getNumThreads && e.index < g.getThreadSize e.thread

/-- The writes to a location in coherence order. -/
def co (g : ExecutionGraph) (a : SAddr) : List Event := (g.coherence a).getD []

/-- The last write to a location in coherence order, or the initializer. -/
def coMax (g : ExecutionGraph) (a : SAddr) : Event := (g.co a).getLastD Event.getInit

/-- The reads of a location that read from the initializer. -/
def initReaders (g : ExecutionGraph) (a : SAddr) : List Event := (g.initRfs a).getD []

/-- The writes after a write in coherence. -/
def coSuccs (g : ExecutionGraph) (lab : EventLabel) : List Event :=
  if lab.isWrite then (g.co lab.addr).drop ((g.co lab.addr).idxOf lab.pos + 1) else []

/-- The writes after what a read reads from, in coherence. -/
def frSuccs (g : ExecutionGraph) (lab : EventLabel) : List Event :=
  if lab.isRead then
    match lab.rf.filter (!·.isInitializer) with
    | some w => (g.co lab.addr).drop ((g.co lab.addr).idxOf w + 1)
    | none => g.co lab.addr
  else []

/-- The largest stamp in use, plus one. -/
def getMaxStamp (g : ExecutionGraph) : ℕ := g.timestamp

/-- All labels, thread by thread. -/
def labels (g : ExecutionGraph) : List EventLabel := g.events.flatten

/-- For each thread the last label with a stamp of at most `stamp`, if there is one. -/
def getViewFromStamp (g : ExecutionGraph) (stamp : ℕ) : View where
  getMax t := ((List.range (g.getThreadSize t)).reverse.find? fun j =>
    (g.getEventLabel ⟨t, j⟩).any fun lab => lab.stamp.any (· ≤ stamp)).getD 0

/-! ## Changing labels -/

/-- Applies a function to every label. -/
def mapLabels (f : EventLabel → EventLabel) (g : ExecutionGraph) : ExecutionGraph :=
  { g with events := g.events.map (·.map f) }

/-- Applies a function to the label created for position `e`. -/
def modify (e : Event) (f : EventLabel → EventLabel) (g : ExecutionGraph) : ExecutionGraph :=
  g.mapLabels fun lab => if lab.pos = e then f lab else lab

/-- Makes a location known to the graph. -/
def trackCoherenceAtLoc (a : SAddr) (g : ExecutionGraph) : ExecutionGraph :=
  { g with
    coherence := Function.update g.coherence a (some (g.co a))
    initRfs := Function.update g.initRfs a (some (g.initReaders a))
    accessMap := Function.update g.accessMap a (some ((g.accessMap a).getD [])) }

/-- Records an access to a location. -/
def pushAccess (a : SAddr) (e : Event) (g : ExecutionGraph) : ExecutionGraph :=
  { g with accessMap := Function.update g.accessMap a (some ((g.accessMap a).getD [] ++ [e])) }

/-! ## Label addition -/

/-- Gives a label a stamp, unless it has one. -/
def stampLabel (g : ExecutionGraph) (lab : EventLabel) : EventLabel × ℕ :=
  if lab.stamp.isSome then (lab, g.timestamp)
  else ({ lab with stamp := some g.timestamp }, g.timestamp + 1)

/-- Tracks the location of a memory access or a deallocation. -/
def trackLabel (lab : EventLabel) (g : ExecutionGraph) : ExecutionGraph :=
  if lab.isMemAccess || lab.isFree then
    (g.trackCoherenceAtLoc lab.addr).pushAccess lab.addr lab.pos
  else g

/-- Puts a label at its position: over the label that is there, or at the end of the thread. -/
def placeLabel (lab : EventLabel) (g : ExecutionGraph) : ExecutionGraph :=
  match g.getLastThreadLabel lab.pos.thread with
  | some lastLab =>
    if lab.pos.index < lastLab.pos.index then
      { g with
        events := g.events.modify lab.pos.thread fun thr => thr.set lab.pos.index lab
        insertionOrder := g.insertionOrder.erase lab.pos ++ [lab.pos] }
    else
      { g with
        events := g.events.modify lab.pos.thread (· ++ [lab])
        insertionOrder := g.insertionOrder ++ [lab.pos] }
  | none =>
    { g with
      events := g.events.modify lab.pos.thread (· ++ [lab])
      insertionOrder := g.insertionOrder ++ [lab.pos] }

/-- Adds a label to the graph. -/
def addLabelToGraph (lab : EventLabel) (g : ExecutionGraph) : ExecutionGraph :=
  { g with timestamp := (g.stampLabel lab).2 }.trackLabel lab |>.placeLabel (g.stampLabel lab).1

/-- The graph without threads the constructor starts from. -/
def blank : ExecutionGraph where
  events := [[]]
  insertionOrder := []
  timestamp := 0
  coherence := fun _ => none
  initRfs := fun _ => none
  accessMap := fun _ => none
  initVals := fun _ => none

/-- The label of the initializer. -/
def initLabel : EventLabel := { kind := .Init, pos := Event.getInit, ordering := .Acquire }

/-- The graph that has only the initializer. -/
def init : ExecutionGraph := blank.addLabelToGraph initLabel

/-- Starts a new thread. -/
def addNewThread (g : ExecutionGraph) : ExecutionGraph := { g with events := g.events ++ [[]] }

/-! ## Reads-from and coherence -/

/-- Takes a read off the reader list of the write it reads from. -/
def removeReader (rfPos : Event) (rLab : EventLabel) (g : ExecutionGraph) : ExecutionGraph :=
  if rfPos.isInitializer then
    { g with
      initRfs := Function.update g.initRfs rLab.addr
        (some ((g.initReaders rLab.addr).filter (· ≠ rLab.pos))) }
  else g.modify rfPos fun w => { w with readers := w.readers.filter (· ≠ rLab.pos) }

/-- Puts a read on the reader list of a write. -/
def addReader (rfPos : Event) (rLab : EventLabel) (g : ExecutionGraph) : ExecutionGraph :=
  if rfPos.isInitializer then
    { g with
      initRfs := Function.update g.initRfs rLab.addr
        (some (g.initReaders rLab.addr ++ [rLab.pos])) }
  else g.modify rfPos fun w => { w with readers := w.readers ++ [rLab.pos] }

/-- Makes a read read from a write (or from nothing), and keeps the reader lists in step.  The
read counts as added maximally when it reads from the last write in coherence. -/
def setRf (r : Event) (rf : Option Event) (g : ExecutionGraph) : ExecutionGraph :=
  match g.getEventLabel r with
  | none => g
  | some rLab =>
    let g₁ := g.modify r fun lab => { lab with rf := rf }
    let g₂ := match rLab.rf with
      | none => g₁
      | some old => g₁.removeReader old rLab
    match rf with
    | none => g₂
    | some w =>
      (g₂.addReader w rLab).modify r fun lab =>
        { lab with maximal := g₂.coMax rLab.addr = w }

/-- Inserts `w` right after `pred` in a coherence list, or at the front. -/
def insertAfter (pred w : Event) (l : List Event) : List Event :=
  match l.idxOf? pred with
  | some i => l.insertIdx (i + 1) w
  | none => w :: l

/-- Places a write in coherence, right after `pred`. -/
def addCo (w pred : Event) (a : SAddr) (g : ExecutionGraph) : ExecutionGraph :=
  { g with coherence := Function.update g.coherence a (some (insertAfter pred w (g.co a))) }

/-- Moves a write in coherence.  It counts as added maximally when it becomes the last one. -/
def moveCo (w pred : Event) (a : SAddr) (g : ExecutionGraph) : ExecutionGraph :=
  let g₁ := { g with coherence := Function.update g.coherence a (some ((g.co a).erase w)) }.addCo
    w pred a
  g₁.modify w fun lab => { lab with maximal := (g₁.co a).getLast? = some w }

/-! ## Label removal -/

/-- Takes a label out of reads-from: a read leaves the reader list of its write, and the readers
of a write read from nothing afterwards. -/
def unlinkLabel (lab : EventLabel) (g : ExecutionGraph) : ExecutionGraph :=
  let g₁ := if lab.isRead then
      match lab.rf with
      | none => g
      | some w => g.removeReader w lab
    else g
  if lab.isWrite then
    g₁.mapLabels fun r => if r.pos ∈ lab.readers then { r with rf := none } else r
  else g₁

/-- Removes the last label of a thread. -/
def removeLast (t : ℕ) (g : ExecutionGraph) : ExecutionGraph :=
  match g.getLastThreadLabel t with
  | none => g
  | some lab =>
    let g₂ := g.unlinkLabel lab
    let g₃ := if lab.isMemAccess || lab.isFree then
        { g₂ with
          accessMap := Function.update g₂.accessMap lab.addr
            (some (((g₂.accessMap lab.addr).getD []).filter (· ≠ lab.pos))) }
      else g₂
    -- the source clears the creation of the *parent's* begin here
    let g₄ := if lab.kind = .ThreadCreate then
        match g₃.getFirstThreadLabel lab.pos.thread with
        | none => g₃
        | some b => g₃.modify b.pos fun b => { b with create := none }
      else g₃
    let g₅ := if lab.kind = .ThreadJoin then
        match g₄.getLastThreadLabel lab.childId with
        | none => g₄
        | some e =>
          if e.kind = .ThreadFinish then g₄.modify e.pos fun e => { e with parentJoin := none }
          else g₄
      else g₄
    { g₅ with
      insertionOrder := g₅.insertionOrder.erase lab.pos
      events := g₅.events.modify t List.dropLast }

/-! ## Begins of threads that lost their creation -/

/-- Removes thread `i`, of which only the begin is left.  The threads above move down. -/
def eraseBegin (i : ℕ) (bLab : EventLabel) (g : ExecutionGraph) : ExecutionGraph :=
  let g₁ := match bLab.symmPredTid with
    | none => g
    | some p =>
      { g with
        events := g.events.modify p (List.modifyHead fun s => { s with symmSuccTid := none }) }
  { g₁ with
    insertionOrder := g₁.insertionOrder.erase bLab.pos
    events := g₁.events.eraseIdx i }

/-- Walks over the threads from the last one down, for as long as they are nothing but a begin,
and removes the orphans among them. -/
def cleanupBegins (orphan : ExecutionGraph → EventLabel → Bool) :
    ℕ → ExecutionGraph → ExecutionGraph
  | 0, g => g
  | i + 1, g =>
    match g.events.getD i [] with
    | [bLab] =>
      if bLab.kind = .Init then g
      else if orphan g bLab then cleanupBegins orphan i (g.eraseBegin i bLab)
      else cleanupBegins orphan i g
    | _ => g

/-! ## Cutting -/

/-- Gives a label the next stamp. -/
def stampNext (g : ExecutionGraph) (e : Event) : ExecutionGraph :=
  { g.modify e fun lab => { lab with stamp := some g.timestamp } with
    timestamp := g.timestamp + 1 }

/-- Stamps the labels from zero on, in the order in which they were added. -/
def resetStamps (g : ExecutionGraph) : ExecutionGraph :=
  g.insertionOrder.foldl stampNext { g with timestamp := 0 }

/-- The labels of each thread up to the last one in the view. -/
def keptEvents (preds : View) (g : ExecutionGraph) : List (List EventLabel) :=
  g.events.mapIdx fun i thr => thr.take (preds.getMax i + 1)

/-- Drops the locations no kept access uses, and everything outside the view from the others. -/
def removeAfter (preds : View) (g : ExecutionGraph) : ExecutionGraph :=
  let keep : SAddr → Bool := fun a =>
    (g.keptEvents preds).flatten.any fun lab => lab.isMemAccess && lab.addr = a
  let restrict : (SAddr → Option (List Event)) → SAddr → Option (List Event) := fun m a =>
    if (g.coherence a).isNone then m a
    else if keep a then some (((m a).getD []).filter (preds.contains ·))
    else none
  { g with
    coherence := restrict g.coherence
    initRfs := restrict g.initRfs
    accessMap := restrict g.accessMap }

/-- Removes the pointers of a label to labels outside the view. -/
def dropPointers (preds : View) (lab : EventLabel) : EventLabel :=
  { lab with
    readers := if lab.isWrite then lab.readers.filter (preds.contains ·) else lab.readers
    rf := if lab.isRead then lab.rf.filter (preds.contains ·) else lab.rf
    create := if lab.isThreadStart then lab.create.filter (preds.contains ·) else lab.create
    parentJoin := if lab.kind = .ThreadFinish then lab.parentJoin.filter (preds.contains ·)
      else lab.parentJoin
    linPreds := if lab.kind = .MethodBegin then lab.linPreds.filter (preds.contains ·)
      else lab.linPreds
    linSuccs := if lab.kind = .MethodEnd then lab.linSuccs.filter (preds.contains ·)
      else lab.linSuccs }

/-- Keeps the labels in the view (and all begins), without pointers to the rest. -/
def restrictTo (preds : View) (g : ExecutionGraph) : ExecutionGraph :=
  { g.removeAfter preds with
    insertionOrder := g.insertionOrder.filter (preds.contains ·)
    events := (g.keptEvents preds).map (·.map (dropPointers preds)) }

/-- Restricts the graph to the labels with a stamp of at most `stamp`. -/
def cutToStamp (stamp : ℕ) (g : ExecutionGraph) : ExecutionGraph :=
  let g₁ := g.restrictTo (g.getViewFromStamp stamp)
  (g₁.cleanupBegins (fun _ bLab => bLab.create.isNone) g₁.getNumThreads).resetStamps

/-! ## Copying -/

/-- The label that fills a gap. -/
def createHoleLabel (pos : Event) : EventLabel := { kind := .Empty, pos := pos }

/-- The labels of thread `i` that get cloned: its begin (the initializer is there already) and
what is in the view. -/
def labelsToCopy (g : ExecutionGraph) (v : View) (i : ℕ) : List EventLabel :=
  (if i = 0 then [] else (g.getEventLabel ⟨i, 0⟩).toList.map EventLabel.clone) ++
    (List.range' 1 (v.getMax i)).flatMap fun j =>
      if v.contains ⟨i, j⟩ then (g.getEventLabel ⟨i, j⟩).toList.map EventLabel.clone
      else [createHoleLabel ⟨i, j⟩]

/-- Makes room for `n` threads. -/
def resize (n : ℕ) (g : ExecutionGraph) : ExecutionGraph :=
  { g with events := g.events ++ List.replicate (n - g.getNumThreads) [] }

/-- The first pass: a graph with the same number of threads and the clones of all labels. -/
def cloneLabels (g : ExecutionGraph) (v : View) : ExecutionGraph :=
  ((List.range g.getNumThreads).flatMap (g.labelsToCopy v)).foldl
    (fun other lab => other.addLabelToGraph lab) (init.resize g.getNumThreads)

/-- Appends the label at position `e`, if there is one, to the insertion order. -/
def pushInsertion (other : ExecutionGraph) (e : Event) : ExecutionGraph :=
  match other.getEventLabel e with
  | none => other
  | some lab =>
    { other.stampNext lab.pos with insertionOrder := other.insertionOrder ++ [lab.pos] }

/-- The insertion order of `g`, as far as the copy has labels at these positions. -/
def fixInsertionOrder (g other : ExecutionGraph) : ExecutionGraph :=
  g.insertionOrder.foldl pushInsertion { other with insertionOrder := [], timestamp := 0 }

/-- The label of the copy that a pointer to `e` becomes. -/
def relink (other : ExecutionGraph) (v : View) (e : Event) : Option Event :=
  if v.contains e then (other.getEventLabel e).map (·.pos) else none

/-- Makes the pointers of a cloned label point into the copy. -/
def fixPointers (g other : ExecutionGraph) (v : View) (lab : EventLabel) : EventLabel :=
  let orig := g.getEventLabel lab.pos
  { lab with
    rf := if lab.isRead then lab.rf.bind (relink other v) else lab.rf
    readers := if lab.isWrite then
        ((orig.map (·.readers)).getD []).filterMap (relink other v)
      else lab.readers
    create := if lab.isThreadStart then lab.create.bind (relink other v) else lab.create
    parentJoin := if lab.kind = .ThreadFinish then lab.parentJoin.bind (relink other v)
      else lab.parentJoin
    linPreds := if lab.kind = .MethodBegin then
        ((orig.map (·.linPreds)).getD []).filterMap (relink other v)
      else lab.linPreds
    linSuccs := if lab.kind = .MethodEnd then
        ((orig.map (·.linSuccs)).getD []).filterMap (relink other v)
      else lab.linSuccs }

/-- Appends what the view keeps of each location's list to the copy's list for the location. -/
def appendKept (v : View) (locs : SAddr → Option (List Event)) (m m' : SAddr → Option (List Event))
    (a : SAddr) : Option (List Event) :=
  match locs a with
  | none => m' a
  | some _ =>
    match ((m a).getD []).filter (v.contains ·) with
    | [] => m' a
    | kept => some ((m' a).getD [] ++ kept)

/-- Rebuilds coherence, the readers of the initializer, the access lists and the initial values. -/
def copyMaps (g : ExecutionGraph) (v : View) (other : ExecutionGraph) : ExecutionGraph :=
  let coherence := appendKept v g.coherence g.coherence other.coherence
  { other with
    coherence := coherence
    initRfs := appendKept v g.coherence g.initRfs other.initRfs
    accessMap := appendKept v g.coherence g.accessMap other.accessMap
    initVals := fun a => if (coherence a).isSome then g.initVals a else other.initVals a }

/-- Copies the part of the graph that is in the view. -/
def copyGraphUpTo (g : ExecutionGraph) (v : View) : ExecutionGraph :=
  let g₁ := g.cloneLabels v
  let g₂ := g₁.cleanupBegins
    (fun other bLab => !(bLab.create.any fun c => other.containsPos c)) g₁.getNumThreads
  let g₃ := g.fixInsertionOrder g₂
  let g₄ := g₃.mapLabels fun lab =>
    if lab.pos ∈ g₃.insertionOrder then fixPointers g g₃ v lab else lab
  g.copyMaps v g₄

end ExecutionGraph

end GenMC
