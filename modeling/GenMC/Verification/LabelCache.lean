import GenMC.ADT.Trie
import GenMC.Execution.ExecutionGraph
import GenMC.Library.Process
import Mathlib.Algebra.Order.Ring.Int

/-!
# The label cache

The scheduler remembers the labels that a thread has issued, so that the thread need not be run
again when another execution gives it the same values.  For each function and thread identifier
there is a trie; under a sequence of values it has the *bucket* of the labels that a thread with
these values issues, up to the first that returns a value.  `cacheEventLabel` is called for each
label right before the label is added to the graph.  It looks for the longest known prefix of the
values of the thread and copies to the cache what is missing from there on, the label included.
`retrieveFromCache` returns the bucket of the values of a thread, if it has the next label.

A label is cloned and reset before it goes to the cache: what it has from the graph is taken off.

What a thread issues depends on the values returned to it.  The cache looks at those that labels
return, but not at the identifiers of the threads that the thread has created, nor at what it gets
from operations without labels.  As long as these make no difference, threads are a `Process` for
the cache.

* `cacheEventLabel_isSome`: no check of `cacheEventLabel` ever fails.
* `bucketOk_of_run`: the labels in a bucket are consecutive, and only the last may return a value.
* `retrieveFromCache_eq`: the labels in a retrieved bucket are **those that the thread issues
  next**, provided that what has been copied to the cache was not an expanded optional block.
* `expanded_label_retrieved`: an optional block does not reset whether it is expanded.  If one is
  copied from a graph in which it has been expanded, threads get it expanded from the cache.
-/

set_option autoImplicit false

namespace GenMC

namespace EventLabel

/-- Whether the label returns a value to its thread. -/
def returnsValue (lab : EventLabel) : Bool :=
  lab.isThreadStart || lab.isRead || lab.kind = .ThreadJoin || lab.kind = .Optional

/-- Resets what a label has from its graph.  A class of labels resets its own fields, which have
their defaults on all other labels: `create` of begins, `parentJoin` of thread ends, `maximal` of
memory accesses, `rf` of reads, `readers` of writes, and the linearization edges of methods.
Optional blocks have no reset of their own. -/
def reset (lab : EventLabel) : EventLabel :=
  { lab with
    stamp := none, prefixView := View.empty, revisitable := true
    create := none, parentJoin := none
    maximal := true, rf := none, readers := []
    linPreds := [], linSuccs := [] }

/-- The label without the child of a creation, which is set each time that a creation is added. -/
def unassigned (lab : EventLabel) : EventLabel :=
  { lab with childId := if lab.kind = .ThreadCreate then 0 else lab.childId }

/-- The label as it was when its thread issued it, before it was added to a graph. -/
def asIssued (lab : EventLabel) : EventLabel := { lab.reset.unassigned with expanded := false }

end EventLabel

namespace Scheduler

open ExecutionGraph

/-! ## The code -/

/-- What the cache asks about labels: the function that a begin starts, and the value that a label
of a graph returns. -/
structure CacheEnv where
  funId : EventLabel → ℕ
  getReturnValue : ExecutionGraph → EventLabel → SVal
  /-- What a thread got before an index from operations that have no labels or whose labels return
  nothing: addresses of what it has allocated, and values of non-atomic loads.  The cache does not
  ask for it. -/
  unlabelled : ExecutionGraph → ℕ → ℕ → List SVal

/-- A function and a thread identifier. -/
abbrev CacheKey := ℕ × ℕ

/-- The tries of the cache. -/
abbrev SeenPrefixes := CacheKey → Trie SVal (List EventLabel)

/-- A cache without labels. -/
def SeenPrefixes.empty : SeenPrefixes := fun _ => ⟨[], []⟩

variable (env : CacheEnv)

/-- The values returned to a thread before a position, and the positions that returned them. -/
def extractValPrefix (g : ExecutionGraph) (pos : Event) : Option (List SVal × List Event) := do
  let labs ← (List.range pos.index).mapM fun i => g.getEventLabel ⟨pos.thread, i⟩
  let labs := labs.filter (·.returnsValue)
  some (labs.map (env.getReturnValue g), labs.map (·.pos))

/-- The copies of the labels of a thread from an index on, up to a label that is not yet in the
graph. -/
def copyLabels (g : ExecutionGraph) (lab : EventLabel) (fromIdx : ℕ) : Option (List EventLabel) :=
  (List.range' fromIdx (lab.pos.index + 1 - fromIdx)).mapM fun i =>
    if i = lab.pos.index then some lab.clone.reset
    else (g.getEventLabel ⟨lab.pos.thread, i⟩).map (·.clone.reset)

/-- Puts labels into the bucket of `seenVals` and those after it.  `none` is a failed check. -/
def cacheLoop (vals : List SVal) :
    Trie SVal (List EventLabel) → List SVal → List EventLabel → Option (Trie SVal (List EventLabel))
  | t, _, [] => some t
  | t, seenVals, lab :: labs => do
    let data ← t.lookup seenVals
    if data.getLast?.all (·.pos.index < lab.pos.index) then
      if data.getLast?.any (·.returnsValue) then
        let val ← vals[seenVals.length]?
        let (t, res) ← t.addSeq (seenVals ++ [val]) []
        if res then
          cacheLoop vals (t.modify (seenVals ++ [val]) (· ++ [lab])) (seenVals ++ [val]) labs
        else none
      else cacheLoop vals (t.modify seenVals (· ++ [lab])) seenVals labs
    else none

/-- The index after the last value of a prefix. -/
def prefixEnd (indices : List Event) : ℕ → Option ℕ
  | 0 => some 0
  | n + 1 => (indices[n]?).map (·.index + 1)

/-- Where copying starts: after the last known value, and after what is in the bucket. -/
def fromIdx (commonPrefixLen : ℕ) (indices : List Event) (data : List EventLabel) : Option ℕ :=
  (prefixEnd indices commonPrefixLen).map fun idx =>
    match data.getLast? with
    | some last => max (last.pos.index + 1) idx
    | none => idx

/-- The begin of the thread of a label, which can be the label itself. -/
def firstLabelOf (g : ExecutionGraph) (lab : EventLabel) : Option EventLabel :=
  if lab.isThreadStart then some lab else g.getFirstThreadLabel lab.pos.thread

/-- Adds a label to the cache, and the labels of its thread before it, as far as they are not
there.  The label is about to be added to the graph.  `none` is a failed check. -/
def cacheEventLabel (g : ExecutionGraph) (lab : EventLabel) (seenPrefixes : SeenPrefixes) :
    Option SeenPrefixes := do
  let firstLab ← firstLabelOf g lab
  let cacheKey := (env.funId firstLab, lab.pos.thread)
  let (vals, indices) ← extractValPrefix env g lab.pos
  let commonPrefixLen ← (seenPrefixes cacheKey).findLongestCommonPrefix vals
  let seenVals := vals.take commonPrefixLen
  let data ← (seenPrefixes cacheKey).lookup seenVals
  if data.getLast?.any (lab.pos.index ≤ ·.pos.index) then some seenPrefixes
  else
    let idx ← fromIdx commonPrefixLen indices data
    let labs ← copyLabels g lab idx
    let t ← cacheLoop vals (seenPrefixes cacheKey) seenVals labs
    some (Function.update seenPrefixes cacheKey t)

/-- The position of the first empty label of a thread, or the one after its last label. -/
def findNextLabelToAdd (g : ExecutionGraph) (thread : ℕ) : Option Event :=
  match ((g.events.getD thread []).drop 1).find? (·.kind = .Empty) with
  | some lab => some lab.pos
  | none => (g.getLastThreadLabel thread).map (·.pos.next)

/-- The bucket that has the label a thread issues next, if there is one. -/
def retrieveFromCache (g : ExecutionGraph) (thread : ℕ) (seenPrefixes : SeenPrefixes) :
    Option (List EventLabel) := do
  let firstLab ← g.getFirstThreadLabel thread
  let next ← findNextLabelToAdd g thread
  let (vals, _) ← extractValPrefix env g next
  let res ← (seenPrefixes (env.funId firstLab, thread)).lookup vals
  if res.getLast?.any (next.index ≤ ·.pos.index) then some res else none

/-! ## Threads -/

/-- The labels of a thread up to one that is about to be added. -/
def threadUpTo (g : ExecutionGraph) (lab : EventLabel) : List EventLabel :=
  (g.events.getD lab.pos.thread []).take lab.pos.index ++ [lab]

/-- The key of a thread with the given labels. -/
def cacheKey (labs : List EventLabel) (thread : ℕ) : CacheKey :=
  (env.funId (labs.headD default), thread)

/-- The values that labels of a graph return. -/
def valuesOf (g : ExecutionGraph) (labs : List EventLabel) : List SVal :=
  (labs.filter (·.returnsValue)).map (env.getReturnValue g)

/-- The identifiers that creations among some labels have returned. -/
def childrenOf (labs : List EventLabel) : List ℕ :=
  (labs.filter (·.kind = .ThreadCreate)).map (·.childId)

/-- What threads issue at each index, depending on the values that labels have returned to them, on
the threads that they have created and on what else they have got. -/
abbrev Program := CacheKey → List SVal → List ℕ → List SVal → ℕ → Option EventLabel

/-- What threads issue if it depends on the values that labels have returned to them only. -/
abbrev ValueProgram := CacheKey → List SVal → ℕ → Option EventLabel

/-- A thread whose labels are some of a graph issues label `j` next. -/
def issuedAt (issue : Program) (g : ExecutionGraph) (thread : ℕ) (labs : List EventLabel) (j : ℕ) :
    Option EventLabel :=
  issue (cacheKey env labs thread) (valuesOf env g (labs.take j)) (childrenOf (labs.take j))
    (env.unlabelled g thread j) j

/-- The labels of a thread are those that it issued, with what they got from the graph.  Its begin
comes with its creation. -/
def Issues (issue : Program) (g : ExecutionGraph) (thread : ℕ) (labs : List EventLabel) : Prop :=
  ∀ j l, labs[j]? = some l → l.pos = ⟨thread, j⟩ ∧ (l.isThreadStart = true ↔ j = 0) ∧
    (j ≠ 0 → issuedAt env issue g thread labs j = some l.asIssued)

/-- The label is the next one of its thread, and the thread runs its program. -/
structure Extends (issue : Program) (g : ExecutionGraph) (lab : EventLabel) : Prop where
  index_le : lab.pos.index ≤ g.getThreadSize lab.pos.thread
  issues : Issues env issue g lab.pos.thread (threadUpTo g lab)

/-- The labels of the thread before index `n`, among them its begin, run its program. -/
structure RunsUntil (issue : Program) (g : ExecutionGraph) (thread n : ℕ) : Prop where
  pos : 0 < n
  le_size : n ≤ g.getThreadSize thread
  issues : Issues env issue g thread ((g.events.getD thread []).take n)

/-- Up to index `n`, what the thread issues is what `next` makes of the values that labels have
returned to it, whatever else it has got. -/
def FixedByValues (issue : Program) (next : ValueProgram) (g : ExecutionGraph) (thread : ℕ)
    (labs : List EventLabel) (n : ℕ) : Prop :=
  ∀ j, j ≠ 0 → j ≤ n → issuedAt env issue g thread labs j =
    next (cacheKey env labs thread) (valuesOf env g (labs.take j)) j

/-- `g'` is `g` or a later graph of the same execution, in which the thread has got to index `m`. -/
structure Later (issue : Program) (g g' : ExecutionGraph) (thread n m : ℕ) : Prop where
  runs : RunsUntil env issue g' thread m
  le : n ≤ m
  labels : (g'.events.getD thread []).take n = (g.events.getD thread []).take n
  values : valuesOf env g' ((g.events.getD thread []).take n) =
    valuesOf env g ((g.events.getD thread []).take n)

/-- A thread as a process, when only the values of labels make a difference. -/
def process (next : ValueProgram) (key : CacheKey) : Process SVal EventLabel where
  At p j lab := lab.pos = ⟨key.2, j⟩ ∧ (lab.isThreadStart = true ↔ j = 0) ∧
    (j ≠ 0 → next key p j = some lab.asIssued)
  returns := EventLabel.returnsValue
  det := by
    rintro p j l l' ⟨-, hb, hl⟩ ⟨-, hb', hl'⟩
    by_cases hj : j = 0
    · rw [EventLabel.returnsValue, EventLabel.returnsValue, hb.2 hj, hb'.2 hj, Bool.true_or,
        Bool.true_or, Bool.true_or, Bool.true_or, Bool.true_or, Bool.true_or]
    · have hkind : l.kind = l'.kind :=
        congrArg (fun o : Option EventLabel => (o.getD default).kind) ((hl hj).symm.trans (hl' hj))
      rw [EventLabel.returnsValue, EventLabel.returnsValue, EventLabel.isThreadStart,
        EventLabel.isThreadStart, EventLabel.isRead, EventLabel.isRead, hkind]

variable {issue : Program} {next : ValueProgram} {key : CacheKey}

/-- A thread whose labels are fixed by the values follows the process. -/
theorem Issues.follows {env : CacheEnv} {g : ExecutionGraph} {thread n : ℕ}
    {labs : List EventLabel} (h : Issues env issue g thread labs)
    (hfix : FixedByValues env issue next g thread labs n) (hn : labs.length ≤ n + 1)
    (hkey : cacheKey env labs thread = key) :
    (process next key).Follows (env.getReturnValue g) labs := by
  intro j l hl
  obtain ⟨hpos, hbegin, hissue⟩ := h j l hl
  have hlt := (List.getElem?_eq_some_iff.1 hl).1
  subst hkey
  exact ⟨hpos, hbegin, fun hj => (hfix j hj (by omega)).symm.trans (hissue hj)⟩

theorem pos_of_at {p : List SVal} {j : ℕ} {l : EventLabel} (h : (process next key).At p j l) :
    l.pos = ⟨key.2, j⟩ := h.1

/-- The copy of a label in the cache stands for the same action of the thread. -/
theorem at_reset {p : List SVal} {j : ℕ} {l : EventLabel} (h : (process next key).At p j l) :
    (process next key).At p j l.clone.reset := h

/-! ## Tries of labels -/

section Tries

variable {P : Process SVal EventLabel} {Good : EventLabel → Prop}
  {t : Trie SVal (List EventLabel)}

/-- The buckets of a trie have the labels that the process nexts, and all labels are good. -/
structure SoundTrie (P : Process SVal EventLabel) (Good : EventLabel → Prop)
    (t : Trie SVal (List EventLabel)) : Prop where
  flat : t.Flat
  segment : ∀ p b, t.lookup p = some b → ∃ s, P.Segment p s b
  good : ∀ p b, t.lookup p = some b → ∀ l ∈ b, Good l

theorem soundTrie_empty : SoundTrie P Good ⟨[], []⟩ := by
  have hlookup : ∀ p b, Trie.lookup (⟨[], []⟩ : Trie SVal (List EventLabel)) p = some b →
      p = [] ∧ b = [] := by
    intro p b h
    by_cases hp : p = []
    · subst hp
      exact ⟨rfl, (Option.some.inj h).symm⟩
    · rw [Trie.Flat.lookup_eq (t := ⟨[], []⟩) Trie.flatEdges_nil hp, Trie.content_nil] at h
      exact absurd h (by simp)
  refine ⟨Trie.flatEdges_nil, fun p b h => ?_, fun p b h l hl => ?_⟩
  · obtain ⟨rfl, rfl⟩ := hlookup p b h
    exact ⟨0, .nil .nil⟩
  · obtain ⟨-, rfl⟩ := hlookup p b h
    exact absurd hl List.not_mem_nil

/-- Only the bucket of `p` changes. -/
theorem SoundTrie.of_lookup (ht : SoundTrie P Good t) {t' : Trie SVal (List EventLabel)}
    (hflat : t'.Flat) {p : List SVal} {b : List EventLabel}
    (hlookup : ∀ u, t'.lookup u = if u = p then some b else t.lookup u)
    {s : ℕ} (hs : P.Segment p s b) (hgood : ∀ l ∈ b, Good l) : SoundTrie P Good t' := by
  refine ⟨hflat, fun q c h => ?_, fun q c h l hl => ?_⟩
  · rw [hlookup] at h
    by_cases hq : q = p
    · rw [if_pos hq] at h
      cases h
      exact ⟨s, hq ▸ hs⟩
    · rw [if_neg hq] at h
      exact ht.segment q c h
  · rw [hlookup] at h
    by_cases hq : q = p
    · rw [if_pos hq] at h
      cases h
      exact hgood l hl
    · rw [if_neg hq] at h
      exact ht.good q c h l hl

/-- Appending to a bucket. -/
theorem lookup_modify (ht : t.Flat) {p : List SVal} {b : List EventLabel}
    (hb : t.lookup p = some b) (lab : EventLabel) (u : List SVal) :
    (t.modify p (· ++ [lab])).lookup u = if u = p then some (b ++ [lab]) else t.lookup u := by
  rw [(Trie.modify_eq ht p _).2 u]
  by_cases hu : u = p
  · rw [if_pos hu, if_pos hu, hu, hb, Option.map_some]
  · rw [if_neg hu, if_neg hu]

/-- A new bucket, with one label. -/
theorem lookup_addSeq_modify (ht : t.Flat) {p : List SVal} {b : List EventLabel}
    (hb : t.lookup p = some b) {v : SVal} (hnone : t.lookup (p ++ [v]) = none) (lab : EventLabel) :
    ∃ t1, Trie.addSeq t (p ++ [v]) [] = some (t1, true) ∧ t1.Flat ∧ ∀ u,
      (t1.modify (p ++ [v]) (· ++ [lab])).lookup u =
        if u = p ++ [v] then some [lab] else t.lookup u := by
  obtain ⟨t1, hadd, hflat1, hlookup1⟩ : ∃ t', Trie.addSeq t (p ++ [v]) [] = some (t', true) ∧
      t'.Flat ∧ ∀ u, t'.lookup u = if u = p ++ [v] then some [] else t.lookup u :=
    Trie.addSeq_eq ht (by rw [hb]; rfl) hnone
  refine ⟨t1, hadd, hflat1, fun u => ?_⟩
  rw [lookup_modify hflat1 (by rw [hlookup1, if_pos rfl])]
  by_cases hu : u = p ++ [v]
  · rw [if_pos hu, if_pos hu]
    rfl
  · rw [if_neg hu, if_neg hu, hlookup1, if_neg hu]

/-- The trie has the label of index `j` under the values `p`. -/
def HasLabel (t : Trie SVal (List EventLabel)) (p : List SVal) (j : ℕ) : Prop :=
  ∃ b, t.lookup p = some b ∧ ∃ l ∈ b, l.pos.index = j

/-- Buckets are only appended to. -/
def Grows (t t' : Trie SVal (List EventLabel)) : Prop :=
  ∀ p b, t.lookup p = some b → ∃ e, t'.lookup p = some (b ++ e)

theorem Grows.refl (t : Trie SVal (List EventLabel)) : Grows t t :=
  fun _ b h => ⟨[], by rw [List.append_nil]; exact h⟩

theorem Grows.trans {t₁ t₂ t₃ : Trie SVal (List EventLabel)} (h : Grows t₁ t₂)
    (h' : Grows t₂ t₃) : Grows t₁ t₃ := by
  intro p b hb
  obtain ⟨e, he⟩ := h p b hb
  obtain ⟨e', he'⟩ := h' p _ he
  exact ⟨e ++ e', by rw [← List.append_assoc]; exact he'⟩

/-- The bucket of `p` is new, or appended to. -/
theorem Grows.of_lookup {t t' : Trie SVal (List EventLabel)} {p : List SVal} {c : List EventLabel}
    (hlookup : ∀ u, t'.lookup u = if u = p then some c else t.lookup u)
    (hc : ∀ b, t.lookup p = some b → ∃ e, c = b ++ e) : Grows t t' := by
  intro u b hu
  rw [hlookup]
  by_cases heq : u = p
  · obtain ⟨e, rfl⟩ := hc b (heq ▸ hu)
    exact ⟨e, if_pos heq⟩
  · exact ⟨[], by rw [if_neg heq, hu, List.append_nil]⟩

theorem HasLabel.of_lookup {t' : Trie SVal (List EventLabel)} {p : List SVal} {c : List EventLabel}
    (hlookup : t'.lookup p = some c) {l : EventLabel} (hl : l ∈ c) : HasLabel t' p l.pos.index :=
  ⟨c, hlookup, l, hl, rfl⟩

theorem HasLabel.of_grows {t t' : Trie SVal (List EventLabel)} (h : Grows t t') {p : List SVal}
    {j : ℕ} (hp : HasLabel t p j) : HasLabel t' p j := by
  obtain ⟨b, hb, l, hl, hlj⟩ := hp
  obtain ⟨e, he⟩ := h p b hb
  exact ⟨b ++ e, he, l, List.mem_append_left e hl, hlj⟩

theorem index_getLast {p : List SVal} {s : ℕ} {b : List EventLabel}
    (hb : (process next key).Segment p s b) {l : EventLabel} (hl : b.getLast? = some l) :
    l.pos.index + 1 = s + b.length := by
  rw [List.getLast?_eq_getElem?] at hl
  have hlen := (List.getElem?_eq_some_iff.1 hl).1
  rw [pos_of_at (hb.at_index _ l hl)]
  show s + (b.length - 1) + 1 = s + b.length
  omega

/-- The labels of a bucket are before what comes after it. -/
theorem getLast?_index_lt {p : List SVal} {s : ℕ} {b : List EventLabel}
    (hseg : (process next key).Segment p s b) {i : ℕ} (hi : s + b.length ≤ i) :
    b.getLast?.all (·.pos.index < i) = true := by
  cases hlast : b.getLast? with
  | none => rfl
  | some l =>
    have hindex := index_getLast hseg hlast
    rw [Option.all_some, decide_eq_true_eq]
    omega

/-- **The loop never fails and keeps the buckets sound.**  It copies the rest of a run, from the end
of the bucket of `seenVals` on.  The values of the run that are not seen are not in the trie. -/
theorem cacheLoop_eq {val : EventLabel → SVal} {ls : List EventLabel}
    (h : (process next key).Follows val ls) {vals : List SVal}
    (hvals : ∀ i < ls.length, ∃ vs, vals = (process next key).values val (ls.take i) ++ vs)
    {rest : List EventLabel} : ∀ {i : ℕ} {t : Trie SVal (List EventLabel)} {seenVals : List SVal}
      {s : ℕ} {b : List EventLabel}, ls.drop i = rest → i = s + b.length →
      SoundTrie (process next key) Good t → t.lookup seenVals = some b →
      (process next key).Segment seenVals s b →
      (process next key).values val (ls.take s) = seenVals →
      (seenVals.length < vals.length → t.lookup (vals.take (seenVals.length + 1)) = none) →
      (∀ l ∈ rest, Good l.clone.reset) →
        ∃ t', cacheLoop vals t seenVals (rest.map (·.clone.reset)) = some t' ∧
          SoundTrie (process next key) Good t' ∧ Grows t t' ∧
            ∀ j, i ≤ j → j < ls.length →
              HasLabel t' ((process next key).values val (ls.take j)) j := by
  induction rest with
  | nil =>
    intro i t seenVals s b hdrop _ ht _ _ _ _ _
    exact ⟨t, rfl, ht, Grows.refl t, fun j hij hj =>
      absurd (List.drop_eq_nil_iff.1 hdrop) (by omega)⟩
  | cons l rest ih =>
    intro i t seenVals s b hdrop hi ht hb hseg hp hnew hgood
    have hil : ls[i]? = some l := by
      rw [← List.head?_drop, hdrop, List.head?_cons]
    have hlen : i < ls.length := (List.getElem?_eq_some_iff.1 hil).1
    have hdrop' : ls.drop (i + 1) = rest := by
      rw [← List.tail_drop, hdrop, List.tail_cons]
    have hat := at_reset (h i l hil)
    have hpos : l.clone.reset.pos.index = i := by rw [pos_of_at hat]
    have hguard : b.getLast?.all (·.pos.index < l.clone.reset.pos.index) = true := by
      rw [hpos]
      exact getLast?_index_lt hseg hi.ge
    -- one label more
    have step : ∀ {t2 : Trie SVal (List EventLabel)} {res : Option (Trie SVal (List EventLabel))},
        Grows t t2 → HasLabel t2 ((process next key).values val (ls.take i)) i →
        (∃ t', res = some t' ∧ SoundTrie (process next key) Good t' ∧ Grows t2 t' ∧
          ∀ j, i + 1 ≤ j → j < ls.length →
            HasLabel t' ((process next key).values val (ls.take j)) j) →
        ∃ t', res = some t' ∧ SoundTrie (process next key) Good t' ∧ Grows t t' ∧
          ∀ j, i ≤ j → j < ls.length →
            HasLabel t' ((process next key).values val (ls.take j)) j := by
      rintro t2 res hgrows hhas ⟨t', hres, hsound, hgrows', hall⟩
      refine ⟨t', hres, hsound, hgrows.trans hgrows', fun j hij hj => ?_⟩
      rcases Nat.eq_or_lt_of_le hij with rfl | hlt
      · exact hhas.of_grows hgrows'
      · exact hall j hlt hj
    rw [List.map_cons, cacheLoop, hb]
    simp only [Option.bind_eq_bind, Option.bind_some]
    rw [if_pos hguard]
    by_cases hret : b.getLast?.any (·.returnsValue) = true
    · -- the value that the last label of the bucket returned leads to a new bucket
      obtain ⟨k, hk, hkret⟩ := (Option.any_eq_true _ _).1 hret
      obtain ⟨v, hv⟩ := hseg.values_eq_concat h hp (by omega) hk hkret
      rw [← hi] at hv
      obtain ⟨vs, hvs⟩ := hvals i hlen
      rw [hv] at hvs
      have hval : vals[seenVals.length]? = some v := by
        rw [hvs, List.append_assoc, List.getElem?_append_right (Nat.le_refl _), Nat.sub_self]
        rfl
      have htake : vals.take (seenVals.length + 1) = seenVals ++ [v] := by
        rw [List.take_add_one, hval, hvs, List.append_assoc, List.take_left]
        rfl
      have hnone : t.lookup (seenVals ++ [v]) = none := by
        rw [← htake]
        exact hnew (List.getElem?_eq_some_iff.1 hval).1
      obtain ⟨t1, hadd, hflat1, hlookup2⟩ := lookup_addSeq_modify ht.flat hb hnone l.clone.reset
      have hstart : (process next key).Starts (seenVals ++ [v]) i := by
        rw [hi]
        exact hseg.starts_concat hk hkret v
      have hat' := hat
      rw [hv] at hat'
      have hseg2 : (process next key).Segment (seenVals ++ [v]) i [l.clone.reset] :=
        (Process.Segment.nil hstart).concat (fun _ hl => by simp at hl) hat'
      have hgrows : Grows t (t1.modify (seenVals ++ [v]) (· ++ [l.clone.reset])) :=
        .of_lookup hlookup2 fun c hc => by
          rw [hnone] at hc
          cases hc
      have hhas : HasLabel (t1.modify (seenVals ++ [v]) (· ++ [l.clone.reset]))
          ((process next key).values val (ls.take i)) i := by
        rw [hv]
        exact hpos ▸ .of_lookup ((hlookup2 _).trans (if_pos rfl)) List.mem_cons_self
      rw [if_pos hret, hval, Option.bind_some, hadd, Option.bind_some]
      refine step hgrows hhas (ih hdrop' rfl
        (ht.of_lookup (Trie.modify_eq hflat1 _ _).1 hlookup2 hseg2 ?_) ?_ hseg2 hv ?_
        (fun k hk => hgood k (List.mem_cons_of_mem _ hk)))
      · intro k hk
        rw [List.mem_singleton.1 hk]
        exact hgood l (List.mem_cons_self ..)
      · rw [hlookup2, if_pos rfl]
      · intro hlt
        have hlong : vals.take ((seenVals ++ [v]).length + 1) = seenVals ++ [v] ++ vs.take 1 := by
          rw [hvs, List.take_length_add_append]
        have hvs1 : (vs.take 1).length = 1 := by
          rw [hvs, (List.length_append : (seenVals ++ [v] ++ vs).length = _)] at hlt
          rw [List.length_take]
          omega
        rw [hlookup2, hlong, if_neg ?_]
        · by_contra hsome
          have := Trie.isSome_lookup_of_append ht.flat (Option.isSome_iff_ne_none.2 hsome)
          rw [hnone] at this
          exact Bool.noConfusion this
        · intro heq
          have := congrArg List.length heq
          rw [List.length_append, hvs1] at this
          omega
    · -- the label goes into the same bucket
      have hno : ∀ k, b.getLast? = some k → k.returnsValue = false := by
        intro k hk
        rw [hk, Option.any_some] at hret
        simpa using hret
      have hv : (process next key).values val (ls.take i) = seenVals := by
        rw [hi]
        refine hseg.values_eq h hp (by omega) (fun j k hj hk => ?_) (Nat.le_refl _)
        by_cases hend : j + 1 < b.length
        · exact hseg.only_last j k hend hk
        · refine hno k ?_
          rw [List.getLast?_eq_getElem?, ← hk]
          congr 1
          omega
      have hat' := hat
      rw [hv, hi] at hat'
      have hseg2 := hseg.concat hno hat'
      have hlookup2 := lookup_modify ht.flat hb l.clone.reset
      have hgrows : Grows t (t.modify seenVals (· ++ [l.clone.reset])) :=
        .of_lookup hlookup2 fun c hc => by
          rw [hb] at hc
          cases hc
          exact ⟨[l.clone.reset], rfl⟩
      have hhas : HasLabel (t.modify seenVals (· ++ [l.clone.reset]))
          ((process next key).values val (ls.take i)) i := by
        rw [hv]
        exact hpos ▸ .of_lookup ((hlookup2 _).trans (if_pos rfl))
          (List.mem_append_right b List.mem_cons_self)
      rw [if_neg hret]
      refine step hgrows hhas (ih hdrop' ?_
        (ht.of_lookup (Trie.modify_eq ht.flat _ _).1 hlookup2 hseg2 ?_) ?_ hseg2 hp ?_
        (fun k hk => hgood k (List.mem_cons_of_mem _ hk)))
      · rw [List.length_append, List.length_singleton, hi, Nat.add_assoc]
      · intro k hk
        rcases List.mem_append.1 hk with hk | hk
        · exact ht.good seenVals b hb k hk
        · rw [List.mem_singleton.1 hk]
          exact hgood l (List.mem_cons_self ..)
      · rw [hlookup2, if_pos rfl]
      · intro hlt
        rw [hlookup2, if_neg ?_]
        · exact hnew hlt
        · intro heq
          have := congrArg List.length heq
          rw [List.length_take] at this
          omega

end Tries

/-! ## One call -/

theorem mapM_range'_eq {α : Type} {f : ℕ → Option α} : ∀ {ls : List α} {a : ℕ},
    (∀ j l, ls[j]? = some l → f (a + j) = some l) → (List.range' a ls.length).mapM f = some ls
  | [], _, _ => rfl
  | l :: ls, a, h => by
    have h0 : f a = some l := h 0 l rfl
    have hls : (List.range' (a + 1) ls.length).mapM f = some ls :=
      mapM_range'_eq fun j k hk => by
        rw [Nat.add_assoc, Nat.add_comm 1 j]
        exact h (j + 1) k hk
    rw [List.length_cons, List.range'_succ, List.mapM_cons, h0, hls]
    rfl

theorem extractValPrefix_eq {g : ExecutionGraph} {pos : Event}
    (h : pos.index ≤ g.getThreadSize pos.thread) :
    extractValPrefix env g pos =
      some (valuesOf env g ((g.events.getD pos.thread []).take pos.index),
        (((g.events.getD pos.thread []).take pos.index).filter (·.returnsValue)).map (·.pos)) := by
  have hlen : ((g.events.getD pos.thread []).take pos.index).length = pos.index := by
    rw [List.length_take]
    exact Nat.min_eq_left h
  have hmap : (List.range' 0 ((g.events.getD pos.thread []).take pos.index).length).mapM
      (fun i => g.getEventLabel ⟨pos.thread, i⟩) =
        some ((g.events.getD pos.thread []).take pos.index) :=
    mapM_range'_eq fun j l hl => by
      have hj := (List.getElem?_eq_some_iff.1 hl).1
      rw [hlen] at hj
      rw [List.getElem?_take_of_lt hj] at hl
      rw [Nat.zero_add]
      exact hl
  rw [hlen, ← List.range_eq_range'] at hmap
  rw [extractValPrefix, hmap]
  rfl

section Call

variable {env} {g : ExecutionGraph} {lab : EventLabel}

theorem length_threadUpTo (h : lab.pos.index ≤ g.getThreadSize lab.pos.thread) :
    (threadUpTo g lab).length = lab.pos.index + 1 := by
  rw [threadUpTo, List.length_append, List.length_singleton, List.length_take]
  exact congrArg (· + 1) (Nat.min_eq_left h)

/-- The labels of the thread that are in the graph. -/
theorem getElem?_threadUpTo (h : lab.pos.index ≤ g.getThreadSize lab.pos.thread) {j : ℕ}
    (hj : j < lab.pos.index) :
    (threadUpTo g lab)[j]? = g.getEventLabel ⟨lab.pos.thread, j⟩ := by
  rw [threadUpTo, List.getElem?_append_left, List.getElem?_take_of_lt hj]
  · rfl
  · rw [List.length_take]
    exact lt_min hj (lt_of_lt_of_le hj h)

theorem getElem?_threadUpTo_index (h : lab.pos.index ≤ g.getThreadSize lab.pos.thread) :
    (threadUpTo g lab)[lab.pos.index]? = some lab := by
  have hlen : ((g.events.getD lab.pos.thread []).take lab.pos.index).length = lab.pos.index := by
    rw [List.length_take]
    exact Nat.min_eq_left h
  rw [threadUpTo, List.getElem?_append_right (le_of_eq hlen), hlen, Nat.sub_self]
  rfl

/-- The begin of the thread is found, be it in the graph or the label itself. -/
theorem Extends.firstLab (h : Extends env issue g lab) :
    firstLabelOf g lab = some ((threadUpTo g lab).headD default) := by
  rw [firstLabelOf]
  obtain ⟨-, hstart, -⟩ := h.issues _ lab (getElem?_threadUpTo_index h.index_le)
  by_cases hlab : lab.isThreadStart = true
  · rw [if_pos hlab, threadUpTo, hstart.1 hlab, List.take_zero]
    rfl
  · have hpos : 0 < lab.pos.index := Nat.pos_of_ne_zero fun h0 => hlab (hstart.2 h0)
    have hget := getElem?_threadUpTo h.index_le hpos
    cases hl : threadUpTo g lab with
    | nil =>
      have := length_threadUpTo h.index_le
      rw [hl] at this
      exact absurd this (by simp)
    | cons l ls =>
      rw [hl] at hget
      obtain ⟨-, hbegin, -⟩ := h.issues 0 l (by rw [hl]; rfl)
      rw [if_neg hlab, getFirstThreadLabel, ← hget]
      exact Option.filter_some_pos (hbegin.2 rfl)

/-- What is copied from some index on. -/
theorem copyLabels_eq (h : lab.pos.index ≤ g.getThreadSize lab.pos.thread) (i : ℕ) :
    copyLabels g lab i = some (((threadUpTo g lab).drop i).map (·.clone.reset)) := by
  have hlen : (((threadUpTo g lab).drop i).map (·.clone.reset)).length =
      lab.pos.index + 1 - i := by
    rw [List.length_map, List.length_drop, length_threadUpTo h]
  rw [copyLabels, ← hlen]
  refine mapM_range'_eq fun j l hl => ?_
  rw [List.getElem?_map, List.getElem?_drop] at hl
  obtain ⟨k, hk, rfl⟩ := Option.map_eq_some_iff.1 hl
  by_cases hij : i + j = lab.pos.index
  · rw [hij, getElem?_threadUpTo_index h] at hk
    rw [if_pos hij, ← Option.some.inj hk]
  · have hlt : i + j < lab.pos.index := by
      have := (List.getElem?_eq_some_iff.1 hk).1
      rw [length_threadUpTo h] at this
      omega
    rw [if_neg hij, ← getElem?_threadUpTo h hlt, hk]
    rfl

/-- A label that has been cached is not past the end of its bucket. -/
theorem lt_of_mem_segment {p : List SVal} {s : ℕ} {b : List EventLabel}
    (hb : (process next key).Segment p s b) {l : EventLabel} (hl : l ∈ b) :
    l.pos.index < s + b.length := by
  obtain ⟨j, hj, rfl⟩ := List.mem_iff_getElem.1 hl
  rw [pos_of_at (hb.at_index j _ (List.getElem?_eq_getElem hj))]
  exact Nat.add_lt_add_left hj s

/-- Where the labels of the longest known prefix end, in the thread and in the cache. -/
theorem fromIdx_eq {val : EventLabel → SVal} {ls : List EventLabel}
    (h : (process next key).Follows val ls) {r s : ℕ} {b : List EventLabel}
    (hr : r ≤ ((process next key).values val ls).length)
    (hb : (process next key).Segment (((process next key).values val ls).take r) s b) :
    fromIdx r ((ls.filter (·.returnsValue)).map (·.pos)) b = some (s + b.length) ∧
      (process next key).values val (ls.take s) = ((process next key).values val ls).take r ∧
      s ≤ ls.length := by
  have hstart : prefixEnd ((ls.filter (·.returnsValue)).map (·.pos)) r = some s ∧
      (process next key).values val (ls.take s) = ((process next key).values val ls).take r ∧
      s ≤ ls.length := by
    cases r with
    | zero =>
      obtain rfl : 0 = s := Process.Starts.unique .nil hb.start
      exact ⟨rfl, rfl, Nat.zero_le _⟩
    | succ n =>
      rw [Process.values, List.length_map] at hr
      have hget := List.getElem?_eq_getElem (Nat.lt_of_succ_le hr)
      obtain ⟨k, hk, hvalues, hk'⟩ := h.starts_take hget
      obtain rfl : k + 1 = s := hk'.unique hb.start
      refine ⟨?_, hvalues, (List.getElem?_eq_some_iff.1 hk).1⟩
      show Option.map _ ((List.map _ (List.filter (process next key).returns ls))[n]?) = _
      rw [List.getElem?_map, hget, Option.map_some, Option.map_some, pos_of_at (h k _ hk)]
  refine ⟨?_, hstart.2⟩
  rw [fromIdx, hstart.1, Option.map_some]
  cases hlast : b.getLast? with
  | none =>
    rw [List.getLast?_eq_none_iff.1 hlast]
    rfl
  | some l =>
    have := index_getLast hb hlast
    show some (max (l.pos.index + 1) s) = some (s + b.length)
    rw [this, max_eq_left (Nat.le_add_right s b.length)]

/-- What comes after the bucket of the longest known prefix has not been cached. -/
theorem not_cached {val : EventLabel → SVal} {ls : List EventLabel} {c : SeenPrefixes}
    (hflat : (c key).Flat) {r s : ℕ} {b : List EventLabel}
    (hlookup : (c key).lookup (((process next key).values val ls).take r) = some b)
    (hnone : r < ((process next key).values val ls).length →
      (c key).lookup (((process next key).values val ls).take (r + 1)) = none)
    (hb : (process next key).Segment (((process next key).values val ls).take r) s b)
    (hvalues : (process next key).values val (ls.take s) =
      ((process next key).values val ls).take r) {j : ℕ} (hj : s + b.length ≤ j) :
    ¬ HasLabel (c key) ((process next key).values val (ls.take j)) j := by
  rintro ⟨b', hb', l, hl, hlj⟩
  obtain ⟨vs, hvs⟩ := Process.values_take_append (process next key) val ls
    (le_trans (Nat.le_add_right s b.length) hj)
  obtain ⟨us, hus⟩ : ∃ us, (process next key).values val ls =
      (process next key).values val (ls.take j) ++ us := by
    by_cases hlen : j ≤ ls.length
    · obtain ⟨us, hus⟩ := Process.values_take_append (process next key) val ls hlen
      rw [List.take_length] at hus
      exact ⟨us, hus⟩
    · exact ⟨[], by rw [List.take_of_length_le (by omega), List.append_nil]⟩
  rw [hvalues] at hvs
  cases vs with
  | nil =>
    -- still the same values, but past the bucket
    rw [List.append_nil] at hvs
    rw [hvs, hlookup] at hb'
    cases hb'
    have := lt_of_mem_segment hb hl
    omega
  | cons v vs =>
    -- more values than are known
    generalize hall : (process next key).values val ls = all at hvs hus hnone hlookup
    have hr : r < all.length ∧ (all.take r).length = r := by
      have := congrArg List.length hus
      rw [hvs, List.length_append, List.length_append, List.length_cons, List.length_take] at this
      rw [List.length_take]
      omega
    have htake : all.take (r + 1) = all.take r ++ [v] := by
      rw [List.take_add_one]
      congr 1
      rw [hus, hvs, List.append_assoc, List.getElem?_append_right (by omega), hr.2, Nat.sub_self]
      rfl
    have hsome : ((c key).lookup (all.take (r + 1) ++ vs)).isSome := by
      rw [htake, List.append_assoc, List.singleton_append, ← hvs, hb']
      rfl
    have := Trie.isSome_lookup_of_append hflat hsome
    rw [hnone hr.1] at this
    exact Bool.noConfusion this

/-- The labels of a call are fixed by the values returned to the thread. -/
def CallFixed (env : CacheEnv) (issue : Program) (next : ValueProgram) (g : ExecutionGraph)
    (lab : EventLabel) : Prop :=
  FixedByValues env issue next g lab.pos.thread (threadUpTo g lab) lab.pos.index

/-- The thread of a call follows the process. -/
theorem Extends.follows (h : Extends env issue g lab) (hfix : CallFixed env issue next g lab)
    (hkey : cacheKey env (threadUpTo g lab) lab.pos.thread = key) :
    (process next key).Follows (env.getReturnValue g) (threadUpTo g lab) :=
  h.issues.follows hfix (length_threadUpTo h.index_le).le hkey

theorem threadUpTo_take (h : lab.pos.index ≤ g.getThreadSize lab.pos.thread) :
    (threadUpTo g lab).take lab.pos.index =
      (g.events.getD lab.pos.thread []).take lab.pos.index := by
  have hlen : ((g.events.getD lab.pos.thread []).take lab.pos.index).length = lab.pos.index := by
    rw [List.length_take]
    exact Nat.min_eq_left h
  rw [threadUpTo, List.take_append_of_le_length (le_of_eq hlen.symm), List.take_take, Nat.min_self]

/-- **A call of `cacheEventLabel` never fails and keeps the cache sound.**  What it copies has not
been cached before. -/
theorem cacheEventLabel_eq {c : SeenPrefixes} {Good : EventLabel → Prop}
    (h : Extends env issue g lab) (hfix : CallFixed env issue next g lab)
    (hkey : cacheKey env (threadUpTo g lab) lab.pos.thread = key)
    (hc : SoundTrie (process next key) Good (c key))
    (hgood : ∀ j l, (threadUpTo g lab)[j]? = some l →
      ¬ HasLabel (c key) ((process next key).values (env.getReturnValue g)
        ((threadUpTo g lab).take j)) j → Good l.clone.reset) :
    ∃ t, cacheEventLabel env g lab c = some (Function.update c key t) ∧
      SoundTrie (process next key) Good t ∧ Grows (c key) t ∧
        HasLabel t ((process next key).values (env.getReturnValue g)
          ((threadUpTo g lab).take lab.pos.index)) lab.pos.index := by
  have hfollows := h.follows hfix hkey
  have hbefore := hfollows.take lab.pos.index
  have hextract : extractValPrefix env g lab.pos =
      some ((process next key).values (env.getReturnValue g)
          ((g.events.getD lab.pos.thread []).take lab.pos.index),
        (((g.events.getD lab.pos.thread []).take lab.pos.index).filter (·.returnsValue)).map
          (·.pos)) := extractValPrefix_eq env h.index_le
  rw [← threadUpTo_take h.index_le] at hextract
  have hlen := length_threadUpTo h.index_le
  rw [cacheEventLabel, h.firstLab]
  simp only [Option.bind_eq_bind, Option.bind_some, hextract]
  have hkey' : (env.funId ((threadUpTo g lab).headD default), lab.pos.thread) = key := hkey
  rw [hkey']
  -- the longest known prefix of the values, and its bucket
  obtain ⟨r, hr, hrlen, hrsome, hrnone⟩ := Trie.findLongestCommonPrefix_eq hc.flat
    ((process next key).values (env.getReturnValue g) ((threadUpTo g lab).take lab.pos.index))
  obtain ⟨b, hb⟩ := Option.isSome_iff_exists.1 hrsome
  obtain ⟨s, hseg⟩ := hc.segment _ b hb
  obtain ⟨hfrom, hvalues, hs⟩ := fromIdx_eq hbefore hrlen hseg
  rw [hr, Option.bind_some, hb, Option.bind_some]
  have hsle : s ≤ lab.pos.index := by
    rw [List.length_take] at hs
    omega
  split_ifs with hdone
  · -- the bucket goes on to the label, and the values stay the same up to there
    obtain ⟨l, hl, hlindex⟩ := (Option.any_eq_true _ _).1 hdone
    rw [decide_eq_true_eq] at hlindex
    have hindex := index_getLast hseg hl
    have hj : s + (lab.pos.index - s) = lab.pos.index := Nat.add_sub_cancel' hsle
    have hsame := hseg.values_eq (j := lab.pos.index - s) hbefore hvalues
      (by rw [hj, List.length_take]; omega)
      (fun i k hi hk => hseg.only_last i k (by omega) hk) (by omega)
    rw [hj, List.take_take, Nat.min_self] at hsame
    have hget : b[lab.pos.index - s]? = some b[lab.pos.index - s] :=
      List.getElem?_eq_getElem (by omega)
    refine ⟨c key, by rw [Function.update_eq_self], hc, Grows.refl _, b, ?_, _,
      List.mem_of_getElem? hget, ?_⟩
    · rw [hsame]
      exact hb
    · rw [pos_of_at (hseg.at_index _ _ hget)]
      exact hj
  · have hend : s + b.length ≤ lab.pos.index := by
      cases hlast : b.getLast? with
      | none =>
        rw [List.getLast?_eq_none_iff.1 hlast]
        exact hsle
      | some l =>
        have hindex := index_getLast hseg hlast
        rw [hlast, Option.any_some, decide_eq_true_eq] at hdone
        omega
    have hvals : ∀ i < (threadUpTo g lab).length, ∃ vs,
        (process next key).values (env.getReturnValue g) ((threadUpTo g lab).take lab.pos.index) =
          (process next key).values (env.getReturnValue g) ((threadUpTo g lab).take i) ++ vs :=
      fun i hi => Process.values_take_append _ _ _ (by omega)
    have hvalues' : (process next key).values (env.getReturnValue g) ((threadUpTo g lab).take s) =
        ((process next key).values (env.getReturnValue g)
          ((threadUpTo g lab).take lab.pos.index)).take r := by
      rw [← hvalues, List.take_take, Nat.min_eq_left hsle]
    obtain ⟨t, ht, hsound, hgrows, hall⟩ := cacheLoop_eq hfollows hvals rfl rfl hc hb hseg
      hvalues'
      (fun hlt => by
        have hrl : (List.take r ((process next key).values (env.getReturnValue g)
            ((threadUpTo g lab).take lab.pos.index))).length = r := by
          rw [List.length_take]
          exact Nat.min_eq_left hrlen
        rw [hrl] at hlt ⊢
        exact hrnone hlt)
      (fun l hl => by
        obtain ⟨j, hj⟩ := List.mem_iff_getElem?.1 hl
        rw [List.getElem?_drop] at hj
        refine hgood _ l hj ?_
        have hlt := (List.getElem?_eq_some_iff.1 hj).1
        have hnot := not_cached hc.flat hb hrnone hseg hvalues
          (Nat.le_add_right (s + b.length) j)
        rwa [List.take_take, Nat.min_eq_left (by omega)] at hnot)
    have hfrom' : fromIdx r (List.map (·.pos) (List.filter (·.returnsValue)
        ((threadUpTo g lab).take lab.pos.index))) b = some (s + b.length) := hfrom
    rw [hfrom', Option.bind_some, copyLabels_eq h.index_le, Option.bind_some, ht,
      Option.bind_some]
    exact ⟨t, rfl, hsound, hgrows, hall _ hend (by omega)⟩

end Call

/-! ## Retrieving -/

section Retrieve

variable {env} {g : ExecutionGraph} {thread n : ℕ}

theorem RunsUntil.getFirstThreadLabel (h : RunsUntil env issue g thread n) :
    g.getFirstThreadLabel thread = some ((g.events.getD thread []).headD default) := by
  cases hl : g.events.getD thread [] with
  | nil =>
    have := h.le_size
    rw [getThreadSize, hl, List.length_nil] at this
    exact absurd h.pos (by omega)
  | cons l ls =>
    have hget : (((g.events.getD thread []).take n)[0]?) = some l := by
      rw [List.getElem?_take_of_lt h.pos, hl]
      rfl
    obtain ⟨-, hbegin, -⟩ := h.issues 0 l hget
    rw [ExecutionGraph.getFirstThreadLabel, getEventLabel, hl]
    exact Option.filter_some_pos (hbegin.2 rfl)

/-- The bucket of the values of the thread is retrieved, if it has the next label. -/
theorem retrieveFromCache_eq_filter (h : RunsUntil env issue g thread n)
    (hnext : findNextLabelToAdd g thread = some ⟨thread, n⟩) (c : SeenPrefixes) :
    retrieveFromCache env g thread c =
      ((c (cacheKey env (g.events.getD thread []) thread)).lookup
        (valuesOf env g ((g.events.getD thread []).take n))).bind fun b =>
          if b.getLast?.any (n ≤ ·.pos.index) then some b else none := by
  have hextract : extractValPrefix env g ⟨thread, n⟩ = _ := extractValPrefix_eq env h.le_size
  rw [retrieveFromCache, h.getFirstThreadLabel]
  simp only [Option.bind_eq_bind, Option.bind_some, hnext, hextract]
  rfl

/-- The labels of a segment from some index on. -/
theorem filter_segment {p : List SVal} {s : ℕ} {b : List EventLabel}
    (hb : (process next key).Segment p s b) (hs : s ≤ n) :
    b.filter (n ≤ ·.pos.index) = b.drop (n - s) := by
  have htake : (b.take (n - s)).filter (n ≤ ·.pos.index) = [] := by
    rw [List.filter_eq_nil_iff]
    intro l hl
    obtain ⟨j, hj⟩ := List.mem_iff_getElem?.1 hl
    have hlt := (List.getElem?_eq_some_iff.1 hj).1
    rw [List.length_take] at hlt
    rw [List.getElem?_take_of_lt (by omega)] at hj
    rw [pos_of_at (hb.at_index j l hj), decide_eq_true_eq]
    show ¬ n ≤ s + j
    omega
  have hdrop : (b.drop (n - s)).filter (n ≤ ·.pos.index) = b.drop (n - s) := by
    rw [List.filter_eq_self]
    intro l hl
    obtain ⟨j, hj⟩ := List.mem_iff_getElem?.1 hl
    rw [List.getElem?_drop] at hj
    rw [pos_of_at (hb.at_index _ l hj), decide_eq_true_eq]
    show n ≤ s + (n - s + j)
    omega
  calc b.filter (n ≤ ·.pos.index)
      = (b.take (n - s) ++ b.drop (n - s)).filter (n ≤ ·.pos.index) := by
        rw [List.take_append_drop]
    _ = b.drop (n - s) := by rw [List.filter_append, htake, hdrop, List.nil_append]

/-- The label is as its thread issued it, unless it is a begin, and apart from a child. -/
def AsIssued (l : EventLabel) : Prop := l.pos.index ≠ 0 → l.asIssued = l.unassigned

/-- What a thread issues is fixed by the values returned to it, up to index `n`. -/
def ThreadFixed (env : CacheEnv) (issue : Program) (next : ValueProgram) (g : ExecutionGraph)
    (thread n : ℕ) : Prop :=
  FixedByValues env issue next g thread ((g.events.getD thread []).take n) n

theorem cacheKey_take {labs : List EventLabel} (hn : 0 < n) :
    cacheKey env (labs.take n) thread = cacheKey env labs thread := by
  cases labs with
  | nil => rw [List.take_nil]
  | cons l labs =>
    obtain ⟨m, rfl⟩ : ∃ m, n = m + 1 := ⟨n - 1, by omega⟩
    rfl

/-- The labels of the thread follow the process. -/
theorem RunsUntil.follows (h : RunsUntil env issue g thread n)
    (hfix : ThreadFixed env issue next g thread n)
    (hkey : cacheKey env (g.events.getD thread []) thread = key) :
    (process next key).Follows (env.getReturnValue g) ((g.events.getD thread []).take n) :=
  h.issues.follows hfix (by rw [List.length_take]; omega) ((cacheKey_take h.pos).trans hkey)

/-- What a thread issues next. -/
theorem issuedAt_eq (h : RunsUntil env issue g thread n)
    (hfix : ThreadFixed env issue next g thread n)
    (hkey : cacheKey env (g.events.getD thread []) thread = key) :
    issuedAt env issue g thread ((g.events.getD thread []).take n) n =
      next key (valuesOf env g ((g.events.getD thread []).take n)) n := by
  rw [hfix n (Nat.pos_iff_ne_zero.1 h.pos) le_rfl, cacheKey_take h.pos, hkey, List.take_take,
    Nat.min_self]

/-- **What is retrieved are the labels that the thread issues next**, apart from the children of
creations: those from the next label on, however far the thread has got by then. -/
theorem retrieveFromCache_eq {c : SeenPrefixes} (h : RunsUntil env issue g thread n)
    (hfix : ThreadFixed env issue next g thread n)
    (hkey : cacheKey env (g.events.getD thread []) thread = key)
    (hnext : findNextLabelToAdd g thread = some ⟨thread, n⟩)
    (hc : SoundTrie (process next key) AsIssued (c key)) {b : List EventLabel}
    (hb : retrieveFromCache env g thread c = some b) :
    ∃ k, 0 < k ∧ (b.filter (n ≤ ·.pos.index)).length = k ∧
      ∀ g' m, Later env issue g g' thread n m → ThreadFixed env issue next g' thread m →
        m < n + k → issuedAt env issue g' thread ((g'.events.getD thread []).take m) m =
          ((b.filter (n ≤ ·.pos.index))[m - n]?).map (·.unassigned) := by
  have hfollows := h.follows hfix hkey
  rw [retrieveFromCache_eq_filter h hnext c, hkey] at hb
  obtain ⟨b', hlookup, hif⟩ := Option.bind_eq_some_iff.1 hb
  split_ifs at hif with hlast
  cases hif
  obtain ⟨s, hseg⟩ := hc.segment _ b hlookup
  -- the bucket starts where the values of the thread end
  obtain ⟨s', hs', hstart, -⟩ := hfollows.exists_starts
  obtain rfl : s' = s := Process.Starts.unique hstart hseg.start
  have hsn : s' ≤ n := by
    rw [List.length_take] at hs'
    omega
  obtain ⟨l, hl, hln⟩ := (Option.any_eq_true _ _).1 hlast
  rw [decide_eq_true_eq] at hln
  have hindex := index_getLast hseg hl
  rw [filter_segment hseg hsn]
  refine ⟨s' + b.length - n, by omega, by rw [List.length_drop]; omega,
    fun g' m hlater hfix' hm => ?_⟩
  -- a later graph of the execution gets on with the same values
  have hkey' : cacheKey env (g'.events.getD thread []) thread = key := by
    rw [← hkey, ← cacheKey_take h.pos, hlater.labels, cacheKey_take h.pos]
  have hfollows' := hlater.runs.follows hfix' hkey'
  have hlen : ((g'.events.getD thread []).take m).length = m := by
    rw [List.length_take]
    exact Nat.min_eq_left hlater.runs.le_size
  have hle := hlater.le
  have hvalues : (process next key).values (env.getReturnValue g')
      (((g'.events.getD thread []).take m).take n) =
        valuesOf env g ((g.events.getD thread []).take n) := by
    rw [List.take_take, Nat.min_eq_left hle, hlater.labels]
    exact hlater.values
  have hsame : valuesOf env g' ((g'.events.getD thread []).take m) =
      valuesOf env g ((g.events.getD thread []).take n) := by
    have hmn : s' + (m - s') = m := by omega
    have hp : (process next key).values (env.getReturnValue g')
        (((g'.events.getD thread []).take m).take s') =
          valuesOf env g ((g.events.getD thread []).take n) := by
      have hn := (hfollows'.take n).values_take_of_starts (s := s') (by rw [hvalues]; exact hstart)
      rw [hvalues, List.take_take, Nat.min_eq_left hsn] at hn
      exact hn
    have := hseg.values_eq (j := m - s') hfollows' hp (by rw [hmn, hlen])
      (fun i k hi hk => hseg.only_last i k (by omega) hk) (by omega)
    rw [hmn, List.take_take, Nat.min_self] at this
    exact this
  have hget : b[n - s' + (m - n)]? = some b[n - s' + (m - n)] :=
    List.getElem?_eq_getElem (by omega)
  have hat := hseg.at_index _ _ hget
  have hij : s' + (n - s' + (m - n)) = m := by omega
  rw [hij] at hat
  have hpos := h.pos
  have hissue := hat.2.2 (by omega)
  have hgood := hc.good _ b hlookup _ (List.mem_of_getElem? hget)
    (by rw [pos_of_at hat]; show m ≠ 0; omega)
  rw [issuedAt_eq hlater.runs hfix' hkey', hsame, hissue, List.getElem?_drop, hget, Option.map_some,
    hgood]

/-- A label that has been cached under the values of the thread is retrieved. -/
theorem retrieveFromCache_isSome {c : SeenPrefixes} {Good : EventLabel → Prop}
    (h : RunsUntil env issue g thread n)
    (hkey : cacheKey env (g.events.getD thread []) thread = key)
    (hnext : findNextLabelToAdd g thread = some ⟨thread, n⟩)
    (hc : SoundTrie (process next key) Good (c key))
    (hhas : HasLabel (c key) (valuesOf env g ((g.events.getD thread []).take n)) n) :
    (retrieveFromCache env g thread c).isSome := by
  obtain ⟨b, hb, l, hl, hln⟩ := hhas
  obtain ⟨s, hseg⟩ := hc.segment _ b hb
  have hlt := lt_of_mem_segment hseg hl
  rw [hln] at hlt
  rw [retrieveFromCache_eq_filter h hnext c, hkey, hb, Option.bind_some, if_pos]
  · rfl
  · cases hlast : b.getLast? with
    | none =>
      rw [List.getLast?_eq_none_iff.1 hlast] at hl
      exact absurd hl List.not_mem_nil
    | some k =>
      have hindex := index_getLast hseg hlast
      rw [Option.any_some, decide_eq_true_eq]
      omega

end Retrieve

/-! ## Runs -/

/-- The key of a call, the values of the thread before the label, and the index of the label. -/
def callOf (g : ExecutionGraph) (lab : EventLabel) : CacheKey × List SVal × ℕ :=
  (cacheKey env (threadUpTo g lab) lab.pos.thread,
    valuesOf env g ((threadUpTo g lab).take lab.pos.index), lab.pos.index)

/-- The states of the cache after the given calls, over any executions of the program.  Each call
meets `Ok`, which may depend on the cache. -/
inductive Run (issue : Program) (Ok : SeenPrefixes → ExecutionGraph → EventLabel → Prop) :
    List (CacheKey × List SVal × ℕ) → SeenPrefixes → Prop
  | empty : Run issue Ok [] .empty
  | cache {calls : List (CacheKey × List SVal × ℕ)} {c c' : SeenPrefixes} {g : ExecutionGraph}
      {lab : EventLabel} (run : Run issue Ok calls c) (ext : Extends env issue g lab)
      (ok : Ok c g lab) (step : cacheEventLabel env g lab c = some c') :
      Run issue Ok (callOf env g lab :: calls) c'

/-- No label that is not yet in the cache is an expanded optional block. -/
def NewUnexpanded (c : SeenPrefixes) (g : ExecutionGraph) (lab : EventLabel) : Prop :=
  ∀ j l, (threadUpTo g lab)[j]? = some l → j ≠ 0 →
    ¬ HasLabel (c (cacheKey env (threadUpTo g lab) lab.pos.thread))
      (valuesOf env g ((threadUpTo g lab).take j)) j → l.expanded = false

/-- A bucket has labels at consecutive indices, of which only the last may return a value. -/
def BucketOk (b : List EventLabel) : Prop :=
  (∃ t s : ℕ, ∀ (j : ℕ) (l : EventLabel), b[j]? = some l → l.pos = ⟨t, s + j⟩) ∧
    ∀ (j : ℕ) (l : EventLabel), j + 1 < b.length → b[j]? = some l → l.returnsValue = false

section Runs

variable {env} {calls : List (CacheKey × List SVal × ℕ)} {c : SeenPrefixes}

/-- **What a run preserves.**  All tries are sound, and what a call was about has been cached. -/
theorem Run.sound {Ok : SeenPrefixes → ExecutionGraph → EventLabel → Prop}
    {Good : EventLabel → Prop} (hrun : Run env issue Ok calls c)
    (hfix : ∀ c g lab, Ok c g lab → CallFixed env issue next g lab)
    (hgood : ∀ c g lab, Extends env issue g lab → Ok c g lab → ∀ j l,
      (threadUpTo g lab)[j]? = some l →
        ¬ HasLabel (c (cacheKey env (threadUpTo g lab) lab.pos.thread))
          (valuesOf env g ((threadUpTo g lab).take j)) j → Good l.clone.reset) :
    (∀ key, SoundTrie (process next key) Good (c key)) ∧
      ∀ call ∈ calls, HasLabel (c call.1) call.2.1 call.2.2 := by
  induction hrun with
  | empty => exact ⟨fun _ => soundTrie_empty, fun _ h => absurd h List.not_mem_nil⟩
  | @cache calls c c' g lab _ ext ok step ih =>
    obtain ⟨hsound, hcalls⟩ := ih
    obtain ⟨t, hcall, ht, hgrows, hhas⟩ :=
      cacheEventLabel_eq ext (hfix c g lab ok) rfl (hsound _) (hgood c g lab ext ok)
    rw [hcall] at step
    cases step
    refine ⟨fun key => ?_, fun call h => ?_⟩
    · by_cases hkey : key = cacheKey env (threadUpTo g lab) lab.pos.thread
      · rw [hkey, Function.update_self]
        exact ht
      · rw [Function.update_of_ne hkey]
        exact hsound key
    · rcases List.mem_cons.1 h with rfl | h
      · show HasLabel (Function.update c _ t _) _ _
        rw [callOf, Function.update_self]
        exact hhas
      · by_cases hkey : call.1 = cacheKey env (threadUpTo g lab) lab.pos.thread
        · have := hcalls call h
          rw [hkey] at this ⊢
          rw [Function.update_self]
          exact this.of_grows hgrows
        · rw [Function.update_of_ne hkey]
          exact hcalls call h

theorem Run.sound_true
    (hrun : Run env issue (fun _ g lab => CallFixed env issue next g lab) calls c)
    (key : CacheKey) : SoundTrie (process next key) (fun _ => True) (c key) :=
  (hrun.sound (fun _ _ _ h => h) fun _ _ _ _ _ _ _ _ _ => trivial).1 key

/-- **No check of `cacheEventLabel` ever fails.** -/
theorem cacheEventLabel_isSome
    (hrun : Run env issue (fun _ g lab => CallFixed env issue next g lab) calls c)
    {g : ExecutionGraph} {lab : EventLabel} (hext : Extends env issue g lab)
    (hfix : CallFixed env issue next g lab) : (cacheEventLabel env g lab c).isSome := by
  have hsound := hrun.sound_true
  obtain ⟨t, hcall, -⟩ := cacheEventLabel_eq hext hfix rfl (hsound _) fun _ _ _ _ => trivial
  rw [hcall]
  rfl

/-- **The labels in a bucket are consecutive, and only the last may return a value.** -/
theorem bucketOk_of_run
    (hrun : Run env issue (fun _ g lab => CallFixed env issue next g lab) calls c)
    {p : List SVal} {b : List EventLabel} (hb : (c key).lookup p = some b) : BucketOk b := by
  have hsound := hrun.sound_true
  obtain ⟨s, hseg⟩ := (hsound key).segment p b hb
  exact ⟨⟨key.2, s, fun j l hl => pos_of_at (hseg.at_index j l hl)⟩, hseg.only_last⟩

/-- What a call has to meet: its labels are fixed by the values returned to the thread, and no
expanded optional block is copied. -/
structure CacheOk (env : CacheEnv) (issue : Program) (next : ValueProgram) (c : SeenPrefixes)
    (g : ExecutionGraph) (lab : EventLabel) : Prop where
  fixed : CallFixed env issue next g lab
  unexpanded : NewUnexpanded env c g lab

/-- In runs that copy no expanded optional block, labels are cached as they were issued. -/
theorem Run.sound_asIssued (hrun : Run env issue (CacheOk env issue next) calls c) :
    (∀ key, SoundTrie (process next key) AsIssued (c key)) ∧
      ∀ call ∈ calls, HasLabel (c call.1) call.2.1 call.2.2 := by
  refine hrun.sound (fun _ _ _ h => h.fixed) fun c g lab hext hok j l hl hnew => fun hindex => ?_
  have hj : j ≠ 0 := by
    have := (hext.issues j l hl).1
    have hpos : l.pos.index = j := by rw [this]
    rw [← hpos]
    exact hindex
  have hexp := hok.unexpanded j l hl hj hnew
  show { l.clone.reset.unassigned with expanded := false } = l.clone.reset.unassigned
  rw [← hexp]
  rfl

end Runs

/-- **The cache is sound** when what threads issue is fixed by the values that labels return to
them, and no expanded optional block is copied.  In runs of the first kind, the checks of
`cacheEventLabel` hold and the buckets are as they should be.  In runs of both kinds, a bucket that
is retrieved has from the next label on what the thread issues next, however far it gets, and a
bucket is retrieved whenever the next label has been cached. -/
theorem labelCache_sound (issue : Program) (next : ValueProgram) :
    (∀ calls c, Run env issue (fun _ g lab => CallFixed env issue next g lab) calls c →
      (∀ g lab, Extends env issue g lab → CallFixed env issue next g lab →
        (cacheEventLabel env g lab c).isSome) ∧
        ∀ key p b, (c key).lookup p = some b → BucketOk b) ∧
    ∀ calls c, Run env issue (CacheOk env issue next) calls c →
      ∀ g thread n, RunsUntil env issue g thread n → ThreadFixed env issue next g thread n →
        findNextLabelToAdd g thread = some ⟨thread, n⟩ →
          ((cacheKey env (g.events.getD thread []) thread,
              valuesOf env g ((g.events.getD thread []).take n), n) ∈ calls →
            (retrieveFromCache env g thread c).isSome) ∧
          ∀ b, retrieveFromCache env g thread c = some b →
            ∃ k, 0 < k ∧ (b.filter (n ≤ ·.pos.index)).length = k ∧
              ∀ g' m, Later env issue g g' thread n m → ThreadFixed env issue next g' thread m →
                m < n + k → issuedAt env issue g' thread ((g'.events.getD thread []).take m) m =
                  ((b.filter (n ≤ ·.pos.index))[m - n]?).map (·.unassigned) := by
  refine ⟨fun calls c hrun => ⟨fun g lab hext hfix => cacheEventLabel_isSome hrun hext hfix,
    fun key p b hb => bucketOk_of_run hrun hb⟩, fun calls c hrun g thread n h hfix hnext => ?_⟩
  obtain ⟨hsound, hcalls⟩ := hrun.sound_asIssued
  exact ⟨fun hcall => retrieveFromCache_isSome h rfl hnext (hsound _) (hcalls _ hcall),
    fun b hb => retrieveFromCache_eq h hfix rfl hnext (hsound _) hb⟩

/-! ## An optional block, cached as it is issued and cached after it was expanded -/

/-- One function; reads return the value of the write they read from, optional blocks whether they
are expanded, and begins their argument, `0`. -/
def blockEnv : CacheEnv where
  funId _ := 0
  getReturnValue g lab :=
    if lab.isRead then ((lab.rf.bind g.getEventLabel).map (·.value)).getD 0
    else if lab.kind = .Optional then (if lab.expanded then 1 else 0) else 0
  unlabelled _ _ _ := []

def optionalLab : EventLabel := { kind := .Optional, pos := ⟨0, 1⟩ }

def bodyLab : EventLabel := { kind := .Fence, pos := ⟨0, 2⟩ }

/-- An optional block with a fence in it. -/
def blockProgram : Program := fun _ p _ _ n =>
  if n = 1 then some optionalLab else if n = 2 ∧ p = [0, 1] then some bodyLab else none

/-- It creates no threads. -/
def blockValues : ValueProgram := fun key p n => blockProgram key p [] [] n

theorem callFixed_block (g : ExecutionGraph) (lab : EventLabel) :
    CallFixed blockEnv blockProgram blockValues g lab := fun _ _ _ => rfl

theorem threadFixed_block (g : ExecutionGraph) (thread n : ℕ) :
    ThreadFixed blockEnv blockProgram blockValues g thread n := fun _ _ _ => rfl

theorem runsUntil_init : RunsUntil blockEnv blockProgram ExecutionGraph.init 0 1 := by
  refine ⟨by decide, by decide, fun j l hl => ?_⟩
  match j with
  | 0 =>
    cases hl
    exact ⟨rfl, by decide, fun h => absurd rfl h⟩
  | j + 1 => exact absurd hl (by simp [ExecutionGraph.init])

/-- The cache of a scheduler that first sees the thread when it issues the block. -/
def freshCache : SeenPrefixes :=
  (cacheEventLabel blockEnv ExecutionGraph.init optionalLab .empty).getD .empty

theorem threadUpTo_optionalLab : threadUpTo ExecutionGraph.init optionalLab =
    [{ initLabel with stamp := some 0 }, optionalLab] := rfl

theorem extends_optionalLab :
    Extends blockEnv blockProgram ExecutionGraph.init optionalLab := by
  refine ⟨by decide, ?_⟩
  rw [threadUpTo_optionalLab]
  intro j l hl
  match j with
  | 0 =>
    cases hl
    exact ⟨rfl, by decide, fun h => absurd rfl h⟩
  | 1 =>
    cases hl
    exact ⟨rfl, by decide, fun _ => rfl⟩
  | j + 2 => exact absurd hl (by simp)

theorem run_freshCache :
    Run blockEnv blockProgram (CacheOk blockEnv blockProgram blockValues)
      [callOf blockEnv ExecutionGraph.init optionalLab] freshCache := by
  obtain ⟨c, hc⟩ := Option.isSome_iff_exists.1
    (cacheEventLabel_isSome .empty extends_optionalLab (callFixed_block _ _))
  have hcache : freshCache = c := by rw [freshCache, hc, Option.getD_some]
  rw [hcache]
  refine .cache .empty extends_optionalLab ⟨callFixed_block _ _, fun j l hl _ _ => ?_⟩ hc
  rw [threadUpTo_optionalLab] at hl
  match j with
  | 0 =>
    cases hl
    rfl
  | 1 =>
    cases hl
    rfl
  | j + 2 => exact absurd hl (by simp)

/-- When the block is cached as it is issued, it is retrieved as it is issued. -/
theorem labelCache_sound_block :
    (retrieveFromCache blockEnv ExecutionGraph.init 0 freshCache).isSome ∧
      ∀ b, retrieveFromCache blockEnv ExecutionGraph.init 0 freshCache = some b →
        ((b.filter (1 ≤ ·.pos.index))[0]?).map (·.unassigned) = some optionalLab := by
  have h := (labelCache_sound blockEnv blockProgram blockValues).2 _ freshCache run_freshCache
    ExecutionGraph.init 0 1 runsUntil_init (threadFixed_block _ _ _) rfl
  refine ⟨h.1 (List.mem_singleton.2 rfl), fun b hb => ?_⟩
  obtain ⟨k, hk, -, hnext⟩ := h.2 b hb
  exact (hnext ExecutionGraph.init 1 ⟨runsUntil_init, le_rfl, rfl, rfl⟩ (threadFixed_block _ _ _)
    (by omega)).symm

/-- A graph in which the block has been expanded. -/
def expandedGraph : ExecutionGraph :=
  ExecutionGraph.init.addLabelToGraph { optionalLab with expanded := true }

/-- The cache of a scheduler that first sees the thread in this graph. -/
def blockCache : SeenPrefixes := (cacheEventLabel blockEnv expandedGraph bodyLab .empty).getD .empty

theorem threadUpTo_bodyLab : threadUpTo expandedGraph bodyLab =
    [{ initLabel with stamp := some 0 },
      { optionalLab with expanded := true, stamp := some 1 }, bodyLab] := rfl

theorem extends_bodyLab : Extends blockEnv blockProgram expandedGraph bodyLab := by
  refine ⟨by decide, ?_⟩
  rw [threadUpTo_bodyLab]
  intro j l hl
  match j with
  | 0 =>
    cases hl
    exact ⟨rfl, by decide, fun h => absurd rfl h⟩
  | 1 =>
    cases hl
    exact ⟨rfl, by decide, fun _ => rfl⟩
  | 2 =>
    cases hl
    exact ⟨rfl, by decide, fun _ => rfl⟩
  | j + 3 => exact absurd hl (by simp)

theorem run_blockCache :
    Run blockEnv blockProgram (fun _ g lab => CallFixed blockEnv blockProgram blockValues g lab)
      [callOf blockEnv expandedGraph bodyLab] blockCache := by
  obtain ⟨c, hc⟩ := Option.isSome_iff_exists.1
    (cacheEventLabel_isSome .empty extends_bodyLab (callFixed_block _ _))
  have hcache : blockCache = c := by rw [blockCache, hc, Option.getD_some]
  rw [hcache]
  exact .cache .empty extends_bodyLab (callFixed_block _ _) hc

/-- **An expanded optional block is retrieved.**  The fence in the block is cached first, and the
block is copied with it, as it is in the graph.  In another execution, in which the thread has only
its begin, the cache then has an expanded block as the next label; the thread issues one that is
not expanded. -/
theorem expanded_label_retrieved :
    Run blockEnv blockProgram (fun _ g lab => CallFixed blockEnv blockProgram blockValues g lab)
        [callOf blockEnv expandedGraph bodyLab] blockCache ∧
      RunsUntil blockEnv blockProgram ExecutionGraph.init 0 1 ∧
      findNextLabelToAdd ExecutionGraph.init 0 = some ⟨0, 1⟩ ∧
      ∃ b, retrieveFromCache blockEnv ExecutionGraph.init 0 blockCache = some b ∧
        ((b.filter (1 ≤ ·.pos.index))[0]?).map (·.unassigned) ≠
          issuedAt blockEnv blockProgram ExecutionGraph.init 0
            ((ExecutionGraph.init.events.getD 0 []).take 1) 1 := by
  refine ⟨run_blockCache, runsUntil_init, rfl, ?_⟩
  have hretrieve : (retrieveFromCache blockEnv ExecutionGraph.init 0 blockCache).map
      (fun b => ((b.filter (1 ≤ ·.pos.index))[0]?).map (·.expanded)) = some (some true) := by decide
  obtain ⟨b, hb, hexpanded⟩ := Option.map_eq_some_iff.1 hretrieve
  refine ⟨b, hb, fun heq => ?_⟩
  obtain ⟨l, hl, hexpanded⟩ := Option.map_eq_some_iff.1 hexpanded
  rw [hl] at heq
  have hissue : l.unassigned = optionalLab := Option.some.inj heq
  have hfalse : l.unassigned.expanded = false := by rw [hissue]; rfl
  exact Bool.noConfusion (hexpanded.symm.trans hfalse)

end Scheduler

end GenMC
