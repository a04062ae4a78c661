import GenMC.Library.InputStream
import GenMC.Relinche.Specification

/-!
# Writing and reading specifications

A specification is written as text, with a block for each observation, in the order of the
observations.  Vectors are lines with the number of elements first, except for hints, which have a
line each and an empty line after the last one.  Linearizations and threads are not written.

The reader skips comments, reads the four vectors of a block and then ignores what is left of a
line.  The line it ignores is the comment a block starts with, since the vectors have taken all
lines before; after the last block there is nothing to ignore, which is how the reader gets to know
that it is done.

* `readObservation_block` says what is read from one block, whatever follows it.
* `deserialize_serialize`: reading what was written gives the same observations with the same hints.
-/

set_option autoImplicit false

namespace GenMC

open IStream

/-! ## Writing -/

instance : LinearOrder Call :=
  LinearOrder.lift' (fun c => toLex (c.name, toLex (c.argVal, c.retVal))) <| by
    rintro ⟨n, a, r⟩ ⟨n', a', r'⟩ h
    have h1 := Prod.mk.inj (toLex.injective h)
    have h2 := Prod.mk.inj (toLex.injective h1.2)
    rw [Call.mk.injEq]
    exact ⟨h1.1, h2.1, h2.2⟩

instance {α : Type*} [LinearOrder α] : LinearOrder (VSet α) :=
  LinearOrder.lift' VSet.vset fun _ _ => VSet.ext

namespace Observation

/-- What `operator<` compares. -/
def sortKey (obs : Observation) : List Call ×ₗ VSet (Pair ℤ ℤ) ×ₗ VSet CallEdge :=
  toLex (obs.ops.map (·.toCall), toLex (obs.rfs, obs.hb))

end Observation

def printEdge (edge : Pair ℤ ℤ) : List Char :=
  intText edge.first ++ ' ' :: intText edge.second

def printIdEdge (edge : CallEdge) : List Char :=
  natText edge.first ++ ' ' :: natText edge.second

def printOpCall (call : MethodCall) : List Char :=
  call.name.toList ++ ' ' :: (intText call.argVal ++ ' ' :: intText call.retVal)

/-- The characters of a string. -/
@[irreducible] def text (s : String) : List Char := s.toList

/-- The separator of vectors. -/
def sep : List Char := [' ', ' ', ' ']

def printHint (hint : Hint) : List Char := printlnVector hint.edges printIdEdge sep sep

/-- The comment a block starts with, up to the end of the line. -/
def blockComment (r : Record) : List Char :=
  text "## Observation (Lins: " ++ natText r.lins.vset.length ++ text "):"

/-- What is written for an observation, after the first comment. -/
def printBody (obs : Observation) (r : Record) : List Char :=
  text "## Outcome:\n" ++ (printlnVector obs.ops printOpCall sep sep ++
    (text "## RF:\n" ++ (printlnVector obs.rfs.vset printEdge sep sep ++
      (text "## HB:\n" ++ (printlnVector obs.hb.vset printIdEdge sep sep ++
        (text "## Hints:\n" ++ printlnVector r.hints printHint [] ['\n']))))))

def printBlock (obs : Observation) (r : Record) : List Char :=
  blockComment r ++ '\n' :: printBody obs r

namespace Specification

/-- `getNumHints`, which counts with an `unsigned`. -/
def getNumHints (spec : Specification) : ℕ :=
  spec.data.foldl (fun acc kv => (acc + kv.2.hints.length) % 2 ^ 32) 0

/-- `getNumLins`. -/
def getNumLins (spec : Specification) : ℕ :=
  spec.data.foldl (fun acc kv => (acc + kv.2.lins.vset.length) % 2 ^ 32) 0

/-- The comment about the size of a specification. -/
def statistics (spec : Specification) : List Char :=
  text "# Statistics: " ++ text " Size: " ++ natText spec.data.length ++ text " " ++
    text " Hints: " ++ natText spec.getNumHints ++ text " " ++
    text " Lins: " ++ natText spec.getNumLins

def header (spec : Specification) : List Char :=
  text "# Specification\n" ++ (spec.statistics ++ '\n' :: text "# Observations:\n")

/-- `serialize`. -/
def serialize (spec : Specification) : Option (List Char) := do
  let v := (spec.data.map (·.1)).mergeSort fun a b => a.sortKey ≤ b.sortKey
  let blocks ← v.mapM fun obs => (spec.lookupSync obs).map (printBlock obs)
  return spec.header ++ blocks.flatten

end Specification

/-! ## Reading -/

def readEdge (s : IStream) : Pair ℤ ℤ × IStream :=
  let (first, s) := s.readInt
  let (second, s) := s.readInt
  (⟨first, second⟩, s)

def readIdEdge (s : IStream) : CallEdge × IStream :=
  let (first, s) := s.readUnsigned 32
  let (second, s) := s.readUnsigned 32
  (⟨first, second⟩, s)

def readCall (s : IStream) : MethodCall × IStream :=
  let (name, s) := s.readWord
  let (argVal, s) := s.readInt
  let (retVal, s) := s.readInt
  ({ name := String.ofList name, argVal := argVal, retVal := retVal }, s)

def readHint (s : IStream) : Hint × IStream :=
  let (edges, s) := s.readVector readIdEdge
  (⟨edges⟩, s)

def skipComments (s : IStream) : IStream := s.skipLines '#'

/-- Reads a block, and ignores the rest of a line. -/
def readObservation (s : IStream) : (Observation × List Hint) × IStream :=
  let (ops, s) := (skipComments s).readVector readCall
  let (rf, s) := (skipComments s).readVector readEdge
  let (hb, s) := (skipComments s).readVector readIdEdge
  let (hints, s) := (skipComments s).readVector readHint
  (({ ops := ops, rfs := VSet.ofVector rf, hb := VSet.ofVector hb }, hints), s.ignoreLine)

/-- The loop of the reader.  It ends with the input; where reading has failed before the end,
nothing is read any more and it goes on forever. -/
def deserializeLoop : ℕ → IStream → Specification → Option Specification
  | 0, _, _ => none
  | fuel + 1, s, result =>
    if s.eof then some result
    else
      let ((obs, hints), s) := readObservation s
      deserializeLoop fuel s (result.addHints obs hints)

/-- `deserialize`.  Every block that is read takes a character at least, so that a loop that goes on
for longer than the input never ends. -/
def deserialize (text : List Char) : Option Specification :=
  deserializeLoop (text.length + 2) (IStream.of text) {}

/-! ## What is read back -/

/-- An `int`. -/
def IsInt (n : ℤ) : Prop := -2 ^ 31 ≤ n ∧ n < 2 ^ 31

instance (n : ℤ) : Decidable (IsInt n) := inferInstanceAs (Decidable (_ ∧ _))

/-- White space follows. -/
def SpaceFollows (l : List Char) : Prop := ∃ c l', l = c :: l' ∧ isSpace c = true

theorem spaceFollows_sep (l : List Char) : SpaceFollows (sep ++ l) := ⟨' ', _, rfl, by decide⟩

theorem spaceFollows_newline (l : List Char) : SpaceFollows ('\n' :: l) := ⟨'\n', l, rfl, by decide⟩

/-- A number, after the space that separates it from what was read before. -/
theorem readInt_space {n : ℤ} {l : List Char} (hn : IsInt n) (hl : SpaceFollows l) :
    readInt (IStream.of (' ' :: (intText n ++ l))) = (n, IStream.of l) := by
  obtain ⟨c, l, rfl, hc⟩ := hl
  exact @readInt_of [' '] l c n (by decide) hn.1 hn.2 (not_isDigit_of_isSpace hc)

theorem reads_edge {p : Pair ℤ ℤ} (h1 : IsInt p.first) (h2 : IsInt p.second) :
    Reads readEdge printEdge SpaceFollows p := by
  intro ws l hws hl
  rw [printEdge, readEdge, List.append_assoc, List.cons_append,
    readInt_of hws h1.1 h1.2 (by decide)]
  simp only
  rw [readInt_space h2 hl]

theorem reads_idEdge {p : CallEdge} (h1 : p.first < 2 ^ 32) (h2 : p.second < 2 ^ 32) :
    Reads readIdEdge printIdEdge SpaceFollows p := by
  rintro ws _ hws ⟨c, l, rfl, hc⟩
  have hsecond := @readUnsigned_of [' '] l c 32 p.second (by decide) h2 (not_isDigit_of_isSpace hc)
  rw [printIdEdge, readIdEdge, List.append_assoc, List.cons_append,
    readUnsigned_of hws h1 (by decide)]
  simp only
  rw [List.singleton_append] at hsecond
  rw [hsecond]

/-- A method call without its thread. -/
def MethodCall.forget (call : MethodCall) : MethodCall := { call with thdKC := (0, 0) }

theorem reads_call {call : MethodCall} (hne : call.name ≠ "")
    (hname : call.name.toList.all fun c => !isSpace c) (h1 : IsInt call.argVal)
    (h2 : IsInt call.retVal) : Reads readCall printOpCall SpaceFollows call.forget := by
  intro ws l hws hl
  have hword : call.name.toList ≠ [] := fun h => hne (String.toList_eq_nil_iff.1 h)
  have hforget : printOpCall call.forget = printOpCall call := rfl
  rw [hforget, printOpCall, readCall, List.append_assoc, List.cons_append, List.append_assoc,
    List.cons_append, readWord_of hws hword hname (by decide)]
  simp only
  rw [readInt_space h1 ⟨' ', _, rfl, by decide⟩]
  simp only
  rw [readInt_space h2 hl, String.ofList_toList]
  rfl

/-- A vector of edges or calls. -/
theorem reads_vector {α : Type*} {readElem : IStream → α × IStream} {printElem : α → List Char}
    {v : List α} (hlen : v.length < 2 ^ 32)
    (h : ∀ a ∈ v, Reads readElem printElem SpaceFollows a) :
    Reads (readVector readElem) (fun v => printlnVector v printElem sep sep) (fun _ => True) v :=
  readVector_println (by omega) h (by decide) (by decide) (by decide) spaceFollows_sep
    spaceFollows_newline

/-! ## What a specification has to be like -/

/-- What an observation that was built from an execution is like: its values are those of the types
of the source, its sets are sorted, and its edges are between calls. -/
structure Observation.WellFormed (obs : Observation) : Prop where
  ops : obs.ops.length < 2 ^ 32
  values : ∀ call ∈ obs.ops, IsInt call.argVal ∧ IsInt call.retVal
  rfs : obs.rfs.vset.length < 2 ^ 32
  rfValues : ∀ p ∈ obs.rfs.vset, IsInt p.first ∧ IsInt p.second
  rfSorted : obs.rfs.vset.Pairwise (· ≤ ·)
  hb : obs.hb.vset.length < 2 ^ 32
  hbIds : ∀ p ∈ obs.hb.vset, p.first < obs.ops.length ∧ p.second < obs.ops.length
  hbSorted : obs.hb.vset.Pairwise (· ≤ ·)

/-- What a specification is like: there is one record for each observation, and hints are about the
calls of the observation. -/
structure Specification.WellFormed (spec : Specification) : Prop where
  nodup : (Specification.keys spec.data).Nodup
  observations : ∀ kv ∈ spec.data, kv.1.WellFormed
  hints : ∀ kv ∈ spec.data, kv.2.hints.length < 2 ^ 32
  edges : ∀ kv ∈ spec.data, ∀ hint ∈ kv.2.hints, hint.edges.length < 2 ^ 32
  edgeIds : ∀ kv ∈ spec.data, ∀ hint ∈ kv.2.hints, ∀ p ∈ hint.edges,
    p.first < kv.1.ops.length ∧ p.second < kv.1.ops.length

/-- Names of methods that can be read back. -/
def Observation.NamesReadable (obs : Observation) : Prop :=
  ∀ call ∈ obs.ops, call.name ≠ "" ∧ call.name.toList.all fun c => !isSpace c

instance (obs : Observation) : Decidable obs.NamesReadable :=
  inferInstanceAs (Decidable (∀ call ∈ obs.ops, _ ∧ _))

/-- An observation without threads. -/
def Observation.forget (obs : Observation) : Observation :=
  { obs with ops := obs.ops.map MethodCall.forget }

theorem Observation.key_forget (obs : Observation) : obs.forget.key = obs.key := by
  rw [key, key, forget, List.map_map]
  rfl

/-! ## One block -/

theorem reads_hint {hint : Hint} (hlen : hint.edges.length < 2 ^ 32)
    (h : ∀ p ∈ hint.edges, p.first < 2 ^ 32 ∧ p.second < 2 ^ 32) :
    Reads readHint printHint (fun _ => True) hint := by
  intro ws l hws hl
  have hedges := reads_vector hlen fun p hp => reads_idEdge (h p hp).1 (h p hp).2
  have hread := hedges ws l hws hl
  rw [readHint, printHint, hread]

theorem reads_hints {hints : List Hint} (hlen : hints.length < 2 ^ 32)
    (h : ∀ hint ∈ hints, Reads readHint printHint (fun _ => True) hint) :
    Reads (readVector readHint) (fun v => printlnVector v printHint [] ['\n']) (fun _ => True)
      hints :=
  readVector_println (by omega) h (by decide) (by decide) (by decide) (fun _ => trivial)
    fun _ => trivial

/-- A vector comes right after a comment. -/
theorem readVector_comment {α : Type*} {readElem : IStream → α × IStream}
    {print : List α → List Char} {v : List α} {comment l : List Char}
    (hv : Reads (readVector readElem) print (fun _ => True) v)
    (hcomment : ∀ l, skipComments (IStream.of (comment ++ l)) = skipComments (IStream.of l))
    (hprint : ∃ d ds, print v = d :: ds ∧ d.isDigit = true) :
    readVector readElem (skipComments (IStream.of (comment ++ (print v ++ l)))) =
      (v, IStream.of l) := by
  obtain ⟨d, ds, heq, hd⟩ := hprint
  have hne : d ≠ '#' := by
    rintro rfl
    exact absurd hd (by decide)
  have hread := hv [] l rfl trivial
  rw [hcomment, heq, List.cons_append, skipComments, skipLines_other hne, ← List.cons_append, ← heq]
  rwa [List.nil_append] at hread

/-- A comment that is a line. -/
theorem skipComments_text {s : String} {line : List Char} (hs : s.toList = '#' :: line ++ ['\n'])
    (hline : '\n' ∉ '#' :: line) (l : List Char) :
    skipComments (IStream.of (text s ++ l)) = skipComments (IStream.of l) := by
  rw [text, hs, List.append_assoc, List.singleton_append]
  exact skipLines_line hline

theorem printlnVector_forget (ops : List MethodCall) (sep sizeSep : List Char) :
    printlnVector ops printOpCall sep sizeSep =
      printlnVector (ops.map MethodCall.forget) printOpCall sep sizeSep := by
  rw [printlnVector, printlnVector, List.length_map, List.isEmpty_map, List.map_map]
  rfl

theorem ofVector_vset {α : Type*} [LinearOrder α] {s : VSet α} (h : s.vset.Pairwise (· ≤ ·)) :
    VSet.ofVector s.vset = s := by
  refine VSet.ext (List.mergeSort_of_pairwise (h.imp fun hab => ?_))
  exact decide_eq_true hab

/-- **One block is read back**, whatever follows it; the line after it is ignored. -/
theorem readObservation_block {obs : Observation} {r : Record} {comments next : List Char}
    (hobs : obs.WellFormed) (hnames : obs.NamesReadable) (hhints : r.hints.length < 2 ^ 32)
    (hedges : ∀ hint ∈ r.hints, hint.edges.length < 2 ^ 32)
    (hids : ∀ hint ∈ r.hints, ∀ p ∈ hint.edges,
      p.first < obs.ops.length ∧ p.second < obs.ops.length)
    (hcomments : ∀ l, skipComments (IStream.of (comments ++ l)) = skipComments (IStream.of l)) :
    readObservation (IStream.of (comments ++ (printBody obs r ++ next))) =
      ((obs.forget, r.hints), ignoreLine (IStream.of next)) := by
  have hid : ∀ {n : ℕ}, n < obs.ops.length → n < 2 ^ 32 := fun h => lt_trans h hobs.ops
  have hcalls : ∀ call ∈ obs.ops.map MethodCall.forget,
      Reads readCall printOpCall SpaceFollows call := by
    intro call hcall
    obtain ⟨call, hmem, rfl⟩ := List.mem_map.1 hcall
    obtain ⟨hne, hname⟩ := hnames call hmem
    exact reads_call hne hname (hobs.values call hmem).1 (hobs.values call hmem).2
  have hops := reads_vector (lt_of_eq_of_lt (List.length_map _) hobs.ops) hcalls
  have hrfs := reads_vector hobs.rfs fun p hp =>
    reads_edge (hobs.rfValues p hp).1 (hobs.rfValues p hp).2
  have hhb := reads_vector hobs.hb fun p hp =>
    reads_idEdge (hid (hobs.hbIds p hp).1) (hid (hobs.hbIds p hp).2)
  have hhs := reads_hints hhints fun hint hmem => reads_hint (hedges hint hmem) fun p hp =>
    ⟨hid (hids hint hmem p hp).1, hid (hids hint hmem p hp).2⟩
  -- the comments between the vectors
  have houtcome : ∀ l, skipComments (IStream.of ((comments ++ text "## Outcome:\n") ++ l)) =
      skipComments (IStream.of l) := by
    intro l
    rw [List.append_assoc, hcomments]
    exact @skipComments_text "## Outcome:\n" "# Outcome:".toList (by decide) (by decide) l
  have hrf := @skipComments_text "## RF:\n" "# RF:".toList (by decide) (by decide)
  have hhb' := @skipComments_text "## HB:\n" "# HB:".toList (by decide) (by decide)
  have hhints' := @skipComments_text "## Hints:\n" "# Hints:".toList (by decide) (by decide)
  rw [readObservation, printBody, printlnVector_forget]
  simp only [List.append_assoc]
  rw [← List.append_assoc comments,
    readVector_comment hops houtcome (printlnVector_eq_cons _ _ _ _)]
  simp only
  rw [readVector_comment hrfs hrf (printlnVector_eq_cons _ _ _ _)]
  simp only
  rw [readVector_comment hhb hhb' (printlnVector_eq_cons _ _ _ _)]
  simp only
  rw [readVector_comment hhs hhints' (printlnVector_eq_cons _ _ _ _)]
  simp only
  rw [ofVector_vset hobs.rfSorted, ofVector_vset hobs.hbSorted]
  rfl

/-! ## All blocks -/

theorem newline_not_mem_natText (n : ℕ) : '\n' ∉ natText n := by
  intro h
  have := Nat.isDigit_of_mem_toDigits (by decide) (by decide) h
  exact absurd this (by decide)

theorem newline_not_mem_blockComment (r : Record) : '\n' ∉ blockComment r := by
  rw [blockComment, List.mem_append, List.mem_append, not_or, not_or, text, text]
  exact ⟨⟨by decide, newline_not_mem_natText _⟩, by decide⟩

theorem newline_not_mem_statistics (spec : Specification) : '\n' ∉ spec.statistics := by
  simp only [Specification.statistics, List.mem_append, not_or, text]
  refine ⟨⟨⟨⟨⟨⟨⟨⟨?_, ?_⟩, newline_not_mem_natText _⟩, ?_⟩, ?_⟩, newline_not_mem_natText _⟩, ?_⟩,
    ?_⟩, newline_not_mem_natText _⟩ <;> decide

/-- The comments before the first block. -/
theorem skipComments_header (spec : Specification) (r : Record) (l : List Char) :
    skipComments (IStream.of ((spec.header ++ (blockComment r ++ ['\n'])) ++ l)) =
      skipComments (IStream.of l) := by
  have hstat : ∃ line, spec.statistics = '#' :: line := by
    rw [Specification.statistics, text]
    exact ⟨_, rfl⟩
  have hblock : ∃ line, blockComment r = '#' :: line := by
    rw [blockComment, text]
    exact ⟨_, rfl⟩
  obtain ⟨line, hline⟩ := hstat
  obtain ⟨line', hline'⟩ := hblock
  have h1 := newline_not_mem_statistics spec
  have h2 := newline_not_mem_blockComment r
  rw [hline] at h1
  rw [hline'] at h2
  rw [Specification.header, hline, hline']
  simp only [List.append_assoc, List.cons_append, List.nil_append]
  rw [@skipComments_text "# Specification\n" " Specification".toList (by decide) (by decide),
    skipComments, ← List.cons_append, skipLines_line h1, ← skipComments,
    @skipComments_text "# Observations:\n" " Observations:".toList (by decide) (by decide),
    skipComments, ← List.cons_append, skipLines_line h2]
  rfl

/-- What the reader makes of some blocks. -/
def readBlocks (blocks : List (Observation × Record)) (result : Specification) : Specification :=
  blocks.foldl (fun result kv => result.addHints kv.1.forget kv.2.hints) result

/-- What a block has to be like to be read back. -/
structure BlockReadable (kv : Observation × Record) : Prop where
  obs : kv.1.WellFormed
  names : kv.1.NamesReadable
  hints : kv.2.hints.length < 2 ^ 32
  edges : ∀ hint ∈ kv.2.hints, hint.edges.length < 2 ^ 32
  edgeIds : ∀ hint ∈ kv.2.hints, ∀ p ∈ hint.edges,
    p.first < kv.1.ops.length ∧ p.second < kv.1.ops.length

/-- **The loop of the reader**, from a block whose first comment is gone. -/
theorem deserializeLoop_blocks {blocks : List (Observation × Record)}
    (h : ∀ kv ∈ blocks, BlockReadable kv) {kv : Observation × Record} (hkv : BlockReadable kv)
    {comments : List Char}
    (hcomments : ∀ l, skipComments (IStream.of (comments ++ l)) = skipComments (IStream.of l))
    {fuel : ℕ} (hfuel : blocks.length + 2 ≤ fuel) (result : Specification) :
    deserializeLoop fuel (IStream.of (comments ++ (printBody kv.1 kv.2 ++
        (blocks.map fun kv => printBlock kv.1 kv.2).flatten))) result =
      some (readBlocks (kv :: blocks) result) := by
  induction blocks generalizing kv comments fuel result with
  | nil =>
    obtain ⟨fuel, rfl⟩ : ∃ n, fuel = n + 2 := ⟨fuel - 2, by rw [List.length_nil] at hfuel; omega⟩
    rw [deserializeLoop, eof_of, if_neg Bool.false_ne_true, readObservation_block hkv.obs hkv.names
      hkv.hints hkv.edges hkv.edgeIds hcomments]
    rfl
  | cons kv' blocks ih =>
    obtain ⟨fuel, rfl⟩ : ∃ n, fuel = n + 1 := ⟨fuel - 1, by omega⟩
    rw [deserializeLoop, eof_of, if_neg Bool.false_ne_true, readObservation_block hkv.obs hkv.names
      hkv.hints hkv.edges hkv.edgeIds hcomments, List.map_cons, List.flatten_cons, printBlock,
      List.append_assoc, List.cons_append, ignoreLine_of (newline_not_mem_blockComment kv'.2)]
    have hnone : ∀ l, skipComments (IStream.of ([] ++ l)) = skipComments (IStream.of l) :=
      fun _ => rfl
    rw [List.length_cons] at hfuel
    exact ih (fun kv hmem => h kv (List.mem_cons_of_mem _ hmem)) (h kv' List.mem_cons_self)
      hnone (by omega) _

/-! ## The round trip -/

namespace Specification

/-- What the reader knows of a record. -/
def written (kv : Observation × Record) : Observation × Record :=
  (kv.1.forget, { hints := kv.2.hints })

theorem keys_written (blocks : List (Observation × Record)) :
    keys (blocks.map written) = keys blocks := by
  rw [keys, keys, List.map_map]
  exact List.map_congr_left fun kv _ => kv.1.key_forget

theorem recordAt_written (blocks : List (Observation × Record)) (k : Key) :
    recordAt (blocks.map written) k =
      (recordAt blocks k).map fun r => { hints := r.hints } := by
  induction blocks with
  | nil => rfl
  | cons kv blocks ih =>
    obtain ⟨o, r⟩ := kv
    rw [List.map_cons, written, recordAt_cons, recordAt_cons, Observation.key_forget, ih]
    split
    · rfl
    · rfl

/-- Reading blocks is merging what was written. -/
theorem data_readBlocks (blocks : List (Observation × Record)) (result : Specification) :
    (readBlocks blocks result).data = (blocks.map written).foldl
      (fun data e => updateSync (Record.merge · e.2) e.1 data) result.data := by
  have hmerge : ∀ (r : Record) (hints : List Hint),
      Record.merge r { hints := hints } = { r with hints := r.hints ++ hints } := by
    rintro ⟨⟨lins⟩, hs⟩ hints
    cases lins with
    | nil => rfl
    | cons => rfl
  induction blocks generalizing result with
  | nil => rfl
  | cons kv blocks ih =>
    rw [readBlocks, List.foldl_cons, ← readBlocks, ih, List.map_cons, List.foldl_cons]
    simp only [written, hmerge]
    rfl

theorem mapM_eq_some {α β : Type*} {f : α → Option β} {g : α → β} {l : List α}
    (h : ∀ a ∈ l, f a = some (g a)) : l.mapM f = some (l.map g) := by
  induction l with
  | nil => rfl
  | cons a l ih =>
    rw [List.mapM_cons, h a List.mem_cons_self, ih fun b hb => h b (List.mem_cons_of_mem a hb)]
    rfl

/-- The records in the order in which they are written. -/
def sorted (spec : Specification) : List (Observation × Record) :=
  spec.data.mergeSort fun a b => a.1.sortKey ≤ b.1.sortKey

theorem sorted_perm (spec : Specification) : spec.sorted.Perm spec.data := List.mergeSort_perm _ _

theorem serialize_eq {spec : Specification} (h : (keys spec.data).Nodup) :
    spec.serialize =
      some (spec.header ++ (spec.sorted.map fun kv => printBlock kv.1 kv.2).flatten) := by
  have hsort : (spec.data.map (·.1)).mergeSort (fun a b => a.sortKey ≤ b.sortKey) =
      spec.sorted.map (·.1) := by
    rw [sorted, List.map_mergeSort]
    exact fun _ _ _ _ => rfl
  have hblocks : (spec.sorted.map (·.1)).mapM
      (fun obs => (spec.lookupSync obs).map (printBlock obs)) =
      some (spec.sorted.map fun kv => printBlock kv.1 kv.2) := by
    rw [List.mapM_map]
    refine mapM_eq_some fun kv hkv => ?_
    have hrec : recordAt spec.data kv.1.key = some kv.2 :=
      (recordAt_eq_some h).2 ⟨kv.1, spec.sorted_perm.mem_iff.1 hkv, rfl⟩
    rw [Function.comp_apply, lookupSync, hrec]
    rfl
  rw [serialize, hsort, hblocks]
  rfl

theorem WellFormed.blockReadable {spec : Specification} (h : spec.WellFormed)
    (hnames : ∀ kv ∈ spec.data, kv.1.NamesReadable) {kv : Observation × Record}
    (hkv : kv ∈ spec.data) : BlockReadable kv :=
  ⟨h.observations kv hkv, hnames kv hkv, h.hints kv hkv, h.edges kv hkv, h.edgeIds kv hkv⟩

/-- **Reading back a written specification** gives the same observations with the same hints. -/
theorem deserialize_serialize {spec : Specification} (h : spec.WellFormed) (hne : spec.data ≠ [])
    (hnames : ∀ kv ∈ spec.data, kv.1.NamesReadable) :
    ∃ text spec', spec.serialize = some text ∧ deserialize text = some spec' ∧
      (keys spec'.data).Nodup ∧ (∀ k, k ∈ keys spec'.data ↔ k ∈ keys spec.data) ∧
      ∀ k, (recordAt spec'.data k).map (·.hints) = (recordAt spec.data k).map (·.hints) := by
  have hkeys : (keys spec.sorted).Nodup := (spec.sorted_perm.map _).nodup_iff.2 h.nodup
  have hread : ∀ kv ∈ spec.sorted, BlockReadable kv :=
    fun kv hkv => h.blockReadable hnames (spec.sorted_perm.mem_iff.1 hkv)
  have hrecord : ∀ k, recordAt (readBlocks spec.sorted {}).data k =
      (recordAt spec.data k).map fun r => { hints := r.hints } := by
    intro k
    rw [data_readBlocks, recordAt_merge (by rwa [keys_written]), recordAt_written,
      recordAt_perm spec.sorted_perm.symm h.nodup]
    cases recordAt spec.data k with
    | none => rfl
    | some r => rfl
  refine ⟨_, readBlocks spec.sorted {}, serialize_eq h.nodup, ?_, ?_, fun k => ?_, fun k => ?_⟩
  · -- the first block comes after the comments of the specification
    obtain ⟨kv, blocks, hsorted⟩ : ∃ kv blocks, spec.sorted = kv :: blocks := by
      refine List.exists_cons_of_ne_nil fun hnil => hne ?_
      exact List.perm_nil.1 (hnil ▸ spec.sorted_perm.symm)
    rw [hsorted] at hread ⊢
    have hfuel : blocks.length ≤ (blocks.map fun kv => printBlock kv.1 kv.2).flatten.length := by
      clear hsorted hread
      induction blocks with
      | nil => exact Nat.zero_le _
      | cons kv blocks ih =>
        rw [List.map_cons, List.flatten_cons, List.length_append, List.length_cons, printBlock,
          List.length_append, List.length_cons]
        omega
    have htext : spec.header ++ ((kv :: blocks).map fun kv => printBlock kv.1 kv.2).flatten =
        (spec.header ++ (blockComment kv.2 ++ ['\n'])) ++ (printBody kv.1 kv.2 ++
          (blocks.map fun kv => printBlock kv.1 kv.2).flatten) := by
      simp [printBlock]
    rw [deserialize, htext]
    refine deserializeLoop_blocks (fun kv hkv => hread kv (List.mem_cons_of_mem _ hkv))
      (hread kv List.mem_cons_self) (skipComments_header spec kv.2) ?_ _
    simp only [List.length_append]
    omega
  · rw [data_readBlocks]
    exact nodup_keys_merge List.nodup_nil
  · rw [← recordAt_isSome, ← recordAt_isSome, hrecord, Option.isSome_map]
  · rw [hrecord, Option.map_map]
    rfl

/-- Two calls, with reads-from and happens-before. -/
def queueObs : Observation :=
  { ops := [{ name := "enqueue", argVal := 1, retVal := 0, thdKC := (1, 1) },
      { name := "dequeue", argVal := 0, retVal := -1, thdKC := (2, 1) }]
    rfs := ⟨[⟨0, 3⟩]⟩
    hb := ⟨[⟨0, 1⟩]⟩ }

/-- Two observations, one of them with hints and the other one without anything. -/
def queueSpec : Specification where
  data := [(queueObs,
      { lins := ⟨[⟨[0, 1]⟩]⟩, hints := [⟨[⟨1, 0⟩]⟩, ⟨[⟨0, 1⟩, ⟨1, 0⟩]⟩] }),
    ({ ops := [] }, {})]

theorem queueSpec_round_trip :
    ∃ text spec', queueSpec.serialize = some text ∧ deserialize text = some spec' ∧
      (keys spec'.data).Nodup ∧ (∀ k, k ∈ keys spec'.data ↔ k ∈ keys queueSpec.data) ∧
      ∀ k, (recordAt spec'.data k).map (·.hints) = (recordAt queueSpec.data k).map (·.hints) := by
  refine deserialize_serialize ⟨by decide, ?_, by decide, by decide, by decide⟩ (by decide) ?_
  · rintro kv hkv
    rcases List.mem_cons.1 hkv with rfl | hkv
    · exact ⟨by decide, by decide, by decide, by decide, by decide, by decide, by decide,
        by decide⟩
    · obtain rfl := List.mem_singleton.1 hkv
      exact ⟨by decide, by simp, by decide, by simp, by simp, by decide, by simp, by simp⟩
  · rintro kv hkv
    rcases List.mem_cons.1 hkv with rfl | hkv
    · decide
    · obtain rfl := List.mem_singleton.1 hkv
      exact fun call hcall => absurd hcall List.not_mem_nil

end Specification
end GenMC
