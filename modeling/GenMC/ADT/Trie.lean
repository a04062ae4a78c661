import Mathlib.Algebra.Group.Int.Defs
import Mathlib.Data.Int.Notation
import Mathlib.Data.List.Basic
import Mathlib.Data.List.Pairwise
import Mathlib.Order.Lattice

/-!
# Tries

A trie stores payloads under sequences.  An edge is labelled with a sequence of its own, so that a
path is only split where two sequences part; the children of a node are sorted by the first elements
of their labels and found by binary search.

A node owns its children, so it is an inductive type here.  The label of a node is never empty,
except at the root, which is why the root is kept apart.  A pointer to a payload, through which the
payload is changed, is the sequence under which the payload is found (`Trie.modify`).

* `Trie.Flat`: all labels have length one, as it is when each sequence extends one that is there by
  one element.  `findLongestCommonPrefix` counts the label that ends the sequence as one element,
  and its check at the end relies on this.
* `Trie.addSeq_eq`: then adding a sequence succeeds and **changes nothing but the payload of that
  sequence**.
* `Trie.findLongestCommonPrefix_eq`: the prefix that is found is there, and no longer one is.

`none` stands for a check that fails.
-/

set_option autoImplicit false

namespace GenMC

/-- A node below the root: its label, which is not empty, its payload and its children. -/
inductive Trie.Node (α β : Type*) where
  | mk (first : α) (rest : List α) (dat : β) (children : List (Trie.Node α β))

/-- The payload and the children of the root. -/
structure Trie (α β : Type*) where
  dat : β
  children : List (Trie.Node α β)

namespace Trie

variable {α β : Type*}

namespace Node

/-- The first element of the label. -/
def first : Node α β → α
  | mk a _ _ _ => a

/-- The rest of the label. -/
def rest : Node α β → List α
  | mk _ l _ _ => l

def label (n : Node α β) : List α := n.first :: n.rest

def dat : Node α β → β
  | mk _ _ d _ => d

def children : Node α β → List (Node α β)
  | mk _ _ _ cs => cs

def setData (n : Node α β) (d : β) : Node α β := mk n.first n.rest d n.children

def setChildren (n : Node α β) (cs : List (Node α β)) : Node α β := mk n.first n.rest n.dat cs

end Node

/-! ## Edges -/

section Edges

variable [LinearOrder α]

/-- The child whose label starts with `id`. -/
def getEdge (children : List (Node α β)) (id : α) : Option (Node α β) :=
  (children.dropWhile (·.first < id)).head?.filter (·.first = id)

/-- Inserts a child where its label belongs. -/
def addEdge (children : List (Node α β)) (n : Node α β) : List (Node α β) :=
  children.takeWhile (·.first < n.first) ++ n :: children.dropWhile (·.first < n.first)

/-- Replaces the child whose label starts as that of `n`. -/
def setEdge (children : List (Node α β)) (n : Node α β) : List (Node α β) :=
  children.takeWhile (·.first < n.first) ++ n :: (children.dropWhile (·.first < n.first)).tail

/-! ## Comparing with a label -/

/-- How a sequence and a label compare. -/
inductive QueryResult where
  | Same | StringIsPrefix | LabelIsPrefix | DontMatch
  /-- They part after so many elements. -/
  | HaveCommonPart (length : ℤ)

/-- The cast of a length to the enumeration, which has eight bits and a sign. -/
def QueryResult.ofLength (i : ℕ) : QueryResult :=
  let r := (i : ℤ).bmod 256
  if r = -3 then .Same
  else if r = -2 then .StringIsPrefix
  else if r = -1 then .LabelIsPrefix
  else if r = 0 then .DontMatch
  else .HaveCommonPart r

/-- The number of elements that two sequences have in common. -/
def commonLength : List α → List α → ℕ
  | a :: s, b :: l => if a = b then commonLength s l + 1 else 0
  | _, _ => 0

def query (label s : List α) : QueryResult :=
  let i := commonLength s label
  if i = min s.length label.length then
    if s.length = label.length then .Same
    else if i = s.length then .StringIsPrefix else .LabelIsPrefix
  else .ofLength i

/-! ## The operations -/

/-- A node without children. -/
def leaf (d : β) : List α → Option (Node α β)
  | [] => none
  | a :: s => some (.mk a s d [])

/-- The node that `splitEdge` puts above a node. -/
def splitEdge [Inhabited β] (eNode : Node α β) (index : ℕ) : Option (Node α β) :=
  match eNode.label.take index, eNode.label.drop index with
  | a :: l1, b :: l2 => some (.mk a l1 default [.mk b l2 eNode.dat eNode.children])
  | _, _ => none

/-- The loop of `addSeq` below a node, for at most `n` rounds.  The children of the node that is
left change because one of them does. -/
def addSeqLoop [Inhabited β] (data : β) :
    ℕ → List (Node α β) → List α → Option (List (Node α β) × Bool)
  | 0, _, _ => none
  | _, _, [] => none
  | n + 1, children, id :: s =>
    match getEdge children id with
    | some nNode =>
      match query nNode.label (id :: s) with
      | .Same => some (children, false)
      | .StringIsPrefix => do
        let nNode ← splitEdge nNode (id :: s).length
        some (setEdge children (nNode.setData data), true)
      | .LabelIsPrefix => do
        let (below, res) ←
          addSeqLoop data n nNode.children ((id :: s).drop nNode.label.length)
        some (setEdge children (nNode.setChildren below), res)
      | .DontMatch => none
      | .HaveCommonPart r =>
        -- as an unsigned number, a negative index is too far
        if r < 0 then none
        else do
          let nNode ← splitEdge nNode r.toNat
          let tNode ← leaf data ((id :: s).drop r.toNat)
          some (setEdge children (nNode.setChildren (addEdge nNode.children tNode)), true)
    | none => do
      let tNode ← leaf data (id :: s)
      some (addEdge children tNode, true)

/-- Adds a sequence, unless it is there. -/
def addSeq [Inhabited β] (t : Trie α β) (s : List α) (data : β) : Option (Trie α β × Bool) :=
  if s.isEmpty then some (t, false)
  else do
    let (children, res) ← addSeqLoop data s.length t.children s
    some ({ t with children := children }, res)

/-- The loop of `findLongestCommonPrefix`, for a sequence of length `size` of which `s` is left. -/
def findLoop (size : ℕ) : ℕ → List (Node α β) → List α → ℕ → Option ℕ
  | 0, _, _, _ => none
  | _, _, [], _ => none
  | n + 1, children, id :: s, result =>
    match getEdge children id with
    | some nNode =>
      match query nNode.label (id :: s) with
      | .Same => if result + 1 = size then some (result + 1) else none
      | .StringIsPrefix => some (result + (id :: s).length)
      | .LabelIsPrefix =>
        findLoop size n nNode.children ((id :: s).drop nNode.label.length)
          (result + nNode.label.length)
      | .DontMatch => none
      | .HaveCommonPart r =>
        if r < 0 then some ((result + r) % 2 ^ 32).toNat else some (result + r.toNat)
    | none => some result

def findLongestCommonPrefix (t : Trie α β) (s : List α) : Option ℕ :=
  if s.isEmpty then some 0 else findLoop s.length s.length t.children s 0

/-- The loop of `lookup`; `some none` is the null pointer. -/
def lookupLoop : ℕ → List (Node α β) → List α → Option (Option β)
  | 0, _, _ => none
  | _, _, [] => none
  | n + 1, children, id :: s =>
    match getEdge children id with
    | some nNode =>
      match query nNode.label (id :: s) with
      | .Same => some (some nNode.dat)
      | .StringIsPrefix => some none
      | .DontMatch => none
      | .LabelIsPrefix => lookupLoop n nNode.children ((id :: s).drop nNode.label.length)
      | .HaveCommonPart _ => some none
    | none => some none

/-- The pointer to a payload, if it is reached. -/
def lookupPtr (t : Trie α β) (s : List α) : Option (Option β) :=
  if s.isEmpty then some (some t.dat) else lookupLoop s.length t.children s

/-- The payload that is found. -/
def lookup (t : Trie α β) (s : List α) : Option β := (lookupPtr t s).join

/-- Changes the payload that a lookup below a node finds. -/
def modifyLoop (f : β → β) : ℕ → List (Node α β) → List α → List (Node α β)
  | 0, children, _ => children
  | _, children, [] => children
  | n + 1, children, id :: s =>
    match getEdge children id with
    | none => children
    | some nNode =>
      match query nNode.label (id :: s) with
      | .Same => setEdge children (nNode.setData (f nNode.dat))
      | .LabelIsPrefix =>
        setEdge children (nNode.setChildren
          (modifyLoop f n nNode.children ((id :: s).drop nNode.label.length)))
      | _ => children

/-- Changes the payload that `lookup` returns a pointer to. -/
def modify (t : Trie α β) (s : List α) (f : β → β) : Trie α β :=
  if s.isEmpty then { t with dat := f t.dat }
  else { t with children := modifyLoop f s.length t.children s }

/-! ## Finding a child -/

/-- The children are sorted by the first elements of their labels. -/
def SortedEdges (cs : List (Node α β)) : Prop := cs.Pairwise (·.first < ·.first)

theorem getEdge_cons (c : Node α β) (cs : List (Node α β)) (id : α) :
    getEdge (c :: cs) id =
      if c.first < id then getEdge cs id else if c.first = id then some c else none := by
  rw [getEdge, List.dropWhile_cons]
  by_cases h : c.first < id
  · rw [if_pos (by simpa using h), if_pos h]
    rfl
  · rw [if_neg (by simpa using h), if_neg h, List.head?_cons, Option.filter_some]
    simp

theorem addEdge_cons (c : Node α β) (cs : List (Node α β)) (n : Node α β) :
    addEdge (c :: cs) n = if c.first < n.first then c :: addEdge cs n else n :: c :: cs := by
  rw [addEdge, List.takeWhile_cons, List.dropWhile_cons]
  by_cases h : c.first < n.first
  · rw [if_pos (by simpa using h), if_pos (by simpa using h), if_pos h]
    rfl
  · rw [if_neg (by simpa using h), if_neg (by simpa using h), if_neg h]
    rfl

theorem setEdge_cons (c : Node α β) (cs : List (Node α β)) (n : Node α β) :
    setEdge (c :: cs) n = if c.first < n.first then c :: setEdge cs n else n :: cs := by
  rw [setEdge, List.takeWhile_cons, List.dropWhile_cons]
  by_cases h : c.first < n.first
  · rw [if_pos (by simpa using h), if_pos (by simpa using h), if_pos h]
    rfl
  · rw [if_neg (by simpa using h), if_neg (by simpa using h), if_neg h]
    rfl

theorem mem_of_getEdge {cs : List (Node α β)} {id : α} {c : Node α β}
    (h : getEdge cs id = some c) : c ∈ cs ∧ c.first = id := by
  induction cs with
  | nil => exact absurd h (by simp [getEdge])
  | cons d cs ih =>
    rw [getEdge_cons] at h
    split_ifs at h with h1 h2
    · exact ⟨List.mem_cons_of_mem _ (ih h).1, (ih h).2⟩
    · cases h
      exact ⟨List.mem_cons_self .., h2⟩

theorem mem_addEdge {cs : List (Node α β)} {n c : Node α β} :
    c ∈ addEdge cs n ↔ c = n ∨ c ∈ cs := by
  induction cs with
  | nil => simp [addEdge]
  | cons d cs ih =>
    rw [addEdge_cons]
    split_ifs
    · rw [List.mem_cons, ih, List.mem_cons, or_left_comm]
    · rw [List.mem_cons]

theorem mem_setEdge {cs : List (Node α β)} {n c : Node α β} (h : c ∈ setEdge cs n) :
    c = n ∨ c ∈ cs := by
  induction cs with
  | nil => simpa [setEdge] using h
  | cons d cs ih =>
    rw [setEdge_cons] at h
    split_ifs at h
    · rcases List.mem_cons.1 h with rfl | h
      · exact Or.inr (List.mem_cons_self ..)
      · exact (ih h).imp_right (List.mem_cons_of_mem _)
    · exact (List.mem_cons.1 h).imp_right (List.mem_cons_of_mem _)

theorem sortedEdges_addEdge {cs : List (Node α β)} (hcs : SortedEdges cs) {n : Node α β}
    (hn : getEdge cs n.first = none) : SortedEdges (addEdge cs n) := by
  induction cs with
  | nil => exact List.pairwise_singleton _ _
  | cons d cs ih =>
    obtain ⟨hd, hcs'⟩ := List.pairwise_cons.1 hcs
    rw [getEdge_cons] at hn
    rw [addEdge_cons]
    split_ifs at hn ⊢ with h1 h2
    · refine List.pairwise_cons.2 ⟨fun c hc => ?_, ih hcs' hn⟩
      rcases mem_addEdge.1 hc with rfl | hc
      · exact h1
      · exact hd c hc
    · have hlt : n.first < d.first := lt_of_le_of_ne (not_lt.1 h1) (Ne.symm h2)
      refine List.pairwise_cons.2 ⟨fun c hc => ?_, hcs⟩
      rcases List.mem_cons.1 hc with rfl | hc
      · exact hlt
      · exact lt_trans hlt (hd c hc)

theorem sortedEdges_setEdge {cs : List (Node α β)} (hcs : SortedEdges cs) {n c : Node α β}
    (hc : getEdge cs n.first = some c) : SortedEdges (setEdge cs n) := by
  induction cs with
  | nil => exact absurd hc (by simp [getEdge])
  | cons d cs ih =>
    obtain ⟨hd, hcs'⟩ := List.pairwise_cons.1 hcs
    rw [getEdge_cons] at hc
    rw [setEdge_cons]
    split_ifs at hc ⊢ with h1 h2
    · refine List.pairwise_cons.2 ⟨fun e he => ?_, ih hcs' hc⟩
      rcases mem_setEdge he with rfl | he
      · exact h1
      · exact hd e he
    · refine List.pairwise_cons.2 ⟨fun e he => ?_, hcs'⟩
      rw [← h2]
      exact hd e he

/-- A child that is inserted is found, and the others are found as before. -/
theorem getEdge_addEdge {cs : List (Node α β)} (hcs : SortedEdges cs) {n : Node α β}
    (hn : getEdge cs n.first = none) (id : α) :
    getEdge (addEdge cs n) id = if id = n.first then some n else getEdge cs id := by
  induction cs with
  | nil =>
    rw [addEdge, List.takeWhile_nil, List.dropWhile_nil, List.nil_append, getEdge_cons]
    by_cases hid : id = n.first
    · subst hid
      simp
    · simp [hid, Ne.symm hid, getEdge]
  | cons d cs ih =>
    obtain ⟨hd, hcs'⟩ := List.pairwise_cons.1 hcs
    rw [getEdge_cons] at hn
    rw [addEdge_cons, getEdge_cons]
    split_ifs at hn with h1 h2
    · rw [if_pos h1, getEdge_cons, ih hcs' hn]
      by_cases hid : id = n.first
      · subst hid
        simp [h1]
      · simp [hid]
    · rw [if_neg h1, getEdge_cons, getEdge_cons]
      by_cases hid : id = n.first
      · subst hid
        simp
      · rw [if_neg hid, if_neg (Ne.symm hid)]
        by_cases hlt : n.first < id
        · rw [if_pos hlt]
        · have hle : id ≤ n.first := not_lt.1 hlt
          have hid' : d.first ≠ id := fun h => h2 (le_antisymm (h ▸ hle) (not_lt.1 h1))
          rw [if_neg hlt, if_neg (not_lt.2 (hle.trans (not_lt.1 h1))), if_neg hid']

/-- A child that is replaced is found, and the others are found as before. -/
theorem getEdge_setEdge {cs : List (Node α β)} (hcs : SortedEdges cs) {n c : Node α β}
    (hc : getEdge cs n.first = some c) (id : α) :
    getEdge (setEdge cs n) id = if id = n.first then some n else getEdge cs id := by
  induction cs with
  | nil => exact absurd hc (by simp [getEdge])
  | cons d cs ih =>
    obtain ⟨hd, hcs'⟩ := List.pairwise_cons.1 hcs
    rw [getEdge_cons] at hc
    rw [setEdge_cons, getEdge_cons]
    split_ifs at hc with h1 h2
    · rw [if_pos h1, getEdge_cons, ih hcs' hc]
      by_cases hid : id = n.first
      · subst hid
        simp [h1]
      · simp [hid]
    · rw [if_neg h1, getEdge_cons, h2]
      by_cases hid : id = n.first
      · subst hid
        simp
      · simp [hid, Ne.symm hid]

/-! ## Tries with labels of length one -/

/-- All labels below have length one, and the children of every node are sorted. -/
inductive FlatEdges : List (Node α β) → Prop
  | mk {cs : List (Node α β)} (rest : ∀ c ∈ cs, c.rest = []) (sorted : SortedEdges cs)
      (below : ∀ c ∈ cs, FlatEdges c.children) : FlatEdges cs

theorem flatEdges_nil : FlatEdges ([] : List (Node α β)) :=
  .mk (fun _ h => absurd h List.not_mem_nil) List.Pairwise.nil
    (fun _ h => absurd h List.not_mem_nil)

theorem FlatEdges.sorted {cs : List (Node α β)} (h : FlatEdges cs) : SortedEdges cs := by
  cases h with
  | mk _ sorted _ => exact sorted

theorem FlatEdges.of_getEdge {cs : List (Node α β)} (h : FlatEdges cs) {id : α} {c : Node α β}
    (hc : getEdge cs id = some c) : c.label = [id] ∧ FlatEdges c.children := by
  obtain ⟨hmem, hfirst⟩ := mem_of_getEdge hc
  cases h with
  | mk rest _ below => exact ⟨by rw [Node.label, rest c hmem, hfirst], below c hmem⟩

theorem FlatEdges.addEdge {cs : List (Node α β)} (h : FlatEdges cs) {n : Node α β}
    (hn : getEdge cs n.first = none) (hrest : n.rest = []) (hbelow : FlatEdges n.children) :
    FlatEdges (addEdge cs n) := by
  cases h with
  | mk rest sorted below =>
    refine .mk (fun c hc => ?_) (sortedEdges_addEdge sorted hn) (fun c hc => ?_)
    · rcases mem_addEdge.1 hc with rfl | hc
      · exact hrest
      · exact rest c hc
    · rcases mem_addEdge.1 hc with rfl | hc
      · exact hbelow
      · exact below c hc

theorem FlatEdges.setEdge {cs : List (Node α β)} (h : FlatEdges cs) {n c : Node α β}
    (hc : getEdge cs n.first = some c) (hrest : n.rest = []) (hbelow : FlatEdges n.children) :
    FlatEdges (setEdge cs n) := by
  cases h with
  | mk rest sorted below =>
    refine .mk (fun d hd => ?_) (sortedEdges_setEdge sorted hc) (fun d hd => ?_)
    · rcases mem_setEdge hd with rfl | hd
      · exact hrest
      · exact rest d hd
    · rcases mem_setEdge hd with rfl | hd
      · exact hbelow
      · exact below d hd

/-- A sequence and the label of its first element. -/
theorem query_singleton (a : α) (s : List α) :
    query [a] (a :: s) = if s = [] then .Same else .LabelIsPrefix := by
  have hcommon : commonLength (a :: s) [a] = 1 := by
    rw [commonLength, if_pos rfl]
    cases s <;> rfl
  rw [query, hcommon]
  cases s with
  | nil => rfl
  | cons b s =>
    rw [if_neg (List.cons_ne_nil b s)]
    simp

/-- The payload under a sequence, one element a node. -/
def content : List (Node α β) → List α → Option β
  | _, [] => none
  | cs, a :: s => (getEdge cs a).bind fun c => if s = [] then some c.dat else content c.children s

theorem content_of_getEdge {cs : List (Node α β)} {a : α} {c : Node α β}
    (hc : getEdge cs a = some c) (s : List α) :
    content cs (a :: s) = if s = [] then some c.dat else content c.children s := by
  rw [content, hc, Option.bind_some]

theorem content_of_getEdge_eq_none {cs : List (Node α β)} {a : α} (hc : getEdge cs a = none)
    (s : List α) : content cs (a :: s) = none := by
  rw [content, hc, Option.bind_none]

theorem content_nil (s : List α) : content ([] : List (Node α β)) s = none := by
  cases s with
  | nil => rfl
  | cons a s => exact content_of_getEdge_eq_none rfl s

/-- What is under a sequence is under its prefixes too. -/
theorem content_isSome_of_append {s u : List α} : ∀ {cs : List (Node α β)},
    (content cs (s ++ u)).isSome → s ≠ [] → (content cs s).isSome := by
  induction s with
  | nil => exact fun _ h => absurd rfl h
  | cons a s ih =>
    intro cs h _
    cases hc : getEdge cs a with
    | none =>
      rw [List.cons_append, content_of_getEdge_eq_none hc] at h
      exact Bool.noConfusion h
    | some c =>
      rw [content_of_getEdge hc]
      rw [List.cons_append, content_of_getEdge hc] at h
      by_cases hs : s = []
      · rw [if_pos hs]
        rfl
      · rw [if_neg hs]
        rw [if_neg (by simp [hs])] at h
        exact ih h hs

/-! ## The operations on such tries -/

theorem lookupLoop_eq {s : List α} : ∀ {n : ℕ} {cs : List (Node α β)}, FlatEdges cs → s ≠ [] →
    s.length ≤ n → lookupLoop n cs s = some (content cs s) := by
  induction s with
  | nil => exact fun _ h => absurd rfl h
  | cons a s ih =>
    intro n cs hcs _ hn
    obtain ⟨n, rfl⟩ : ∃ m, n = m + 1 := ⟨n - 1, by rw [List.length_cons] at hn; omega⟩
    rw [lookupLoop]
    cases hc : getEdge cs a with
    | none => rw [content_of_getEdge_eq_none hc]
    | some c =>
      obtain ⟨hlabel, hbelow⟩ := hcs.of_getEdge hc
      rw [content_of_getEdge hc]
      simp only [hlabel, query_singleton]
      by_cases hs : s = []
      · rw [if_pos hs, if_pos hs]
      · rw [if_neg hs, if_neg hs]
        exact ih hbelow hs (by rw [List.length_cons] at hn; omega)

theorem content_setEdge {cs : List (Node α β)} (hcs : FlatEdges cs) {n c : Node α β}
    (hc : getEdge cs n.first = some c) (a : α) (s : List α) :
    content (setEdge cs n) (a :: s) =
      if a = n.first then (if s = [] then some n.dat else content n.children s)
      else content cs (a :: s) := by
  rw [content, getEdge_setEdge hcs.sorted hc]
  by_cases ha : a = n.first
  · rw [if_pos ha, if_pos ha, Option.bind_some]
  · rw [if_neg ha, if_neg ha, content]

theorem content_addEdge {cs : List (Node α β)} (hcs : FlatEdges cs) {n : Node α β}
    (hn : getEdge cs n.first = none) (a : α) (s : List α) :
    content (addEdge cs n) (a :: s) =
      if a = n.first then (if s = [] then some n.dat else content n.children s)
      else content cs (a :: s) := by
  rw [content, getEdge_addEdge hcs.sorted hn]
  by_cases ha : a = n.first
  · rw [if_pos ha, if_pos ha, Option.bind_some]
  · rw [if_neg ha, if_neg ha, content]

/-- Below the root, a sequence is added below its prefix. -/
theorem addSeqLoop_eq [Inhabited β] (data : β) {s : List α} : ∀ {n : ℕ} {cs : List (Node α β)},
    FlatEdges cs → s ≠ [] → s.length ≤ n → content cs s = none →
      (s.dropLast ≠ [] → (content cs s.dropLast).isSome) →
        ∃ cs', addSeqLoop data n cs s = some (cs', true) ∧ FlatEdges cs' ∧
          ∀ u, content cs' u = if u = s then some data else content cs u := by
  induction s with
  | nil => exact fun _ h => absurd rfl h
  | cons a s ih =>
    intro n cs hcs _ hn hnone hpre
    obtain ⟨n, rfl⟩ : ∃ m, n = m + 1 := ⟨n - 1, by rw [List.length_cons] at hn; omega⟩
    rw [addSeqLoop]
    cases hc : getEdge cs a with
    | none =>
      -- a new child, which has to be the end of the sequence
      have hs : s = [] := by
        by_contra hs
        rw [List.dropLast_cons_of_ne_nil hs] at hpre
        have := hpre (List.cons_ne_nil _ _)
        rw [content_of_getEdge_eq_none hc] at this
        exact Bool.noConfusion this
      subst hs
      have hleaf : getEdge cs (Node.mk a [] data []).first = none := hc
      refine ⟨addEdge cs (.mk a [] data []), rfl, hcs.addEdge hleaf rfl flatEdges_nil,
        fun u => ?_⟩
      cases u with
      | nil => rfl
      | cons b u =>
        rw [content_addEdge hcs hleaf, show (Node.mk a [] data []).first = a from rfl]
        by_cases hb : b = a
        · subst hb
          by_cases hu : u = []
          · subst hu
            rw [if_pos rfl, if_pos rfl, if_pos rfl]
            rfl
          · rw [if_pos rfl, if_neg hu, if_neg (by simp [hu]), content_of_getEdge_eq_none hc]
            exact content_nil u
        · rw [if_neg hb, if_neg (by simp [hb])]
    | some c =>
      obtain ⟨hlabel, hbelow⟩ := hcs.of_getEdge hc
      rw [content_of_getEdge hc] at hnone
      have hs : s ≠ [] := by
        rintro rfl
        simp at hnone
      rw [if_neg hs] at hnone
      simp only [hlabel, query_singleton, if_neg hs, List.length_singleton, List.drop_succ_cons,
        List.drop_zero]
      have hpre' : s.dropLast ≠ [] → (content c.children s.dropLast).isSome := by
        intro hd
        rw [List.dropLast_cons_of_ne_nil hs, content_of_getEdge hc, if_neg hd] at hpre
        exact hpre (List.cons_ne_nil _ _)
      obtain ⟨below, hrun, hflat, hcontent⟩ :=
        ih (n := n) hbelow hs (by rw [List.length_cons] at hn; omega) hnone hpre'
      have hfirst : (c.setChildren below).first = a := (mem_of_getEdge hc).2
      have hc' : getEdge cs (c.setChildren below).first = some c := by rw [hfirst, hc]
      have hrest : (c.setChildren below).rest = [] := by
        rw [Node.label] at hlabel
        exact (List.cons.inj hlabel).2
      refine ⟨setEdge cs (c.setChildren below), by rw [hrun]; rfl,
        hcs.setEdge hc' hrest hflat, fun u => ?_⟩
      cases u with
      | nil => rfl
      | cons b u =>
        rw [content_setEdge hcs hc', hfirst]
        by_cases hb : b = a
        · subst hb
          rw [if_pos rfl, content_of_getEdge hc]
          by_cases hu : u = []
          · subst hu
            rw [if_pos rfl, if_neg (by simpa using Ne.symm hs), if_pos rfl]
            rfl
          · rw [if_neg hu, if_neg hu]
            have := hcontent u
            simp only [List.cons.injEq, true_and]
            exact this
        · rw [if_neg hb, if_neg (by simp [hb])]

/-- Below the root, changing a payload changes nothing else. -/
theorem modifyLoop_eq (f : β → β) {s : List α} : ∀ {n : ℕ} {cs : List (Node α β)},
    FlatEdges cs → s.length ≤ n → FlatEdges (modifyLoop f n cs s) ∧
      ∀ u, content (modifyLoop f n cs s) u =
        if u = s then (content cs u).map f else content cs u := by
  induction s with
  | nil =>
    intro n cs hcs _
    have hmod : modifyLoop f n cs [] = cs := by cases n <;> rfl
    rw [hmod]
    refine ⟨hcs, fun u => ?_⟩
    split
    · subst u
      rfl
    · rfl
  | cons a s ih =>
    intro n cs hcs hn
    obtain ⟨n, rfl⟩ : ∃ m, n = m + 1 := ⟨n - 1, by rw [List.length_cons] at hn; omega⟩
    rw [modifyLoop]
    cases hc : getEdge cs a with
    | none =>
      simp only
      refine ⟨hcs, fun u => ?_⟩
      by_cases hu : u = a :: s
      · rw [if_pos hu, hu, content_of_getEdge_eq_none hc]
        rfl
      · rw [if_neg hu]
    | some c =>
      obtain ⟨hlabel, hbelow⟩ := hcs.of_getEdge hc
      have hfirst : c.first = a := (mem_of_getEdge hc).2
      have hrest : c.rest = [] := by
        rw [Node.label] at hlabel
        exact (List.cons.inj hlabel).2
      simp only [hlabel, query_singleton]
      by_cases hs : s = []
      · subst hs
        have hc' : getEdge cs (c.setData (f c.dat)).first = some c := by
          rw [← hc, ← hfirst]
          rfl
        simp only [if_true]
        refine ⟨hcs.setEdge hc' hrest hbelow, fun u => ?_⟩
        cases u with
        | nil => rfl
        | cons b u =>
          rw [content_setEdge hcs hc']
          have hset : (c.setData (f c.dat)).first = a := hfirst
          rw [hset]
          by_cases hb : b = a
          · subst hb
            rw [if_pos rfl, content_of_getEdge hc]
            by_cases hu : u = []
            · subst hu
              simp only [if_true, Option.map_some]
              rfl
            · rw [if_neg hu, if_neg hu, if_neg (by simpa using hu)]
              rfl
          · rw [if_neg hb, if_neg (by simp [hb])]
      · simp only [if_neg hs, List.length_singleton, List.drop_succ_cons, List.drop_zero]
        obtain ⟨hflat, hcontent⟩ := ih (n := n) hbelow (by rw [List.length_cons] at hn; omega)
        have hc' : getEdge cs (c.setChildren (modifyLoop f n c.children s)).first = some c := by
          rw [← hc, ← hfirst]
          rfl
        refine ⟨hcs.setEdge hc' hrest hflat, fun u => ?_⟩
        cases u with
        | nil => rfl
        | cons b u =>
          rw [content_setEdge hcs hc']
          have hset : (c.setChildren (modifyLoop f n c.children s)).first = a := hfirst
          rw [hset]
          by_cases hb : b = a
          · subst hb
            rw [if_pos rfl, content_of_getEdge hc]
            by_cases hu : u = []
            · subst hu
              rw [if_pos rfl, if_neg (by simpa using Ne.symm hs), if_pos rfl]
              rfl
            · rw [if_neg hu, if_neg hu]
              simp only [List.cons.injEq, true_and]
              exact hcontent u
          · rw [if_neg hb, if_neg (by simp [hb])]

/-- How many elements of a sequence lead to children below a node. -/
def matched : List (Node α β) → List α → ℕ
  | _, [] => 0
  | cs, a :: s => ((getEdge cs a).map fun c => matched c.children s + 1).getD 0

theorem matched_of_getEdge {cs : List (Node α β)} {a : α} {c : Node α β}
    (hc : getEdge cs a = some c) (s : List α) :
    matched cs (a :: s) = matched c.children s + 1 := by
  rw [matched, hc, Option.map_some, Option.getD_some]

theorem matched_of_getEdge_eq_none {cs : List (Node α β)} {a : α} (hc : getEdge cs a = none)
    (s : List α) : matched cs (a :: s) = 0 := by
  rw [matched, hc, Option.map_none, Option.getD_none]

theorem matched_le (s : List α) : ∀ cs : List (Node α β), matched cs s ≤ s.length := by
  induction s with
  | nil => exact fun _ => Nat.le_refl _
  | cons a s ih =>
    intro cs
    cases hc : getEdge cs a with
    | none =>
      rw [matched_of_getEdge_eq_none hc]
      exact Nat.zero_le _
    | some c =>
      rw [matched_of_getEdge hc, List.length_cons]
      exact Nat.succ_le_succ (ih c.children)

/-- What has been matched is there. -/
theorem content_take_matched (s : List α) : ∀ cs : List (Node α β), matched cs s ≠ 0 →
    (content cs (s.take (matched cs s))).isSome := by
  induction s with
  | nil => exact fun _ h => absurd rfl h
  | cons a s ih =>
    intro cs h
    cases hc : getEdge cs a with
    | none => exact absurd (matched_of_getEdge_eq_none hc s) h
    | some c =>
      rw [matched_of_getEdge hc, List.take_succ_cons, content_of_getEdge hc]
      by_cases h0 : matched c.children s = 0
      · rw [h0, List.take_zero, if_pos rfl]
        rfl
      · have hs : s ≠ [] := by
          rintro rfl
          exact h0 rfl
        rw [if_neg (by simp [hs, h0])]
        exact ih c.children h0

/-- With one element more, nothing is there. -/
theorem content_take_matched_succ (s : List α) : ∀ cs : List (Node α β),
    matched cs s < s.length → content cs (s.take (matched cs s + 1)) = none := by
  induction s with
  | nil => exact fun _ h => absurd h (Nat.not_lt_zero _)
  | cons a s ih =>
    intro cs h
    cases hc : getEdge cs a with
    | none =>
      rw [List.take_succ_cons]
      exact content_of_getEdge_eq_none hc _
    | some c =>
      rw [matched_of_getEdge hc, List.length_cons] at h
      have hlt : matched c.children s < s.length := Nat.lt_of_succ_lt_succ h
      have hs : s ≠ [] := by
        rintro rfl
        exact absurd hlt (Nat.not_lt_zero _)
      rw [matched_of_getEdge hc, List.take_succ_cons, content_of_getEdge hc,
        if_neg (by simp [hs])]
      exact ih c.children hlt

theorem findLoop_eq {size : ℕ} {s : List α} : ∀ {n result : ℕ} {cs : List (Node α β)},
    FlatEdges cs → s ≠ [] → s.length ≤ n → result + s.length = size →
      findLoop size n cs s result = some (result + matched cs s) := by
  induction s with
  | nil => exact fun _ h => absurd rfl h
  | cons a s ih =>
    intro n result cs hcs _ hn hsize
    obtain ⟨n, rfl⟩ : ∃ m, n = m + 1 := ⟨n - 1, by rw [List.length_cons] at hn; omega⟩
    rw [List.length_cons] at hn hsize
    rw [findLoop]
    cases hc : getEdge cs a with
    | none =>
      rw [matched_of_getEdge_eq_none hc]
      rfl
    | some c =>
      obtain ⟨hlabel, hbelow⟩ := hcs.of_getEdge hc
      rw [matched_of_getEdge hc]
      simp only [hlabel, query_singleton]
      by_cases hs : s = []
      · subst hs
        rw [if_pos rfl]
        exact if_pos hsize
      · simp only [if_neg hs, List.length_singleton, List.drop_succ_cons, List.drop_zero]
        rw [ih (n := n) hbelow hs (by omega) (by omega)]
        congr 1
        omega

/-! ## Tries as maps -/

/-- All labels of the trie have length one, and children are sorted. -/
def Flat (t : Trie α β) : Prop := FlatEdges t.children

theorem lookup_nil (t : Trie α β) : lookup t [] = some t.dat := rfl

theorem Flat.lookup_eq {t : Trie α β} (ht : t.Flat) {s : List α} (hs : s ≠ []) :
    lookup t s = content t.children s := by
  rw [lookup, lookupPtr, if_neg (by simpa using hs), lookupLoop_eq ht hs (Nat.le_refl _),
    Option.join_some]

theorem isSome_lookup_of_append {t : Trie α β} (ht : t.Flat) {s u : List α}
    (h : (lookup t (s ++ u)).isSome) : (lookup t s).isSome := by
  by_cases hs : s = []
  · subst hs
    rfl
  · rw [ht.lookup_eq (by simp [hs])] at h
    rw [ht.lookup_eq hs]
    exact content_isSome_of_append h hs

/-- **Adding a sequence changes only its payload**, when the sequence extends one that is there by
one element and is not there itself. -/
theorem addSeq_eq [Inhabited β] {t : Trie α β} (ht : t.Flat) {s : List α} {a : α} {data : β}
    (hs : (lookup t s).isSome) (hsa : lookup t (s ++ [a]) = none) :
    ∃ t', addSeq t (s ++ [a]) data = some (t', true) ∧ t'.Flat ∧
      ∀ u, lookup t' u = if u = s ++ [a] then some data else lookup t u := by
  have hne : s ++ [a] ≠ [] := by simp
  rw [ht.lookup_eq hne] at hsa
  have hpre : (s ++ [a]).dropLast ≠ [] → (content t.children (s ++ [a]).dropLast).isSome := by
    rw [List.dropLast_concat]
    intro hs'
    rw [← ht.lookup_eq hs']
    exact hs
  obtain ⟨cs, hrun, hflat, hcontent⟩ := addSeqLoop_eq data ht hne (Nat.le_refl _) hsa hpre
  refine ⟨{ t with children := cs }, ?_, hflat, fun u => ?_⟩
  · rw [addSeq, if_neg (by simp), hrun]
    rfl
  · by_cases hu : u = []
    · subst hu
      rw [if_neg (Ne.symm hne), lookup_nil, lookup_nil]
    · rw [Flat.lookup_eq (t := { t with children := cs }) hflat hu, ht.lookup_eq hu]
      exact hcontent u

/-- Changing the payload of a sequence changes nothing else. -/
theorem modify_eq {t : Trie α β} (ht : t.Flat) (s : List α) (f : β → β) :
    (t.modify s f).Flat ∧
      ∀ u, lookup (t.modify s f) u = if u = s then (lookup t u).map f else lookup t u := by
  rw [modify]
  by_cases hs : s = []
  · subst hs
    refine ⟨ht, fun u => ?_⟩
    by_cases hu : u = []
    · subst hu
      rfl
    · rw [if_neg hu]
      rw [if_pos List.isEmpty_nil, Flat.lookup_eq (t := { t with dat := f t.dat }) ht hu,
        ht.lookup_eq hu]
  · rw [if_neg (by simpa using hs)]
    obtain ⟨hflat, hcontent⟩ := modifyLoop_eq f (s := s) ht (Nat.le_refl s.length)
    refine ⟨hflat, fun u => ?_⟩
    by_cases hu : u = []
    · subst hu
      rw [if_neg (Ne.symm hs)]
      rfl
    · rw [Flat.lookup_eq (t := { t with children := modifyLoop f s.length t.children s }) hflat hu,
        ht.lookup_eq hu]
      exact hcontent u

/-- **The prefix that is found is the longest one that is there.** -/
theorem findLongestCommonPrefix_eq {t : Trie α β} (ht : t.Flat) (s : List α) :
    ∃ r, findLongestCommonPrefix t s = some r ∧ r ≤ s.length ∧
      (lookup t (s.take r)).isSome ∧ (r < s.length → lookup t (s.take (r + 1)) = none) := by
  rw [findLongestCommonPrefix]
  by_cases hs : s = []
  · subst hs
    exact ⟨0, rfl, Nat.le_refl _, rfl, fun h => absurd h (Nat.not_lt_zero _)⟩
  · rw [if_neg (by simpa using hs), findLoop_eq ht hs (Nat.le_refl _) (Nat.zero_add _),
      Nat.zero_add]
    refine ⟨matched t.children s, rfl, matched_le s t.children, ?_, fun hlt => ?_⟩
    · by_cases h0 : matched t.children s = 0
      · rw [h0, List.take_zero, lookup_nil]
        rfl
      · rw [ht.lookup_eq (by simp [hs, h0])]
        exact content_take_matched s t.children h0
    · rw [ht.lookup_eq (by simp [hs])]
      exact content_take_matched_succ s t.children hlt

end Edges

end Trie
end GenMC
