import GenMC.ADT.Trie
import Mathlib.Data.Set.Insert

/-!
# Tries with labels of any length

Adding a sequence to a trie may split an edge.  The node in between gets the payload of a sequence
that was never added, and nothing tells it from a node for one that was.  The place where an edge is
split goes through a number of eight bits.

`Branch K p` says that two sequences of `K` part after `p`, and the nodes of the trie for `K` are
the sequences of `K`, the places where two of them part, and the root (`IsNode`).  A sequence
`ShortParts` from `K` if it leaves every sequence of `K` less than 128 elements below a node.

* `Represents`: a trie that is a map from sequences to payloads.
* `addSeqLoop_spec`, `lookupLoop_spec`, `findLoop_spec`: what the operations do to it.
* `addSeqs_map`: in runs that only add and look up sequences that part shortly and are not places
  where two others part, a trie is a finite map.
* `findLongestCommonPrefix_exact`: in runs that only add sequences that part shortly, the longest
  common prefix is found, unless it ends at a node that is more than one element below the last one.
-/

set_option autoImplicit false

namespace GenMC
namespace Trie

variable {α β : Type*}

/-! ## Where sequences part -/

/-- Two sequences of `K` part after `p`. -/
def Branch (K : Set (List α)) (p : List α) : Prop :=
  ∃ a b u v, a ≠ b ∧ p ++ a :: u ∈ K ∧ p ++ b :: v ∈ K

/-- The root, a sequence of `K`, or a place where two of them part. -/
def IsNode (K : Set (List α)) (p : List α) : Prop := p = [] ∨ p ∈ K ∨ Branch K p

/-- What is left of the sequences that start with `l`. -/
def below (K : Set (List α)) (l : List α) : Set (List α) := {u | l ++ u ∈ K}

theorem branch_below {K : Set (List α)} {l p : List α} :
    Branch (below K l) p ↔ Branch K (l ++ p) := by
  simp only [Branch, below, Set.mem_ofPred_eq, List.append_assoc]

theorem isNode_below {K : Set (List α)} {l : List α} (hl : IsNode K l) {p : List α} :
    IsNode (below K l) p ↔ IsNode K (l ++ p) := by
  by_cases hp : p = []
  · subst hp
    rw [List.append_nil]
    exact ⟨fun _ => hl, fun _ => .inl rfl⟩
  · rw [IsNode, IsNode, branch_below]
    simp [hp, below]

variable [LinearOrder α]

/-- The sequence leaves each one of `K` less than 128 elements below a node. -/
def ShortParts (K : Set (List α)) (s : List α) : Prop :=
  ∀ k ∈ K, commonLength s k < s.length → commonLength s k < k.length →
    ∃ q, IsNode K q ∧ q <+: s ∧ q.length ≤ commonLength s k ∧ commonLength s k < q.length + 128

/-- How two sequences compare. -/
theorem parts (s l : List α) :
    s = l ∨ (∃ b v, l = s ++ b :: v) ∨ (∃ a u, s = l ++ a :: u) ∨
      ∃ p a b u v, a ≠ b ∧ s = p ++ a :: u ∧ l = p ++ b :: v := by
  induction s generalizing l with
  | nil =>
    cases l with
    | nil => exact .inl rfl
    | cons b v => exact .inr (.inl ⟨b, v, rfl⟩)
  | cons a s ih =>
    cases l with
    | nil => exact .inr (.inr (.inl ⟨a, s, rfl⟩))
    | cons b l =>
      by_cases hab : a = b
      · subst hab
        rcases ih l with rfl | ⟨b, v, rfl⟩ | ⟨x, u, rfl⟩ | ⟨p, x, y, u, v, hxy, rfl, rfl⟩
        · exact .inl rfl
        · exact .inr (.inl ⟨b, v, rfl⟩)
        · exact .inr (.inr (.inl ⟨x, u, rfl⟩))
        · exact .inr (.inr (.inr ⟨a :: p, x, y, u, v, hxy, rfl, rfl⟩))
      · exact .inr (.inr (.inr ⟨[], a, b, s, l, hab, rfl, rfl⟩))

theorem commonLength_append (l s k : List α) :
    commonLength (l ++ s) (l ++ k) = l.length + commonLength s k := by
  induction l with
  | nil => exact (Nat.zero_add _).symm
  | cons a l ih =>
    rw [List.cons_append, List.cons_append, commonLength, if_pos rfl, ih, List.length_cons]
    omega

@[simp] theorem commonLength_nil_left (s : List α) : commonLength [] s = 0 := by
  rw [commonLength]
  rintro _ _ _ _ h
  cases h

@[simp] theorem commonLength_nil_right (s : List α) : commonLength s [] = 0 := by
  cases s <;> rfl

theorem commonLength_parted {p u v : List α} {a b : α} (hab : a ≠ b) :
    commonLength (p ++ a :: u) (p ++ b :: v) = p.length := by
  rw [commonLength_append, commonLength, if_neg hab, Nat.add_zero]

theorem commonLength_self (s : List α) : commonLength s s = s.length := by
  simpa using commonLength_append s [] []

theorem commonLength_append_right (s u : List α) : commonLength s (s ++ u) = s.length := by
  simpa using commonLength_append s [] u

theorem commonLength_append_left (s u : List α) : commonLength (s ++ u) s = s.length := by
  simpa using commonLength_append s u []

/-- The common part of two sequences is a prefix of both, and the longest one. -/
theorem prefix_iff_le_commonLength {s k : List α} {r : ℕ} (hr : r ≤ s.length) :
    s.take r <+: k ↔ r ≤ commonLength s k := by
  rcases parts s k with rfl | ⟨b, v, rfl⟩ | ⟨a, u, rfl⟩ | ⟨p, a, b, u, v, hab, rfl, rfl⟩
  · rw [commonLength_self]
    exact iff_of_true (List.take_prefix r s) hr
  · rw [commonLength_append_right]
    exact iff_of_true ((List.take_prefix r s).trans (List.prefix_append _ _)) hr
  · rw [commonLength_append_left]
    refine ⟨fun h => ?_, fun h => ?_⟩
    · have hle := h.length_le
      rwa [List.length_take, min_eq_left hr] at hle
    · rw [List.take_append_of_le_length h]
      exact List.take_prefix r k
  · rw [commonLength_parted hab]
    refine ⟨fun h => ?_, fun h => ?_⟩
    · by_contra hlt
      rw [not_le] at hlt
      -- the prefix would contain the element where the two part
      have hlen : p.length < ((p ++ a :: u).take r).length := by
        rw [List.length_take]
        exact lt_min hlt (by simp)
      have hget := h.getElem hlen
      simp [hab] at hget
    · rw [List.take_append_of_le_length h]
      exact (List.take_prefix r p).trans (List.prefix_append _ _)

theorem commonLength_le_left (s k : List α) : commonLength s k ≤ s.length := by
  rcases parts s k with rfl | ⟨b, v, rfl⟩ | ⟨a, u, rfl⟩ | ⟨p, a, b, u, v, hab, rfl, rfl⟩
  · exact (commonLength_self s).le
  · exact (commonLength_append_right s _).le
  · rw [commonLength_append_left, List.length_append]
    omega
  · rw [commonLength_parted hab, List.length_append]
    omega

/-- The length of the longest prefix of `s` that is a prefix of a sequence of `K`. -/
def Longest (K : Set (List α)) (s : List α) (r : ℕ) : Prop :=
  r ≤ s.length ∧ (r = 0 ∨ ∃ k ∈ K, s.take r <+: k) ∧
    ∀ r' ≤ s.length, (∃ k ∈ K, s.take r' <+: k) → r' ≤ r

theorem longest_iff {K : Set (List α)} {s : List α} {r : ℕ} :
    Longest K s r ↔ r ≤ s.length ∧ (r = 0 ∨ ∃ k ∈ K, r ≤ commonLength s k) ∧
      ∀ k ∈ K, commonLength s k ≤ r := by
  rw [Longest]
  refine and_congr_right fun hr => and_congr (or_congr_right ?_)
    ⟨fun h k hk => ?_, fun h r' hr' => ?_⟩
  · exact exists_congr fun k => and_congr_right fun _ => prefix_iff_le_commonLength hr
  · have hle := commonLength_le_left s k
    exact h _ hle ⟨k, hk, (prefix_iff_le_commonLength hle).2 le_rfl⟩
  · rintro ⟨k, hk, hpre⟩
    exact ((prefix_iff_le_commonLength hr').1 hpre).trans (h k hk)

/-- The sequence ends at a node, and what is before its last element does not. -/
def EndsDeep (K : Set (List α)) (s : List α) : Prop := IsNode K s ∧ ¬ IsNode K s.dropLast

/-! ## Comparing with a label of any length -/

theorem query_self (l : List α) : query l l = .Same := by
  rw [query, commonLength_self, min_self, if_pos rfl, if_pos rfl]

theorem query_stringIsPrefix (s v : List α) (b : α) :
    query (s ++ b :: v) s = .StringIsPrefix := by
  rw [query, commonLength_append_right]
  simp

theorem query_labelIsPrefix (l u : List α) (a : α) : query l (l ++ a :: u) = .LabelIsPrefix := by
  rw [query, commonLength_append_left]
  simp

theorem query_parted {p u v : List α} {a b : α} (hab : a ≠ b) :
    query (p ++ b :: v) (p ++ a :: u) = .ofLength p.length := by
  rw [query, commonLength_parted hab, if_neg]
  simp only [List.length_append, List.length_cons]
  omega

theorem bmod_of_lt {i : ℕ} (hlt : i < 128) : (i : Int).bmod 256 = i := by
  have hlo : -(((256 : ℕ) : Int) / 2) ≤ (i : Int) := by omega
  have hhi : (i : Int) < (((256 : ℕ) : Int) + 1) / 2 := by omega
  exact Int.bmod_eq_of_le hlo hhi

/-- A length below 128 survives the cast. -/
theorem QueryResult.ofLength_of_lt {i : ℕ} (hpos : 0 < i) (hlt : i < 128) :
    ofLength i = .HaveCommonPart i := by
  unfold ofLength
  simp only [bmod_of_lt hlt]
  rw [if_neg (by omega), if_neg (by omega), if_neg (by omega), if_neg (by omega)]

/-! ## Tries as maps -/

/-- The sequences that have a payload. -/
def keys (m : List α → Option β) : Set (List α) := {k | (m k).isSome}

/-- The payloads of the sequences that start with `l`. -/
def mapBelow (m : List α → Option β) (l : List α) : List α → Option β := fun u => m (l ++ u)

/-- A sequence gets a payload. -/
def put (m : List α → Option β) (s : List α) (d : β) : List α → Option β :=
  fun u => if u = s then some d else m u

omit [LinearOrder α] in
theorem keys_mapBelow (m : List α → Option β) (l : List α) :
    keys (mapBelow m l) = below (keys m) l := rfl

theorem keys_put (m : List α → Option β) (s : List α) (d : β) :
    keys (put m s d) = insert s (keys m) := by
  ext u
  simp only [keys, put, Set.mem_ofPred_eq, Set.mem_insert_iff]
  split <;> simp_all

theorem mapBelow_put (m : List α → Option β) (l s : List α) (d : β) :
    mapBelow (put m (l ++ s) d) l = put (mapBelow m l) s d := by
  funext u
  simp only [mapBelow, put, List.append_cancel_left_eq]

omit [LinearOrder α] in
theorem mapBelow_append (m : List α → Option β) (l l' : List α) :
    mapBelow m (l ++ l') = mapBelow (mapBelow m l) l' := by
  funext u
  rw [mapBelow, mapBelow, mapBelow, List.append_assoc]

/-- The children represent a map: every sequence that starts as a label goes on as the label, and
every label ends at a sequence of the map, or at a place where two of them part. -/
inductive Represents [Inhabited β] : List (Node α β) → (List α → Option β) → Prop
  | mk {cs : List (Node α β)} {m : List α → Option β} (sorted : SortedEdges cs)
      (absent : ∀ a, getEdge cs a = none → ∀ u, m (a :: u) = none)
      (under : ∀ a c, getEdge cs a = some c → ∀ u, (m (a :: u)).isSome → c.label <+: a :: u)
      (data : ∀ a c, getEdge cs a = some c → m c.label = some c.dat ∨
        (m c.label = none ∧ c.dat = default ∧ Branch (keys m) c.label))
      (children : ∀ a c, getEdge cs a = some c →
        Represents c.children (mapBelow m c.label)) :
      Represents cs m

section
variable [Inhabited β] {cs : List (Node α β)} {m : List α → Option β}

theorem Represents.sorted (h : Represents cs m) : SortedEdges cs := by
  cases h with
  | mk sorted _ _ _ _ => exact sorted

theorem Represents.absent (h : Represents cs m) {a : α} (ha : getEdge cs a = none)
    (u : List α) : m (a :: u) = none := by
  cases h with
  | mk _ absent _ _ _ => exact absent a ha u

theorem Represents.under (h : Represents cs m) {a : α} {c : Node α β}
    (hc : getEdge cs a = some c) {u : List α} (hu : (m (a :: u)).isSome) :
    c.label <+: a :: u := by
  cases h with
  | mk _ _ under _ _ => exact under a c hc u hu

theorem Represents.data (h : Represents cs m) {a : α} {c : Node α β}
    (hc : getEdge cs a = some c) : m c.label = some c.dat ∨
      (m c.label = none ∧ c.dat = default ∧ Branch (keys m) c.label) := by
  cases h with
  | mk _ _ _ data _ => exact data a c hc

theorem Represents.children (h : Represents cs m) {a : α} {c : Node α β}
    (hc : getEdge cs a = some c) : Represents c.children (mapBelow m c.label) := by
  cases h with
  | mk _ _ _ _ children => exact children a c hc

/-- The label of a child ends at a node. -/
theorem Represents.isNode_label (h : Represents cs m) {a : α} {c : Node α β}
    (hc : getEdge cs a = some c) : IsNode (keys m) c.label := by
  rcases h.data hc with hd | ⟨-, -, hd⟩
  · exact .inr (.inl (by rw [keys, Set.mem_ofPred_eq, hd]; rfl))
  · exact .inr (.inr hd)

theorem represents_nil (h : ∀ a u, m (a :: u) = none) :
    Represents ([] : List (Node α β)) m :=
  .mk List.Pairwise.nil (fun a _ u => h a u) (fun _ _ hc => nomatch hc) (fun _ _ hc => nomatch hc)
    (fun _ _ hc => nomatch hc)

/-- No sequence goes through the inside of a label without following it. -/
theorem Represents.label_prefix (h : Represents cs m) {a : α} {c : Node α β}
    (hc : getEdge cs a = some c) {q u : List α} (hq : q ≠ []) (hql : q <+: c.label)
    (hu : q ++ u ∈ keys m) : c.label <+: q ++ u := by
  obtain ⟨b, q, rfl⟩ := List.exists_cons_of_ne_nil hq
  have hfirst : b = a := by
    obtain ⟨t, ht⟩ := hql
    have hhead := congrArg List.head? ht
    simp only [List.cons_append, List.head?_cons, Node.label, Option.some_inj] at hhead
    rw [hhead]
    exact (mem_of_getEdge hc).2
  subst hfirst
  exact h.under hc hu

/-- There are no nodes inside a label. -/
theorem Represents.not_isNode (h : Represents cs m) {a : α} {c : Node α β}
    (hc : getEdge cs a = some c) {q : List α} (hq : q ≠ []) (hql : q <+: c.label)
    (hne : q ≠ c.label) : ¬ IsNode (keys m) q := by
  rintro (hnil | hkey | ⟨x, y, u, v, hxy, hu, hv⟩)
  · exact hq hnil
  · have := h.label_prefix hc (u := []) hq hql (by rwa [List.append_nil])
    rw [List.append_nil] at this
    exact hne (hql.eq_of_length (le_antisymm hql.length_le this.length_le))
  · -- the label goes on in one way only
    obtain ⟨t, ht⟩ := hql
    have hu' := h.label_prefix hc hq ⟨t, ht⟩ hu
    have hv' := h.label_prefix hc hq ⟨t, ht⟩ hv
    rw [← ht] at hu' hv' hne
    rw [List.prefix_append_right_inj] at hu' hv'
    cases t with
    | nil => exact hne (List.append_nil q).symm
    | cons z t =>
      obtain ⟨rfl, -⟩ := List.cons_prefix_cons.1 hu'
      obtain ⟨rfl, -⟩ := List.cons_prefix_cons.1 hv'
      exact hxy rfl

/-- There is a sequence below every label. -/
theorem Represents.exists_key (h : Represents cs m) {a : α} {c : Node α β}
    (hc : getEdge cs a = some c) : ∃ u, c.label ++ u ∈ keys m := by
  rcases h.data hc with hd | ⟨-, -, x, y, u, v, -, hu, -⟩
  · refine ⟨[], ?_⟩
    rw [List.append_nil, keys, Set.mem_ofPred_eq, hd]
    rfl
  · exact ⟨_, hu⟩

/-- Only the sequences below the root matter. -/
theorem Represents.congr (h : Represents cs m) {m' : List α → Option β}
    (hm : ∀ u, u ≠ [] → m' u = m u) : Represents cs m' := by
  have hlabel : ∀ (c : Node α β) u, m' (c.label ++ u) = m (c.label ++ u) := fun c u =>
    hm _ (by simp [Node.label])
  refine .mk h.sorted (fun a ha u => ?_) (fun a c hc u hu => ?_) (fun a c hc => ?_) fun a c hc => ?_
  · rw [hm _ (List.cons_ne_nil _ _)]
    exact h.absent ha u
  · rw [hm _ (List.cons_ne_nil _ _)] at hu
    exact h.under hc hu
  · have hself := hlabel c []
    rw [List.append_nil] at hself
    rw [hself]
    refine (h.data hc).imp_right ?_
    rintro ⟨hnone, hdef, x, y, u, v, hxy, hu, hv⟩
    refine ⟨hnone, hdef, x, y, u, v, hxy, ?_, ?_⟩
    · rwa [keys, Set.mem_ofPred_eq, hlabel]
    · rwa [keys, Set.mem_ofPred_eq, hlabel]
  · have hsame : mapBelow m' c.label = mapBelow m c.label := funext (hlabel c)
    rw [hsame]
    exact h.children hc

/-- One child is added or replaced, and the map changes under it only. -/
theorem Represents.put_edge (h : Represents cs m) {cs' : List (Node α β)}
    {m' : List α → Option β} {n : Node α β} (hs : SortedEdges cs')
    (hget : ∀ a, getEdge cs' a = if a = n.first then some n else getEdge cs a)
    (hm : ∀ a u, a ≠ n.first → m' (a :: u) = m (a :: u))
    (hunder : ∀ u, (m' (n.first :: u)).isSome → n.label <+: n.first :: u)
    (hdata : m' n.label = some n.dat ∨
      (m' n.label = none ∧ n.dat = default ∧ Branch (keys m') n.label))
    (hchildren : Represents n.children (mapBelow m' n.label)) : Represents cs' m' := by
  -- what is under another child is as it was
  have hlabel : ∀ a c, a ≠ n.first → getEdge cs a = some c →
      ∀ u, m' (c.label ++ u) = m (c.label ++ u) := by
    intro a c ha hc u
    rw [Node.label, (mem_of_getEdge hc).2]
    exact hm a _ ha
  refine .mk hs (fun a ha u => ?_) (fun a c hc u hu => ?_) (fun a c hc => ?_) fun a c hc => ?_
  · rw [hget] at ha
    split at ha
    · cases ha
    · rename_i hne
      rw [hm a u hne]
      exact h.absent ha u
  · rw [hget] at hc
    split at hc
    · rename_i heq
      cases hc
      subst heq
      exact hunder u hu
    · rename_i hne
      rw [hm a u hne] at hu
      exact h.under hc hu
  · rw [hget] at hc
    split at hc
    · cases hc
      exact hdata
    · rename_i hne
      have hsame := hlabel a c hne hc
      have hself := hsame []
      rw [List.append_nil] at hself
      rw [hself]
      refine (h.data hc).imp_right ?_
      rintro ⟨hnone, hdef, x, y, u, v, hxy, hu, hv⟩
      refine ⟨hnone, hdef, x, y, u, v, hxy, ?_, ?_⟩
      · rwa [keys, Set.mem_ofPred_eq, hsame]
      · rwa [keys, Set.mem_ofPred_eq, hsame]
  · rw [hget] at hc
    split at hc
    · cases hc
      exact hchildren
    · rename_i hne
      have hsame : mapBelow m' c.label = mapBelow m c.label := funext (hlabel a c hne hc)
      rw [hsame]
      exact h.children hc

/-- A sequence that starts as no label gets a leaf. -/
theorem Represents.addLeaf (h : Represents cs m) {a : α} {s : List α} {d : β}
    (ha : getEdge cs a = none) :
    Represents (addEdge cs (.mk a s d [])) (put m (a :: s) d) := by
  have hlabel : (Node.mk a s d []).label = a :: s := rfl
  refine h.put_edge (sortedEdges_addEdge h.sorted ha) (getEdge_addEdge h.sorted ha)
    (fun b u hb => ?_) (fun u hu => ?_) (.inl ?_) (represents_nil fun b u => ?_)
  · rw [put, if_neg]
    rintro hcons
    exact hb (List.cons.inj hcons).1
  · rw [put] at hu
    split at hu
    · rename_i heq
      exact (hlabel.trans heq.symm) ▸ List.prefix_rfl
    · rw [show (Node.mk a s d []).first = a from rfl, h.absent ha u] at hu
      cases hu
  · rw [hlabel]
    exact if_pos rfl
  · rw [hlabel, mapBelow, put, if_neg (by simp), List.cons_append]
    exact h.absent ha _

/-- What is left of a label after `p`, on an edge of its own. -/
theorem Represents.split (h : Represents cs m) {a b : α} {c : Node α β}
    (hc : getEdge cs a = some c) {p v : List α} (hp : p ≠ []) (hlabel : c.label = p ++ b :: v) :
    Represents [.mk b v c.dat c.children] (mapBelow m p) := by
  have hpre : p <+: c.label := hlabel ▸ List.prefix_append p _
  have hunder : ∀ {u}, (mapBelow m p u).isSome → b :: v <+: u := by
    intro u hu
    have := h.label_prefix hc hp hpre hu
    rwa [hlabel, List.prefix_append_right_inj] at this
  have hget : ∀ x, getEdge [Node.mk b v c.dat c.children] x =
      if x = b then some (.mk b v c.dat c.children) else none := by
    intro x
    have hfirst : (Node.mk b v c.dat c.children).first = b := rfl
    rw [getEdge_cons, hfirst]
    by_cases hx : x = b
    · subst hx
      rw [if_neg (lt_irrefl x), if_pos rfl]
    · rw [if_neg (Ne.symm hx), if_neg hx]
      split <;> rfl
  have hself : (Node.mk b v c.dat c.children).label = b :: v := rfl
  refine .mk (List.pairwise_singleton _ _) (fun x hx u => ?_) (fun x n hn u hu => ?_)
    (fun x n hn => ?_) fun x n hn => ?_
  · rw [hget] at hx
    split at hx
    · cases hx
    · rename_i hne
      by_contra hsome
      obtain ⟨rfl, -⟩ := List.cons_prefix_cons.1 (hunder (Option.isSome_iff_ne_none.2 hsome))
      exact hne rfl
  · rw [hget] at hn
    split at hn
    · cases hn
      exact hunder hu
    · cases hn
  · rw [hget] at hn
    split at hn
    · cases hn
      rw [hself, keys_mapBelow, branch_below, ← hlabel, mapBelow, ← hlabel]
      exact h.data hc
    · cases hn
  · rw [hget] at hn
    split at hn
    · cases hn
      rw [hself, ← mapBelow_append, ← hlabel]
      exact h.children hc
    · cases hn

/-- The place where a sequence parts from a label is at most 127 elements below the node. -/
theorem Represents.parted_lt (h : Represents cs m) {a x b : α} {c : Node α β}
    (hc : getEdge cs a = some c) {p u v : List α} (hxb : x ≠ b) (hlabel : c.label = p ++ b :: v)
    (hshort : ShortParts (keys m) (p ++ x :: u)) : p.length < 128 := by
  obtain ⟨w, hw⟩ := h.exists_key hc
  rw [hlabel, List.append_assoc, List.cons_append] at hw
  have hcommon := commonLength_parted (u := u) (v := v ++ w) (p := p) hxb
  obtain ⟨q, hnode, hq, hqlen, hlt⟩ := hshort _ hw (by rw [hcommon]; simp)
    (by rw [hcommon]; simp)
  rw [hcommon] at hqlen hlt
  -- the only node that far up is the one the label starts at
  have hqp : q <+: p := by
    have := List.prefix_of_prefix_length_le hq (List.prefix_append p (x :: u)) hqlen
    exact this
  by_cases hq0 : q = []
  · rw [hq0] at hlt
    simpa using hlt
  · refine absurd hnode (h.not_isNode hc hq0 ?_ ?_)
    · rw [hlabel]
      exact hqp.trans (List.prefix_append p _)
    · intro heq
      have := congrArg List.length (heq.trans hlabel)
      rw [List.length_append, List.length_cons] at this
      omega

/-- Parting shortly, from the end of a label on. -/
theorem ShortParts.below {K : Set (List α)} {l s : List α} (hl : IsNode K l)
    (h : ShortParts K (l ++ s)) : ShortParts (Trie.below K l) s := by
  intro k hk hs hlen
  have hcommon := commonLength_append l s k
  obtain ⟨q, hnode, hq, hqlen, hlt⟩ := h (l ++ k) hk (by rw [hcommon, List.length_append]; omega)
    (by rw [hcommon, List.length_append]; omega)
  rw [hcommon] at hqlen hlt
  by_cases hle : l.length ≤ q.length
  · obtain ⟨q', rfl⟩ := List.prefix_of_prefix_length_le (List.prefix_append l s) hq hle
    rw [List.prefix_append_right_inj] at hq
    rw [List.length_append] at hqlen hlt
    exact ⟨q', (isNode_below hl).2 hnode, hq, by omega, by omega⟩
  · exact ⟨[], .inl rfl, List.nil_prefix, Nat.zero_le _, by simp only [List.length_nil]; omega⟩

/-- A child is replaced, by one whose label is part of the old one, and a sequence under it gets a
payload. -/
theorem Represents.set_put (h : Represents cs m) {a : α} {c n : Node α β} {s : List α} {d : β}
    (hc : getEdge cs a = some c) (hn : n.first = a) (hs : n.label <+: a :: s)
    (hl : n.label <+: c.label)
    (hdata : put m (a :: s) d n.label = some n.dat ∨ (put m (a :: s) d n.label = none ∧
      n.dat = default ∧ Branch (keys (put m (a :: s) d)) n.label))
    (hchildren : Represents n.children (mapBelow (put m (a :: s) d) n.label)) :
    Represents (setEdge cs n) (put m (a :: s) d) := by
  subst hn
  refine h.put_edge (sortedEdges_setEdge h.sorted hc) (getEdge_setEdge h.sorted hc)
    (fun b u hb => ?_) (fun u hu => ?_) hdata hchildren
  · rw [put, if_neg]
    rintro hcons
    exact hb (List.cons.inj hcons).1
  · rw [put] at hu
    split at hu
    · rename_i heq
      rw [heq]
      exact hs
    · exact hl.trans (h.under hc hu)

/-- A sequence that ends inside a label. -/
theorem Represents.putEnd (h : Represents cs m) {a b : α} {c : Node α β} {s v : List α} (d : β)
    (hc : getEdge cs a = some c) (hl : c.label = (a :: s) ++ b :: v) :
    Represents (setEdge cs (.mk a s d [.mk b v c.dat c.children])) (put m (a :: s) d) := by
  refine h.set_put hc rfl List.prefix_rfl (hl ▸ List.prefix_append _ _) (.inl ?_) ?_
  · exact if_pos rfl
  · refine (h.split hc (List.cons_ne_nil a s) hl).congr fun w hw => ?_
    exact if_neg fun heq => hw (List.append_right_eq_self.1 heq)

/-- A sequence that goes on below a label. -/
theorem Represents.putBelow (h : Represents cs m) {a x : α} {c : Node α β} {s u : List α} {d : β}
    (hc : getEdge cs a = some c) (hl : a :: s = c.label ++ x :: u) {below : List (Node α β)}
    (hbelow : Represents below (put (mapBelow m c.label) (x :: u) d)) :
    Represents (setEdge cs (c.setChildren below)) (put m (a :: s) d) := by
  have hlabel : (c.setChildren below).label = c.label := rfl
  have hne : c.label ≠ a :: s := by
    intro heq
    have := congrArg List.length (heq.trans hl)
    simp at this
  refine h.set_put hc (mem_of_getEdge hc).2 (hl ▸ List.prefix_append _ _) List.prefix_rfl ?_ ?_
  · rw [hlabel, put, if_neg hne, keys_put]
    refine (h.data hc).imp_right fun ⟨hnone, hdef, y, z, u', v', hyz, hu, hv⟩ => ?_
    exact ⟨hnone, hdef, y, z, u', v', hyz, .inr hu, .inr hv⟩
  · rw [hlabel, hl, mapBelow_put]
    exact hbelow

/-- Nothing changes but what is below a label, and there nothing changes in the map. -/
theorem Represents.setBelow (h : Represents cs m) {a : α} {c : Node α β}
    (hc : getEdge cs a = some c) {below : List (Node α β)}
    (hbelow : Represents below (mapBelow m c.label)) :
    Represents (setEdge cs (c.setChildren below)) m := by
  have hfirst : (c.setChildren below).first = a := (mem_of_getEdge hc).2
  have hset : getEdge cs (c.setChildren below).first = some c := by rw [hfirst, hc]
  have hdata := h.data hc
  refine h.put_edge (sortedEdges_setEdge h.sorted hset) (getEdge_setEdge h.sorted hset)
    (fun _ _ _ => rfl) (fun u hu => ?_) hdata hbelow
  rw [hfirst] at hu ⊢
  exact h.under hc hu

/-- A sequence that parts from a label. -/
theorem Represents.putParted (h : Represents cs m) {a x b : α} {c : Node α β} {p u v : List α}
    {d : β} (hc : getEdge cs a = some c) (hxb : x ≠ b) (hl : c.label = (a :: p) ++ b :: v) :
    Represents (setEdge cs (.mk a p default
      (addEdge [.mk b v c.dat c.children] (.mk x u d [])))) (put m (a :: (p ++ x :: u)) d) := by
  have hsplit := h.split hc (List.cons_ne_nil a p) hl
  have hpre : a :: p <+: c.label := hl ▸ List.prefix_append _ _
  have hne : a :: p ≠ a :: (p ++ x :: u) := by simp
  have hnone : m (a :: p) = none := by
    by_contra hsome
    have hkey : a :: p ∈ keys m := Option.isSome_iff_ne_none.2 hsome
    refine h.not_isNode hc (List.cons_ne_nil a p) hpre ?_ (.inr (.inl hkey))
    intro heq
    have := congrArg List.length (heq.trans hl)
    simp at this
  refine h.set_put hc rfl (List.prefix_append (a :: p) (x :: u)) hpre (.inr ⟨?_, rfl, ?_⟩) ?_
  · change put m _ d (a :: p) = none
    rw [put, if_neg hne, hnone]
  · -- the sequence and one below the label part here
    obtain ⟨w, hw⟩ := h.exists_key hc
    rw [hl, List.append_assoc, List.cons_append] at hw
    rw [keys_put]
    exact ⟨x, b, u, v ++ w, hxb, .inl rfl, .inr hw⟩
  · have hbx : getEdge [Node.mk b v c.dat c.children] x = none := by
      have hfirst : (Node.mk b v c.dat c.children).first = b := rfl
      rw [getEdge_cons, hfirst, if_neg (Ne.symm hxb)]
      split <;> rfl
    have hleaf := hsplit.addLeaf (s := u) (d := d) hbx
    rw [← mapBelow_put] at hleaf
    exact hleaf

/-! ## The operations -/

omit [LinearOrder α] in
/-- Splitting a label after `p`. -/
theorem splitEdge_eq {c : Node α β} {a b : α} {p v : List α}
    (hlabel : c.label = (a :: p) ++ b :: v) :
    splitEdge c (a :: p).length = some (.mk a p default [.mk b v c.dat c.children]) := by
  rw [splitEdge, hlabel, List.take_left, List.drop_left]

/-- A sequence that ends inside a label is no node. -/
theorem Represents.not_isNode_of_append (h : Represents cs m) {a b : α} {c : Node α β}
    (hc : getEdge cs a = some c) {s v : List α} (hs : s ≠ []) (hlabel : c.label = s ++ b :: v) :
    ¬ IsNode (keys m) s := by
  refine h.not_isNode hc hs (hlabel ▸ List.prefix_append s _) fun heq => ?_
  have := congrArg List.length (heq.trans hlabel)
  simp at this

/-- A sequence that parts from a label is no node. -/
theorem Represents.not_isNode_of_parted (h : Represents cs m) {a x b : α} {c : Node α β}
    (hc : getEdge cs a = some c) {p u v : List α} (hp : p ≠ []) (hxb : x ≠ b)
    (hlabel : c.label = p ++ b :: v) : ¬ IsNode (keys m) (p ++ x :: u) := by
  have hnot : ∀ w, p ++ x :: u ++ w ∉ keys m := by
    intro w hw
    rw [List.append_assoc] at hw
    have := h.label_prefix hc hp (hlabel ▸ List.prefix_append p _) hw
    rw [hlabel, List.prefix_append_right_inj, List.cons_append, List.cons_prefix_cons] at this
    exact hxb this.1.symm
  rintro (hnil | hkey | ⟨y, z, u', v', -, hu', -⟩)
  · simp at hnil
  · exact hnot [] (by rwa [List.append_nil])
  · exact hnot _ hu'

/-- A sequence that starts as no label is no node. -/
theorem Represents.not_isNode_of_absent (h : Represents cs m) {a : α} {s : List α}
    (ha : getEdge cs a = none) : ¬ IsNode (keys m) (a :: s) := by
  have hnot : ∀ u, a :: u ∉ keys m := fun u hu => by
    rw [keys, Set.mem_ofPred_eq, h.absent ha] at hu
    cases hu
  rintro (hnil | hkey | ⟨x, y, u, v, -, hu, -⟩)
  · cases hnil
  · exact hnot s hkey
  · exact hnot _ hu

/-- How a sequence goes on at the label of a child. -/
inductive Meets (c : Node α β) (s : List α) : Prop
  | same (h : s = c.label)
  | ends (b : α) (v : List α) (h : c.label = s ++ b :: v)
  | follows (x : α) (u : List α) (h : s = c.label ++ x :: u)
  | parted (p : List α) (x b : α) (u v : List α) (hxb : x ≠ b) (hs : s = c.first :: p ++ x :: u)
      (hl : c.label = c.first :: p ++ b :: v)

omit [Inhabited β] in
theorem meets {a : α} {c : Node α β} (hc : getEdge cs a = some c) (s : List α) :
    Meets c (a :: s) := by
  have hfirst := (mem_of_getEdge hc).2
  rcases parts (a :: s) c.label with heq | ⟨b, v, hl⟩ | ⟨x, u, hl⟩ | ⟨p, x, b, u, v, hxb, hp, hl⟩
  · exact .same heq
  · exact .ends b v hl
  · exact .follows x u hl
  · cases p with
    | nil =>
      -- the first elements are the same
      rw [List.nil_append] at hp hl
      have hx := (List.cons.inj hp).1
      have hb := (List.cons.inj hl).1
      exact absurd (hx.symm.trans (hfirst.symm.trans hb)) hxb
    | cons y p =>
      obtain rfl := (List.cons.inj hp).1
      subst hfirst
      exact .parted p x b u v hxb hp hl

omit [Inhabited β] in
theorem query_of_ends {c : Node α β} {s v : List α} {b : α} (h : c.label = s ++ b :: v) :
    query c.label s = .StringIsPrefix := by
  rw [h, query_stringIsPrefix]

omit [Inhabited β] in
/-- What is left of a sequence that goes on below a label. -/
theorem query_of_follows {c : Node α β} {s u : List α} {x : α} (h : s = c.label ++ x :: u) :
    query c.label s = .LabelIsPrefix ∧ s.drop c.label.length = x :: u ∧
      (x :: u).length < s.length := by
  refine ⟨?_, ?_, ?_⟩
  · rw [h, query_labelIsPrefix]
  · rw [h, List.drop_left]
  · have hlabel : c.label.length = c.rest.length + 1 := rfl
    rw [h, List.length_append, hlabel]
    omega

/-- A sequence that parts shortly is seen to part. -/
theorem Represents.query_of_parted (h : Represents cs m) {a x b : α} {c : Node α β}
    {s p u v : List α} (hc : getEdge cs a = some c) (hxb : x ≠ b)
    (hs : s = c.first :: p ++ x :: u) (hl : c.label = c.first :: p ++ b :: v)
    (hshort : ShortParts (keys m) s) :
    query c.label s = .HaveCommonPart (c.first :: p).length := by
  rw [hs] at hshort ⊢
  have hlt : (c.first :: p).length < 128 := h.parted_lt hc hxb hl hshort
  have hpos : 0 < (c.first :: p).length := by simp
  rw [hl, query_parted hxb]
  exact QueryResult.ofLength_of_lt hpos hlt

/-- What `addSeq` answers below a node, and what it leaves there: nothing changes if the sequence
ends at a node, and otherwise it gets its payload. -/
theorem addSeqLoop_spec (data : β) {n : ℕ} {s : List α} (h : Represents cs m)
    (hshort : ShortParts (keys m) s) (hs : s ≠ []) (hn : s.length ≤ n) :
    (IsNode (keys m) s → ∃ cs', addSeqLoop data n cs s = some (cs', false) ∧
      Represents cs' m) ∧
    (¬ IsNode (keys m) s → ∃ cs', addSeqLoop data n cs s = some (cs', true) ∧
      Represents cs' (put m s data)) := by
  induction n generalizing cs m s with
  | zero => exact absurd (List.length_eq_zero_iff.1 (Nat.le_zero.1 hn)) hs
  | succ n ih =>
    obtain ⟨a, s, rfl⟩ := List.exists_cons_of_ne_nil hs
    rw [addSeqLoop]
    cases hc : getEdge cs a with
    | none => exact ⟨fun hnode => absurd hnode (h.not_isNode_of_absent hc),
        fun _ => ⟨_, rfl, h.addLeaf hc⟩⟩
    | some c =>
      have hnode := h.isNode_label hc
      have hfirst := (mem_of_getEdge hc).2
      cases meets hc s with
      | same heq =>
        simp only [← heq, query_self]
        rw [← heq] at hnode
        exact ⟨fun _ => ⟨cs, rfl, h⟩, fun hnot => absurd hnode hnot⟩
      | ends b v hl =>
        have hnot := h.not_isNode_of_append hc hs hl
        refine ⟨fun hnode => absurd hnode hnot, fun _ => ⟨_, ?_, h.putEnd data hc hl⟩⟩
        simp only [query_of_ends hl, splitEdge_eq hl, Option.bind_eq_bind, Option.bind_some]
        rfl
      | follows x u hl =>
        obtain ⟨hq, hrest, hlt⟩ := query_of_follows hl
        have hlen : (x :: u).length ≤ n := Nat.le_of_lt_succ (hlt.trans_le hn)
        have hshort' : ShortParts (below (keys m) c.label) (x :: u) := by
          rw [hl] at hshort
          exact hshort.below hnode
        obtain ⟨hold, hnew⟩ := ih (h.children hc) hshort' (List.cons_ne_nil _ _) hlen
        rw [keys_mapBelow, isNode_below hnode, ← hl] at hold hnew
        simp only [hq, hrest]
        refine ⟨fun hnode' => ?_, fun hnot => ?_⟩
        · obtain ⟨cs', hrun, hrep⟩ := hold hnode'
          exact ⟨_, by rw [hrun]; rfl, h.setBelow hc hrep⟩
        · obtain ⟨cs', hrun, hrep⟩ := hnew hnot
          exact ⟨_, by rw [hrun]; rfl, h.putBelow hc hl hrep⟩
      | parted p x b u v hxb hs' hl =>
        have hq := h.query_of_parted hc hxb hs' hl hshort
        rw [hfirst] at hs' hl hq
        obtain rfl : s = p ++ x :: u := (List.cons.inj hs').2
        have hnot := h.not_isNode_of_parted (u := u) hc (List.cons_ne_nil a p) hxb hl
        have hput := h.putParted (u := u) (d := data) hc hxb hl
        have hdrop : (a :: (p ++ x :: u)).drop (a :: p).length = x :: u := by
          rw [← List.cons_append, List.drop_left]
        refine ⟨fun hnode' => absurd hnode' hnot, fun _ => ⟨_, ?_, hput⟩⟩
        simp only [hq, Int.natCast_nonneg, not_lt_of_ge, if_false, Int.toNat_natCast,
          splitEdge_eq hl, hdrop, leaf, Option.bind_eq_bind, Option.bind_some]
        rfl

/-- `lookup` finds the payload of a sequence, unless it ends where others part. -/
theorem lookupLoop_spec {n : ℕ} {s : List α} (h : Represents cs m)
    (hshort : ShortParts (keys m) s) (hkey : IsNode (keys m) s → s ∈ keys m) (hs : s ≠ [])
    (hn : s.length ≤ n) : lookupLoop n cs s = some (m s) := by
  induction n generalizing cs m s with
  | zero => exact absurd (List.length_eq_zero_iff.1 (Nat.le_zero.1 hn)) hs
  | succ n ih =>
    have hnone : ¬ IsNode (keys m) s → m s = none := fun hnot => by
      by_contra hsome
      exact hnot (.inr (.inl (Option.isSome_iff_ne_none.2 hsome)))
    obtain ⟨a, s, rfl⟩ := List.exists_cons_of_ne_nil hs
    rw [lookupLoop]
    cases hc : getEdge cs a with
    | none => rw [hnone (h.not_isNode_of_absent hc)]
    | some c =>
      have hnode := h.isNode_label hc
      cases meets hc s with
      | same heq =>
        simp only [← heq, query_self]
        rcases h.data hc with hd | ⟨hd, -, -⟩
        · rw [heq, hd]
        · rw [← heq] at hnode hd
          have := hkey hnode
          rw [keys, Set.mem_ofPred_eq, hd] at this
          cases this
      | ends b v hl =>
        simp only [query_of_ends hl]
        rw [hnone (h.not_isNode_of_append hc hs hl)]
      | follows x u hl =>
        obtain ⟨hq, hrest, hlt⟩ := query_of_follows hl
        simp only [hq, hrest]
        rw [hl] at hshort hkey ⊢
        refine ih (h.children hc) (hshort.below hnode) ?_ (List.cons_ne_nil _ _)
          (Nat.le_of_lt_succ (hlt.trans_le hn))
        rw [keys_mapBelow, isNode_below hnode]
        exact hkey
      | parted p x b u v hxb hs' hl =>
        simp only [h.query_of_parted hc hxb hs' hl hshort]
        have hnot := h.not_isNode_of_parted (u := u) hc (List.cons_ne_nil _ p) hxb hl
        rw [hnone (hs' ▸ hnot)]

omit [Inhabited β] in
/-- The longest common part goes on below a label. -/
theorem Longest.of_below {K : Set (List α)} {l u : List α} {r : ℕ}
    (h : Longest (Trie.below K l) u r) (hex : ∃ w, l ++ w ∈ K)
    (hpre : ∀ k ∈ K, commonLength (l ++ u) k = 0 ∨ l <+: k) :
    Longest K (l ++ u) (l.length + r) := by
  rw [longest_iff] at h ⊢
  obtain ⟨hr, hsome, hmax⟩ := h
  refine ⟨by rw [List.length_append]; omega, .inr ?_, fun k hk => ?_⟩
  · rcases hsome with rfl | ⟨k, hk, hle⟩
    · obtain ⟨w, hw⟩ := hex
      exact ⟨l ++ w, hw, by rw [commonLength_append]; omega⟩
    · exact ⟨l ++ k, hk, by rw [commonLength_append]; omega⟩
  · rcases hpre k hk with hzero | ⟨w, rfl⟩
    · omega
    · have := hmax w hk
      rw [commonLength_append]
      omega

/-- A sequence has something in common only with those that go through the same child. -/
theorem Represents.commonLength_eq_zero (h : Represents cs m) {a : α} {c : Node α β}
    (hc : getEdge cs a = some c) {s k : List α} (hk : k ∈ keys m) :
    commonLength (a :: s) k = 0 ∨ c.label <+: k := by
  cases k with
  | nil => exact .inl (commonLength_nil_right _)
  | cons b k =>
    by_cases hab : a = b
    · subst hab
      exact .inr (h.under hc hk)
    · exact .inl (by rw [commonLength, if_neg hab])

/-- `findLongestCommonPrefix` finds it, and fails at the end of a label that is not one element
long. -/
theorem findLoop_spec {size n result : ℕ} {s : List α} (h : Represents cs m)
    (hshort : ShortParts (keys m) s) (hs : s ≠ []) (hn : s.length ≤ n)
    (hsize : result + s.length = size) :
    (EndsDeep (keys m) s → findLoop size n cs s result = none) ∧
    (¬ EndsDeep (keys m) s → ∃ r, findLoop size n cs s result = some (result + r) ∧
      Longest (keys m) s r) := by
  induction n generalizing cs m s result with
  | zero => exact absurd (List.length_eq_zero_iff.1 (Nat.le_zero.1 hn)) hs
  | succ n ih =>
    obtain ⟨a, s, rfl⟩ := List.exists_cons_of_ne_nil hs
    rw [findLoop]
    cases hc : getEdge cs a with
    | none =>
      refine ⟨fun hend => absurd hend.1 (h.not_isNode_of_absent hc), fun _ => ⟨0, rfl, ?_⟩⟩
      refine longest_iff.2 ⟨Nat.zero_le _, .inl rfl, fun k hk => ?_⟩
      cases k with
      | nil => exact (commonLength_nil_right _).le
      | cons b k =>
        have hab : a ≠ b := by
          rintro rfl
          rw [keys, Set.mem_ofPred_eq, h.absent hc] at hk
          cases hk
        rw [commonLength, if_neg hab]
    | some c =>
      have hnode := h.isNode_label hc
      obtain ⟨w, hw⟩ := h.exists_key hc
      have hzero := fun k (hk : k ∈ keys m) => h.commonLength_eq_zero hc (s := s) hk
      cases meets hc s with
      | same heq =>
        have hquery : query c.label (a :: s) = .Same := by rw [← heq, query_self]
        have hlongest : Longest (keys m) (a :: s) (a :: s).length := by
          refine longest_iff.2 ⟨le_rfl, .inr ⟨_, hw, ?_⟩, fun k _ => commonLength_le_left _ k⟩
          rw [← heq, commonLength_append_right]
        simp only [hquery]
        by_cases hone : s = []
        · subst hone
          refine ⟨fun hend => absurd (.inl rfl) hend.2, fun _ => ⟨1, if_pos hsize, hlongest⟩⟩
        · -- the label is longer than one element
          have hdeep : EndsDeep (keys m) (a :: s) := by
            refine ⟨heq ▸ hnode, h.not_isNode hc ?_ ?_ ?_⟩
            · rw [List.dropLast_cons_of_ne_nil hone]
              exact List.cons_ne_nil _ _
            · rw [← heq]
              exact List.dropLast_prefix _
            · rw [← heq]
              intro hdrop
              have := congrArg List.length hdrop
              rw [List.length_dropLast, List.length_cons] at this
              omega
          have hlen : 0 < s.length := List.length_pos_of_ne_nil hone
          refine ⟨fun _ => if_neg ?_, fun hnot => absurd hdeep hnot⟩
          rw [List.length_cons] at hsize
          omega
      | ends b v hl =>
        have hlongest : Longest (keys m) (a :: s) (a :: s).length := by
          refine longest_iff.2 ⟨le_rfl, .inr ⟨_, hw, ?_⟩, fun k _ => commonLength_le_left _ k⟩
          rw [hl, List.append_assoc, commonLength_append_right]
        simp only [query_of_ends hl]
        exact ⟨fun hend => absurd hend.1 (h.not_isNode_of_append hc hs hl),
          fun _ => ⟨_, rfl, hlongest⟩⟩
      | follows x u hl =>
        obtain ⟨hq, hrest, hlt⟩ := query_of_follows hl
        simp only [hq, hrest]
        rw [hl] at hshort hzero ⊢
        have hdeep : EndsDeep (below (keys m) c.label) (x :: u) ↔
            EndsDeep (keys m) (c.label ++ x :: u) := by
          rw [EndsDeep, EndsDeep, isNode_below hnode, isNode_below hnode,
            List.dropLast_append_of_ne_nil (List.cons_ne_nil _ _)]
        have hsize' : result + c.label.length + (x :: u).length = size := by
          rw [hl, List.length_append] at hsize
          omega
        obtain ⟨hfail, hfind⟩ := ih (h.children hc) (hshort.below hnode) (List.cons_ne_nil _ _)
          (Nat.le_of_lt_succ (hlt.trans_le hn)) hsize'
        rw [keys_mapBelow, hdeep] at hfail hfind
        refine ⟨hfail, fun hnot => ?_⟩
        obtain ⟨r, hrun, hlongest⟩ := hfind hnot
        exact ⟨c.label.length + r, by rw [hrun, Nat.add_assoc],
          hlongest.of_below ⟨w, hw⟩ hzero⟩
      | parted p x b u v hxb hs' hl =>
        simp only [h.query_of_parted hc hxb hs' hl hshort]
        have hnot := h.not_isNode_of_parted (u := u) hc (List.cons_ne_nil _ p) hxb hl
        rw [← hs'] at hnot
        refine ⟨fun hend => absurd hend.1 hnot, fun _ => ⟨(c.first :: p).length, ?_, ?_⟩⟩
        · rw [if_neg (by omega), Int.toNat_natCast]
        · have hcommon : ∀ k ∈ keys m, c.label <+: k →
              commonLength (a :: s) k = (c.first :: p).length := by
            rintro k - ⟨t, rfl⟩
            rw [hl, hs', List.append_assoc]
            exact commonLength_parted hxb
          refine longest_iff.2 ⟨?_, .inr ⟨_, hw, (hcommon _ hw (List.prefix_append _ _)).ge⟩,
            fun k hk => ?_⟩
          · rw [hs', List.length_append]
            omega
          · rcases hzero k hk with h0 | hpre
            · omega
            · exact (hcommon k hk hpre).le

/-- What `addSeq` answers, and what it leaves. -/
theorem addSeq_spec {t : Trie α β} {s : List α} (d : β) (h : Represents t.children m)
    (hshort : ShortParts (keys m) s) (hs : s ≠ []) :
    (IsNode (keys m) s → ∃ t', addSeq t s d = some (t', false) ∧ t'.dat = t.dat ∧
      Represents t'.children m) ∧
    (¬ IsNode (keys m) s → ∃ t', addSeq t s d = some (t', true) ∧ t'.dat = t.dat ∧
      Represents t'.children (put m s d)) := by
  obtain ⟨hold, hnew⟩ := addSeqLoop_spec d h hshort hs le_rfl
  rw [addSeq, if_neg (by simpa using hs)]
  refine ⟨fun hnode => ?_, fun hnot => ?_⟩
  · obtain ⟨cs', hrun, hrep⟩ := hold hnode
    exact ⟨{ t with children := cs' }, by rw [hrun]; rfl, rfl, hrep⟩
  · obtain ⟨cs', hrun, hrep⟩ := hnew hnot
    exact ⟨{ t with children := cs' }, by rw [hrun]; rfl, rfl, hrep⟩

/-! ## Runs -/

/-- Adds sequences one after another, with the answers. -/
def addSeqs (t : Trie α β) : List (List α × β) → Option (Trie α β × List Bool)
  | [] => some (t, [])
  | (s, d) :: adds => do
    let (t, res) ← addSeq t s d
    let (t, ress) ← addSeqs t adds
    some (t, res :: ress)

/-- The sequences that are added. -/
def added (adds : List (List α × β)) : Set (List α) := {k | k ∈ adds.map (·.1)}

/-- A finite map: the first payload of a sequence counts. -/
def insertAll (m : List α → Option β) : List (List α × β) → List α → Option β
  | [] => m
  | (s, d) :: adds => insertAll (if (m s).isSome then m else put m s d) adds

/-- Whether the sequences are new to the map. -/
def answers (m : List α → Option β) : List (List α × β) → List Bool
  | [] => []
  | (s, d) :: adds => (m s).isNone :: answers (if (m s).isSome then m else put m s d) adds

/-- A sequence that can be told from a place where sequences of `K` part, and that parts from them
shortly. -/
def Allowed (K : Set (List α)) (s : List α) : Prop :=
  s ≠ [] ∧ (s ∈ K ∨ ¬ Branch K s) ∧ ShortParts K s

/-- Every sequence is allowed when it is added. -/
def AllowedRun (K : Set (List α)) : List (List α × β) → Prop
  | [] => True
  | (s, _) :: adds => Allowed K s ∧ AllowedRun (insert s K) adds

/-- Every sequence parts shortly from those that were added before. -/
def ShortRun (K : Set (List α)) : List (List α × β) → Prop
  | [] => True
  | (s, _) :: adds => ShortParts K s ∧ ShortRun (insert s K) adds

omit [LinearOrder α] [Inhabited β] in
theorem union_added_cons (K : Set (List α)) (s : List α) (d : β) (adds : List (List α × β)) :
    K ∪ added ((s, d) :: adds) = insert s K ∪ added adds := by
  ext k
  simp only [added, List.map_cons, List.mem_cons, Set.mem_union, Set.mem_ofPred_eq,
    Set.mem_insert_iff]
  tauto

omit [Inhabited β] in
theorem keys_insertNew (m : List α → Option β) (s : List α) (d : β) :
    keys (if (m s).isSome then m else put m s d) = insert s (keys m) := by
  split
  · rename_i hsome
    have hmem : s ∈ keys m := hsome
    exact (Set.insert_eq_of_mem hmem).symm
  · exact keys_put m s d

/-- A run of allowed additions is a run of insertions into a map. -/
theorem addSeqs_spec {t : Trie α β} {adds : List (List α × β)} (h : Represents t.children m)
    (hrun : AllowedRun (keys m) adds) :
    ∃ t', addSeqs t adds = some (t', answers m adds) ∧ t'.dat = t.dat ∧
      Represents t'.children (insertAll m adds) ∧
      keys (insertAll m adds) = keys m ∪ added adds := by
  induction adds generalizing t m with
  | nil => exact ⟨t, rfl, rfl, h, by simp [insertAll, added]⟩
  | cons x adds ih =>
    obtain ⟨s, d⟩ := x
    obtain ⟨⟨hs, hkey, hshort⟩, hrest⟩ := hrun
    obtain ⟨hold, hnew⟩ := addSeq_spec d h hshort hs
    have hnode : IsNode (keys m) s ↔ (m s).isSome := by
      refine ⟨fun hnode => ?_, fun hsome => .inr (.inl hsome)⟩
      rcases hnode with hnil | hmem | hbranch
      · exact absurd hnil hs
      · exact hmem
      · exact hkey.resolve_right (not_not.2 hbranch)
    obtain ⟨t₁, hadd, hdat, hrep⟩ : ∃ t₁, addSeq t s d = some (t₁, (m s).isNone) ∧
        t₁.dat = t.dat ∧ Represents t₁.children (if (m s).isSome then m else put m s d) := by
      by_cases hsome : (m s).isSome = true
      · obtain ⟨t₁, hadd, hdat, hrep⟩ := hold (hnode.2 hsome)
        refine ⟨t₁, ?_, hdat, by rwa [if_pos hsome]⟩
        rw [hadd, Option.isNone_eq_false_iff.2 hsome]
      · obtain ⟨t₁, hadd, hdat, hrep⟩ := hnew fun hn => hsome (hnode.1 hn)
        refine ⟨t₁, ?_, hdat, by rwa [if_neg hsome]⟩
        rw [hadd, Option.not_isSome_iff_eq_none.1 hsome]
        rfl
    rw [← keys_insertNew m s d] at hrest
    obtain ⟨t', hadds, hdat', hrep', hkeys⟩ := ih hrep hrest
    refine ⟨t', ?_, hdat'.trans hdat, hrep', ?_⟩
    · rw [addSeqs, hadd]
      simp only [Option.bind_eq_bind, Option.bind_some, hadds]
      rfl
    · rw [insertAll, hkeys, keys_insertNew, union_added_cons]

/-- **A trie is a finite map** in runs of allowed additions: `addSeq` tells whether a sequence is
new, and `lookup` finds the payloads, of the root too, and nothing else. -/
theorem addSeqs_map {root : β} {adds : List (List α × β)} (hrun : AllowedRun ∅ adds) :
    ∃ t, addSeqs ⟨root, []⟩ adds = some (t, answers (fun _ => none) adds) ∧
      lookupPtr t [] = some (some root) ∧
      ∀ s, Allowed (added adds) s → lookupPtr t s = some (insertAll (fun _ => none) adds s) := by
  have hkeys : keys (fun _ : List α => (none : Option β)) = ∅ := by
    ext k
    simp [keys]
  have hstart : Represents (⟨root, []⟩ : Trie α β).children fun _ => none :=
    represents_nil fun _ _ => rfl
  rw [← hkeys] at hrun
  obtain ⟨t, hadds, hdat, hrep, hkeys'⟩ := addSeqs_spec hstart hrun
  rw [hkeys, Set.empty_union] at hkeys'
  refine ⟨t, hadds, by rw [lookupPtr, if_pos List.isEmpty_nil, hdat], fun s hs => ?_⟩
  obtain ⟨hne, hkey, hshort⟩ := hs
  rw [lookupPtr, if_neg (by simpa using hne)]
  rw [← hkeys'] at hkey hshort
  refine lookupLoop_spec hrep hshort (fun hnode => ?_) hne le_rfl
  rcases hnode with hnil | hmem | hbranch
  · exact absurd hnil hne
  · exact hmem
  · exact hkey.resolve_right (not_not.2 hbranch)

theorem addSeqs_map_two :
    ∃ t, addSeqs (⟨0, []⟩ : Trie ℕ ℕ) [([1, 2], 10), ([1], 20)] =
        some (t, answers (fun _ => none) [([1, 2], 10), ([1], 20)]) ∧
      lookupPtr t [] = some (some 0) ∧
      ∀ s, Allowed (added [([1, 2], 10), ([1], 20)]) s →
        lookupPtr t s = some (insertAll (fun _ => none) [([1, 2], 10), ([1], 20)] s) := by
  refine addSeqs_map ⟨⟨by simp, .inr ?_, ?_⟩, ⟨by simp, .inr ?_, ?_⟩, trivial⟩
  · rintro ⟨a, b, u, v, -, hu, -⟩
    simp at hu
  · intro k hk
    simp at hk
  · rintro ⟨a, b, u, v, hab, hu, hv⟩
    simp only [List.singleton_append, insert_empty_eq, Set.mem_singleton_iff,
      List.cons.injEq, true_and] at hu hv
    exact hab (hu.1.trans hv.1.symm)
  · intro k hk hlt
    rw [insert_empty_eq, Set.mem_singleton_iff] at hk
    subst hk
    exact absurd hlt (by decide)

/-- A place where two sequences part is taken for a sequence that was added, and sequences that
part late are not added at all. -/
theorem addSeqs_parted :
    (addSeqs (⟨0, []⟩ : Trie ℕ ℕ) [([1, 2], 10), ([1, 3], 20), ([1], 30)]).map (·.2) =
        some [true, true, false] ∧
      (addSeqs (⟨0, []⟩ : Trie ℕ ℕ) [([1, 2], 10), ([1, 3], 20)]).bind
        (fun r => lookupPtr r.1 [1]) = some (some 0) ∧
      addSeqs (⟨0, []⟩ : Trie ℕ ℕ)
        [(List.replicate 128 0 ++ [1], 10), (List.replicate 128 0 ++ [2], 20)] = none := by
  refine ⟨by decide, by decide, ?_⟩
  decide +kernel

/-! ## The longest common prefix -/

omit [LinearOrder α] in
theorem Branch.mono {K L : Set (List α)} (h : K ⊆ L) {p : List α} : Branch K p → Branch L p :=
  fun ⟨a, b, u, v, hab, hu, hv⟩ => ⟨a, b, u, v, hab, h hu, h hv⟩

omit [LinearOrder α] in
theorem IsNode.mono {K L : Set (List α)} (h : K ⊆ L) {p : List α} : IsNode K p → IsNode L p :=
  Or.imp_right (Or.imp (fun hp => h hp) (Branch.mono h))

/-- The sequences that were added, and those among them that have a payload: the others end at a
node anyway. -/
structure SameNodes (K M : Set (List α)) : Prop where
  subset : M ⊆ K
  isNode : ∀ k ∈ K, IsNode M k

section SameNodes
omit [Inhabited β]
variable {K M : Set (List α)} {s : List α}

omit [LinearOrder α] in
/-- Every sequence that was added goes on to one that has a payload. -/
theorem SameNodes.exists_append (h : SameNodes K M) {k : List α} (hk : k ∈ K) (hne : k ≠ []) :
    ∃ w, k ++ w ∈ M := by
  rcases h.isNode k hk with hnil | hmem | ⟨a, b, u, v, -, hu, -⟩
  · exact absurd hnil hne
  · exact ⟨[], by rwa [List.append_nil]⟩
  · exact ⟨_, hu⟩

omit [LinearOrder α] in
theorem SameNodes.isNode_iff (h : SameNodes K M) {p : List α} : IsNode K p ↔ IsNode M p := by
  refine ⟨?_, IsNode.mono h.subset⟩
  rintro (hnil | hmem | ⟨a, b, u, v, hab, hu, hv⟩)
  · exact .inl hnil
  · exact h.isNode p hmem
  · obtain ⟨w, hw⟩ := h.exists_append hu (by simp)
    obtain ⟨w', hw'⟩ := h.exists_append hv (by simp)
    rw [List.append_assoc, List.cons_append] at hw hw'
    exact .inr (.inr ⟨a, b, _, _, hab, hw, hw'⟩)

theorem SameNodes.short (h : SameNodes K M) (hs : ShortParts K s) : ShortParts M s := by
  intro k hk hlt hlt'
  obtain ⟨q, hnode, hq⟩ := hs k (h.subset hk) hlt hlt'
  exact ⟨q, h.isNode_iff.1 hnode, hq⟩

omit [LinearOrder α] in
theorem SameNodes.endsDeep_iff (h : SameNodes K M) : EndsDeep K s ↔ EndsDeep M s := by
  rw [EndsDeep, EndsDeep, h.isNode_iff, h.isNode_iff]

theorem commonLength_mono (s k w : List α) : commonLength s k ≤ commonLength s (k ++ w) := by
  have hle := commonLength_le_left s k
  rw [← prefix_iff_le_commonLength hle]
  exact ((prefix_iff_le_commonLength hle).2 le_rfl).trans (List.prefix_append k w)

theorem SameNodes.longest_iff (h : SameNodes K M) {r : ℕ} : Longest K s r ↔ Longest M s r := by
  rw [Trie.longest_iff, Trie.longest_iff]
  refine and_congr_right fun _ => and_congr ⟨?_, ?_⟩ ⟨fun hmax k hk => hmax k (h.subset hk), ?_⟩
  · rintro (hzero | ⟨k, hk, hle⟩)
    · exact .inl hzero
    · by_cases hne : k = []
      · rw [hne, commonLength_nil_right] at hle
        exact .inl (Nat.le_zero.1 hle)
      · obtain ⟨w, hw⟩ := h.exists_append hk hne
        exact .inr ⟨_, hw, hle.trans (commonLength_mono s k w)⟩
  · exact Or.imp_right fun ⟨k, hk, hle⟩ => ⟨k, h.subset hk, hle⟩
  · intro hmax k hk
    by_cases hne : k = []
    · rw [hne, commonLength_nil_right]
      exact Nat.zero_le _
    · obtain ⟨w, hw⟩ := h.exists_append hk hne
      exact (commonLength_mono s k w).trans (hmax _ hw)

omit [LinearOrder α] in
theorem SameNodes.insert_of_isNode (h : SameNodes K M) (hs : IsNode M s) :
    SameNodes (insert s K) M where
  subset := h.subset.trans (Set.subset_insert _ _)
  isNode := fun k hk => by
    rcases hk with rfl | hk
    · exact hs
    · exact h.isNode k hk

omit [LinearOrder α] in
theorem SameNodes.insert (h : SameNodes K M) : SameNodes (insert s K) (insert s M) where
  subset := Set.insert_subset_insert h.subset
  isNode := fun k hk => by
    rcases hk with rfl | hk
    · exact .inr (.inl (Set.mem_insert _ _))
    · exact (h.isNode k hk).mono (Set.subset_insert _ _)

end SameNodes

/-- A run of additions that part shortly succeeds. -/
theorem addSeqs_short {t : Trie α β} {K : Set (List α)} {adds : List (List α × β)}
    (h : Represents t.children m) (hsame : SameNodes K (keys m)) (hrun : ShortRun K adds) :
    ∃ t' ress m', addSeqs t adds = some (t', ress) ∧ Represents t'.children m' ∧
      SameNodes (K ∪ added adds) (keys m') := by
  induction adds generalizing t K m with
  | nil => exact ⟨t, [], m, rfl, h, by simpa [added] using hsame⟩
  | cons x adds ih =>
    obtain ⟨s, d⟩ := x
    obtain ⟨hshort, hrest⟩ := hrun
    obtain ⟨t₁, res, m₁, hadd, hrep, hsame₁⟩ : ∃ t₁ res m₁, addSeq t s d = some (t₁, res) ∧
        Represents t₁.children m₁ ∧ SameNodes (insert s K) (keys m₁) := by
      by_cases hs : s = []
      · exact ⟨t, false, m, by rw [addSeq, if_pos (by simpa using hs)], h,
          hsame.insert_of_isNode (.inl hs)⟩
      · obtain ⟨hold, hnew⟩ := addSeq_spec d h (hsame.short hshort) hs
        by_cases hnode : IsNode (keys m) s
        · obtain ⟨t₁, hadd, -, hrep⟩ := hold hnode
          exact ⟨t₁, false, m, hadd, hrep, hsame.insert_of_isNode hnode⟩
        · obtain ⟨t₁, hadd, -, hrep⟩ := hnew hnode
          exact ⟨t₁, true, _, hadd, hrep, by rw [keys_put]; exact hsame.insert⟩
    obtain ⟨t', ress, m', hadds, hrep', hsame'⟩ := ih hrep hsame₁ hrest
    refine ⟨t', res :: ress, m', ?_, hrep', by rwa [union_added_cons]⟩
    rw [addSeqs, hadd]
    simp only [Option.bind_eq_bind, Option.bind_some, hadds]

/-- **The longest common prefix is found**, in runs of additions that part shortly and for a
sequence that does so too, exactly if the sequence does not end at a node that is more than one
element below the node before it. -/
theorem findLongestCommonPrefix_exact {root : β} {adds : List (List α × β)} {s : List α}
    (hrun : ShortRun ∅ adds) (hs : ShortParts (added adds) s) :
    ∃ t ress, addSeqs ⟨root, []⟩ adds = some (t, ress) ∧
      ((∃ r, findLongestCommonPrefix t s = some r ∧ Longest (added adds) s r) ↔
        ¬ EndsDeep (added adds) s) := by
  have hkeys : keys (fun _ : List α => (none : Option β)) = ∅ := by
    ext k
    simp [keys]
  have hstart : Represents (⟨root, []⟩ : Trie α β).children fun _ => none :=
    represents_nil fun _ _ => rfl
  have hsame : SameNodes ∅ (keys fun _ : List α => (none : Option β)) := by
    rw [hkeys]
    exact ⟨Set.Subset.rfl, fun _ hk => absurd hk (Set.notMem_empty _)⟩
  obtain ⟨t, ress, m, hadds, hrep, hsame'⟩ := addSeqs_short hstart hsame hrun
  rw [Set.empty_union] at hsame'
  refine ⟨t, ress, hadds, ?_⟩
  rw [findLongestCommonPrefix]
  by_cases hne : s = []
  · subst hne
    refine iff_of_true ⟨0, rfl, le_rfl, .inl rfl, fun r' hr' _ => hr'⟩ fun hend => ?_
    exact hend.2 (.inl rfl)
  · rw [if_neg (by simpa using hne), hsame'.endsDeep_iff]
    obtain ⟨hfail, hfind⟩ := findLoop_spec hrep (hsame'.short hs) hne le_rfl
      (Nat.zero_add _)
    refine ⟨?_, fun hnot => ?_⟩
    · rintro ⟨r, hr, -⟩ hend
      rw [hfail hend] at hr
      cases hr
    · obtain ⟨r, hrun', hlongest⟩ := hfind hnot
      exact ⟨r, by rw [hrun', Nat.zero_add], hsame'.longest_iff.2 hlongest⟩

theorem findLongestCommonPrefix_exact_parted :
    ∃ t ress, addSeqs (⟨0, []⟩ : Trie ℕ ℕ) [([1, 2], 10)] = some (t, ress) ∧
      ((∃ r, findLongestCommonPrefix t [1, 3] = some r ∧
          Longest (added [([1, 2], 10)]) [1, 3] r) ↔
        ¬ EndsDeep (added [([1, 2], 10)]) [1, 3]) := by
  refine findLongestCommonPrefix_exact ⟨fun k hk => absurd hk (Set.notMem_empty k), trivial⟩ ?_
  intro k hk _ _
  obtain rfl : k = [1, 2] := by simpa [added] using hk
  exact ⟨[], .inl rfl, List.nil_prefix, Nat.zero_le _, by decide⟩

/-- The check at the end fails for a sequence that was added on its own. -/
theorem findLongestCommonPrefix_label :
    (addSeqs (⟨0, []⟩ : Trie ℕ ℕ) [([1, 2], 10)]).isSome ∧
      ((addSeqs (⟨0, []⟩ : Trie ℕ ℕ) [([1, 2], 10)]).bind fun r =>
        findLongestCommonPrefix r.1 [1, 2]) = none ∧
      Longest (added [([1, 2], 10)]) [1, 2] 2 := by
  refine ⟨by decide, by decide, le_rfl, .inr ⟨[1, 2], ?_, List.take_prefix _ _⟩,
    fun r' hr' _ => hr'⟩
  exact List.mem_singleton.2 rfl

end
end Trie
end GenMC
