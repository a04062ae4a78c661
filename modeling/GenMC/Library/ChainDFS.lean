import GenMC.Library.ListOrder
import Mathlib.Data.Finset.Card
import Mathlib.Data.Finset.Filter
import Mathlib.Data.List.Basic
import Mathlib.Data.Set.Basic
import Mathlib.Logic.Relation
import Mathlib.Tactic

/-!
# Depth-first linearisation of a family of chains

A program's events come in chains: event `i + 1` of a chain follows event `i`, and an event may
in addition wait for one event of another chain.  This file is about the depth-first traversal
that lists such events with every event after the ones it waits for, *chain by chain*: a request
for an event first marks everything below it on its chain as taken, and only then walks over the
newly marked events, serving the wait of each before listing it.

* `Chains` says what a family of chains is, and `visit` is the traversal, with fuel.  Its state is
  the number of events of each chain that are already taken, and the listing so far.
* `Prec` is the one-step precedence and `Past` its reflexive-transitive closure.  Events below the
  initial count `base` have no predecessors: the traversal never looks at them.
* `visit_spec` says what a request does, in a state in which everything in the past of the
  requested event that is *marked* has also been *listed*: it appends exactly the missing part of
  the past, in an order that respects `Prec`.  Marking a whole chain prefix before its waits have
  been served is what makes this delicate: between the two, marked events are not listed yet.
  Acyclicity is what saves it, since the past of a wait never runs into them.
* `Asks S e` describes, from the input alone, the requests the traversal makes: `S` is everything
  in the past of what was asked before `e`.  `listed_before_iff` uses it to say exactly which
  events come before the first event of a chain.
-/

set_option autoImplicit false

open ListOrder

namespace ChainDFS

/-- A type of nodes split into chains, each node sitting at some index of its chain. -/
structure Chains (ε ι : Type*) where
  /-- The chain of a node. -/
  chain : ε → ι
  /-- The index of a node on its chain. -/
  idx : ε → ℕ
  /-- The node at a given index of a given chain. -/
  node : ι → ℕ → ε
  chain_node : ∀ c i, chain (node c i) = c
  idx_node : ∀ c i, idx (node c i) = i
  node_eta : ∀ e, node (chain e) (idx e) = e

attribute [simp] Chains.chain_node Chains.idx_node Chains.node_eta

variable {ε ι : Type*} (C : Chains ε ι) (dep : ε → Option ε)

theorem Chains.eq_iff {a b : ε} : a = b ↔ C.chain a = C.chain b ∧ C.idx a = C.idx b := by
  refine ⟨?_, ?_⟩
  · rintro rfl
    exact ⟨rfl, rfl⟩
  · rintro ⟨hc, hi⟩
    rw [← C.node_eta a, ← C.node_eta b, hc, hi]

/-! ## The traversal -/

/-- What the traversal does with one marked event: serve its wait, then list it. -/
def serve (call : Option ε → (ι → ℕ) × List ε → (ι → ℕ) × List ε)
    (st : (ι → ℕ) × List ε) (x : ε) : (ι → ℕ) × List ε :=
  ((call (dep x) st).1, (call (dep x) st).2 ++ [x])

/-- Serving `m` events of chain `c` from index `k` on. -/
def walk (call : Option ε → (ι → ℕ) × List ε → (ι → ℕ) × List ε) (c : ι) (k m : ℕ)
    (st : (ι → ℕ) × List ε) : (ι → ℕ) × List ε :=
  ((List.range' k m).map (C.node c)).foldl (serve dep call) st

/-- Marking everything up to `e` on its chain as taken. -/
def mark [DecidableEq ι] (e : ε) (st : (ι → ℕ) × List ε) : (ι → ℕ) × List ε :=
  (Function.update st.1 (C.chain e) (C.idx e + 1), st.2)

/-- A request for an event.  If the event is not taken yet, everything up to it on its chain is
marked as taken, and then the newly marked events are served in order. -/
def visit [DecidableEq ι] : ℕ → Option ε → (ι → ℕ) × List ε → (ι → ℕ) × List ε
  | 0, _, st => st
  | _ + 1, none, st => st
  | fuel + 1, some e, st =>
    if C.idx e < st.1 (C.chain e) then st
    else
      walk C dep (visit fuel) (C.chain e) (st.1 (C.chain e)) (C.idx e + 1 - st.1 (C.chain e))
        (mark C e st)

/-- A sequence of requests. -/
def visitAll [DecidableEq ι] (fuel : ℕ) (roots : List ε) (st : (ι → ℕ) × List ε) :
    (ι → ℕ) × List ε :=
  roots.foldl (fun st r => visit C dep fuel (some r) st) st

/-- An event is marked when it is below the count of its chain. -/
def Marked (cnt : ι → ℕ) (x : ε) : Prop := C.idx x < cnt (C.chain x)

instance (cnt : ι → ℕ) : DecidablePred (Marked C cnt) := fun _ => Nat.decLt _ _

/-! ## Precedence -/

variable (base : ι → ℕ)

/-- `a` has to be listed before `b`: it is the previous event of the chain, or what `b` waits
for.  Events below `base` are taken from the start and have no predecessors. -/
def Prec (a b : ε) : Prop :=
  base (C.chain b) ≤ C.idx b ∧
    ((C.chain a = C.chain b ∧ C.idx a + 1 = C.idx b) ∨ dep b = some a)

/-- `x` is in the past of `e`. -/
def Past (x e : ε) : Prop := Relation.ReflTransGen (Prec C dep base) x e

variable {C dep base}

theorem Past.refl (e : ε) : Past C dep base e e := Relation.ReflTransGen.refl

theorem Past.trans {a b c : ε} (h : Past C dep base a b) (h' : Past C dep base b c) :
    Past C dep base a c := Relation.ReflTransGen.trans h h'

/-- Below an event on its chain, down to `base`, everything is in its past. -/
theorem past_of_idx_le {x e : ε} (hc : C.chain x = C.chain e) (hb : base (C.chain e) ≤ C.idx x + 1)
    (hle : C.idx x ≤ C.idx e) : Past C dep base x e := by
  obtain ⟨n, hn⟩ := Nat.exists_eq_add_of_le hle
  induction n generalizing e with
  | zero =>
    have : x = e := C.eq_iff.2 ⟨hc, by omega⟩
    exact this ▸ Past.refl x
  | succ n ih =>
    have h1 : Past C dep base x (C.node (C.chain e) (C.idx e - 1)) := by
      refine ih (by simpa using hc) (by simpa using hb) ?_ ?_
      · rw [C.idx_node]; omega
      · rw [C.idx_node]; omega
    refine h1.tail ⟨by omega, Or.inl ⟨C.chain_node _ _, ?_⟩⟩
    rw [C.idx_node]; omega

theorem past_of_dep {x e d : ε} (hb : base (C.chain e) ≤ C.idx e) (hd : dep e = some d)
    (h : Past C dep base x d) : Past C dep base x e :=
  h.tail ⟨hb, Or.inr hd⟩

/-- The past of an event is the event, the past of its chain predecessor, and the past of what it
waits for. -/
theorem past_cases {x e : ε} (h : Past C dep base x e) :
    x = e ∨ (base (C.chain e) ≤ C.idx e ∧
      ((∃ i, C.idx e = i + 1 ∧ Past C dep base x (C.node (C.chain e) i)) ∨
        ∃ d, dep e = some d ∧ Past C dep base x d)) := by
  rcases Relation.ReflTransGen.cases_tail h with rfl | ⟨y, hy, hb, h1 | h1⟩
  · exact Or.inl rfl
  · refine Or.inr ⟨hb, Or.inl ⟨C.idx y, h1.2.symm, ?_⟩⟩
    rw [← h1.1, C.node_eta]
    exact hy
  · exact Or.inr ⟨hb, Or.inr ⟨y, h1, hy⟩⟩

/-- Only an event itself is in the past of an event that is taken from the start. -/
theorem past_of_base {x e : ε} (hb : C.idx e < base (C.chain e)) (h : Past C dep base x e) :
    x = e := by
  rcases past_cases h with h | ⟨h1, -⟩
  · exact h
  · omega

/-! ## What a request does -/

/-- The state the traversal keeps: the listing has no repetitions, holds only marked events above
`base`, and has every event after its predecessors. -/
structure Listing (C : Chains ε ι) (dep : ε → Option ε) (base : ι → ℕ)
    (st : (ι → ℕ) × List ε) : Prop where
  base_le : ∀ c, base c ≤ st.1 c
  marked : ∀ x ∈ st.2, Marked C st.1 x
  above : ∀ x ∈ st.2, base (C.chain x) ≤ C.idx x
  nodup : st.2.Nodup
  sorted : ∀ l₁ x l₂, st.2 = l₁ ++ x :: l₂ → ∀ y, Prec C dep base y x →
    C.idx y < base (C.chain y) ∨ y ∈ l₁

/-- A listing contains the past of each of its events. -/
theorem Listing.closed {st : (ι → ℕ) × List ε} (h : Listing C dep base st) {x y : ε}
    (hx : x ∈ st.2) (hy : Past C dep base y x) : C.idx y < base (C.chain y) ∨ y ∈ st.2 := by
  induction hy using Relation.ReflTransGen.head_induction_on with
  | refl => exact Or.inr hx
  | @head a b hab _ ih =>
    rcases ih with hb | hb
    · exact absurd hb (by have := hab.1; omega)
    · obtain ⟨l₁, l₂, hl⟩ := List.append_of_mem hb
      rcases h.sorted l₁ b l₂ hl a hab with h1 | h1
      · exact Or.inl h1
      · exact Or.inr (hl ▸ List.mem_append_left _ h1)

/-- Nothing in the past of `e` is marked without being listed. -/
def Settled (C : Chains ε ι) (dep : ε → Option ε) (base : ι → ℕ) (st : (ι → ℕ) × List ε)
    (e : ε) : Prop :=
  ∀ x, Past C dep base x e → Marked C st.1 x → C.idx x < base (C.chain x) ∨ x ∈ st.2

/-- The outcome of a request for the events satisfying `A`: exactly the missing ones among them
have been appended and exactly they have been marked. -/
structure Served (C : Chains ε ι) (dep : ε → Option ε) (base : ι → ℕ) (A : ε → Prop)
    (st st' : (ι → ℕ) × List ε) : Prop where
  listing : Listing C dep base st'
  append : ∃ new, st'.2 = st.2 ++ new ∧
    ∀ x, x ∈ new ↔ A x ∧ base (C.chain x) ≤ C.idx x ∧ x ∉ st.2
  marks : ∀ x, Marked C st'.1 x ↔ Marked C st.1 x ∨ A x

theorem Served.mem_iff {A : ε → Prop} {st st' : (ι → ℕ) × List ε}
    (h : Served C dep base A st st') (x : ε) :
    x ∈ st'.2 ↔ x ∈ st.2 ∨ (A x ∧ base (C.chain x) ≤ C.idx x) := by
  obtain ⟨new, hnew, hmem⟩ := h.append
  rw [hnew, List.mem_append, hmem]
  by_cases hx : x ∈ st.2
  · simp [hx]
  · simp [hx]

/-- A request that finds its event taken changes nothing, and there was nothing to do. -/
theorem served_of_marked {st : (ι → ℕ) × List ε} (hl : Listing C dep base st) {e : ε}
    (hs : Settled C dep base st e) (hm : Marked C st.1 e) :
    Served C dep base (fun x => Past C dep base x e) st st := by
  have hall : ∀ x, Past C dep base x e → C.idx x < base (C.chain x) ∨ x ∈ st.2 := by
    intro x hx
    rcases hs e (Past.refl e) hm with hb | he
    · rw [past_of_base hb hx]; exact Or.inl hb
    · exact hl.closed he hx
  refine ⟨hl, ⟨[], by simp, fun x => ?_⟩, fun x => ?_⟩
  · simp only [List.not_mem_nil, false_iff, not_and, not_not]
    intro hx hb
    exact (hall x hx).resolve_left (by omega)
  · refine ⟨?_, ?_⟩
    · exact Or.inl
    · rintro (h | h)
      · exact h
      · rcases hall x h with hb | hx
        · exact lt_of_lt_of_le hb (hl.base_le _)
        · exact hl.marked x hx

/-- Two requests after each other. -/
theorem Served.trans {A B : ε → Prop} {s s' s'' : (ι → ℕ) × List ε}
    (h : Served C dep base A s s') (h' : Served C dep base B s' s'') :
    Served C dep base (fun x => A x ∨ B x) s s'' := by
  obtain ⟨new, hnew, hmem⟩ := h.append
  obtain ⟨new', hnew', hmem'⟩ := h'.append
  refine ⟨h'.listing, ⟨new ++ new', by rw [hnew', hnew, List.append_assoc], fun x => ?_⟩,
    fun x => ?_⟩
  · rw [List.mem_append, hmem, hmem', h.mem_iff]
    by_cases hA : A x
    · simp only [hA, true_and, true_or]
      tauto
    · simp [hA]
  · rw [h'.marks, h.marks, or_assoc]

/-- The requested events matter only up to what is there already. -/
theorem Served.congr {A B : ε → Prop} {s s' : (ι → ℕ) × List ε} (h : Served C dep base A s s')
    (hA : ∀ x, A x → B x)
    (hB : ∀ x, B x → A x ∨ (Marked C s.1 x ∧ (C.idx x < base (C.chain x) ∨ x ∈ s.2))) :
    Served C dep base B s s' := by
  obtain ⟨new, hnew, hmem⟩ := h.append
  refine ⟨h.listing, ⟨new, hnew, fun x => ?_⟩, fun x => ?_⟩
  · rw [hmem]
    refine ⟨?_, ?_⟩
    · rintro ⟨h1, h2, h3⟩
      exact ⟨hA x h1, h2, h3⟩
    · rintro ⟨h1, h2, h3⟩
      rcases hB x h1 with h4 | ⟨-, h4 | h4⟩
      · exact ⟨h4, h2, h3⟩
      · omega
      · exact absurd h4 h3
  · rw [h.marks]
    refine ⟨?_, ?_⟩
    · exact Or.imp_right (hA x)
    · rintro (h1 | h1)
      · exact Or.inl h1
      · exact (hB x h1).elim Or.inr fun h2 => Or.inl h2.1

/-- Listing one marked event whose predecessors are all listed. -/
theorem Served.snoc {A : ε → Prop} {s s' : (ι → ℕ) × List ε} (h : Served C dep base A s s')
    {x : ε} (hm : Marked C s'.1 x) (hb : base (C.chain x) ≤ C.idx x) (hx : x ∉ s'.2)
    (hp : ∀ y, Prec C dep base y x → C.idx y < base (C.chain y) ∨ y ∈ s'.2) :
    Served C dep base (fun y => A y ∨ y = x) s (s'.1, s'.2 ++ [x]) := by
  have hl := h.listing
  obtain ⟨new, hnew, hmem⟩ := h.append
  refine ⟨⟨hl.base_le, ?_, ?_, ?_, ?_⟩, ⟨new ++ [x], by simp [hnew], fun y => ?_⟩, fun y => ?_⟩
  · intro y hy
    rcases List.mem_append.1 hy with h1 | h1
    · exact hl.marked y h1
    · exact List.mem_singleton.1 h1 ▸ hm
  · intro y hy
    rcases List.mem_append.1 hy with h1 | h1
    · exact hl.above y h1
    · exact List.mem_singleton.1 h1 ▸ hb
  · exact List.nodup_append.2 ⟨hl.nodup, List.nodup_singleton x, fun a ha b hb' hab =>
      hx (List.mem_singleton.1 hb' ▸ hab ▸ ha)⟩
  · intro l₁ z l₂ heq y hy
    rcases List.eq_nil_or_concat l₂ with rfl | ⟨l₃, w, rfl⟩
    · obtain ⟨rfl, hz⟩ := List.append_inj' heq rfl
      obtain rfl : x = z := by simpa using hz
      exact hp y hy
    · have heq' : s'.2 ++ [x] = (l₁ ++ z :: l₃) ++ [w] := by simpa using heq
      exact hl.sorted l₁ z l₃ (List.append_inj' heq' rfl).1 y hy
  · have hx' : x ∉ s.2 := fun h1 => hx (by rw [hnew]; exact List.mem_append_left _ h1)
    simp only [List.mem_append, List.mem_singleton, hmem]
    refine ⟨?_, ?_⟩
    · rintro (h1 | rfl)
      · exact ⟨Or.inl h1.1, h1.2⟩
      · exact ⟨Or.inr rfl, hb, hx'⟩
    · rintro ⟨h1 | h1, h2⟩
      · exact Or.inl ⟨h1, h2⟩
      · exact Or.inr h1
  · show Marked C s'.1 y ↔ _
    rw [h.marks]
    refine ⟨?_, ?_⟩
    · tauto
    · rintro (h1 | h1 | rfl)
      · exact Or.inl h1
      · exact Or.inr h1
      · exact (h.marks y).1 hm

/-! ## The specification of a request -/

theorem serve_isPrefix {call : Option ε → (ι → ℕ) × List ε → (ι → ℕ) × List ε}
    (hcall : ∀ e st, st.2 <+: (call e st).2) (st : (ι → ℕ) × List ε) (x : ε) :
    st.2 <+: (serve dep call st x).2 :=
  (hcall (dep x) st).trans (List.prefix_append _ _)

theorem foldl_serve_isPrefix {call : Option ε → (ι → ℕ) × List ε → (ι → ℕ) × List ε}
    (hcall : ∀ e st, st.2 <+: (call e st).2) (l : List ε) (st : (ι → ℕ) × List ε) :
    st.2 <+: (l.foldl (serve dep call) st).2 := by
  induction l generalizing st with
  | nil => exact List.prefix_rfl
  | cons x l ih => exact (serve_isPrefix hcall st x).trans (ih _)

@[simp] theorem visit_none [DecidableEq ι] (fuel : ℕ) (st : (ι → ℕ) × List ε) :
    visit C dep fuel none st = st := by
  cases fuel <;> rfl

/-- A request only ever appends to the listing. -/
theorem visit_isPrefix [DecidableEq ι] (fuel : ℕ) (e : Option ε) (st : (ι → ℕ) × List ε) :
    st.2 <+: (visit C dep fuel e st).2 := by
  induction fuel generalizing e st with
  | zero => exact List.prefix_rfl
  | succ fuel ih =>
    cases e with
    | none => exact List.prefix_rfl
    | some e =>
      rw [visit]
      split
      · exact List.prefix_rfl
      · exact foldl_serve_isPrefix (fun e st => ih e st) _ (mark C e st)

theorem le_foldl_serve {call : Option ε → (ι → ℕ) × List ε → (ι → ℕ) × List ε} {c : ι}
    (hcall : ∀ e st, st.1 c ≤ (call e st).1 c) (l : List ε) (st : (ι → ℕ) × List ε) :
    st.1 c ≤ (l.foldl (serve dep call) st).1 c := by
  induction l generalizing st with
  | nil => exact le_rfl
  | cons x l ih => exact (hcall (dep x) st).trans (ih (serve dep call st x))

/-- A request never takes anything back. -/
theorem le_visit [DecidableEq ι] (fuel : ℕ) (e : Option ε) (st : (ι → ℕ) × List ε) (c : ι) :
    st.1 c ≤ (visit C dep fuel e st).1 c := by
  induction fuel generalizing e st with
  | zero => exact le_rfl
  | succ fuel ih =>
    cases e with
    | none => exact le_rfl
    | some e =>
      rw [visit]
      split
      · exact le_rfl
      · refine le_trans ?_ (le_foldl_serve (fun e st => ih e st) _ (mark C e st))
        by_cases hc : c = C.chain e
        · subst hc
          simp only [mark, Function.update_self]
          omega
        · simp [mark, hc]

theorem walk_succ (call : Option ε → (ι → ℕ) × List ε → (ι → ℕ) × List ε) (c : ι) (k m : ℕ)
    (st : (ι → ℕ) × List ε) :
    walk C dep call c k (m + 1) st =
      serve dep call (walk C dep call c k m st) (C.node c (k + m)) := by
  simp [walk, List.range'_1_concat]

/-- A shorter walk is a prefix of a longer one. -/
theorem walk_isPrefix {call : Option ε → (ι → ℕ) × List ε → (ι → ℕ) × List ε}
    (hcall : ∀ e st, st.2 <+: (call e st).2) (c : ι) (k : ℕ) {m n : ℕ} (h : m ≤ n)
    (st : (ι → ℕ) × List ε) :
    (walk C dep call c k m st).2 <+: (walk C dep call c k n st).2 := by
  induction n, h using Nat.le_induction with
  | base => exact List.prefix_rfl
  | succ n _ ih =>
    rw [walk_succ]
    exact ih.trans (serve_isPrefix hcall _ _)

theorem marked_mark [DecidableEq ι] {e x : ε} {st : (ι → ℕ) × List ε} (he : ¬ Marked C st.1 e) :
    Marked C (mark C e st).1 x ↔
      Marked C st.1 x ∨ (C.chain x = C.chain e ∧ C.idx x ≤ C.idx e) := by
  simp only [Marked, mark] at *
  by_cases hc : C.chain x = C.chain e
  · simp only [hc, Function.update_self, true_and]
    omega
  · simp [hc]

/-- What lies below index `j` of chain `c`, together with everything in its past. -/
def Below (C : Chains ε ι) (dep : ε → Option ε) (base : ι → ℕ) (c : ι) (j : ℕ) (x : ε) : Prop :=
  ∃ i < j, base c ≤ i + 1 ∧ Past C dep base x (C.node c i)

theorem past_of_below {e x : ε} {j : ℕ} (hj : j ≤ C.idx e + 1)
    (h : Below C dep base (C.chain e) j x) : Past C dep base x e := by
  obtain ⟨i, hi, hb, hx⟩ := h
  exact hx.trans (past_of_idx_le (by simp) (by simpa using hb) (by rw [C.idx_node]; omega))

theorem below_succ {c : ι} {j : ℕ} {x : ε} (hb : base c ≤ j) :
    Below C dep base c (j + 1) x ↔
      (Below C dep base c j x ∨ ∃ d, dep (C.node c j) = some d ∧ Past C dep base x d) ∨
        x = C.node c j := by
  refine ⟨?_, ?_⟩
  · rintro ⟨i, hi, hbi, hx⟩
    rcases Nat.lt_succ_iff_lt_or_eq.1 hi with h | rfl
    · exact Or.inl (Or.inl ⟨i, h, hbi, hx⟩)
    · rcases past_cases hx with h | ⟨-, ⟨k, hk, h⟩ | ⟨d, hd, h⟩⟩
      · exact Or.inr h
      · rw [C.idx_node] at hk
        rw [C.chain_node] at h
        exact Or.inl (Or.inl ⟨k, by omega, by omega, h⟩)
      · exact Or.inl (Or.inr ⟨d, hd, h⟩)
  · rintro ((⟨i, hi, hbi, hx⟩ | ⟨d, hd, hx⟩) | rfl)
    · exact ⟨i, by omega, hbi, hx⟩
    · exact ⟨j, by omega, by omega, past_of_dep (by simpa using hb) hd hx⟩
    · exact ⟨j, by omega, by omega, Past.refl _⟩

/-- Nothing is before itself. -/
def Acyclic (C : Chains ε ι) (dep : ε → Option ε) (base : ι → ℕ) : Prop :=
  ∀ x, ¬ Relation.TransGen (Prec C dep base) x x

theorem Acyclic.not_past_dep (hac : Acyclic C dep base) {x d : ε}
    (hb : base (C.chain x) ≤ C.idx x) (hd : dep x = some d) : ¬ Past C dep base x d :=
  fun h => hac x (Relation.TransGen.tail' h ⟨hb, Or.inr hd⟩)

theorem Acyclic.not_below (hac : Acyclic C dep base) {c : ι} {j : ℕ} (hb : base c ≤ j) :
    ¬ Below C dep base c j (C.node c j) := by
  rintro ⟨i, hi, hbi, hx⟩
  obtain ⟨n, rfl⟩ : ∃ n, j = n + 1 := ⟨j - 1, by omega⟩
  refine hac _ (Relation.TransGen.tail' (hx.trans (b := C.node c i) (c := C.node c n) ?_) ?_)
  · exact past_of_idx_le (by simp) (by simpa using hbi) (by simp; omega)
  · exact ⟨by simpa using hb, Or.inl ⟨by simp, by simp⟩⟩

/-- What a request for `e` needs: a listing whose marked events in the past of `e` are all listed,
and fuel for the events in the past of `e` that are not marked. -/
structure Ready (C : Chains ε ι) (dep : ε → Option ε) (base : ι → ℕ) (fuel : ℕ) (e : ε)
    (st : (ι → ℕ) × List ε) : Prop where
  listing : Listing C dep base st
  settled : Settled C dep base st e
  enough : ∃ U : Finset ε, (∀ x, Past C dep base x e → base (C.chain x) ≤ C.idx x → x ∈ U) ∧
    (U.filter fun x => ¬ Marked C st.1 x).card < fuel

theorem Ready.base_le {fuel : ℕ} {e : ε} {st : (ι → ℕ) × List ε} (h : Ready C dep base fuel e st)
    (he : ¬ Marked C st.1 e) : base (C.chain e) ≤ C.idx e :=
  (h.listing.base_le _).trans (not_lt.1 he)

variable [DecidableEq ι]

/-- Before the walk starts, what is below the unmarked part of the chain is all listed. -/
theorem Ready.served_mark {fuel : ℕ} {e : ε} {st : (ι → ℕ) × List ε}
    (h : Ready C dep base fuel e st) (he : ¬ Marked C st.1 e) :
    Served C dep base (Below C dep base (C.chain e) (st.1 (C.chain e))) (mark C e st)
      (mark C e st) := by
  have hlist : Listing C dep base (mark C e st) := by
    refine ⟨fun c => ?_, fun x hx => ?_, h.listing.above, h.listing.nodup, h.listing.sorted⟩
    · have := h.listing.base_le c
      have := not_lt.1 he
      by_cases hc : c = C.chain e
      · subst hc
        simp only [mark, Function.update_self]
        omega
      · simpa [mark, hc] using h.listing.base_le c
    · exact (marked_mark he).2 (Or.inl (h.listing.marked x hx))
  have hnone : Served C dep base (fun _ => False) (mark C e st) (mark C e st) :=
    ⟨hlist, ⟨[], by simp, by simp⟩, by simp⟩
  refine hnone.congr (fun x => False.elim) fun x hx => Or.inr ?_
  have hpast : Past C dep base x e := past_of_below (by have := not_lt.1 he; omega) hx
  obtain ⟨i, hi, hbi, hxi⟩ := hx
  have hmi : Marked C st.1 (C.node (C.chain e) i) := by simpa [Marked] using hi
  have hpi : Past C dep base (C.node (C.chain e) i) e :=
    past_of_below (j := i + 1) (by have := not_lt.1 he; omega) ⟨i, by omega, hbi, Past.refl _⟩
  have hx' : C.idx x < base (C.chain x) ∨ x ∈ st.2 := by
    rcases h.settled _ hpi hmi with hb | hb
    · rw [past_of_base hb hxi]
      exact Or.inl hb
    · exact h.listing.closed hb hxi
  refine ⟨(marked_mark he).2 (Or.inl ?_), hx'⟩
  rcases hx' with hb | hb
  · exact lt_of_lt_of_le hb (h.listing.base_le _)
  · exact h.listing.marked x hb

/-- In the middle of the walk, at the event of index `j`, the wait of that event can be requested:
the events of the chain that are marked and not listed are at `j` or above, and these cannot be in
the past of the wait. -/
theorem Ready.wait (hac : Acyclic C dep base) {fuel : ℕ} {e d : ε} {st s : (ι → ℕ) × List ε}
    (h : Ready C dep base (fuel + 1) e st) (he : ¬ Marked C st.1 e) {j : ℕ}
    (hkj : st.1 (C.chain e) ≤ j) (hj : j ≤ C.idx e)
    (hs : Served C dep base (Below C dep base (C.chain e) j) (mark C e st) s)
    (hd : dep (C.node (C.chain e) j) = some d) : Ready C dep base fuel d s := by
  have hbj : base (C.chain e) ≤ j := (h.listing.base_le _).trans hkj
  have hpast : ∀ x, Past C dep base x d → Past C dep base x e := fun x hx =>
    past_of_below (j := j + 1) (by omega) ((below_succ hbj).2 (Or.inl (Or.inr ⟨d, hd, hx⟩)))
  have hacd : ∀ x, C.chain x = C.chain e → j ≤ C.idx x → ¬ Past C dep base x d := by
    intro x hc hx hxd
    refine hac.not_past_dep (x := C.node (C.chain e) j) (by simpa using hbj) hd ?_
    refine Past.trans (past_of_idx_le (by simp [hc]) ?_ (by simpa using hx)) hxd
    rw [C.idx_node, hc]
    omega
  refine ⟨hs.listing, fun x hxd hm => ?_, ?_⟩
  · by_cases hb : C.idx x < base (C.chain x)
    · exact Or.inl hb
    · right
      rw [hs.mem_iff]
      rcases (hs.marks x).1 hm with hm | hbelow
      · rcases (marked_mark he).1 hm with hm | ⟨hc, hle⟩
        · exact Or.inl ((h.settled x (hpast x hxd) hm).resolve_left hb)
        · refine Or.inr ⟨⟨C.idx x, ?_, ?_, ?_⟩, not_lt.1 hb⟩
          · exact not_le.1 fun hle' => hacd x hc hle' hxd
          · rw [← hc]; omega
          · rw [← hc, C.node_eta]; exact Past.refl x
      · exact Or.inr ⟨hbelow, not_lt.1 hb⟩
  · obtain ⟨U, hU, hcard⟩ := h.enough
    refine ⟨U, fun x hx => hU x (hpast x hx), lt_of_lt_of_le (Finset.card_lt_card ?_)
      (Nat.lt_succ_iff.1 hcard)⟩
    rw [Finset.ssubset_iff_of_subset]
    · refine ⟨e, ?_, ?_⟩
      · exact Finset.mem_filter.2 ⟨hU e (Past.refl e) (h.base_le he), he⟩
      · rw [Finset.mem_filter, hs.marks, marked_mark he]
        simp
    · intro x hx
      rw [Finset.mem_filter] at hx ⊢
      rw [hs.marks, marked_mark he] at hx
      exact ⟨hx.1, fun hm => hx.2 (Or.inl (Or.inl hm))⟩

/-- One step of the walk. -/
theorem Served.serve (hac : Acyclic C dep base) {fuel : ℕ}
    (ih : ∀ d s, Ready C dep base fuel d s →
      Served C dep base (fun x => Past C dep base x d) s (visit C dep fuel (some d) s))
    {e : ε} {st s : (ι → ℕ) × List ε} (h : Ready C dep base (fuel + 1) e st)
    (he : ¬ Marked C st.1 e) {j : ℕ} (hkj : st.1 (C.chain e) ≤ j) (hj : j ≤ C.idx e)
    (hs : Served C dep base (Below C dep base (C.chain e) j) (mark C e st) s) :
    Served C dep base (Below C dep base (C.chain e) (j + 1)) (mark C e st)
      (serve dep (visit C dep fuel) s (C.node (C.chain e) j)) := by
  have hbj : base (C.chain e) ≤ j := (h.listing.base_le _).trans hkj
  set c := C.chain e
  set s' := visit C dep fuel (dep (C.node c j)) s with hs'
  have hcall : Served C dep base
      (fun x => Below C dep base c j x ∨ ∃ d, dep (C.node c j) = some d ∧ Past C dep base x d)
      (mark C e st) s' := by
    rcases hd : dep (C.node c j) with _ | d
    · have : s' = s := by rw [hs', hd, visit_none]
      rw [this]
      exact hs.congr (fun x => Or.inl) fun x hx => Or.inl (by simpa using hx)
    · have := hs.trans (ih d s (h.wait hac he hkj hj hs hd))
      rw [hs', hd]
      exact this.congr (fun x => Or.imp_right fun hx => ⟨d, rfl, hx⟩)
        fun x hx => Or.inl (hx.imp_right fun ⟨d', hd', hx⟩ => by cases hd'; exact hx)
  refine (hcall.snoc (x := C.node c j) ?_ (by simpa using hbj) ?_ ?_).congr
    (fun x => (below_succ hbj).2) fun x hx => Or.inl ((below_succ hbj).1 hx)
  · rw [hcall.marks, marked_mark he]
    exact Or.inl (Or.inr ⟨C.chain_node _ _, by simpa using hj⟩)
  · rw [hcall.mem_iff]
    rintro (hmem | ⟨hbelow | ⟨d, hd, hpast⟩, -⟩)
    · have := h.listing.marked _ hmem
      simp only [Marked, C.idx_node, C.chain_node] at this
      omega
    · exact hac.not_below hbj hbelow
    · exact hac.not_past_dep (by simpa using hbj) hd hpast
  · rintro y ⟨-, ⟨hc, hi⟩ | hd⟩
    · by_cases hb : C.idx y < base (C.chain y)
      · exact Or.inl hb
      · rw [C.chain_node] at hc
        rw [C.idx_node] at hi
        refine Or.inr ((hcall.mem_iff _).2 (Or.inr ⟨Or.inl ⟨C.idx y, by omega, ?_, ?_⟩, ?_⟩))
        · rw [← hc]; omega
        · rw [← hc, C.node_eta]; exact Past.refl y
        · exact not_lt.1 hb
    · by_cases hb : C.idx y < base (C.chain y)
      · exact Or.inl hb
      · exact Or.inr ((hcall.mem_iff _).2 (Or.inr ⟨Or.inr ⟨y, hd, Past.refl y⟩, not_lt.1 hb⟩))

/-- The walk up to any point has listed what is below that point. -/
theorem walk_spec (hac : Acyclic C dep base) {fuel : ℕ}
    (ih : ∀ d s, Ready C dep base fuel d s →
      Served C dep base (fun x => Past C dep base x d) s (visit C dep fuel (some d) s))
    {e : ε} {st : (ι → ℕ) × List ε} (h : Ready C dep base (fuel + 1) e st)
    (he : ¬ Marked C st.1 e) {m : ℕ} (hm : st.1 (C.chain e) + m ≤ C.idx e + 1) :
    Served C dep base (Below C dep base (C.chain e) (st.1 (C.chain e) + m)) (mark C e st)
      (walk C dep (visit C dep fuel) (C.chain e) (st.1 (C.chain e)) m (mark C e st)) := by
  induction m with
  | zero => exact h.served_mark he
  | succ m ihm =>
    rw [walk_succ]
    exact (ihm (by omega)).serve hac ih h he (Nat.le_add_right _ _) (by show _ + m ≤ _; omega)

/-- **A request lists exactly the missing part of the past of its event**, after what was listed
before and in an order that respects the precedence. -/
theorem visit_spec (hac : Acyclic C dep base) (fuel : ℕ) (e : ε) (st : (ι → ℕ) × List ε)
    (h : Ready C dep base fuel e st) :
    Served C dep base (fun x => Past C dep base x e) st (visit C dep fuel (some e) st) := by
  induction fuel generalizing e st with
  | zero =>
    obtain ⟨U, -, hU⟩ := h.enough
    omega
  | succ fuel ih =>
    rw [visit]
    split
    · rename_i hm
      exact served_of_marked h.listing h.settled hm
    · rename_i he
      have hle : st.1 (C.chain e) ≤ C.idx e := not_lt.1 he
      have hw := walk_spec hac ih h he (m := C.idx e + 1 - st.1 (C.chain e)) (by omega)
      have hpast : ∀ x, Below C dep base (C.chain e) (C.idx e + 1) x ↔ Past C dep base x e := by
        refine fun x => ⟨past_of_below le_rfl, fun hx => ⟨C.idx e, by omega, ?_, ?_⟩⟩
        · have := h.base_le he
          omega
        · rwa [C.node_eta]
      rw [Nat.add_sub_cancel' (by omega)] at hw
      obtain ⟨new, hnew, hmem⟩ := hw.append
      refine ⟨hw.listing, ⟨new, hnew, fun x => by rw [hmem, hpast]; rfl⟩, fun x => ?_⟩
      rw [hw.marks, hpast, marked_mark he]
      refine ⟨?_, ?_⟩
      · rintro ((h1 | ⟨hc, hi⟩) | h1)
        · exact Or.inl h1
        · by_cases hb : C.idx x < base (C.chain x)
          · exact Or.inl (lt_of_lt_of_le hb (h.listing.base_le _))
          · exact Or.inr (past_of_idx_le hc (by rw [← hc]; omega) hi)
        · exact Or.inr h1
      · rintro (h1 | h1)
        · exact Or.inl (Or.inl h1)
        · exact Or.inr h1

/-! ## A sequence of requests -/

omit [DecidableEq ι] in
/-- The traversal starts with everything below `base` taken and nothing listed. -/
theorem listing_nil (base : ι → ℕ) : Listing C dep base (base, ([] : List ε)) :=
  ⟨fun _ => le_rfl, by simp, by simp, List.nodup_nil, by simp⟩

theorem visitAll_append (fuel : ℕ) (l l' : List ε) (st : (ι → ℕ) × List ε) :
    visitAll C dep fuel (l ++ l') st = visitAll C dep fuel l' (visitAll C dep fuel l st) :=
  List.foldl_append

theorem visitAll_isPrefix (fuel : ℕ) (l : List ε) (st : (ι → ℕ) × List ε) :
    st.2 <+: (visitAll C dep fuel l st).2 := by
  induction l generalizing st with
  | nil => exact List.prefix_rfl
  | cons r l ih => exact (visit_isPrefix fuel (some r) st).trans (ih _)

/-- `fuel` is enough for the requests `roots`. -/
def Enough (C : Chains ε ι) (dep : ε → Option ε) (base : ι → ℕ) (fuel : ℕ) (roots : List ε) :
    Prop :=
  ∃ U : Finset ε, (∀ r ∈ roots, ∀ x, Past C dep base x r → base (C.chain x) ≤ C.idx x → x ∈ U) ∧
    U.card < fuel

omit [DecidableEq ι] in
/-- Between two requests nothing is marked without being listed. -/
theorem Served.ready {A : ε → Prop} {fuel : ℕ} {roots : List ε} {s : (ι → ℕ) × List ε}
    (h : Served C dep base A (base, []) s) (hU : Enough C dep base fuel roots) {r : ε}
    (hr : r ∈ roots) : Ready C dep base fuel r s := by
  refine ⟨h.listing, fun x _ hm => ?_, ?_⟩
  · rcases (h.marks x).1 hm with hb | hA
    · exact Or.inl hb
    · by_cases hb : C.idx x < base (C.chain x)
      · exact Or.inl hb
      · exact Or.inr ((h.mem_iff x).2 (Or.inr ⟨hA, not_lt.1 hb⟩))
  · obtain ⟨U, hU, hcard⟩ := hU
    exact ⟨U, hU r hr, lt_of_le_of_lt (Finset.card_filter_le _ _) hcard⟩

/-- **A sequence of requests lists exactly the past of the requested events.** -/
theorem visitAll_spec (hac : Acyclic C dep base) {fuel : ℕ} {roots : List ε}
    (hU : Enough C dep base fuel roots) {l : List ε} (hl : l <+: roots) :
    Served C dep base (fun x => ∃ r ∈ l, Past C dep base x r) (base, [])
      (visitAll C dep fuel l (base, [])) := by
  induction l using List.reverseRecOn with
  | nil => exact ⟨listing_nil base, ⟨[], rfl, by simp⟩, by simp [visitAll]⟩
  | append_singleton l r ih =>
    have hs := ih ((List.prefix_append l [r]).trans hl)
    have hr : r ∈ roots := hl.subset (by simp)
    rw [visitAll_append]
    refine (hs.trans (visit_spec hac fuel r _ (hs.ready hU hr))).congr ?_ ?_
    · rintro x (⟨r', hr', hx⟩ | hx)
      · exact ⟨r', List.mem_append_left _ hr', hx⟩
      · exact ⟨r, by simp, hx⟩
    · rintro x ⟨r', hr', hx⟩
      rcases List.mem_append.1 hr' with h | h
      · exact Or.inl (Or.inl ⟨r', h, hx⟩)
      · exact Or.inl (Or.inr (List.mem_singleton.1 h ▸ hx))

/-! ## Which requests are made, and when -/

/-- `Asks S e`: in the course of the requests `roots`, event `e` gets requested, and `S` is what
has been asked for before.  The requests themselves come in order; and the request for an event
asks, for each event `x` of its chain up to it, for the wait of `x` when everything below `x` on
the chain has been asked for. -/
inductive Asks (C : Chains ε ι) (dep : ε → Option ε) (base : ι → ℕ) (roots : List ε) :
    (ε → Prop) → ε → Prop
  | root {l₁ l₂ : List ε} {r : ε} (h : roots = l₁ ++ r :: l₂) :
      Asks C dep base roots (fun x => ∃ r' ∈ l₁, Past C dep base x r') r
  | wait {S : ε → Prop} {e x d : ε} (h : Asks C dep base roots S e) (hc : C.chain x = C.chain e)
      (hb : base (C.chain x) ≤ C.idx x) (hx : C.idx x ≤ C.idx e) (hd : dep x = some d) :
      Asks C dep base roots (fun y => S y ∨ Below C dep base (C.chain x) (C.idx x) y) d

omit [DecidableEq ι] in
theorem Asks.past {roots : List ε} {S : ε → Prop} {e : ε} (h : Asks C dep base roots S e)
    {x y : ε} (hx : S x) (hy : Past C dep base y x) : S y := by
  induction h with
  | root h =>
    obtain ⟨r', hr', hx⟩ := hx
    exact ⟨r', hr', hy.trans hx⟩
  | wait _ _ _ _ _ ih =>
    rcases hx with hx | ⟨i, hi, hb, hx⟩
    · exact Or.inl (ih hx)
    · exact Or.inr ⟨i, hi, hb, hy.trans hx⟩

/-- The moment of a request in the listing `out`: `S` is what stands before it, and unless the
event is there already, a run of `visit` for it follows. -/
def Placed (C : Chains ε ι) (dep : ε → Option ε) (base : ι → ℕ) (out : List ε) (S : ε → Prop)
    (e : ε) : Prop :=
  ∃ p, p <+: out ∧ (∀ x, x ∈ p ↔ S x ∧ base (C.chain x) ≤ C.idx x) ∧
    (¬ S e → base (C.chain e) ≤ C.idx e → ∃ fuel st, st.2 = p ∧ ¬ Marked C st.1 e ∧
      Ready C dep base (fuel + 1) e st ∧ (visit C dep (fuel + 1) (some e) st).2 <+: out)

/-- A request for an event not listed yet is a walk over its chain. -/
theorem visit_of_not_marked {fuel : ℕ} {e : ε} {st : (ι → ℕ) × List ε} (he : ¬ Marked C st.1 e) :
    visit C dep (fuel + 1) (some e) st =
      walk C dep (visit C dep fuel) (C.chain e) (st.1 (C.chain e))
        (C.idx e + 1 - st.1 (C.chain e)) (mark C e st) := by
  rw [visit]
  exact if_neg he

theorem placed_of_ready {f : ℕ} {e : ε} {s : (ι → ℕ) × List ε} {out : List ε} {S : ε → Prop}
    (hr : Ready C dep base f e s) (hS : ∀ x, x ∈ s.2 ↔ S x ∧ base (C.chain x) ≤ C.idx x)
    (hout : (visit C dep f (some e) s).2 <+: out) : Placed C dep base out S e := by
  refine ⟨s.2, (visit_isPrefix f (some e) s).trans hout, hS, fun he hb => ?_⟩
  obtain ⟨n, rfl⟩ : ∃ n, f = n + 1 := by
    obtain ⟨U, -, hU⟩ := hr.enough
    exact ⟨f - 1, by omega⟩
  refine ⟨n, s, rfl, fun hm => ?_, hr, hout⟩
  rcases hr.settled e (Past.refl e) hm with h | h
  · omega
  · exact he ((hS e).1 h).1

/-- The walk of a request up to the event `x` of the chain. -/
theorem Ready.walk_to (hac : Acyclic C dep base) {fuel : ℕ} {e x : ε} {st : (ι → ℕ) × List ε}
    (h : Ready C dep base (fuel + 1) e st) (he : ¬ Marked C st.1 e)
    (hc : C.chain x = C.chain e) (hk : ¬ Marked C st.1 x) (hx : C.idx x ≤ C.idx e) :
    ∃ s, Served C dep base (Below C dep base (C.chain e) (C.idx x)) (mark C e st) s ∧
      (serve dep (visit C dep fuel) s x).2 <+: (visit C dep (fuel + 1) (some e) st).2 := by
  rw [Marked] at hk
  rw [hc] at hk
  set k := st.1 (C.chain e) with hk'
  have hw := walk_spec hac (visit_spec hac fuel) h he (m := C.idx x - k) (by omega)
  rw [← hk', Nat.add_sub_cancel' (by omega)] at hw
  refine ⟨_, hw, ?_⟩
  have hnode : x = C.node (C.chain e) (k + (C.idx x - k)) := by
    rw [Nat.add_sub_cancel' (by omega), ← hc, C.node_eta]
  have hstep : walk C dep (visit C dep fuel) (C.chain e) k (C.idx x - k + 1) (mark C e st) = _ :=
    walk_succ _ _ _ _ _
  rw [← hnode] at hstep
  rw [visit_of_not_marked he, ← hstep]
  exact walk_isPrefix (fun e st => visit_isPrefix fuel e st) _ _ (by omega) _

/-- Every request happens at its place in the listing. -/
theorem Asks.placed (hac : Acyclic C dep base) {fuel : ℕ} {roots : List ε}
    (hU : Enough C dep base fuel roots) {S : ε → Prop} {e : ε} (h : Asks C dep base roots S e) :
    Placed C dep base (visitAll C dep fuel roots (base, [])).2 S e := by
  induction h with
  | @root l₁ l₂ r hroots =>
    have hl : l₁ <+: roots := ⟨r :: l₂, hroots.symm⟩
    have hs := visitAll_spec hac hU hl
    refine placed_of_ready (hs.ready hU (by simp [hroots])) (fun x => ?_) ?_
    · rw [hs.mem_iff]
      simp
    · rw [hroots, visitAll_append]
      exact visitAll_isPrefix fuel l₂ _
  | @wait S e x d h hc hb hx hd ih =>
    obtain ⟨p, hp, hpS, hvisit⟩ := ih
    have hbelow : ∀ y, Below C dep base (C.chain x) (C.idx x) y → Past C dep base y x :=
      fun y hy => past_of_below (by omega) hy
    by_cases hSx : S x
    · refine ⟨p, hp, fun y => ?_, fun hSd => ?_⟩
      · rw [hpS]
        exact and_congr_left' (or_iff_left_of_imp fun hy => h.past hSx (hbelow y hy)).symm
      · exact absurd (Or.inl (h.past hSx (past_of_dep hb hd (Past.refl d)))) hSd
    · have hxe : Past C dep base x e := past_of_idx_le hc (by rw [← hc]; omega) hx
      obtain ⟨n, st, rfl, he, hr, hout⟩ := hvisit (fun hSe => hSx (h.past hSe hxe))
        (by rw [← hc]; omega)
      have hk : ¬ Marked C st.1 x := fun hm => by
        rcases hr.settled x hxe hm with h1 | h1
        · omega
        · exact hSx ((hpS x).1 h1).1
      obtain ⟨s, hs, hserve⟩ := hr.walk_to hac he hc hk hx
      have hnode : C.node (C.chain e) (C.idx x) = x := by rw [← hc, C.node_eta]
      refine placed_of_ready (f := n) (s := s) ?_ (fun y => ?_) ?_
      · refine hr.wait hac he ?_ hx hs (by rwa [hnode])
        rw [Marked] at hk
        rw [hc] at hk
        omega
      · rw [hs.mem_iff, show (mark C e st).2 = st.2 from rfl, hpS, hc]
        tauto
      · refine List.IsPrefix.trans ?_ (hserve.trans hout)
        rw [serve, hd]
        exact List.prefix_append _ _

/-- The walk of a request lists nothing but chain events and what its waits request. -/
theorem exists_asks_of_visit (hac : Acyclic C dep base) {roots : List ε} (fuel : ℕ)
    {S : ε → Prop} {e : ε} (h : Asks C dep base roots S e) {st : (ι → ℕ) × List ε}
    (hr : Ready C dep base fuel e st) (hS : ∀ x, x ∈ st.2 ↔ S x ∧ base (C.chain x) ≤ C.idx x)
    {x : ε} (hx : x ∈ (visit C dep fuel (some e) st).2) (hx' : x ∉ st.2) :
    ∃ S' e', Asks C dep base roots S' e' ∧ C.chain e' = C.chain x ∧
      base (C.chain e') ≤ C.idx e' ∧ ¬ S' x := by
  induction fuel generalizing S e st with
  | zero => exact absurd hx hx'
  | succ fuel ih =>
    by_cases he : Marked C st.1 e
    · rw [visit, if_pos (show C.idx e < st.1 (C.chain e) from he)] at hx
      exact absurd hx hx'
    have hbx : base (C.chain x) ≤ C.idx x := (visit_spec hac _ e st hr).listing.above x hx
    have hle : st.1 (C.chain e) ≤ C.idx e := not_lt.1 he
    by_cases hc : C.chain e = C.chain x
    · exact ⟨S, e, h, hc, hr.base_le he, fun hSx => hx' ((hS x).2 ⟨hSx, hbx⟩)⟩
    rw [visit_of_not_marked he] at hx
    -- find the step of the walk at which `x` is listed
    have hwalk : ∀ m, st.1 (C.chain e) + m ≤ C.idx e + 1 →
        x ∈ (walk C dep (visit C dep fuel) (C.chain e) (st.1 (C.chain e)) m (mark C e st)).2 →
        ∃ S' e', Asks C dep base roots S' e' ∧ C.chain e' = C.chain x ∧
          base (C.chain e') ≤ C.idx e' ∧ ¬ S' x := by
      intro m hm hxm
      induction m with
      | zero => exact absurd hxm hx'
      | succ m ihm =>
        have hw := walk_spec hac (visit_spec hac fuel) hr he (m := m) (by omega)
        set s := walk C dep (visit C dep fuel) (C.chain e) (st.1 (C.chain e)) m (mark C e st)
        by_cases hxs : x ∈ s.2
        · exact ihm (by omega) hxs
        · rw [walk_succ, serve, List.mem_append, List.mem_singleton] at hxm
          rcases hxm with hxm | rfl
          · rcases hd : dep (C.node (C.chain e) (st.1 (C.chain e) + m)) with _ | d
            · rw [hd, visit_none] at hxm
              exact absurd hxm hxs
            · rw [hd] at hxm
              have hbk := hr.listing.base_le (C.chain e)
              have hask := h.wait (x := C.node (C.chain e) (st.1 (C.chain e) + m)) (by simp)
                (by rw [C.chain_node, C.idx_node]; omega) (by rw [C.idx_node]; omega) hd
              refine ih hask (hr.wait hac he (by omega) (by omega) hw hd) (fun y => ?_) hxm hxs
              rw [hw.mem_iff, show (mark C e st).2 = st.2 from rfl, hS, C.chain_node, C.idx_node]
              tauto
          · exact absurd (C.chain_node _ _).symm hc
    exact hwalk _ (by omega) hx

/-- Whatever is listed belongs to the chain of a request made before it was listed. -/
theorem exists_asks (hac : Acyclic C dep base) {fuel : ℕ} {roots : List ε}
    (hU : Enough C dep base fuel roots) {x : ε} {l : List ε} (hl : l <+: roots)
    (hx : x ∈ (visitAll C dep fuel l (base, [])).2) :
    ∃ S e, Asks C dep base roots S e ∧ C.chain e = C.chain x ∧ base (C.chain e) ≤ C.idx e ∧
      ¬ S x := by
  induction l using List.reverseRecOn with
  | nil => exact absurd hx List.not_mem_nil
  | append_singleton l r ih =>
    have hl' : l <+: roots := (List.prefix_append l [r]).trans hl
    by_cases hx' : x ∈ (visitAll C dep fuel l (base, [])).2
    · exact ih hl' hx'
    · have hs := visitAll_spec hac hU hl'
      obtain ⟨l₂, hroots⟩ := hl
      rw [visitAll_append] at hx
      have hroots' : roots = l ++ r :: l₂ := by simpa using hroots.symm
      refine exists_asks_of_visit hac fuel (Asks.root hroots')
        (hs.ready hU (by simp [← hroots])) (fun y => ?_) hx hx'
      rw [hs.mem_iff]
      simp

omit [DecidableEq ι] in
/-- In a listing every event comes after the rest of its past. -/
theorem Listing.before_of_past {st : (ι → ℕ) × List ε} (h : Listing C dep base st) {a b : ε}
    (hb : b ∈ st.2) (hab : Past C dep base a b) (hne : a ≠ b)
    (ha : base (C.chain a) ≤ C.idx a) : Before st.2 a b := by
  obtain rfl | ⟨y, hay, hyb⟩ := Relation.ReflTransGen.cases_tail hab
  · exact absurd rfl hne
  · obtain ⟨l₁, l₂, hl⟩ := List.append_of_mem hb
    refine ⟨l₁, l₂, hl, ?_⟩
    -- the part of the listing before `b` is itself a listing
    have hpre : Listing C dep base (st.1, l₁) := by
      refine ⟨h.base_le, fun x hx => h.marked x (by simp [hl, hx]),
        fun x hx => h.above x (by simp [hl, hx]),
        (hl ▸ h.nodup).sublist (List.sublist_append_left _ _), fun k₁ x k₂ hk => ?_⟩
      have hk' : l₁ = k₁ ++ x :: k₂ := hk
      exact h.sorted k₁ x (k₂ ++ b :: l₂) (by rw [hl, hk']; simp)
    rcases h.sorted l₁ b l₂ hl y hyb with hy | hy
    · rw [past_of_base hy hay] at ha
      omega
    · exact (hpre.closed hy hay).resolve_left (by omega)

/-- **Which events come before the first event of a chain.**  Event `a` does when it is in the
past of that event, or when, whenever the chain is requested, `a` has been asked for before. -/
theorem listed_before_iff (hac : Acyclic C dep base) {fuel : ℕ} {roots : List ε}
    (hU : Enough C dep base fuel roots) {a b : ε} (hb : C.idx b = base (C.chain b))
    (hmem : b ∈ (visitAll C dep fuel roots (base, [])).2) (hne : a ≠ b)
    (ha : base (C.chain a) ≤ C.idx a) :
    Before (visitAll C dep fuel roots (base, [])).2 a b ↔
      ∀ S e, Asks C dep base roots S e → C.chain e = C.chain b → base (C.chain e) ≤ C.idx e →
        S a ∨ Past C dep base a b := by
  have hlist := (visitAll_spec hac hU (List.prefix_refl roots)).listing
  refine ⟨fun hbefore S e h hc hbe => ?_, fun hcond => ?_⟩
  · obtain ⟨p, hp, hpS, hvisit⟩ := h.placed hac hU
    have hbe' : Past C dep base b e :=
      past_of_idx_le hc.symm (by rw [hc, hb]; omega) (by rw [hb, ← hc]; exact hbe)
    by_cases hSb : S b
    · exact Or.inl ((hpS a).1 (hbefore.mem_pre hlist.nodup hp ((hpS b).2 ⟨hSb, hb.ge⟩))).1
    · obtain ⟨n, st, rfl, he, hr, hout⟩ := hvisit (fun hSe => hSb (h.past hSe hbe')) hbe
      have hk : ¬ Marked C st.1 b := fun hm => by
        rcases hr.settled b hbe' hm with h1 | h1
        · omega
        · exact hSb ((hpS b).1 h1).1
      have hcnt : st.1 (C.chain e) = C.idx b := by
        have h1 := hr.listing.base_le (C.chain e)
        rw [Marked] at hk
        rw [← hc] at hk hb
        omega
      obtain ⟨s, hs, hserve⟩ := hr.walk_to hac he hc.symm hk (by rw [hb, ← hc]; exact hbe)
      have hs' := hs.serve hac (visit_spec hac n) hr he hcnt.le (by rw [hb, ← hc]; exact hbe)
      rw [show C.node (C.chain e) (C.idx b) = b by rw [hc, C.node_eta]] at hs'
      have hbs : b ∈ (serve dep (visit C dep n) s b).2 := by simp [serve]
      have has := hbefore.mem_pre hlist.nodup (hserve.trans hout) hbs
      rcases (hs'.mem_iff a).1 has with h1 | ⟨h1, -⟩
      · exact Or.inl ((hpS a).1 h1).1
      · rw [hc] at h1
        exact Or.inr (past_of_below le_rfl h1)
  · obtain ⟨S, e, h, hc, hbe, hSb⟩ := exists_asks hac hU (List.prefix_refl roots) hmem
    obtain ⟨p, hp, hpS, -⟩ := h.placed hac hU
    rcases hcond S e h hc hbe with hSa | hpast
    · exact before_of_pre hp ((hpS a).2 ⟨hSa, ha⟩) hmem fun h1 => hSb ((hpS b).1 h1).1
    · exact hlist.before_of_past hmem hpast hne ha

end ChainDFS
