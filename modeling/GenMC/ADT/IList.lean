import GenMC.Library.LinkedRing

/-!
# Intrusive lists

A list is a ring of nodes and of a sentinel, which is the end in both directions.  Lists are known
by their sentinels, nodes and sentinels are cells of one heap, and an operation on a list changes a
few pointers of the heap.  It has no result if it dereferences a null pointer.

`Lists` is what the lists of a heap hold, as sequences, and `Effect` what an operation does to them.

* `exec_refines`: **on well-formed rings, operations do what they should**, and walks in both
  directions list the nodes.
* `execAll_refines`: so does any run of operations.
-/

set_option autoImplicit false

namespace GenMC

open LinkedRing

namespace IList

variable {P : Type*} [DecidableEq P]

/-! ## The code -/

/-- `operator*` of iterators, which asserts that the node is not the sentinel of an empty list. -/
def deref (h : Heap P) (p : P) : Option P :=
  if (h p).next = some p ∧ (h p).prev = some p then none else some p

def insert (h : Heap P) (pos node : P) : Option (Heap P × P) := do
  let next := pos
  let prev ← (h next).prev
  let h := h.setNext node (some next)
  let h := h.setPrev node (some prev)
  let h := h.setPrev next (some node)
  let h := h.setNext prev (some node)
  some (h, node)

def remove (h : Heap P) (node : P) : Option (Heap P) := do
  let prev ← (h node).prev
  let h := h.setNext prev (h node).next
  let next ← (h node).next
  let h := h.setPrev next (h node).prev
  let h := h.setNext node none
  some (h.setPrev node none)

/-- Removes a node, and goes on to the next one. -/
def erase (h : Heap P) (pos : P) : Option (Heap P × P) := do
  let next ← (h pos).next
  let node ← deref h pos
  let h ← remove h node
  some (h, next)

def clear (h : Heap P) (sentinel : P) : Heap P :=
  (h.setPrev sentinel (some sentinel)).setNext sentinel (some sentinel)

/-- The constructor without arguments. -/
def init (h : Heap P) (sentinel : P) : Heap P :=
  (h.setNext sentinel (some sentinel)).setPrev sentinel (some sentinel)

def isEmpty (h : Heap P) (sentinel : P) : Bool := (h sentinel).prev = some sentinel

def splice (h : Heap P) (sentinel other : P) : Option (Heap P) :=
  if isEmpty h other then some h
  else do
    let first ← (h other).next
    let last ← (h other).prev
    let h := h.setPrev first (some sentinel)
    let h := h.setNext last (some sentinel)
    let h := h.setNext sentinel (some first)
    let h := h.setPrev sentinel (some last)
    some ((h.setPrev other (some other)).setNext other (some other))

/-- The move constructor. -/
def moveInit (h : Heap P) (sentinel other : P) : Option (Heap P) :=
  splice (init h sentinel) sentinel other

def moveAssign (h : Heap P) (sentinel other : P) : Option (Heap P) :=
  splice (clear h sentinel) sentinel other

def pushFront (h : Heap P) (sentinel node : P) : Option (Heap P × P) := do
  let pos ← (h sentinel).next
  insert h pos node

def pushBack (h : Heap P) (sentinel node : P) : Option (Heap P × P) := insert h sentinel node

def popFront (h : Heap P) (sentinel : P) : Option (Heap P × P) := do
  let pos ← (h sentinel).next
  erase h pos

def popBack (h : Heap P) (sentinel : P) : Option (Heap P × P) := do
  let pos ← (h sentinel).prev
  erase h pos

/-- The nodes from `begin()` to `end()`, at most so many. -/
def forward (h : Heap P) (sentinel : P) (fuel : ℕ) : Option (List P) := do
  let pos ← (h sentinel).next
  walk (fun p => (h p).next) sentinel fuel pos

/-- The nodes from `rbegin()` to `rend()`. -/
def backward (h : Heap P) (sentinel : P) (fuel : ℕ) : Option (List P) := do
  let pos ← (h sentinel).prev
  walk (fun p => (h p).prev) sentinel fuel pos

/-- Operations on lists, which are given by their sentinels. -/
inductive Op (P : Type*)
  | init (sentinel : P)
  | insert (pos node : P)
  | remove (node : P)
  | erase (pos : P)
  | clear (sentinel : P)
  | moveInit (sentinel other : P)
  | moveAssign (sentinel other : P)
  | pushFront (sentinel node : P)
  | pushBack (sentinel node : P)
  | popFront (sentinel : P)
  | popBack (sentinel : P)

/-- An operation, with the iterator that it returns. -/
def exec (h : Heap P) : Op P → Option (Heap P × Option P)
  | .init s => some (init h s, none)
  | .insert pos node => (insert h pos node).map fun r => (r.1, some r.2)
  | .remove node => (remove h node).map (·, none)
  | .erase pos => (erase h pos).map fun r => (r.1, some r.2)
  | .clear s => some (clear h s, none)
  | .moveInit s other => (moveInit h s other).map (·, none)
  | .moveAssign s other => (moveAssign h s other).map (·, none)
  | .pushFront s node => (pushFront h s node).map fun r => (r.1, none)
  | .pushBack s node => (pushBack h s node).map fun r => (r.1, none)
  | .popFront s => (popFront h s).map fun r => (r.1, none)
  | .popBack s => (popBack h s).map fun r => (r.1, none)

/-! ## Lists as sequences -/

/-- The sequences of all lists, by their sentinels. -/
abbrev Lists (P : Type*) := P → Option (List P)

namespace Lists

/-- A list holds other nodes from now on. -/
def set (L : Lists P) (s : P) (xs : List P) : Lists P := Function.update L s (some xs)

/-- A node that is in no list, nor a sentinel. -/
def Unlinked (L : Lists P) (p : P) : Prop := ∀ s xs, L s = some xs → p ∉ s :: xs

end Lists

/-- What an operation does to the sequences, where it may be called, and the iterator that it
returns.  Sentinels are the ends of their lists. -/
inductive Effect (L : Lists P) : Op P → Lists P → Option P → Prop
  | init {s : P} (hs : L.Unlinked s) : Effect L (.init s) (L.set s []) none
  | insert {s pos node : P} {ys zs : List P} (hs : L s = some (ys ++ zs))
      (hpos : (zs ++ [s]).head? = some pos) (hnode : L.Unlinked node) :
      Effect L (.insert pos node) (L.set s (ys ++ node :: zs)) (some node)
  | remove {s node : P} {ys zs : List P} (hs : L s = some (ys ++ node :: zs)) :
      Effect L (.remove node) (L.set s (ys ++ zs)) none
  | erase {s pos next : P} {ys zs : List P} (hs : L s = some (ys ++ pos :: zs))
      (hnext : (zs ++ [s]).head? = some next) :
      Effect L (.erase pos) (L.set s (ys ++ zs)) (some next)
  | clear {s : P} {xs : List P} (hs : L s = some xs) : Effect L (.clear s) (L.set s []) none
  | moveInit {s other : P} {xs : List P} (hs : L.Unlinked s) (hother : L other = some xs) :
      Effect L (.moveInit s other) ((L.set other []).set s xs) none
  | moveAssign {s other : P} {xs ys : List P} (hne : s ≠ other) (hs : L s = some ys)
      (hother : L other = some xs) :
      Effect L (.moveAssign s other) ((L.set other []).set s xs) none
  | pushFront {s node : P} {xs : List P} (hs : L s = some xs) (hnode : L.Unlinked node) :
      Effect L (.pushFront s node) (L.set s (node :: xs)) none
  | pushBack {s node : P} {xs : List P} (hs : L s = some xs) (hnode : L.Unlinked node) :
      Effect L (.pushBack s node) (L.set s (xs ++ [node])) none
  | popFront {s x : P} {xs : List P} (hs : L s = some (x :: xs)) :
      Effect L (.popFront s) (L.set s xs) none
  | popBack {s x : P} {xs : List P} (hs : L s = some (xs ++ [x])) :
      Effect L (.popBack s) (L.set s xs) none

/-- **Well-formed rings**: the lists are rings, which have no cells in common. -/
structure Rings (h : Heap P) (L : Lists P) : Prop where
  ring : ∀ s xs, L s = some xs → IsRing h s xs
  disjoint : ∀ s xs t ys, L s = some xs → L t = some ys → s ≠ t → ∀ p ∈ s :: xs, p ∉ t :: ys

/-! ## Operations on one ring -/

section

variable {h : Heap P} {s t n p q : P} {xs ys zs : List P}

theorem insert_spec (hr : IsRing h s (ys ++ zs)) (hn : n ∉ s :: (ys ++ zs))
    (hq : (zs ++ [s]).head? = some q) :
    ∃ h', insert h q n = some (h', n) ∧ IsRing h' s (ys ++ n :: zs) ∧
      ∀ x ∉ s :: (ys ++ zs), x ≠ n → h' x = h x := by
  obtain ⟨p, hp⟩ := exists_getLast? s ys
  have hpn : p ≠ n := fun heq => hn (heq ▸ mem_of_getLast? hp)
  have hqn : q ≠ n := fun heq => hn (heq ▸ mem_of_head? hq)
  obtain ⟨-, hprev⟩ := hr.linked hp hq
  refine ⟨_, by rw [insert, hprev]; rfl, hr.link hn hp hq ?_ ?_ ?_ ?_, fun x hx hxn => ?_⟩
  · constructor <;> simp [Heap.next_setNext, Heap.prev_setNext, Heap.prev_setPrev, hqn.symm]
  · constructor <;> simp [Heap.next_setNext, Heap.prev_setNext, Heap.next_setPrev,
      Heap.prev_setPrev,
      hpn.symm]
  · intro x hx hxp
    have hxn : x ≠ n := fun heq => hn (heq ▸ hx)
    simp [Heap.next_setNext, Heap.next_setPrev, hxp, hxn]
  · intro x hx hxq
    have hxn : x ≠ n := fun heq => hn (heq ▸ hx)
    simp [Heap.prev_setNext, Heap.prev_setPrev, hxq, hxn]
  · have hxp : x ≠ p := fun heq => hx (heq ▸ mem_of_getLast? hp)
    have hxq : x ≠ q := fun heq => hx (heq ▸ mem_of_head? hq)
    ext1 <;> simp [Heap.next_setNext, Heap.prev_setNext, Heap.next_setPrev, Heap.prev_setPrev, hxp,
      hxq, hxn]

theorem remove_spec (hr : IsRing h s (ys ++ n :: zs)) (hq : (zs ++ [s]).head? = some q) :
    ∃ h', remove h n = some h' ∧ IsRing h' s (ys ++ zs) ∧ (h n).next = some q ∧
      ∀ x ∉ s :: (ys ++ n :: zs), h' x = h x := by
  obtain ⟨p, hp⟩ := exists_getLast? s ys
  have hn : n ∉ s :: (ys ++ zs) := by
    have hperm : (s :: (ys ++ n :: zs)).Perm (n :: s :: (ys ++ zs)) :=
      (List.perm_middle.cons s).trans (List.Perm.swap n s _)
    exact (List.nodup_cons.1 (hperm.nodup_iff.1 hr.nodup)).1
  have hpn : p ≠ n := fun heq => hn (heq ▸ mem_of_getLast? hp)
  have hqn : q ≠ n := fun heq => hn (heq ▸ mem_of_head? hq)
  obtain ⟨-, hprev⟩ : Linked h p n := hr.linked hp rfl
  obtain ⟨hnext, -⟩ : Linked h n q := by
    have hr' : IsRing h s ((ys ++ [n]) ++ zs) := by rwa [List.append_assoc]
    refine hr'.linked ?_ hq
    rw [← List.cons_append, List.getLast?_concat]
  refine ⟨_, by simp only [remove, hprev, Option.bind_eq_bind, Option.bind_some, Heap.next_setNext,
    if_neg hpn.symm, hnext]; rfl, hr.unlink hp hq ?_ ?_ ?_, hnext, fun x hx => ?_⟩
  · refine ⟨?_, ?_⟩
    · simp [Heap.next_setNext, Heap.next_setPrev, hpn]
    · simp [Heap.prev_setNext, Heap.prev_setPrev, hqn, hprev]
  · intro x hx hxp
    have hxn : x ≠ n := fun heq => hn (heq ▸ hx)
    simp [Heap.next_setNext, Heap.next_setPrev, hxp, hxn]
  · intro x hx hxq
    have hxn : x ≠ n := fun heq => hn (heq ▸ hx)
    simp [Heap.prev_setNext, Heap.prev_setPrev, hxq, hxn]
  · have hxn : x ≠ n := by
      rintro rfl
      simp at hx
    have hx' : x ∉ s :: (ys ++ zs) := by
      simp at hx ⊢
      tauto
    have hxp : x ≠ p := fun heq => hx' (heq ▸ mem_of_getLast? hp)
    have hxq : x ≠ q := fun heq => hx' (heq ▸ mem_of_head? hq)
    ext1 <;> simp [Heap.next_setNext, Heap.prev_setNext, Heap.next_setPrev, Heap.prev_setPrev, hxp,
      hxq, hxn]

/-- Nodes of lists can be dereferenced. -/
theorem deref_eq (hr : IsRing h s (ys ++ n :: zs)) : deref h n = some n := by
  rw [deref, if_neg]
  rintro ⟨-, hprev⟩
  obtain ⟨p, hp⟩ := exists_getLast? s ys
  have hlinked : Linked h p n := hr.linked hp rfl
  obtain rfl : p = n := Option.some.inj (hlinked.2.symm.trans hprev)
  have hnodup := hr.nodup
  rw [← List.cons_append] at hnodup
  exact (List.nodup_append.1 hnodup).2.2 p (List.mem_of_getLast? hp) p List.mem_cons_self rfl

theorem isEmpty_iff (hr : IsRing h s xs) : isEmpty h s = true ↔ xs = [] := by
  rw [isEmpty, decide_eq_true_eq]
  refine ⟨fun hprev => ?_, ?_⟩
  · obtain ⟨p, hp⟩ := exists_getLast? s xs
    have hr' : IsRing h s (xs ++ []) := by rwa [List.append_nil]
    have hlinked : Linked h p s := hr'.linked hp rfl
    obtain rfl : p = s := Option.some.inj (hlinked.2.symm.trans hprev)
    cases xs with
    | nil => rfl
    | cons x xs =>
      rw [List.getLast?_cons_cons] at hp
      exact absurd (List.mem_of_getLast? hp) (List.nodup_cons.1 hr.nodup).1
  · rintro rfl
    exact (IsRing.nil_iff.1 hr).2

theorem splice_spec (hr : IsRing h t xs) (hs : s ∉ t :: xs) (hne : xs ≠ []) :
    ∃ h', splice h s t = some h' ∧ IsRing h' s xs ∧ IsRing h' t [] ∧
      ∀ x ∉ s :: t :: xs, h' x = h x := by
  obtain ⟨p, hp⟩ : ∃ p, xs.head? = some p := ⟨_, List.head?_eq_some_head hne⟩
  obtain ⟨q, hq⟩ : ∃ q, xs.getLast? = some q := ⟨_, List.getLast?_eq_some_getLast hne⟩
  have hpx : p ∈ xs := List.mem_of_mem_head? hp
  have hqx : q ∈ xs := List.mem_of_getLast? hq
  have hst : s ≠ t := fun heq => hs (heq ▸ List.mem_cons_self)
  have hsx : s ∉ xs := fun hmem => hs (List.mem_cons_of_mem _ hmem)
  have htx : t ∉ xs := (List.nodup_cons.1 hr.nodup).1
  have hns : ∀ x ∈ xs, x ≠ s := fun x hx heq => hsx (heq ▸ hx)
  have hnt : ∀ x ∈ xs, x ≠ t := fun x hx heq => htx (heq ▸ hx)
  have hnext : (h t).next = some p := by
    have hr' : IsRing h t ([] ++ xs) := hr
    exact (hr'.linked rfl (by rw [List.head?_append, hp]; rfl)).1
  have hprev : (h t).prev = some q := by
    have hr' : IsRing h t (xs ++ []) := by rwa [List.append_nil]
    refine (hr'.linked ?_ rfl).2
    obtain ⟨l, rfl⟩ := List.getLast?_eq_some_iff.1 hq
    rw [← List.cons_append, List.getLast?_concat]
  have hempty : isEmpty h t = false := by
    rw [isEmpty, decide_eq_false_iff_not, hprev, Option.some.injEq]
    exact hnt q hqx
  refine ⟨_, by rw [splice, hempty, hnext, hprev]; rfl, hr.move hsx hp hq ?_ ?_ ?_ ?_,
    IsRing.nil_iff.2 ?_, fun x hx => ?_⟩
  · constructor <;> simp [Heap.next_setNext, Heap.prev_setNext, Heap.next_setPrev,
      Heap.prev_setPrev, hst, hns p hpx, hnt p hpx]
  · constructor <;> simp [Heap.next_setNext, Heap.prev_setNext, Heap.next_setPrev,
      Heap.prev_setPrev, hst, hns q hqx, hnt q hqx]
  · intro x hx hxq
    simp [Heap.next_setNext, Heap.next_setPrev, hns x hx, hnt x hx, hxq]
  · intro x hx hxp
    simp [Heap.prev_setNext, Heap.prev_setPrev, hns x hx, hnt x hx, hxp]
  · simp [Heap.next_setNext, Heap.prev_setNext, Heap.prev_setPrev]
  · simp only [List.mem_cons, not_or] at hx
    have hxp : x ≠ p := fun heq => hx.2.2 (heq ▸ hpx)
    have hxq : x ≠ q := fun heq => hx.2.2 (heq ▸ hqx)
    ext1 <;> simp [Heap.next_setNext, Heap.prev_setNext, Heap.next_setPrev, Heap.prev_setPrev,
      hxp, hxq, hx.1, hx.2.1]

theorem clear_spec (h : Heap P) (s : P) :
    IsRing (clear h s) s [] ∧ ∀ x, x ≠ s → clear h s x = h x := by
  refine ⟨IsRing.nil_iff.2 ?_, fun x hx => ?_⟩
  · simp [clear, Heap.next_setNext, Heap.prev_setNext, Heap.prev_setPrev]
  · ext1 <;> simp [clear, Heap.next_setNext, Heap.prev_setNext, Heap.next_setPrev,
      Heap.prev_setPrev, hx]

theorem init_eq_clear (h : Heap P) (s : P) : init h s = clear h s := by
  funext x
  ext1 <;> simp [init, clear, Heap.next_setNext, Heap.prev_setNext, Heap.next_setPrev,
    Heap.prev_setPrev]

end

/-! ## Operations on all lists -/

section

variable {h h' : Heap P} {L L' : Lists P} {s t n p : P} {xs ys zs : List P}

/-- A cell that does not belong to another list. -/
def FreeFor (L : Lists P) (s p : P) : Prop := ∀ t ys, L t = some ys → t ≠ s → p ∉ t :: ys

omit [DecidableEq P] in
theorem Lists.Unlinked.freeFor (hp : L.Unlinked p) : FreeFor L s p := fun t ys ht _ => hp t ys ht

omit [DecidableEq P] in
theorem Rings.freeFor (hr : Rings h L) (hs : L s = some xs) (hp : p ∈ s :: xs) : FreeFor L s p :=
  fun t ys ht hne => hr.disjoint s xs t ys hs ht hne.symm p hp

theorem Lists.set_eq_some : L.set s xs t = some ys ↔ t = s ∧ ys = xs ∨ t ≠ s ∧ L t = some ys := by
  rw [Lists.set, Function.update_apply]
  split <;> simp_all [eq_comm]

/-- One list is given another ring, the cells of which belong to no other list, and those are as
before. -/
theorem Rings.set (hr : Rings h L) (hring : IsRing h' s xs) (hfree : ∀ x ∈ s :: xs, FreeFor L s x)
    (hframe : ∀ t ys, L t = some ys → t ≠ s → ∀ x ∈ t :: ys, h' x = h x) :
    Rings h' (L.set s xs) where
  ring := by
    intro t ys ht
    rcases Lists.set_eq_some.1 ht with ⟨rfl, rfl⟩ | ⟨hne, ht⟩
    · exact hring
    · exact (hr.ring t ys ht).congr (hframe t ys ht hne)
  disjoint := by
    intro t ys u zs ht hu hne p hp hp'
    rcases Lists.set_eq_some.1 ht with ⟨rfl, rfl⟩ | ⟨hts, ht'⟩
    · rcases Lists.set_eq_some.1 hu with ⟨rfl, rfl⟩ | ⟨hus, hu'⟩
      · exact hne rfl
      · exact hfree p hp u zs hu' hus hp'
    · rcases Lists.set_eq_some.1 hu with ⟨rfl, rfl⟩ | ⟨hus, hu'⟩
      · exact hfree p hp' t ys ht' hts hp
      · exact hr.disjoint t ys u zs ht' hu' hne p hp hp'

omit [DecidableEq P] in
/-- What changes are cells of the list, and maybe a cell of no list. -/
theorem Rings.frame (hr : Rings h L) (hs : L s = some xs) (hn : L.Unlinked n)
    (hframe : ∀ x ∉ s :: xs, x ≠ n → h' x = h x) :
    ∀ t ys, L t = some ys → t ≠ s → ∀ x ∈ t :: ys, h' x = h x := by
  intro t ys ht hne x hx
  refine hframe x (fun hxs => hr.freeFor hs hxs t ys ht hne hx) ?_
  rintro rfl
  exact hn t ys ht hx

theorem Rings.insert (hr : Rings h L) (hs : L s = some (ys ++ zs))
    (hq : (zs ++ [s]).head? = some p) (hn : L.Unlinked n) :
    ∃ h', insert h p n = some (h', n) ∧ Rings h' (L.set s (ys ++ n :: zs)) := by
  obtain ⟨h', hstep, hring, hframe⟩ := insert_spec (hr.ring s _ hs) (hn s _ hs) hq
  refine ⟨h', hstep, hr.set hring (fun x hx => ?_) (hr.frame hs hn hframe)⟩
  by_cases hxn : x = n
  · rw [hxn]
    exact hn.freeFor
  · refine hr.freeFor hs ?_
    simp at hx ⊢
    tauto

theorem Rings.remove (hr : Rings h L) (hs : L s = some (ys ++ n :: zs)) :
    ∃ h', remove h n = some h' ∧ Rings h' (L.set s (ys ++ zs)) := by
  obtain ⟨q, hq⟩ := exists_head? zs s
  obtain ⟨h', hstep, hring, -, hframe⟩ := remove_spec (hr.ring s _ hs) hq
  refine ⟨h', hstep, hr.set hring (fun x hx => hr.freeFor hs ?_) fun t ws ht hne x hx =>
    hframe x fun hxs => hr.freeFor hs hxs t ws ht hne hx⟩
  simp at hx ⊢
  tauto

theorem Rings.erase (hr : Rings h L) (hs : L s = some (ys ++ n :: zs))
    (hq : (zs ++ [s]).head? = some p) :
    ∃ h', erase h n = some (h', p) ∧ Rings h' (L.set s (ys ++ zs)) := by
  obtain ⟨h', hstep, hr'⟩ := hr.remove hs
  obtain ⟨-, -, -, hnext, -⟩ := remove_spec (hr.ring s _ hs) hq
  exact ⟨h', by rw [IList.erase, hnext, deref_eq (hr.ring s _ hs)]; simp [hstep], hr'⟩

/-- A list that is new or holds something becomes empty. -/
theorem Rings.clear (hr : Rings h L) (hs : FreeFor L s s) : Rings (clear h s) (L.set s []) := by
  obtain ⟨hring, hframe⟩ := clear_spec h s
  refine hr.set hring (fun x hx => ?_) fun t ys ht hne x hx => hframe x ?_
  · rwa [List.mem_singleton.1 hx]
  · rintro rfl
    exact hs t ys ht hne hx

/-- An empty list gets everything that another one holds. -/
theorem Rings.splice (hr : Rings h L) (hs : L s = some []) (ht : L t = some xs) (hne : s ≠ t) :
    ∃ h', splice h s t = some h' ∧ Rings h' ((L.set t []).set s xs) := by
  have hst : s ∉ t :: xs := hr.disjoint s [] t xs hs ht hne s List.mem_cons_self
  by_cases hxs : xs = []
  · subst hxs
    refine ⟨h, by rw [IList.splice, (isEmpty_iff (hr.ring t [] ht)).2 rfl]; rfl, ?_⟩
    have hL : (L.set t []).set s [] = L := by
      funext u
      rw [Lists.set, Lists.set, Function.update_apply, Function.update_apply]
      split <;> [skip; split] <;> simp_all
    rwa [hL]
  · obtain ⟨h', hstep, hring, hring', hframe⟩ := splice_spec (hr.ring t xs ht) hst hxs
    -- first the other list is made empty, and then this one is given its nodes
    have hclear := hr.clear (s := t) (hr.freeFor ht List.mem_cons_self)
    refine ⟨h', hstep, hclear.set hring ?_ ?_⟩
    · intro x hx u ys hu hus
      rcases Lists.set_eq_some.1 hu with ⟨rfl, rfl⟩ | ⟨hut, hu'⟩
      · rcases List.mem_cons.1 hx with rfl | hx
        · simpa using hne
        · rw [List.mem_singleton]
          rintro rfl
          exact (List.nodup_cons.1 (hr.ring x xs ht).nodup).1 hx
      · rcases List.mem_cons.1 hx with rfl | hx
        · exact hr.freeFor hs List.mem_cons_self u ys hu' hus
        · exact hr.freeFor ht (List.mem_cons_of_mem _ hx) u ys hu' hut
    · intro u ys hu hus x hx
      rcases Lists.set_eq_some.1 hu with ⟨rfl, rfl⟩ | ⟨hut, hu'⟩
      · rw [List.mem_singleton.1 hx]
        have h₁ := IsRing.nil_iff.1 hring'
        have h₂ := IsRing.nil_iff.1 (clear_spec h u).1
        exact Cell.ext (h₁.1.trans h₂.1.symm) (h₁.2.trans h₂.2.symm)
      · have hxt := hr.disjoint u ys t xs hu' ht hut x hx
        have hxs' : x ≠ s := by
          rintro rfl
          exact hr.disjoint u ys x [] hu' hs hus x hx List.mem_cons_self
        rw [hframe x (by simp at hxt ⊢; tauto), (clear_spec h t).2 x (by simp at hxt; tauto)]

/-- A list that is new or holds something gets everything that another one holds. -/
theorem Rings.moveTo (hr : Rings h L) (hs : FreeFor L s s) (ht : L t = some xs) (hne : s ≠ t) :
    ∃ h', IList.splice (IList.clear h s) s t = some h' ∧ Rings h' ((L.set t []).set s xs) := by
  obtain ⟨h', hstep, hr'⟩ := (hr.clear hs).splice (Lists.set_eq_some.2 (.inl ⟨rfl, rfl⟩))
    (Lists.set_eq_some.2 (.inr ⟨hne.symm, ht⟩)) hne
  have hL : ((L.set s []).set t []).set s xs = (L.set t []).set s xs := by
    rw [Lists.set, Lists.set, Lists.set, Function.update_comm hne, Function.update_idem]
    rfl
  exact ⟨h', hstep, hL ▸ hr'⟩

omit [DecidableEq P] in
/-- Where `begin()` and `rbegin()` point. -/
theorem Rings.next_eq (hr : Rings h L) (hs : L s = some xs) (hq : (xs ++ [s]).head? = some p) :
    (h s).next = some p := by
  have hring : IsRing h s ([] ++ xs) := hr.ring s xs hs
  exact (hring.linked rfl hq).1

omit [DecidableEq P] in
theorem Rings.prev_eq (hr : Rings h L) (hs : L s = some (xs ++ [n])) : (h s).prev = some n := by
  have hring : IsRing h s ((xs ++ [n]) ++ []) := by
    rw [List.append_nil]
    exact hr.ring s _ hs
  refine (hring.linked ?_ rfl).2
  rw [← List.cons_append, List.getLast?_concat]

/-- **Walks list the nodes of every list.** -/
theorem Rings.walks (hr : Rings h L) (hs : L s = some xs) {fuel : ℕ} (hfuel : xs.length < fuel) :
    forward h s fuel = some xs ∧ backward h s fuel = some xs.reverse := by
  obtain ⟨p, hp, hwalk⟩ := (hr.ring s xs hs).walk_next hfuel
  obtain ⟨q, hq, hwalk'⟩ := (hr.ring s xs hs).walk_prev hfuel
  exact ⟨by rw [forward, hp]; exact hwalk, by rw [backward, hq]; exact hwalk'⟩

theorem Rings.exec (hr : Rings h L) {op : Op P} {ret : Option P} (he : Effect L op L' ret) :
    ∃ h', exec h op = some (h', ret) ∧ Rings h' L' := by
  cases he with
  | init hs => exact ⟨_, rfl, init_eq_clear h _ ▸ hr.clear hs.freeFor⟩
  | insert hs hpos hnode =>
    obtain ⟨h', hstep, hr'⟩ := hr.insert hs hpos hnode
    exact ⟨h', by rw [IList.exec, hstep]; rfl, hr'⟩
  | remove hs =>
    obtain ⟨h', hstep, hr'⟩ := hr.remove hs
    exact ⟨h', by rw [IList.exec, hstep]; rfl, hr'⟩
  | erase hs hnext =>
    obtain ⟨h', hstep, hr'⟩ := hr.erase hs hnext
    exact ⟨h', by rw [IList.exec, hstep]; rfl, hr'⟩
  | clear hs => exact ⟨_, rfl, hr.clear (hr.freeFor hs List.mem_cons_self)⟩
  | @moveInit s other xs hs hother =>
    have hne : s ≠ other := fun heq => hs other xs hother (heq ▸ List.mem_cons_self)
    obtain ⟨h', hstep, hr'⟩ := hr.moveTo hs.freeFor hother hne
    exact ⟨h', by rw [IList.exec, moveInit, init_eq_clear, hstep]; rfl, hr'⟩
  | @moveAssign s other xs ys hne hs hother =>
    obtain ⟨h', hstep, hr'⟩ := hr.moveTo (hr.freeFor hs List.mem_cons_self) hother hne
    exact ⟨h', by rw [IList.exec, moveAssign, hstep]; rfl, hr'⟩
  | @pushFront s node xs hs hnode =>
    obtain ⟨q, hq⟩ := exists_head? xs s
    obtain ⟨h', hstep, hr'⟩ := hr.insert (show _ = some ([] ++ xs) from hs) hq hnode
    exact ⟨h', by rw [IList.exec, pushFront, hr.next_eq hs hq]; simp [hstep], hr'⟩
  | @pushBack s node xs hs hnode =>
    obtain ⟨h', hstep, hr'⟩ := hr.insert
      (show _ = some (xs ++ []) by rwa [List.append_nil]) rfl hnode
    exact ⟨h', by rw [IList.exec, pushBack, hstep]; rfl, hr'⟩
  | @popFront s x xs hs =>
    obtain ⟨q, hq⟩ := exists_head? xs s
    obtain ⟨h', hstep, hr'⟩ := hr.erase (show _ = some ([] ++ x :: xs) from hs) hq
    exact ⟨h', by rw [IList.exec, popFront, hr.next_eq hs rfl]; simp [hstep], hr'⟩
  | @popBack s x xs hs =>
    obtain ⟨h', hstep, hr'⟩ := hr.erase (show _ = some (xs ++ x :: []) from hs) rfl
    rw [List.append_nil] at hr'
    exact ⟨h', by rw [IList.exec, popBack, hr.prev_eq hs]; simp [hstep], hr'⟩

end

/-- **Operations refine those on sequences.** -/
theorem exec_refines {h : Heap P} {L L' : Lists P} {op : Op P} {ret : Option P} (hr : Rings h L)
    (he : Effect L op L' ret) :
    ∃ h', exec h op = some (h', ret) ∧ Rings h' L' ∧
      ∀ s xs, L' s = some xs → ∀ fuel, xs.length < fuel →
        forward h' s fuel = some xs ∧ backward h' s fuel = some xs.reverse := by
  obtain ⟨h', hstep, hr'⟩ := hr.exec he
  exact ⟨h', hstep, hr', fun s xs hs fuel hfuel => hr'.walks hs hfuel⟩

/-- Two lists, of which one holds a node. -/
def twoLists : Lists (Fin 3)
  | 0 => some [1]
  | 1 => none
  | 2 => some []

/-- A heap for them. -/
def twoHeap : Heap (Fin 3)
  | 0 => ⟨some 1, some 1⟩
  | 1 => ⟨some 0, some 0⟩
  | 2 => ⟨some 2, some 2⟩

theorem rings_twoLists : Rings twoHeap twoLists where
  ring := by
    intro s xs hs
    fin_cases s
    · cases hs
      exact ⟨by simp [Linked, twoHeap], by decide⟩
    · cases hs
    · cases hs
      exact IsRing.nil_iff.2 ⟨rfl, rfl⟩
  disjoint := by
    intro s xs t ys hs ht hne
    fin_cases s <;> fin_cases t <;> cases hs <;> cases ht <;> first | exact absurd rfl hne | decide

/-- The node is moved to the other list. -/
theorem exec_refines_move : ∃ h', exec twoHeap (.moveAssign 2 0) = some (h', none) ∧
    Rings h' ((twoLists.set 0 []).set 2 [1]) ∧
      ∀ s xs, ((twoLists.set 0 []).set 2 [1]) s = some xs → ∀ fuel, xs.length < fuel →
        forward h' s fuel = some xs ∧ backward h' s fuel = some xs.reverse :=
  exec_refines rings_twoLists (.moveAssign (by decide) rfl rfl)

/-! ## Runs -/

/-- A sequence of operations. -/
def execAll (h : Heap P) : List (Op P) → Option (Heap P)
  | [] => some h
  | op :: ops => (exec h op).bind fun r => execAll r.1 ops

/-- What a sequence of operations does to the sequences. -/
inductive Effects : Lists P → List (Op P) → Lists P → Prop
  | nil {L : Lists P} : Effects L [] L
  | cons {L L' L'' : Lists P} {op : Op P} {ops : List (Op P)} {ret : Option P}
      (he : Effect L op L' ret) (hs : Effects L' ops L'') : Effects L (op :: ops) L''

/-- **Runs of operations.** -/
theorem execAll_refines {h : Heap P} {L L' : Lists P} {ops : List (Op P)} (hr : Rings h L)
    (he : Effects L ops L') : ∃ h', execAll h ops = some h' ∧ Rings h' L' := by
  induction he generalizing h with
  | nil => exact ⟨h, rfl, hr⟩
  | cons he _ ih =>
    obtain ⟨h₁, hstep, hr₁⟩ := hr.exec he
    obtain ⟨h', hsteps, hr'⟩ := ih hr₁
    exact ⟨h', by rw [execAll, hstep]; exact hsteps, hr'⟩

end IList

end GenMC
