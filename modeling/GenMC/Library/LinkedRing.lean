import Mathlib.Data.List.Chain
import Mathlib.Data.List.Nodup
import Mathlib.Tactic

/-!
# Rings of linked cells

A heap of cells, each of which points to the next and to the previous one.  `IsRing h s xs` says
that the cells `xs` are linked one after the other, with `s` before the first and after the last.

The lemmas say what a ring becomes when some pointers are changed, whatever the order in which this
is done: `IsRing.link` puts a cell into it, `IsRing.unlink` takes one out, and `IsRing.move` gives
all cells to another `s`.  `walk` follows the pointers around.
-/

set_option autoImplicit false

namespace LinkedRing

variable {P : Type*}

/-- The pointers of a cell. -/
@[ext] structure Cell (P : Type*) where
  next : Option P
  prev : Option P

abbrev Heap (P : Type*) := P → Cell P

namespace Heap

variable [DecidableEq P]

def setNext (h : Heap P) (p : P) (v : Option P) : Heap P :=
  Function.update h p { h p with next := v }

def setPrev (h : Heap P) (p : P) (v : Option P) : Heap P :=
  Function.update h p { h p with prev := v }

variable (h : Heap P) (p x : P) (v : Option P)

theorem next_setNext : (h.setNext p v x).next = if x = p then v else (h x).next := by
  rw [setNext, Function.update_apply]
  split <;> simp_all

theorem prev_setNext : (h.setNext p v x).prev = (h x).prev := by
  rw [setNext, Function.update_apply]
  split <;> simp_all

theorem next_setPrev : (h.setPrev p v x).next = (h x).next := by
  rw [setPrev, Function.update_apply]
  split <;> simp_all

theorem prev_setPrev : (h.setPrev p v x).prev = if x = p then v else (h x).prev := by
  rw [setPrev, Function.update_apply]
  split <;> simp_all

end Heap

/-- Two cells point to each other. -/
def Linked (h : Heap P) (x y : P) : Prop := (h x).next = some y ∧ (h y).prev = some x

/-- The cells of a ring, in their order. -/
structure IsRing (h : Heap P) (s : P) (xs : List P) : Prop where
  chain : (s :: (xs ++ [s])).IsChain (Linked h)
  nodup : (s :: xs).Nodup

variable {h h' : Heap P} {s t n p q : P} {xs ys zs l : List P}

/-- Only the pointers between the cells of a chain matter. -/
theorem isChain_congr (hl : l.IsChain (Linked h))
    (hnext : ∀ x ∈ l.dropLast, (h' x).next = (h x).next)
    (hprev : ∀ x ∈ l.tail, (h' x).prev = (h x).prev) : l.IsChain (Linked h') := by
  rw [List.isChain_iff_forall_rel_of_append_cons_cons] at hl ⊢
  intro a b l₁ l₂ heq
  obtain ⟨hab, hba⟩ := hl heq
  have ha : a ∈ l.dropLast := by
    rw [heq, List.dropLast_append_cons]
    simp
  have hb : b ∈ l.tail := by
    rw [heq]
    cases l₁ <;> simp
  exact ⟨(hnext a ha).trans hab, (hprev b hb).trans hba⟩

theorem notMem_dropLast_of_getLast? (hl : l.Nodup) (hp : l.getLast? = some p) : p ∉ l.dropLast := by
  obtain ⟨l', rfl⟩ := List.getLast?_eq_some_iff.1 hp
  rw [List.dropLast_concat]
  exact fun hmem => (List.nodup_append.1 hl).2.2 p hmem p List.mem_cons_self rfl

theorem notMem_tail_of_head? (hl : l.Nodup) (hq : l.head? = some q) : q ∉ l.tail := by
  obtain ⟨l', rfl⟩ := List.head?_eq_some_iff.1 hq
  exact (List.nodup_cons.1 hl).1

theorem exists_getLast? (s : P) (ys : List P) : ∃ p, (s :: ys).getLast? = some p :=
  ⟨_, List.getLast?_eq_some_getLast (List.cons_ne_nil s ys)⟩

theorem exists_head? (zs : List P) (s : P) : ∃ q, (zs ++ [s]).head? = some q := by
  cases zs <;> simp

/-- The cells on both sides of a place are in the ring. -/
theorem mem_of_getLast? (hp : (s :: ys).getLast? = some p) : p ∈ s :: (ys ++ zs) := by
  have := List.mem_of_getLast? hp
  simp at this ⊢
  tauto

theorem mem_of_head? (hq : (zs ++ [s]).head? = some q) : q ∈ s :: (ys ++ zs) := by
  have := List.mem_of_mem_head? hq
  simp at this ⊢
  tauto

namespace IsRing

theorem congr (hr : IsRing h s xs) (heq : ∀ x ∈ s :: xs, h' x = h x) : IsRing h' s xs where
  chain := by
    refine isChain_congr hr.chain (fun x hx => ?_) fun x hx => ?_
    · rw [List.dropLast_cons_of_ne_nil (by simp), List.dropLast_concat] at hx
      rw [heq x hx]
    · rw [List.tail_cons, List.mem_append, List.mem_singleton] at hx
      rw [heq x (by simpa [or_comm] using hx)]
  nodup := hr.nodup

theorem nil_iff : IsRing h s [] ↔ (h s).next = some s ∧ (h s).prev = some s := by
  refine ⟨fun hr => ?_, ?_⟩
  · simpa [Linked] using hr.chain
  · rintro ⟨hnext, hprev⟩
    exact ⟨by simp [Linked, hnext, hprev], List.nodup_singleton s⟩

/-- A ring consists of two chains, and the link between them. -/
theorem split_iff : IsRing h s (ys ++ zs) ↔ ((s :: ys).IsChain (Linked h) ∧
    (zs ++ [s]).IsChain (Linked h) ∧
      ∀ p ∈ (s :: ys).getLast?, ∀ q ∈ (zs ++ [s]).head?, Linked h p q) ∧
        (s :: (ys ++ zs)).Nodup := by
  rw [← List.isChain_append, List.cons_append, ← List.append_assoc]
  exact ⟨fun hr => ⟨hr.chain, hr.nodup⟩, fun hr => ⟨hr.1, hr.2⟩⟩

theorem linked (hr : IsRing h s (ys ++ zs)) (hp : (s :: ys).getLast? = some p)
    (hq : (zs ++ [s]).head? = some q) : Linked h p q :=
  (split_iff.1 hr).1.2.2 p hp q hq

/-- The chains on both sides of a place are kept if only the pointers across it change. -/
theorem isChain_sides (hys : (s :: ys).IsChain (Linked h)) (hzs : (zs ++ [s]).IsChain (Linked h))
    (hnodup : (s :: (ys ++ zs)).Nodup) (hp : (s :: ys).getLast? = some p)
    (hq : (zs ++ [s]).head? = some q)
    (hnext : ∀ x ∈ s :: (ys ++ zs), x ≠ p → (h' x).next = (h x).next)
    (hprev : ∀ x ∈ s :: (ys ++ zs), x ≠ q → (h' x).prev = (h x).prev) :
    (s :: ys).IsChain (Linked h') ∧ (zs ++ [s]).IsChain (Linked h') := by
  have hnodup' : (ys ++ (zs ++ [s])).Nodup := by
    rw [← List.append_assoc]
    exact (List.perm_append_singleton s _).nodup_iff.2 hnodup
  -- what comes before the place is no later cell, and what comes after it is no earlier one
  have hp' : p ∉ zs := fun hz =>
    (List.nodup_append.1 (List.cons_append ▸ hnodup : (s :: ys ++ zs).Nodup)).2.2 p
      (List.mem_of_getLast? hp) p hz rfl
  have hq' : q ∉ ys := fun hy =>
    (List.nodup_append.1 hnodup').2.2 q hy q (List.mem_of_mem_head? hq) rfl
  refine ⟨?_, ?_⟩
  · refine isChain_congr hys (fun x hx => ?_) fun x hx => ?_
    · refine hnext x ?_ ?_
      · have := List.mem_of_mem_dropLast hx
        simp at this ⊢
        tauto
      · rintro rfl
        exact notMem_dropLast_of_getLast? (hnodup.sublist (by simp)) hp hx
    · refine hprev x (by simp at hx ⊢; tauto) ?_
      rintro rfl
      exact hq' hx
  · refine isChain_congr hzs (fun x hx => ?_) fun x hx => ?_
    · rw [List.dropLast_concat] at hx
      refine hnext x (by simp; tauto) ?_
      rintro rfl
      exact hp' hx
    · refine hprev x ?_ ?_
      · have := List.mem_of_mem_tail hx
        simp at this ⊢
        tauto
      · rintro rfl
        exact notMem_tail_of_head? (hnodup'.sublist (by simp)) hq hx

/-- **A cell is linked in.** -/
theorem link (hr : IsRing h s (ys ++ zs)) (hn : n ∉ s :: (ys ++ zs))
    (hp : (s :: ys).getLast? = some p) (hq : (zs ++ [s]).head? = some q)
    (hpn : Linked h' p n) (hnq : Linked h' n q)
    (hnext : ∀ x ∈ s :: (ys ++ zs), x ≠ p → (h' x).next = (h x).next)
    (hprev : ∀ x ∈ s :: (ys ++ zs), x ≠ q → (h' x).prev = (h x).prev) :
    IsRing h' s (ys ++ n :: zs) := by
  obtain ⟨⟨hys, hzs, -⟩, hnodup⟩ := split_iff.1 hr
  obtain ⟨hys, hzs⟩ := isChain_sides hys hzs hnodup hp hq hnext hprev
  refine split_iff.2 ⟨⟨hys, List.isChain_cons.2 ⟨?_, hzs⟩, ?_⟩, ?_⟩
  · intro y hy
    cases hq.symm.trans hy
    exact hnq
  · intro x hx y hy
    cases hp.symm.trans hx
    cases hy
    exact hpn
  · have hperm : (s :: (ys ++ n :: zs)).Perm (n :: s :: (ys ++ zs)) :=
      (List.perm_middle.cons s).trans (List.Perm.swap n s _)
    exact hperm.nodup_iff.2 (List.nodup_cons.2 ⟨hn, hnodup⟩)

/-- **A cell is taken out.** -/
theorem unlink (hr : IsRing h s (ys ++ n :: zs)) (hp : (s :: ys).getLast? = some p)
    (hq : (zs ++ [s]).head? = some q) (hpq : Linked h' p q)
    (hnext : ∀ x ∈ s :: (ys ++ zs), x ≠ p → (h' x).next = (h x).next)
    (hprev : ∀ x ∈ s :: (ys ++ zs), x ≠ q → (h' x).prev = (h x).prev) :
    IsRing h' s (ys ++ zs) := by
  obtain ⟨⟨hys, hzs, -⟩, hnodup⟩ := split_iff.1 hr
  have hnodup : (s :: (ys ++ zs)).Nodup := hnodup.sublist (by simp)
  obtain ⟨hys, hzs⟩ := isChain_sides hys (List.isChain_cons.1 hzs).2 hnodup hp hq hnext hprev
  refine split_iff.2 ⟨⟨hys, hzs, fun x hx y hy => ?_⟩, hnodup⟩
  cases hp.symm.trans hx
  cases hq.symm.trans hy
  exact hpq

/-- **All cells are given to another ring.** -/
theorem move (hr : IsRing h t xs) (hs : s ∉ xs) (hp : xs.head? = some p) (hq : xs.getLast? = some q)
    (hsp : Linked h' s p) (hqs : Linked h' q s)
    (hnext : ∀ x ∈ xs, x ≠ q → (h' x).next = (h x).next)
    (hprev : ∀ x ∈ xs, x ≠ p → (h' x).prev = (h x).prev) : IsRing h' s xs := by
  have hnodup := (List.nodup_cons.1 hr.nodup).2
  have hxs : xs.IsChain (Linked h') := by
    refine isChain_congr (List.isChain_append.1 (List.isChain_cons.1 hr.chain).2).1
      (fun x hx => hnext x (List.mem_of_mem_dropLast hx) ?_)
      fun x hx => hprev x (List.mem_of_mem_tail hx) ?_
    · rintro rfl
      exact notMem_dropLast_of_getLast? hnodup hq hx
    · rintro rfl
      exact notMem_tail_of_head? hnodup hp hx
  refine ⟨List.isChain_cons.2 ⟨fun y hy => ?_, List.isChain_append.2 ⟨hxs, by simp, ?_⟩⟩,
    List.nodup_cons.2 ⟨hs, hnodup⟩⟩
  · rw [List.head?_append, hp] at hy
    cases hy
    exact hsp
  · intro x hx y hy
    cases hq.symm.trans hx
    cases hy
    exact hqs

end IsRing

/-! ## Walks -/

/-- Follows pointers from `p` until `stop`, for at most so many steps. -/
def walk (step : P → Option P) [DecidableEq P] (stop : P) : ℕ → P → Option (List P)
  | 0, _ => none
  | fuel + 1, p =>
    if p = stop then some [] else (step p).bind fun q => (walk step stop fuel q).map (p :: ·)

theorem walk_eq [DecidableEq P] {step : P → Option P} {stop : P} (hl : stop ∉ l)
    (hstep : (l ++ [stop]).IsChain fun x y => step x = some y) {fuel : ℕ} (hfuel : l.length < fuel)
    (hp : (l ++ [stop]).head? = some p) : walk step stop fuel p = some l := by
  induction l generalizing fuel p with
  | nil =>
    obtain ⟨fuel, rfl⟩ := Nat.exists_eq_add_of_lt hfuel
    cases hp
    exact if_pos rfl
  | cons x l ih =>
    obtain ⟨fuel, rfl⟩ := Nat.exists_eq_succ_of_ne_zero (Nat.ne_of_gt (Nat.zero_lt_of_lt hfuel))
    cases hp
    rw [List.cons_append, List.isChain_cons] at hstep
    obtain ⟨q, hq⟩ : ∃ q, (l ++ [stop]).head? = some q := by
      cases l <;> simp
    have hne : x ≠ stop := fun heq => hl (heq ▸ List.mem_cons_self)
    rw [walk, if_neg hne, hstep.1 q hq, Option.bind_some,
      ih (fun h => hl (List.mem_cons_of_mem _ h)) hstep.2 (Nat.lt_of_succ_lt_succ hfuel) hq]
    rfl

namespace IsRing

variable [DecidableEq P]

/-- Forwards, a ring is walked through in its order. -/
theorem walk_next (hr : IsRing h s xs) {fuel : ℕ} (hfuel : xs.length < fuel) :
    ∃ p, (h s).next = some p ∧ walk (fun x => (h x).next) s fuel p = some xs := by
  obtain ⟨hhead, hchain⟩ := List.isChain_cons.1 hr.chain
  obtain ⟨p, hp⟩ : ∃ p, (xs ++ [s]).head? = some p := by
    cases xs <;> simp
  exact ⟨p, (hhead p hp).1, walk_eq (List.nodup_cons.1 hr.nodup).1 (hchain.imp fun _ _ h => h.1)
    hfuel hp⟩

/-- Backwards, in the reverse of it. -/
theorem walk_prev (hr : IsRing h s xs) {fuel : ℕ} (hfuel : xs.length < fuel) :
    ∃ p, (h s).prev = some p ∧ walk (fun x => (h x).prev) s fuel p = some xs.reverse := by
  have hchain : (s :: (xs.reverse ++ [s])).IsChain fun x y => (h x).prev = some y := by
    have heq : s :: (xs.reverse ++ [s]) = (s :: (xs ++ [s])).reverse := by simp
    rw [heq, List.isChain_reverse]
    exact hr.chain.imp fun _ _ h => h.2
  obtain ⟨hhead, hchain⟩ := List.isChain_cons.1 hchain
  obtain ⟨p, hp⟩ : ∃ p, (xs.reverse ++ [s]).head? = some p := by
    cases xs.reverse <;> simp
  refine ⟨p, hhead p hp, walk_eq ?_ hchain (by rwa [List.length_reverse]) hp⟩
  rw [List.mem_reverse]
  exact (List.nodup_cons.1 hr.nodup).1

end IsRing

end LinkedRing
