import Mathlib.Data.Finset.Card
import Mathlib.Data.List.Sort
import Mathlib.Data.List.TakeWhile

/-!
# Sets as sorted vectors

A set of the source is a vector that is kept sorted.  Inserting one element looks for its place;
inserting a set counts the elements that are new, makes room for them at the end and then fills the
vector from its last position down, reading from positions below the one it writes to.

* `VSet.mem_insert` and `VSet.mem_insertSet`: both insert what they say they insert.
* `VSet.Sorted.insert` and `VSet.Sorted.insertSet`: both keep the vector sorted.
* `VSet.subsetOf_iff`: walking over two sets in parallel decides inclusion.

A vector that is moved into a set is sorted and nothing else (`VSet.ofVector`), so that `Sorted` is
not true of every value.
-/

set_option autoImplicit false

namespace GenMC

/-- A set as a vector. -/
@[ext] structure VSet (α : Type*) where
  vset : List α
deriving DecidableEq, Repr

namespace VSet

variable {α : Type*} [LinearOrder α]

def empty : VSet α := ⟨[]⟩

instance : Membership α (VSet α) := ⟨fun s x => x ∈ s.vset⟩

/-- The vector has its elements in order, and once each. -/
def Sorted (s : VSet α) : Prop := s.vset.Pairwise (· < ·)

omit [LinearOrder α] in
theorem mem_def {s : VSet α} {x : α} : x ∈ s ↔ x ∈ s.vset := Iff.rfl

/-- A vector moved into a set. -/
def ofVector (v : List α) : VSet α := ⟨v.mergeSort (· ≤ ·)⟩

/-- Puts an element in its place, unless it is there. -/
def insert (el : α) (s : VSet α) : VSet α :=
  let before := s.vset.takeWhile (· < el)
  let after := s.vset.dropWhile (· < el)
  if after.head? = some el then s else ⟨before ++ el :: after⟩

/-- How many elements of the second vector are not in the first one. -/
def countMissing : List α → List α → ℕ
  | [], bs => bs.length
  | _ :: _, [] => 0
  | a :: as, b :: bs =>
    if a < b then countMissing as (b :: bs)
    else if a = b then countMissing as bs
    else countMissing (a :: as) bs + 1

/-- The element below position `n`. -/
def prev? (v : List α) : ℕ → Option α
  | 0 => none
  | n + 1 => v[n]?

/-- Fills the positions below `k`, from the last one down, with the first `na` elements of the
vector itself and the first `nb` elements of `s`. -/
def fill (s : List α) : (k na nb : ℕ) → List α → List α
  | 0, _, _, v => v
  | k + 1, na, nb, v =>
    match prev? v na, prev? s nb with
    | none, none => v
    | none, some b => fill s k na (nb - 1) (v.set k b)
    | some a, none => fill s k (na - 1) nb (v.set k a)
    | some a, some b =>
      if a < b then fill s k na (nb - 1) (v.set k b)
      -- since equal, it does not matter from where we copy
      else if a = b then fill s k (na - 1) (nb - 1) (v.set k a)
      else fill s k (na - 1) nb (v.set k a)

/-- Inserts a set. -/
def insertSet (t s : VSet α) : VSet α :=
  match t.vset, s.vset with
  | [], _ => s
  | _, [] => t
  | _, [b] => t.insert b
  | a :: as, bs =>
    let count := countMissing (a :: as) bs
    if count = 0 then t
    else
      let size := (a :: as).length
      ⟨fill bs (size + count) size bs.length (a :: as ++ List.replicate count a)⟩

/-- Walks over two vectors in parallel. -/
def subsetOfLoop : List α → List α → Bool
  | [], _ => true
  | _ :: _, [] => false
  | a :: as, b :: bs =>
    if as.length > bs.length then false
    else if a < b then false
    else if a = b then subsetOfLoop as bs
    else subsetOfLoop (a :: as) bs

def subsetOf (t s : VSet α) : Bool :=
  if t.vset.length > s.vset.length then false else subsetOfLoop t.vset s.vset

/-! ## One element -/

theorem sorted_empty : (empty : VSet α).Sorted := List.Pairwise.nil

/-- Sets with the same elements are the same set. -/
theorem Sorted.ext {s t : VSet α} (hs : s.Sorted) (ht : t.Sorted) (h : ∀ x, x ∈ s ↔ x ∈ t) :
    s = t :=
  VSet.ext (List.Pairwise.eq_of_mem_iff hs ht fun x => h x)

theorem Sorted.nodup {s : VSet α} (hs : s.Sorted) : s.vset.Nodup := hs.imp ne_of_lt

/-- What comes after the place of an element is not below it. -/
theorem le_of_mem_dropWhile {v : List α} (hs : v.Pairwise (· < ·)) {el x : α}
    (hx : x ∈ v.dropWhile (· < el)) : el ≤ x := by
  induction v with
  | nil => exact absurd hx List.not_mem_nil
  | cons a as ih =>
    obtain ⟨ha, has⟩ := List.pairwise_cons.1 hs
    rw [List.dropWhile_cons] at hx
    split at hx
    · exact ih has hx
    · rename_i hlt
      have hle : el ≤ a := by simpa using hlt
      rcases List.mem_cons.1 hx with rfl | hx
      · exact hle
      · exact hle.trans (ha x hx).le

theorem mem_insert {el x : α} {s : VSet α} : x ∈ s.insert el ↔ x = el ∨ x ∈ s := by
  rw [insert]
  split
  · rename_i hhead
    have hmem : el ∈ s := List.dropWhile_subset _ (List.mem_of_head? hhead)
    refine ⟨?_, ?_⟩
    · exact Or.inr
    · rintro (rfl | hx)
      · exact hmem
      · exact hx
  · have hsplit := List.takeWhile_append_dropWhile (p := (· < el)) (l := s.vset)
    have hmem : x ∈ s ↔ x ∈ s.vset.takeWhile (· < el) ∨ x ∈ s.vset.dropWhile (· < el) := by
      rw [← List.mem_append, hsplit]
      exact Iff.rfl
    rw [hmem, mem_def, List.mem_append, List.mem_cons]
    tauto

theorem Sorted.insert {s : VSet α} (hs : s.Sorted) (el : α) : (s.insert el).Sorted := by
  rw [VSet.insert]
  split
  · exact hs
  · rename_i hhead
    have hsplit := List.takeWhile_append_dropWhile (p := (· < el)) (l := s.vset)
    have hs' : (s.vset.takeWhile (· < el) ++ s.vset.dropWhile (· < el)).Pairwise (· < ·) := by
      rw [hsplit]
      exact hs
    obtain ⟨h1, h2, h3⟩ := List.pairwise_append.1 hs'
    have hbefore : ∀ x ∈ s.vset.takeWhile (· < el), x < el := fun x hx => by
      simpa using List.mem_takeWhile_imp hx
    have hafter : ∀ x ∈ s.vset.dropWhile (· < el), el < x := by
      intro x hx
      refine lt_of_le_of_ne (le_of_mem_dropWhile hs hx) ?_
      rintro rfl
      -- the first element of the rest would be below `el`
      cases hd : s.vset.dropWhile (· < el) with
      | nil =>
        rw [hd] at hx
        exact absurd hx List.not_mem_nil
      | cons b bs =>
        rw [hd] at hx hhead h2
        have hb : el ≤ b := le_of_mem_dropWhile hs (by rw [hd]; exact List.mem_cons_self)
        rcases List.mem_cons.1 hx with rfl | hx
        · exact hhead rfl
        · exact absurd ((List.pairwise_cons.1 h2).1 el hx) (not_lt.2 hb)
    refine List.pairwise_append.2 ⟨h1, List.pairwise_cons.2 ⟨hafter, h2⟩, fun x hx y hy => ?_⟩
    rcases List.mem_cons.1 hy with rfl | hy
    · exact hbefore x hx
    · exact (hbefore x hx).trans (hafter y hy)

/-! ## A whole set -/

theorem countMissing_eq {as bs : List α} (ha : as.Pairwise (· < ·)) (hb : bs.Pairwise (· < ·)) :
    countMissing as bs = (bs.toFinset \ as.toFinset).card := by
  induction as, bs using countMissing.induct with
  | case1 bs =>
    rw [countMissing, List.toFinset_nil, Finset.sdiff_empty,
      List.toFinset_card_of_nodup (hb.imp ne_of_lt)]
  | case2 a as => rw [countMissing, List.toFinset_nil, Finset.empty_sdiff, Finset.card_empty]
  | case3 a as b bs hlt ih =>
    -- `a` is below everything in the second vector
    obtain ⟨hb1, hb2⟩ := List.pairwise_cons.1 hb
    have hnot : a ∉ (b :: bs).toFinset := by
      rw [List.mem_toFinset, List.mem_cons]
      rintro (rfl | hmem)
      · exact lt_irrefl _ hlt
      · exact lt_asymm hlt (hb1 a hmem)
    rw [countMissing, if_pos hlt, ih (List.pairwise_cons.1 ha).2 hb,
      List.toFinset_cons (l := as),
      Finset.sdiff_insert_of_notMem hnot]
  | case4 as b bs hlt ih =>
    obtain ⟨ha1, ha2⟩ := List.pairwise_cons.1 ha
    obtain ⟨hb1, hb2⟩ := List.pairwise_cons.1 hb
    have hnot : b ∉ bs.toFinset := by
      rw [List.mem_toFinset]
      exact fun hmem => lt_irrefl _ (hb1 b hmem)
    rw [countMissing, if_neg hlt, if_pos rfl, ih ha2 hb2, List.toFinset_cons, List.toFinset_cons,
      Finset.insert_sdiff_insert, Finset.sdiff_insert_of_notMem hnot]
  | case5 a as b bs hlt hne ih =>
    -- `b` is below everything in the first vector
    obtain ⟨ha1, ha2⟩ := List.pairwise_cons.1 ha
    obtain ⟨hb1, hb2⟩ := List.pairwise_cons.1 hb
    have hba : b < a := lt_of_le_of_ne (not_lt.1 hlt) (Ne.symm hne)
    have hnot : b ∉ (a :: as).toFinset := by
      rw [List.mem_toFinset, List.mem_cons]
      rintro (rfl | hmem)
      · exact lt_irrefl _ hba
      · exact lt_asymm hba (ha1 b hmem)
    have hfresh : b ∉ bs.toFinset \ (a :: as).toFinset := by
      rw [Finset.mem_sdiff, List.mem_toFinset]
      exact fun hmem => lt_irrefl _ (hb1 b hmem.1)
    rw [countMissing, if_neg hlt, if_neg hne, ih ha hb2, List.toFinset_cons (l := bs),
      Finset.insert_sdiff_of_notMem _ hnot, Finset.card_insert_of_notMem hfresh]

/-- The state of the filling loop.  What is left to be placed are the first `na` elements of `as`,
which are still where they were, and the first `nb` elements of `bs`; the rest is in place. -/
structure Filling (as bs : List α) (k na nb : ℕ) (v : List α) : Prop where
  length : k ≤ v.length
  na_le : na ≤ as.length
  nb_le : nb ≤ bs.length
  left : v.take na = as.take na
  room : k = ((as.take na).toFinset ∪ (bs.take nb).toFinset).card
  placed : (v.drop k).Pairwise (· < ·)
  mem : ∀ x, x ∈ v.drop k ↔ x ∈ as.drop na ∨ x ∈ bs.drop nb
  below : ∀ x y, x ∈ as.take na ∨ x ∈ bs.take nb → y ∈ v.drop k → x < y

/-- Placing the largest element that is left. -/
theorem Filling.step {as bs v : List α} {k na nb na' nb' : ℕ} {m : α}
    (h : Filling as bs (k + 1) na nb v) (has : as.Pairwise (· < ·)) (hna : na' ≤ na)
    (hnb : nb' ≤ nb)
    (htake : ∀ x, (x ∈ as.take na ∨ x ∈ bs.take nb) ↔
      x = m ∨ x ∈ as.take na' ∨ x ∈ bs.take nb')
    (hdrop : ∀ x, (x ∈ as.drop na' ∨ x ∈ bs.drop nb') ↔
      x = m ∨ x ∈ as.drop na ∨ x ∈ bs.drop nb)
    (hmax : ∀ x, x ∈ as.take na' ∨ x ∈ bs.take nb' → x < m) :
    Filling as bs k na' nb' (v.set k m) := by
  have hset : (v.set k m).drop k = m :: v.drop (k + 1) := by
    have hk : k < v.length := h.length
    rw [List.drop_set, if_neg (lt_irrefl k), Nat.sub_self, List.drop_eq_getElem_cons hk,
      List.set_cons_zero]
  have hunion : (as.take na).toFinset ∪ (bs.take nb).toFinset =
      Insert.insert m ((as.take na').toFinset ∪ (bs.take nb').toFinset) := by
    ext x
    simp only [Finset.mem_union, List.mem_toFinset, Finset.mem_insert]
    exact htake x
  have hnew : m ∉ (as.take na').toFinset ∪ (bs.take nb').toFinset := by
    simp only [Finset.mem_union, List.mem_toFinset]
    exact fun hmem => lt_irrefl _ (hmax m hmem)
  have hroom : k = ((as.take na').toFinset ∪ (bs.take nb').toFinset).card := by
    have := h.room
    rw [hunion, Finset.card_insert_of_notMem hnew] at this
    omega
  have hna'k : na' ≤ k := by
    have hcard : (as.take na').toFinset.card = na' := by
      rw [List.toFinset_card_of_nodup ((has.imp ne_of_lt).sublist (List.take_sublist _ _)),
        List.length_take, min_eq_left (hna.trans h.na_le)]
    have hle : (as.take na').toFinset.card ≤
        ((as.take na').toFinset ∪ (bs.take nb').toFinset).card :=
      Finset.card_le_card Finset.subset_union_left
    omega
  refine ⟨?_, hna.trans h.na_le, hnb.trans h.nb_le, ?_, hroom, ?_, fun x => ?_, fun x y hx hy => ?_⟩
  · rw [List.length_set]
    exact Nat.le_of_succ_le h.length
  · have hleft := congrArg (List.take na') h.left
    rw [List.take_take, List.take_take, min_eq_left hna] at hleft
    rw [List.take_set_of_le hna'k, hleft]
  · rw [hset, List.pairwise_cons]
    exact ⟨fun y hy => h.below m y ((htake m).2 (.inl rfl)) hy, h.placed⟩
  · rw [hset, List.mem_cons, h.mem, hdrop]
  · rw [hset, List.mem_cons] at hy
    rcases hy with rfl | hy
    · exact hmax x hx
    · exact h.below x y ((htake x).2 (.inr hx)) hy

omit [LinearOrder α] in
theorem prev?_congr {v w : List α} {n : ℕ} (h : v.take n = w.take n) : prev? v n = prev? w n := by
  cases n with
  | zero => rfl
  | succ n =>
    have hn := congrArg (fun l => l[n]?) h
    rw [List.getElem?_take_of_lt (Nat.lt_succ_self n),
      List.getElem?_take_of_lt (Nat.lt_succ_self n)] at hn
    exact hn

omit [LinearOrder α] in
/-- The last of the elements that are left. -/
theorem prev?_eq_some {v : List α} {n : ℕ} {a : α} (h : prev? v n = some a) :
    n = n - 1 + 1 ∧ v.take n = v.take (n - 1) ++ [a] ∧ v.drop (n - 1) = a :: v.drop n := by
  cases n with
  | zero => cases h
  | succ n =>
    rw [prev?] at h
    obtain ⟨hlt, rfl⟩ := List.getElem?_eq_some_iff.1 h
    refine ⟨rfl, ?_, ?_⟩
    · rw [Nat.add_sub_cancel, List.take_succ_eq_append_getElem hlt]
    · rw [Nat.add_sub_cancel, List.drop_eq_getElem_cons hlt]

theorem lt_of_mem_take {v : List α} (hv : v.Pairwise (· < ·)) {n : ℕ} {a : α}
    (h : prev? v n = some a) {x : α} (hx : x ∈ v.take (n - 1)) : x < a := by
  obtain ⟨-, htake, -⟩ := prev?_eq_some h
  have hsorted : (v.take n).Pairwise (· < ·) := hv.sublist (List.take_sublist _ _)
  rw [htake] at hsorted
  exact (List.pairwise_append.1 hsorted).2.2 x hx a (List.mem_singleton.2 rfl)

omit [LinearOrder α] in
theorem prev?_eq_none {v : List α} {n : ℕ} (hn : n ≤ v.length) (h : prev? v n = none) : n = 0 := by
  cases n with
  | zero => rfl
  | succ n =>
    have := List.getElem?_eq_none_iff.1 h
    omega

/-- What the loop places next, and how many elements of either vector are left then. -/
def pick (v s : List α) (na nb : ℕ) : Option (α × ℕ × ℕ) :=
  match prev? v na, prev? s nb with
  | none, none => none
  | none, some b => some (b, na, nb - 1)
  | some a, none => some (a, na - 1, nb)
  | some a, some b =>
    if a < b then some (b, na, nb - 1)
    else if a = b then some (a, na - 1, nb - 1)
    else some (a, na - 1, nb)

theorem fill_succ {s v : List α} {k na nb na' nb' : ℕ} {m : α}
    (h : pick v s na nb = some (m, na', nb')) :
    fill s (k + 1) na nb v = fill s k na' nb' (v.set k m) := by
  rw [pick] at h
  rw [fill]
  split at h
  · cases h
  · cases h
    rfl
  · cases h
    rfl
  · split at h
    · cases h
      rw [if_pos (by assumption)]
    · rw [if_neg (by assumption)]
      split at h
      · cases h
        rw [if_pos (by assumption)]
      · cases h
        rw [if_neg (by assumption)]

/-- The loop never runs out of elements. -/
theorem Filling.next {as bs : List α} (has : as.Pairwise (· < ·)) (hbs : bs.Pairwise (· < ·))
    {k na nb : ℕ} {v : List α} (h : Filling as bs (k + 1) na nb v) :
    ∃ m na' nb', pick v bs na nb = some (m, na', nb') ∧ Filling as bs k na' nb' (v.set k m) := by
  have hprev : prev? v na = prev? as na := prev?_congr h.left
  rw [pick, hprev]
  cases ha : prev? as na with
  | none =>
    obtain rfl := prev?_eq_none h.na_le ha
    cases hb : prev? bs nb with
    | none =>
      obtain rfl := prev?_eq_none h.nb_le hb
      have := h.room
      simp at this
    | some b =>
      obtain ⟨hnb, htake, hdrop⟩ := prev?_eq_some hb
      refine ⟨b, 0, nb - 1, rfl,
        h.step has le_rfl (Nat.sub_le _ _) (fun x => ?_) (fun x => ?_) fun x hx => ?_⟩
      · rw [htake, List.mem_append, List.mem_singleton]
        tauto
      · rw [hdrop, List.mem_cons]
        tauto
      · rcases hx with hx | hx
        · exact absurd hx List.not_mem_nil
        · exact lt_of_mem_take hbs hb hx
  | some a =>
    obtain ⟨hna, htakea, hdropa⟩ := prev?_eq_some ha
    cases hb : prev? bs nb with
    | none =>
      obtain rfl := prev?_eq_none h.nb_le hb
      refine ⟨a, na - 1, 0, rfl,
        h.step has (Nat.sub_le _ _) le_rfl (fun x => ?_) (fun x => ?_) fun x hx => ?_⟩
      · rw [htakea, List.mem_append, List.mem_singleton]
        tauto
      · rw [hdropa, List.mem_cons]
        tauto
      · rcases hx with hx | hx
        · exact lt_of_mem_take has ha hx
        · exact absurd hx List.not_mem_nil
    | some b =>
      obtain ⟨hnb, htakeb, hdropb⟩ := prev?_eq_some hb
      have hlea : ∀ x ∈ as.take na, x ≤ a := by
        intro x hx
        rw [htakea, List.mem_append, List.mem_singleton] at hx
        rcases hx with hx | rfl
        · exact (lt_of_mem_take has ha hx).le
        · exact le_rfl
      have hleb : ∀ x ∈ bs.take nb, x ≤ b := by
        intro x hx
        rw [htakeb, List.mem_append, List.mem_singleton] at hx
        rcases hx with hx | rfl
        · exact (lt_of_mem_take hbs hb hx).le
        · exact le_rfl
      simp only
      split
      · rename_i hab
        refine ⟨b, na, nb - 1, rfl,
          h.step has le_rfl (Nat.sub_le _ _) (fun x => ?_) (fun x => ?_) fun x hx => ?_⟩
        · rw [htakeb, List.mem_append, List.mem_singleton]
          tauto
        · rw [hdropb, List.mem_cons]
          tauto
        · rcases hx with hx | hx
          · exact (hlea x hx).trans_lt hab
          · exact lt_of_mem_take hbs hb hx
      · split
        · rename_i hab
          refine ⟨a, na - 1, nb - 1, rfl,
            h.step has (Nat.sub_le _ _) (Nat.sub_le _ _) (fun x => ?_) (fun x => ?_)
              fun x hx => ?_⟩
          · rw [htakea, htakeb, List.mem_append, List.mem_append, List.mem_singleton,
              List.mem_singleton, hab]
            tauto
          · rw [hdropa, hdropb, List.mem_cons, List.mem_cons, hab]
            tauto
          · rcases hx with hx | hx
            · exact lt_of_mem_take has ha hx
            · rw [hab]
              exact lt_of_mem_take hbs hb hx
        · rename_i hnlt hne
          have hba : b < a := lt_of_le_of_ne (not_lt.1 hnlt) (Ne.symm hne)
          refine ⟨a, na - 1, nb, rfl,
            h.step has (Nat.sub_le _ _) le_rfl (fun x => ?_) (fun x => ?_) fun x hx => ?_⟩
          · rw [htakea, List.mem_append, List.mem_singleton]
            tauto
          · rw [hdropa, List.mem_cons]
            tauto
          · rcases hx with hx | hx
            · exact lt_of_mem_take has ha hx
            · exact (hleb x hx).trans_lt hba

/-- The loop places everything. -/
theorem Filling.fill {as bs : List α} (has : as.Pairwise (· < ·)) (hbs : bs.Pairwise (· < ·))
    {k na nb : ℕ} {v : List α} (h : Filling as bs k na nb v) :
    (fill bs k na nb v).Pairwise (· < ·) ∧ ∀ x, x ∈ VSet.fill bs k na nb v ↔ x ∈ as ∨ x ∈ bs := by
  induction k generalizing na nb v with
  | zero =>
    have hempty : ∀ x, ¬ (x ∈ as.take na ∨ x ∈ bs.take nb) := by
      intro x hx
      have := Finset.card_eq_zero.1 h.room.symm
      rw [← List.mem_toFinset, ← List.mem_toFinset, ← Finset.mem_union, this] at hx
      exact Finset.notMem_empty x hx
    have hplaced := h.placed
    have hmem := h.mem
    rw [List.drop_zero] at hplaced hmem
    refine ⟨hplaced, fun x => ?_⟩
    rw [VSet.fill, hmem]
    have ha := List.mem_append (a := x) (s := as.take na) (t := as.drop na)
    have hb := List.mem_append (a := x) (s := bs.take nb) (t := bs.drop nb)
    rw [List.take_append_drop] at ha hb
    have := hempty x
    tauto
  | succ k ih =>
    obtain ⟨m, na', nb', hpick, hnext⟩ := h.next has hbs
    rw [fill_succ hpick]
    exact ih hnext

/-- Before the loop everything is left to be placed. -/
theorem filling_start {as bs : List α} (has : as.Pairwise (· < ·)) (hbs : bs.Pairwise (· < ·))
    (a : α) :
    Filling as bs (as.length + countMissing as bs) as.length bs.length
      (as ++ List.replicate (countMissing as bs) a) where
  length := by rw [List.length_append, List.length_replicate]
  na_le := le_rfl
  nb_le := le_rfl
  left := by rw [List.take_left, List.take_length]
  room := by
    rw [List.take_length, List.take_length, countMissing_eq has hbs,
      ← List.toFinset_card_of_nodup (has.imp ne_of_lt), Nat.add_comm, Finset.card_sdiff_add_card,
      Finset.union_comm]
  placed := by
    rw [List.drop_of_length_le (by rw [List.length_append, List.length_replicate])]
    exact List.Pairwise.nil
  mem := by
    intro x
    rw [List.drop_of_length_le (by rw [List.length_append, List.length_replicate]),
      List.drop_length, List.drop_length, or_self]
  below := by
    intro x y _ hy
    rw [List.drop_of_length_le (by rw [List.length_append, List.length_replicate])] at hy
    exact absurd hy List.not_mem_nil

/-- **Inserting a set gives the union**, and keeps the vector sorted. -/
theorem insertSet_spec {s t : VSet α} (hs : s.Sorted) (ht : t.Sorted) :
    (t.insertSet s).Sorted ∧ ∀ x, x ∈ t.insertSet s ↔ x ∈ t ∨ x ∈ s := by
  obtain ⟨bs⟩ := s
  obtain ⟨as⟩ := t
  cases as with
  | nil => exact ⟨hs, fun x => by simp [mem_def, insertSet]⟩
  | cons a as =>
    match bs, hs with
    | [], _ => exact ⟨ht, fun x => by simp [mem_def, insertSet]⟩
    | [b], _ =>
      refine ⟨ht.insert b, fun x => mem_insert.trans ?_⟩
      rw [or_comm, mem_def (s := ⟨[b]⟩), List.mem_singleton]
    | b :: b' :: bs, hs =>
      rw [insertSet]
      simp only
      split
      · rename_i hzero
        refine ⟨ht, fun x => ⟨Or.inl, ?_⟩⟩
        rw [countMissing_eq ht hs, Finset.card_eq_zero, Finset.sdiff_eq_empty_iff_subset] at hzero
        rintro (hx | hx)
        · exact hx
        · exact List.mem_toFinset.1 (hzero (List.mem_toFinset.2 hx))
      · exact (filling_start ht hs a).fill ht hs

/-! ## Inclusion -/

theorem subsetOfLoop_iff {as bs : List α} (ha : as.Pairwise (· < ·)) (hb : bs.Pairwise (· < ·)) :
    subsetOfLoop as bs = true ↔ as ⊆ bs := by
  induction as, bs using subsetOfLoop.induct with
  | case1 bs => simp [subsetOfLoop]
  | case2 a as => simp [subsetOfLoop]
  | case3 a as b bs hlen =>
    rw [subsetOfLoop, if_pos hlen]
    refine ⟨fun h => absurd h Bool.false_ne_true, fun h => ?_⟩
    have hcard : (a :: as).toFinset.card ≤ (b :: bs).toFinset.card :=
      Finset.card_le_card fun x hx => List.mem_toFinset.2 (h (List.mem_toFinset.1 hx))
    rw [List.toFinset_card_of_nodup (ha.imp ne_of_lt),
      List.toFinset_card_of_nodup (hb.imp ne_of_lt)] at hcard
    simp only [List.length_cons] at hcard
    omega
  | case4 a as b bs hlen hlt =>
    obtain ⟨hb1, -⟩ := List.pairwise_cons.1 hb
    rw [subsetOfLoop, if_neg hlen, if_pos hlt]
    refine ⟨fun h => absurd h Bool.false_ne_true, fun h => ?_⟩
    rcases List.mem_cons.1 (h List.mem_cons_self) with rfl | hmem
    · exact absurd hlt (lt_irrefl _)
    · exact absurd (hb1 a hmem) (lt_asymm hlt)
  | case5 as b bs hlen hlt ih =>
    obtain ⟨ha1, ha2⟩ := List.pairwise_cons.1 ha
    obtain ⟨-, hb2⟩ := List.pairwise_cons.1 hb
    rw [subsetOfLoop, if_neg hlen, if_neg hlt, if_pos rfl, ih ha2 hb2]
    refine ⟨fun h => List.cons_subset_cons b h, fun h x hx => ?_⟩
    rcases List.mem_cons.1 (h (List.mem_cons_of_mem b hx)) with rfl | hmem
    · exact absurd (ha1 x hx) (lt_irrefl _)
    · exact hmem
  | case6 a as b bs hlen hlt hne ih =>
    obtain ⟨ha1, -⟩ := List.pairwise_cons.1 ha
    obtain ⟨-, hb2⟩ := List.pairwise_cons.1 hb
    have hba : b < a := lt_of_le_of_ne (not_lt.1 hlt) (Ne.symm hne)
    rw [subsetOfLoop, if_neg hlen, if_neg hlt, if_neg hne, ih ha hb2]
    refine ⟨fun h => List.subset_cons_of_subset b h, fun h x hx => ?_⟩
    rcases List.mem_cons.1 (h hx) with rfl | hmem
    · -- everything in the first vector is above `b`
      rcases List.mem_cons.1 hx with rfl | hx
      · exact absurd hba (lt_irrefl _)
      · exact absurd (ha1 x hx) (lt_asymm hba)
    · exact hmem

theorem subset_of_subsetOfLoop {as bs : List α} (h : subsetOfLoop as bs = true) : as ⊆ bs := by
  induction as, bs using subsetOfLoop.induct with
  | case1 bs => exact List.nil_subset bs
  | case2 a as =>
    rw [subsetOfLoop] at h
    exact absurd h Bool.false_ne_true
  | case3 a as b bs hlen =>
    rw [subsetOfLoop, if_pos hlen] at h
    exact absurd h Bool.false_ne_true
  | case4 a as b bs hlen hlt =>
    rw [subsetOfLoop, if_neg hlen, if_pos hlt] at h
    exact absurd h Bool.false_ne_true
  | case5 as b bs hlen hlt ih =>
    rw [subsetOfLoop, if_neg hlen, if_neg hlt, if_pos rfl] at h
    exact List.cons_subset_cons b (ih h)
  | case6 a as b bs hlen hlt hne ih =>
    rw [subsetOfLoop, if_neg hlen, if_neg hlt, if_neg hne] at h
    exact List.subset_cons_of_subset b (ih h)

/-- What `subsetOf` accepts is included, in whatever order the vectors are. -/
theorem mem_of_subsetOf {s t : VSet α} (h : t.subsetOf s = true) {x : α} (hx : x ∈ t) : x ∈ s := by
  rw [subsetOf] at h
  split at h
  · exact absurd h Bool.false_ne_true
  · exact subset_of_subsetOfLoop h hx

/-- **`subsetOf` decides inclusion.** -/
theorem subsetOf_iff {s t : VSet α} (ht : t.Sorted) (hs : s.Sorted) :
    t.subsetOf s = true ↔ ∀ x ∈ t, x ∈ s := by
  rw [subsetOf]
  split
  · rename_i hlen
    refine ⟨fun h => absurd h Bool.false_ne_true, fun h => ?_⟩
    have hcard : t.vset.toFinset.card ≤ s.vset.toFinset.card :=
      Finset.card_le_card fun x hx => List.mem_toFinset.2 (h x (List.mem_toFinset.1 hx))
    rw [List.toFinset_card_of_nodup ht.nodup, List.toFinset_card_of_nodup hs.nodup] at hcard
    omega
  · exact subsetOfLoop_iff ht hs

end VSet
end GenMC
