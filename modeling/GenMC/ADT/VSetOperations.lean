import GenMC.ADT.VSet

/-!
# The operations of a set, with their index accesses

The bulk operations of a set work in place.  `insert` reads and writes one vector through two
indices that walk down, `erase` reads it at one cursor and writes it at another one that lags
behind.  Here every access to a vector by an index is checked: an operation that reads or writes
out of range has no result.

* `VSet.insertAll_eq` and `VSet.eraseAll_eq`: on sorted sets all accesses are in range, and the
  results are the union with the number of the new elements, and the difference with the number of
  the removed ones.
* `VSet.intersects_iff`, `VSet.intersectWith_eq` and `VSet.diff_eq`: the rest of the set algebra.
-/

set_option autoImplicit false

namespace GenMC
namespace VSet

variable {α : Type*} [LinearOrder α]

/-! ## One element -/

/-- The element, if it is there. -/
def find (el : α) (s : VSet α) : Option α :=
  (s.vset.dropWhile (· < el)).head?.filter (· = el)

def contains (el : α) (s : VSet α) : Bool := (s.find el).isSome

def count (el : α) (s : VSet α) : ℕ := if (s.find el).isSome then 1 else 0

/-- Removes an element, and tells how many were removed. -/
def erase (el : α) (s : VSet α) : VSet α × ℕ :=
  let before := s.vset.takeWhile (· < el)
  let after := s.vset.dropWhile (· < el)
  if after.head? = some el then (⟨before ++ after.tail⟩, 1) else (s, 0)

/-! ## Whole sets -/

/-- Writing at a position, which has to be in range. -/
def write (v : List α) (i : ℕ) (x : α) : Option (List α) :=
  if i < v.length then some (v.set i x) else none

/-- The filling loop: `na` and `nb` are one more than the indices of the source. -/
def fillChecked (s : List α) : (k na nb : ℕ) → List α → Option (List α)
  | 0, _, _, v => some v
  | k + 1, na, nb, v =>
    if na = 0 then do
      let b ← prev? s nb
      fillChecked s k na (nb - 1) (← write v k b)
    else if nb = 0 then do
      let a ← prev? v na
      fillChecked s k (na - 1) nb (← write v k a)
    else do
      let a ← prev? v na
      let b ← prev? s nb
      if a < b then fillChecked s k na (nb - 1) (← write v k b)
      else if a = b then fillChecked s k (na - 1) (nb - 1) (← write v k a)
      else fillChecked s k (na - 1) nb (← write v k a)

/-- Inserts a set, and tells how many elements are new. -/
def insertAll (t s : VSet α) : Option (VSet α × ℕ) :=
  if t.vset.length = 0 then some (s, s.vset.length)
  else if s.vset.length = 0 then some (t, 0)
  else if s.vset.length = 1 then do
    let b ← s.vset[0]?
    some (t.insert b, if t.contains b then 0 else 1)
  else
    let count := countMissing t.vset s.vset
    if count = 0 then some (t, 0)
    else do
      let size := t.vset.length
      let a ← t.vset[0]?
      let v ← fillChecked s.vset (size + count) size s.vset.length
        (t.vset ++ List.replicate count a)
      some (⟨v⟩, count)

/-- The two cursors of `erase`: where it reads and where it writes. -/
structure Cursors (α : Type*) where
  vset : List α
  a : ℕ
  b : ℕ
  aMov : ℕ
  erased : ℕ

/-- An element that remains in the set goes to the next position to be filled. -/
def Cursors.move (c : Cursors α) (x : α) : Option (List α) :=
  if c.aMov = c.a then some c.vset else write c.vset c.aMov x

/-- While both sets have elements left, in at most as many steps as given. -/
def eraseLoop (s : List α) : ℕ → Cursors α → Option (Cursors α)
  | 0, _ => none
  | n + 1, c =>
    if c.a < c.vset.length ∧ c.b < s.length then do
      let x ← c.vset[c.a]?
      let y ← s[c.b]?
      if x = y then
        eraseLoop s n { c with a := c.a + 1, b := c.b + 1, erased := c.erased + 1 }
      else if x < y then do
        eraseLoop s n { c with vset := ← c.move x, a := c.a + 1, aMov := c.aMov + 1 }
      else eraseLoop s n { c with b := c.b + 1 }
    else some c

/-- Copies what is left. -/
def copyLoop : ℕ → Cursors α → Option (Cursors α)
  | 0, _ => none
  | n + 1, c =>
    if c.a < c.vset.length then do
      let x ← c.vset[c.a]?
      copyLoop n { c with vset := ← write c.vset c.aMov x, a := c.a + 1, aMov := c.aMov + 1 }
    else some c

/-- Removes a set, and tells how many elements were removed. -/
def eraseAll (t s : VSet α) : Option (VSet α × ℕ) :=
  if t.vset.length = 0 ∨ s.vset.length = 0 then some (t, 0)
  else do
    let c ← eraseLoop s.vset (t.vset.length + s.vset.length + 1) ⟨t.vset, 0, 0, 0, 0⟩
    if c.aMov = c.a then some (⟨c.vset⟩, c.erased)
    else do
      let c' ← copyLoop (c.vset.length + 1) c
      let fill ← c'.vset[0]?
      some (⟨c'.vset.take c'.aMov ++ List.replicate (c'.aMov - c'.vset.length) fill⟩, c.erased)

/-- Walks over two vectors in parallel; the second one is read only when it has elements left. -/
def subsetOfChecked : List α → List α → Option Bool
  | [], _ => some true
  | a :: as, bs =>
    if (a :: as).length > bs.length then some false
    else
      match bs with
      | [] => none
      | b :: bs =>
        if a < b then some false
        else if a = b then subsetOfChecked as bs
        else subsetOfChecked (a :: as) bs
termination_by _ bs => bs.length

def subsetOfAll (t s : VSet α) : Option Bool :=
  if t.vset.length > s.vset.length then some false else subsetOfChecked t.vset s.vset

def intersectsLoop : List α → List α → Bool
  | a :: as, b :: bs =>
    if a = b then true
    else if a < b then intersectsLoop as (b :: bs)
    else intersectsLoop (a :: as) bs
  | _, _ => false

/-- Do the sets have an element in common? -/
def intersects (t s : VSet α) : Bool := intersectsLoop t.vset s.vset

def intersectLoop : List α → List α → VSet α → VSet α
  | a :: as, b :: bs, result =>
    if a = b then intersectLoop as bs (result.insert a)
    else if a < b then intersectLoop as (b :: bs) result
    else intersectLoop (a :: as) bs result
  | _, _, result => result

def intersectWith (t s : VSet α) : VSet α := intersectLoop t.vset s.vset empty

def diff (t s : VSet α) : VSet α :=
  t.vset.foldl (fun result e => if (s.find e).isNone then result.insert e else result) empty

/-- The elements, as a set. -/
def elems (s : VSet α) : Finset α := s.vset.toFinset

@[simp] theorem mem_elems {s : VSet α} {x : α} : x ∈ s.elems ↔ x ∈ s := List.mem_toFinset

theorem Sorted.card_elems {s : VSet α} (hs : s.Sorted) : s.elems.card = s.vset.length :=
  List.toFinset_card_of_nodup hs.nodup

/-- Sets with the same elements are the same vector. -/
theorem Sorted.eq_iff {s t : VSet α} (hs : s.Sorted) (ht : t.Sorted) :
    s = t ↔ s.elems = t.elems := by
  refine ⟨fun h => congrArg elems h, fun h => hs.ext ht fun x => ?_⟩
  rw [← mem_elems, h, mem_elems]

/-! ## Looking for an element -/

/-- What the search for the place of an element finds. -/
theorem Sorted.head?_dropWhile {s : VSet α} (hs : s.Sorted) {el : α} :
    (s.vset.dropWhile (· < el)).head? = some el ↔ el ∈ s := by
  refine ⟨fun h => List.dropWhile_subset _ (List.mem_of_head? h), fun h => ?_⟩
  have hsplit := List.takeWhile_append_dropWhile (p := (· < el)) (l := s.vset)
  rw [mem_def, ← hsplit, List.mem_append] at h
  rcases h with h | h
  · exact absurd (by simpa using List.mem_takeWhile_imp h) (lt_irrefl el)
  · cases hd : s.vset.dropWhile (· < el) with
    | nil =>
      rw [hd] at h
      exact absurd h List.not_mem_nil
    | cons c cs =>
      have hle : el ≤ c := le_of_mem_dropWhile hs (by rw [hd]; exact List.mem_cons_self)
      have hsorted : (c :: cs).Pairwise (· < ·) := by
        rw [← hd]
        exact hs.sublist (List.dropWhile_sublist _)
      rw [hd] at h
      rcases List.mem_cons.1 h with rfl | h
      · rfl
      · exact absurd ((List.pairwise_cons.1 hsorted).1 el h) (not_lt.2 hle)

/-- What comes after the place of an element. -/
theorem Sorted.mem_dropWhile {s : VSet α} (hs : s.Sorted) {el x : α} :
    x ∈ s.vset.dropWhile (· < el) ↔ x ∈ s ∧ el ≤ x := by
  refine ⟨fun h => ⟨List.dropWhile_subset _ h, le_of_mem_dropWhile hs h⟩, fun ⟨hx, hle⟩ => ?_⟩
  rw [mem_def, ← List.takeWhile_append_dropWhile (p := (· < el)) (l := s.vset),
    List.mem_append] at hx
  refine hx.resolve_left fun h => absurd hle (not_le.2 ?_)
  simpa using List.mem_takeWhile_imp h

theorem Sorted.find_eq {s : VSet α} (hs : s.Sorted) (el : α) :
    s.find el = if el ∈ s.elems then some el else none := by
  rw [find]
  split
  · rename_i h
    rw [hs.head?_dropWhile.2 (mem_elems.1 h)]
    simp
  · rename_i h
    rw [Option.filter_eq_none_iff]
    intro x hx hxel
    obtain rfl : x = el := by simpa using hxel
    exact h (mem_elems.2 (hs.head?_dropWhile.1 hx))

theorem Sorted.contains_iff {s : VSet α} (hs : s.Sorted) (el : α) :
    s.contains el = true ↔ el ∈ s := by
  rw [contains, hs.find_eq]
  split
  · rename_i h
    simpa using mem_elems.1 h
  · rename_i h
    simpa using h

theorem Sorted.count_eq_zero_iff {s : VSet α} (hs : s.Sorted) (el : α) :
    s.count el = 0 ↔ el ∉ s := by
  rw [← hs.contains_iff, contains, count]
  split
  · rename_i h
    simp [h]
  · rename_i h
    simp [h]

/-- Removing an element is leaving it out. -/
theorem Sorted.erase_eq {s : VSet α} (hs : s.Sorted) (el : α) :
    s.erase el = (⟨s.vset.filter (· ≠ el)⟩, if el ∈ s.elems then 1 else 0) := by
  rw [erase]
  simp only [hs.head?_dropWhile, ← mem_elems (s := s)]
  split
  · rename_i hmem
    have hhead := hs.head?_dropWhile.2 (mem_elems.1 hmem)
    obtain ⟨rest, hrest⟩ : ∃ rest, s.vset.dropWhile (· < el) = el :: rest := by
      cases hd : s.vset.dropWhile (· < el) with
      | nil =>
        rw [hd] at hhead
        cases hhead
      | cons c cs =>
        rw [hd, List.head?_cons, Option.some_inj] at hhead
        exact ⟨cs, by rw [hhead]⟩
    have hsplit := List.takeWhile_append_dropWhile (p := (· < el)) (l := s.vset)
    rw [hrest] at hsplit
    have hsorted : (s.vset.takeWhile (· < el) ++ el :: rest).Pairwise (· < ·) := by
      rw [hsplit]
      exact hs
    obtain ⟨-, hcons, hlt⟩ := List.pairwise_append.1 hsorted
    have hbefore : (s.vset.takeWhile (· < el)).filter (· ≠ el) = s.vset.takeWhile (· < el) :=
      List.filter_eq_self.2 fun x hx => by simpa using (hlt x hx el List.mem_cons_self).ne
    have hafter : rest.filter (· ≠ el) = rest :=
      List.filter_eq_self.2 fun x hx => by simpa using ((List.pairwise_cons.1 hcons).1 x hx).ne'
    rw [hrest, List.tail_cons]
    conv_rhs => rw [← hsplit, List.filter_append, hbefore, List.filter_cons, hafter]
    simp
  · rename_i hmem
    have hself : s.vset.filter (· ≠ el) = s.vset := List.filter_eq_self.2 fun x hx => by
      simp only [ne_eq, decide_not, Bool.not_eq_eq_eq_not, Bool.not_true, decide_eq_false_iff_not]
      rintro rfl
      exact hmem (mem_elems.2 hx)
    rw [hself]

theorem Sorted.mem_erase {s : VSet α} (hs : s.Sorted) {el x : α} :
    x ∈ (s.erase el).1 ↔ x ∈ s ∧ x ≠ el := by
  rw [hs.erase_eq, mem_def, List.mem_filter, mem_def]
  simp

theorem Sorted.filter {s : VSet α} (hs : s.Sorted) (p : α → Bool) :
    (⟨s.vset.filter p⟩ : VSet α).Sorted :=
  hs.sublist List.filter_sublist

theorem Sorted.erase {s : VSet α} (hs : s.Sorted) (el : α) : (s.erase el).1.Sorted := by
  rw [hs.erase_eq]
  exact hs.filter _

/-! ## Inserting a set -/

theorem fillChecked_succ {s v : List α} {k na nb na' nb' : ℕ} {m : α} (hk : k < v.length)
    (hna : na ≤ v.length) (hnb : nb ≤ s.length) (h : pick v s na nb = some (m, na', nb')) :
    fillChecked s (k + 1) na nb v = fillChecked s k na' nb' (v.set k m) := by
  have hwrite : ∀ x, write v k x = some (v.set k x) := fun x => if_pos hk
  rw [pick] at h
  rw [fillChecked]
  cases ha : prev? v na with
  | none =>
    obtain rfl := prev?_eq_none hna ha
    cases hb : prev? s nb with
    | none => simp [ha, hb] at h
    | some b =>
      simp only [ha, hb, Option.some.injEq, Prod.mk.injEq] at h
      obtain ⟨rfl, rfl, rfl⟩ := h
      simp [hwrite]
  | some a =>
    have hna0 : na ≠ 0 := by
      rintro rfl
      cases ha
    cases hb : prev? s nb with
    | none =>
      obtain rfl := prev?_eq_none hnb hb
      simp only [ha, hb, Option.some.injEq, Prod.mk.injEq] at h
      obtain ⟨rfl, rfl, rfl⟩ := h
      simp [hwrite, hna0]
    | some b =>
      have hnb0 : nb ≠ 0 := by
        rintro rfl
        cases hb
      simp only [ha, hb] at h
      simp only [hna0, hnb0, if_false, hwrite, Option.bind_eq_bind, Option.bind_some]
      split at h
      · rename_i hab
        simp only [Option.some.injEq, Prod.mk.injEq] at h
        obtain ⟨rfl, rfl, rfl⟩ := h
        rw [if_pos hab]
      · rename_i hab
        rw [if_neg hab]
        split at h
        · rename_i heq
          simp only [Option.some.injEq, Prod.mk.injEq] at h
          obtain ⟨rfl, rfl, rfl⟩ := h
          rw [if_pos heq]
        · rename_i heq
          simp only [Option.some.injEq, Prod.mk.injEq] at h
          obtain ⟨rfl, rfl, rfl⟩ := h
          rw [if_neg heq]

/-- The filling loop stays in range. -/
theorem Filling.fillChecked {as bs : List α} (has : as.Pairwise (· < ·))
    (hbs : bs.Pairwise (· < ·)) {k na nb : ℕ} {v : List α} (h : Filling as bs k na nb v) :
    VSet.fillChecked bs k na nb v = some (VSet.fill bs k na nb v) := by
  induction k generalizing na nb v with
  | zero => rfl
  | succ k ih =>
    obtain ⟨m, na', nb', hpick, hnext⟩ := h.next has hbs
    have hna : na ≤ v.length := by
      have hlen := congrArg List.length h.left
      rw [List.length_take, List.length_take, min_eq_left h.na_le] at hlen
      exact min_eq_left_iff.1 hlen
    rw [fill_succ hpick, fillChecked_succ h.length hna h.nb_le hpick]
    exact ih hnext

/-- **Inserting a set stays in range**, and counts what is new. -/
theorem insertAll_eq {s t : VSet α} (hs : s.Sorted) (ht : t.Sorted) :
    t.insertAll s = some (t.insertSet s, (s.elems \ t.elems).card) := by
  obtain ⟨bs⟩ := s
  obtain ⟨as⟩ := t
  cases as with
  | nil => simp [insertAll, insertSet, elems, List.toFinset_card_of_nodup hs.nodup]
  | cons a as =>
    rcases bs with - | ⟨b, - | ⟨b', bs⟩⟩
    · simp [insertAll, insertSet, elems]
    · have hcard : (elems ⟨[b]⟩ \ elems ⟨a :: as⟩).card =
          if contains b ⟨a :: as⟩ = true then 0 else 1 := by
        have hb : elems (⟨[b]⟩ : VSet α) = {b} := by rw [elems, List.toFinset_cons]; rfl
        rw [hb]
        split
        · rename_i hmem
          rw [ht.contains_iff, ← mem_elems, ← Finset.singleton_subset_iff] at hmem
          rw [Finset.sdiff_eq_empty_iff_subset.2 hmem, Finset.card_empty]
        · rename_i hmem
          rw [ht.contains_iff, ← mem_elems, ← Finset.disjoint_singleton_left] at hmem
          rw [Finset.sdiff_eq_self_of_disjoint hmem, Finset.card_singleton]
      rw [hcard]
      simp [insertAll, insertSet]
    · have hcount : countMissing (a :: as) (b :: b' :: bs) =
        (elems ⟨b :: b' :: bs⟩ \ elems ⟨a :: as⟩).card := countMissing_eq ht hs
      have hfill := (filling_start ht hs a).fillChecked ht hs
      rw [insertAll, insertSet, ← hcount]
      simp only [List.length_cons, Nat.add_eq_zero_iff, one_ne_zero, and_false, if_false,
        Nat.add_eq_right] at hfill ⊢
      generalize countMissing (a :: as) (b :: b' :: bs) = count at hfill ⊢
      split
      · rename_i hzero
        rw [hzero]
      · simp only [List.getElem?_cons_zero, Option.bind_eq_bind, Option.bind_some, hfill]

/-! ## Erasing a set -/

/-- The state of the compaction of `as` without `bs`: what stays of the elements that were read is
in front of the writing cursor, what was not read is where it was, and everything that was passed
in `bs` is below it. -/
structure Erasing (as bs : List α) (c : Cursors α) : Prop where
  length : c.vset.length = as.length
  a_le : c.a ≤ as.length
  b_le : c.b ≤ bs.length
  left : c.vset.drop c.a = as.drop c.a
  kept : c.vset.take c.aMov = (as.take c.a).filter (· ∉ bs)
  count : c.aMov + c.erased = c.a
  below : ∀ x ∈ bs.take c.b, ∀ y ∈ as.drop c.a, x < y

section
variable {as bs : List α} {c : Cursors α}

/-- The element at the reading cursor is still the one of the old vector. -/
theorem Erasing.read (h : Erasing as bs c) (ha : c.a < as.length) :
    c.vset[c.a]? = some as[c.a] := by
  have hdrop := congrArg List.head? h.left
  rwa [List.head?_drop, List.head?_drop, List.getElem?_eq_getElem ha] at hdrop

/-- An element that stays moves to the writing cursor. -/
theorem Erasing.keep (h : Erasing as bs c) (ha : c.a < as.length) (hx : as[c.a] ∉ bs) :
    Erasing as bs
      { c with vset := c.vset.set c.aMov as[c.a], a := c.a + 1, aMov := c.aMov + 1 } where
  length := (List.length_set ..).trans h.length
  a_le := ha
  b_le := h.b_le
  left := by
    have := h.count
    simp only
    rw [List.drop_set_of_lt (by omega), ← List.drop_drop, h.left, List.drop_drop]
  kept := by
    have hlt : c.aMov < c.vset.length := by
      have := h.count
      have := h.length
      omega
    simp only
    rw [List.take_succ_eq_append_getElem (by rwa [List.length_set]), List.getElem_set_self,
      List.take_set_of_le le_rfl, h.kept, List.take_succ_eq_append_getElem ha, List.filter_append]
    simp [hx]
  count := by
    have := h.count
    simp only
    omega
  below := fun x hx y hy => h.below x hx y (List.drop_subset_drop_left _ (Nat.le_succ _) hy)

/-- An element that is erased is passed. -/
theorem Erasing.pass (h : Erasing as bs c) (has : as.Pairwise (· < ·)) (ha : c.a < as.length)
    (hb : c.b < bs.length) (hx : as[c.a] = bs[c.b]) :
    Erasing as bs { c with a := c.a + 1, b := c.b + 1, erased := c.erased + 1 } where
  length := h.length
  a_le := ha
  b_le := hb
  left := by
    simp only
    rw [← List.drop_drop, h.left, List.drop_drop]
  kept := by
    have hmem : as[c.a] ∈ bs := hx ▸ List.getElem_mem hb
    simp only
    rw [h.kept, List.take_succ_eq_append_getElem ha, List.filter_append]
    simp [hmem]
  count := by
    have := h.count
    simp only
    omega
  below := by
    intro x hx' y hy
    rw [List.take_succ_eq_append_getElem hb, List.mem_append, List.mem_singleton] at hx'
    rcases hx' with hx' | rfl
    · exact h.below x hx' y (List.drop_subset_drop_left _ (Nat.le_succ _) hy)
    · have hsorted := has.sublist (List.drop_sublist c.a as)
      rw [List.drop_eq_getElem_cons ha, hx] at hsorted
      exact (List.pairwise_cons.1 hsorted).1 y hy

/-- What is passed in `bs` is below what was not read. -/
theorem Erasing.skip (h : Erasing as bs c) (has : as.Pairwise (· < ·)) (ha : c.a < as.length)
    (hb : c.b < bs.length) (hlt : bs[c.b] < as[c.a]) : Erasing as bs { c with b := c.b + 1 } where
  length := h.length
  a_le := h.a_le
  b_le := hb
  left := h.left
  kept := h.kept
  count := h.count
  below := by
    intro x hx y hy
    rw [List.take_succ_eq_append_getElem hb, List.mem_append, List.mem_singleton] at hx
    rcases hx with hx | rfl
    · exact h.below x hx y hy
    · have hsorted := has.sublist (List.drop_sublist c.a as)
      simp only at hy
      rw [List.drop_eq_getElem_cons ha] at hsorted hy
      rcases List.mem_cons.1 hy with rfl | hy
      · exact hlt
      · exact hlt.trans ((List.pairwise_cons.1 hsorted).1 y hy)

/-- An element below the next one of `bs` is not in `bs`. -/
theorem Erasing.notMem (h : Erasing as bs c) (hbs : bs.Pairwise (· < ·)) (ha : c.a < as.length)
    (hnext : ∀ hb : c.b < bs.length, as[c.a] < bs[c.b]) : as[c.a] ∉ bs := by
  intro hmem
  rw [← List.take_append_drop c.b bs, List.mem_append] at hmem
  rcases hmem with hmem | hmem
  · refine lt_irrefl _ (h.below _ hmem as[c.a] ?_)
    rw [List.drop_eq_getElem_cons ha]
    exact List.mem_cons_self
  · have hb : c.b < bs.length := by
      by_contra hb
      rw [List.drop_of_length_le (not_lt.1 hb)] at hmem
      exact List.not_mem_nil hmem
    have hsorted := hbs.sublist (List.drop_sublist c.b bs)
    rw [List.drop_eq_getElem_cons hb] at hmem hsorted
    rcases List.mem_cons.1 hmem with heq | hmem
    · exact (hnext hb).ne heq
    · exact lt_asymm (hnext hb) ((List.pairwise_cons.1 hsorted).1 _ hmem)

theorem Erasing.move (h : Erasing as bs c) (ha : c.a < as.length) :
    c.move as[c.a] = some (c.vset.set c.aMov as[c.a]) := by
  have hread := h.read ha
  have := h.count
  rw [Cursors.move]
  split
  · rename_i heq
    obtain ⟨hlt, hget⟩ := List.getElem?_eq_some_iff.1 hread
    rw [heq, ← hget, List.set_getElem_self]
  · rw [write, if_pos (by rw [h.length]; omega)]

/-- The loop ends with one of the vectors read to its end. -/
theorem Erasing.eraseLoop (has : as.Pairwise (· < ·)) (hbs : bs.Pairwise (· < ·)) {n : ℕ}
    (h : Erasing as bs c) (hn : (as.length - c.a) + (bs.length - c.b) < n) :
    ∃ c', VSet.eraseLoop bs n c = some c' ∧ Erasing as bs c' ∧
      (c'.a = as.length ∨ c'.b = bs.length) := by
  induction n generalizing c with
  | zero => exact absurd hn (Nat.not_lt_zero _)
  | succ n ih =>
    rw [VSet.eraseLoop]
    split
    · rename_i hlt
      obtain ⟨ha, hb⟩ := hlt
      rw [h.length] at ha
      simp only [h.read ha, List.getElem?_eq_getElem hb, Option.bind_eq_bind, Option.bind_some]
      split
      · rename_i heq
        refine ih (h.pass has ha hb heq) ?_
        simp only
        omega
      · split
        · rename_i hxy
          have hnot := h.notMem hbs ha fun _ => hxy
          rw [h.move ha, Option.bind_some]
          refine ih (h.keep ha hnot) ?_
          simp only
          omega
        · rename_i hne hnlt
          refine ih (h.skip has ha hb (lt_of_le_of_ne (not_lt.1 hnlt) (Ne.symm hne))) ?_
          simp only
          omega
    · rename_i hend
      refine ⟨c, rfl, h, ?_⟩
      have ha := h.a_le
      have hb := h.b_le
      rw [h.length] at hend
      omega

/-- The rest is copied. -/
theorem Erasing.copyLoop (hbs : bs.Pairwise (· < ·)) {n : ℕ} (h : Erasing as bs c)
    (hend : c.a = as.length ∨ c.b = bs.length) (hn : as.length - c.a < n) :
    ∃ c', VSet.copyLoop n c = some c' ∧ Erasing as bs c' ∧ c'.a = as.length ∧
      c'.erased = c.erased := by
  induction n generalizing c with
  | zero => exact absurd hn (Nat.not_lt_zero _)
  | succ n ih =>
    rw [VSet.copyLoop]
    split
    · rename_i ha
      have := h.count
      rw [h.length] at ha
      have hb : c.b = bs.length := hend.resolve_left ha.ne
      have hnot := h.notMem hbs ha fun hlt => absurd hb hlt.ne
      simp only [h.read ha, Option.bind_eq_bind, Option.bind_some]
      rw [write, if_pos (by rw [h.length]; omega), Option.bind_some]
      refine ih (h.keep ha hnot) (.inr hb) ?_
      simp only
      omega
    · rename_i ha
      rw [h.length] at ha
      exact ⟨c, rfl, h, le_antisymm h.a_le (not_lt.1 ha), rfl⟩

/-- How many elements were passed. -/
theorem Erasing.erased_eq (h : Erasing as bs c) :
    c.erased = ((as.take c.a).filter (· ∈ bs)).length := by
  have hkept := congrArg List.length h.kept
  have hcount := h.count
  have hsum := List.length_eq_length_filter_add (l := as.take c.a) (fun x => decide (x ∈ bs))
  have hle := h.a_le
  have hlen := h.length
  rw [List.length_take, min_eq_left (by omega)] at hkept
  rw [List.length_take, min_eq_left hle] at hsum
  simp only [decide_not] at hkept
  omega

/-- What was not read stays, once the loop has ended. -/
theorem Erasing.rest (h : Erasing as bs c) (hend : c.a = as.length ∨ c.b = bs.length) :
    ∀ x ∈ as.drop c.a, x ∉ bs := by
  intro x hx hmem
  rcases hend with ha | hb
  · rw [ha, List.drop_length] at hx
    exact List.not_mem_nil hx
  · exact lt_irrefl x (h.below x (by rw [hb, List.take_length]; exact hmem) x hx)

end

/-- **Erasing a set stays in range**; it leaves out the elements of the other set, and counts
them. -/
theorem eraseAll_eq {s t : VSet α} (hs : s.Sorted) (ht : t.Sorted) :
    t.eraseAll s =
      some (⟨t.vset.filter (· ∉ s.vset)⟩, (t.vset.filter (· ∈ s.vset)).length) := by
  obtain ⟨bs⟩ := s
  obtain ⟨as⟩ := t
  rw [eraseAll]
  split
  · rename_i hempty
    rcases hempty with h | h
    · obtain rfl : as = [] := List.length_eq_zero_iff.1 h
      rfl
    · obtain rfl : bs = [] := List.length_eq_zero_iff.1 h
      simp
  · rename_i hne
    obtain ⟨hane, -⟩ := not_or.1 hne
    have hstart : Erasing as bs ⟨as, 0, 0, 0, 0⟩ :=
      ⟨rfl, Nat.zero_le _, Nat.zero_le _, rfl, rfl, rfl, by simp⟩
    obtain ⟨c, hloop, hc, hend⟩ := hstart.eraseLoop ht hs
      (n := as.length + bs.length + 1) (by simp only; omega)
    have hrest := hc.rest hend
    have herased : c.erased = (as.filter (· ∈ bs)).length := by
      have hdrop : (as.drop c.a).filter (· ∈ bs) = [] := by
        rw [List.filter_eq_nil_iff]
        exact fun x hx => by simpa using hrest x hx
      rw [hc.erased_eq]
      conv_rhs => rw [← List.take_append_drop c.a as, List.filter_append, hdrop, List.append_nil]
    simp only [hloop, Option.bind_eq_bind, Option.bind_some]
    split
    · rename_i hmov
      have hvset : c.vset = as.filter (· ∉ bs) := by
        have hdrop : (as.drop c.a).filter (· ∉ bs) = as.drop c.a :=
          List.filter_eq_self.2 fun x hx => by simpa using hrest x hx
        calc c.vset = c.vset.take c.aMov ++ c.vset.drop c.a := by
              rw [hmov, List.take_append_drop]
          _ = (as.take c.a ++ as.drop c.a).filter (· ∉ bs) := by
              rw [hc.kept, hc.left, List.filter_append, hdrop]
          _ = as.filter (· ∉ bs) := by rw [List.take_append_drop]
      rw [hvset, herased]
    · obtain ⟨c', hcopy, hc', ha', her'⟩ := hc.copyLoop hs hend (n := c.vset.length + 1)
        (by rw [hc.length]; omega)
      have hlen' := hc'.length
      have hne' : c'.vset ≠ [] := by
        intro h
        rw [h] at hlen'
        exact hane hlen'.symm
      have hle : c'.aMov ≤ c'.vset.length := by
        have := hc'.count
        omega
      have hkept := hc'.kept
      rw [ha', List.take_length] at hkept
      simp only [hcopy, Option.bind_some, List.getElem?_eq_getElem (List.length_pos_of_ne_nil hne'),
        Nat.sub_eq_zero_of_le hle, List.replicate_zero, List.append_nil, hkept, herased]

/-! ## Inclusion, overlap, intersection and difference -/

theorem subsetOfChecked_cons_cons (a b : α) (as bs : List α) :
    subsetOfChecked (a :: as) (b :: bs) =
      if as.length > bs.length then some false
      else if a < b then some false
      else if a = b then subsetOfChecked as bs
      else subsetOfChecked (a :: as) bs := by
  rw [subsetOfChecked]
  simp only [List.length_cons, gt_iff_lt, Nat.add_lt_add_iff_right]

/-- The walk for an inclusion stays in range. -/
theorem subsetOfChecked_eq (as bs : List α) :
    subsetOfChecked as bs = some (subsetOfLoop as bs) := by
  induction as, bs using subsetOfLoop.induct with
  | case1 bs => rw [subsetOfChecked, subsetOfLoop]
  | case2 a as =>
    rw [subsetOfChecked, subsetOfLoop]
    exact if_pos (Nat.succ_pos _)
  | case3 a as b bs hlen =>
    rw [subsetOfChecked_cons_cons, if_pos hlen, subsetOfLoop, if_pos hlen]
  | case4 a as b bs hlen hlt =>
    rw [subsetOfChecked_cons_cons, if_neg hlen, if_pos hlt, subsetOfLoop, if_neg hlen, if_pos hlt]
  | case5 as b bs hlen hlt ih =>
    rw [subsetOfChecked_cons_cons, if_neg hlen, if_neg hlt, if_pos rfl, subsetOfLoop,
      if_neg hlen, if_neg hlt, if_pos rfl, ih]
  | case6 a as b bs hlen hlt hne ih =>
    rw [subsetOfChecked_cons_cons, if_neg hlen, if_neg hlt, if_neg hne, subsetOfLoop,
      if_neg hlen, if_neg hlt, if_neg hne, ih]

theorem subsetOfAll_eq (s t : VSet α) : t.subsetOfAll s = some (t.subsetOf s) := by
  rw [subsetOfAll, subsetOf]
  split
  · rfl
  · exact subsetOfChecked_eq _ _

/-- An element below the head of a sorted vector is not in it. -/
theorem notMem_of_lt_head {a b : α} {bs : List α} (hb : (b :: bs).Pairwise (· < ·))
    (hlt : a < b) : a ∉ b :: bs := by
  intro h
  rcases List.mem_cons.1 h with rfl | h
  · exact lt_irrefl _ hlt
  · exact lt_asymm hlt ((List.pairwise_cons.1 hb).1 a h)

theorem intersectsLoop_iff {as bs : List α} (ha : as.Pairwise (· < ·))
    (hb : bs.Pairwise (· < ·)) : intersectsLoop as bs = true ↔ ∃ x ∈ as, x ∈ bs := by
  induction as, bs using intersectsLoop.induct with
  | case1 as b bs =>
    rw [intersectsLoop, if_pos rfl]
    exact ⟨fun _ => ⟨b, List.mem_cons_self, List.mem_cons_self⟩, fun _ => rfl⟩
  | case2 a as b bs hne hlt ih =>
    have hnot := notMem_of_lt_head hb hlt
    rw [intersectsLoop, if_neg hne, if_pos hlt, ih (List.pairwise_cons.1 ha).2 hb]
    simp only [List.exists_mem_cons_iff, hnot, false_or]
  | case3 a as b bs hne hlt ih =>
    have hnot := notMem_of_lt_head ha (lt_of_le_of_ne (not_lt.1 hlt) (Ne.symm hne))
    rw [intersectsLoop, if_neg hne, if_neg hlt, ih ha (List.pairwise_cons.1 hb).2]
    refine exists_congr fun x => and_congr_right fun hx => ?_
    rw [List.mem_cons, or_iff_right]
    rintro rfl
    exact hnot hx
  | case4 as bs h =>
    rw [intersectsLoop]
    · refine ⟨fun h => absurd h Bool.false_ne_true, ?_⟩
      rintro ⟨x, hx, hx'⟩
      obtain ⟨a, as', rfl⟩ := List.exists_cons_of_ne_nil (List.ne_nil_of_mem hx)
      obtain ⟨b, bs', rfl⟩ := List.exists_cons_of_ne_nil (List.ne_nil_of_mem hx')
      exact (h a as' b bs' rfl rfl).elim
    · exact h

/-- An element above all others goes to the end. -/
theorem insert_of_forall_lt {s : VSet α} {el : α} (h : ∀ x ∈ s.vset, x < el) :
    s.insert el = ⟨s.vset ++ [el]⟩ := by
  have htake : s.vset.takeWhile (· < el) = s.vset :=
    List.takeWhile_eq_self_iff.2 fun x hx => by simpa using h x hx
  have hdrop : s.vset.dropWhile (· < el) = [] :=
    List.dropWhile_eq_nil_iff.2 fun x hx => by simpa using h x hx
  rw [insert, htake, hdrop]
  rfl

theorem intersectLoop_eq {as bs : List α} {result : VSet α} (ha : as.Pairwise (· < ·))
    (hb : bs.Pairwise (· < ·)) (hr : ∀ x ∈ result.vset, ∀ y ∈ as, x < y) :
    intersectLoop as bs result = ⟨result.vset ++ as.filter (· ∈ bs)⟩ := by
  induction as, bs, result using intersectLoop.induct with
  | case1 as b bs result ih =>
    obtain ⟨ha1, ha2⟩ := List.pairwise_cons.1 ha
    have hinsert := insert_of_forall_lt fun x hx => hr x hx b List.mem_cons_self
    rw [intersectLoop, if_pos rfl, ih ha2 (List.pairwise_cons.1 hb).2 ?_, hinsert]
    · have hfilter : as.filter (· ∈ b :: bs) = as.filter (· ∈ bs) := by
        refine List.filter_congr fun x hx => ?_
        simp [(ha1 x hx).ne']
      rw [List.filter_cons, if_pos (by simp), hfilter, List.append_assoc, List.singleton_append]
    · intro x hx y hy
      rw [hinsert, List.mem_append, List.mem_singleton] at hx
      rcases hx with hx | rfl
      · exact hr x hx y (List.mem_cons_of_mem _ hy)
      · exact ha1 y hy
  | case2 a as b bs result hne hlt ih =>
    rw [intersectLoop, if_neg hne, if_pos hlt, ih (List.pairwise_cons.1 ha).2 hb
      fun x hx y hy => hr x hx y (List.mem_cons_of_mem _ hy), List.filter_cons,
      if_neg (by simpa using notMem_of_lt_head hb hlt)]
  | case3 a as b bs result hne hlt ih =>
    have hnot := notMem_of_lt_head ha (lt_of_le_of_ne (not_lt.1 hlt) (Ne.symm hne))
    have hfilter : (a :: as).filter (· ∈ b :: bs) = (a :: as).filter (· ∈ bs) := by
      refine List.filter_congr fun x hx => ?_
      have hxb : x ≠ b := by
        rintro rfl
        exact hnot hx
      simp [hxb]
    rw [intersectLoop, if_neg hne, if_neg hlt, ih ha (List.pairwise_cons.1 hb).2 hr, hfilter]
  | case4 as bs result h =>
    rw [intersectLoop]
    · cases as with
      | nil => simp
      | cons a as =>
        cases bs with
        | nil => simp
        | cons b bs => exact (h a as b bs rfl rfl).elim
    · exact h

theorem intersectWith_eq {s t : VSet α} (hs : s.Sorted) (ht : t.Sorted) :
    t.intersectWith s = ⟨t.vset.filter (· ∈ s.vset)⟩ :=
  intersectLoop_eq ht hs fun _ hx => absurd hx List.not_mem_nil

theorem mem_intersectWith {s t : VSet α} (hs : s.Sorted) (ht : t.Sorted) {x : α} :
    x ∈ t.intersectWith s ↔ x ∈ t ∧ x ∈ s := by
  rw [intersectWith_eq hs ht, mem_def, List.mem_filter, decide_eq_true_iff, mem_def, mem_def]

theorem diffLoop_eq {s : VSet α} (hs : s.Sorted) {as : List α} (ha : as.Pairwise (· < ·))
    {result : VSet α} (hr : ∀ x ∈ result.vset, ∀ y ∈ as, x < y) :
    as.foldl (fun result e => if (s.find e).isNone then result.insert e else result) result =
      ⟨result.vset ++ as.filter (· ∉ s.vset)⟩ := by
  induction as generalizing result with
  | nil => simp
  | cons a as ih =>
    obtain ⟨ha1, ha2⟩ := List.pairwise_cons.1 ha
    have hfind : (s.find a).isNone = true ↔ a ∉ s.vset := by
      rw [hs.find_eq, ← mem_def, ← mem_elems]
      split <;> simp_all
    rw [List.foldl_cons]
    split
    · rename_i hnone
      have hinsert := insert_of_forall_lt fun x hx => hr x hx a List.mem_cons_self
      rw [hinsert, ih ha2, List.filter_cons, if_pos (by simpa using hfind.1 hnone),
        List.append_assoc, List.singleton_append]
      intro x hx y hy
      rw [List.mem_append, List.mem_singleton] at hx
      rcases hx with hx | rfl
      · exact hr x hx y (List.mem_cons_of_mem _ hy)
      · exact ha1 y hy
    · rename_i hsome
      rw [ih ha2 fun x hx y hy => hr x hx y (List.mem_cons_of_mem _ hy), List.filter_cons,
        if_neg (by simpa using fun h => hsome (hfind.2 h))]

theorem diff_eq {s t : VSet α} (hs : s.Sorted) (ht : t.Sorted) :
    t.diff s = ⟨t.vset.filter (· ∉ s.vset)⟩ :=
  diffLoop_eq hs ht fun _ hx => absurd hx List.not_mem_nil

/-- What is subtracted from does not have to be sorted. -/
theorem Sorted.diff_spec {s : VSet α} (hs : s.Sorted) (t : VSet α) :
    (t.diff s).Sorted ∧ ∀ x, x ∈ t.diff s ↔ x ∈ t ∧ x ∉ s := by
  have hloop : ∀ (as : List α) (result : VSet α), result.Sorted →
      (as.foldl (fun result e => if (s.find e).isNone then result.insert e else result)
        result).Sorted ∧
      ∀ x, x ∈ as.foldl (fun result e => if (s.find e).isNone then result.insert e else result)
        result ↔ x ∈ result ∨ x ∈ as ∧ x ∉ s := by
    intro as
    induction as with
    | nil => exact fun result hr => ⟨hr, fun x => by simp⟩
    | cons a as ih =>
      intro result hr
      rw [List.foldl_cons]
      split
      · rename_i hnone
        have ha : a ∉ s := fun hmem => by simp [hs.find_eq, mem_elems.2 hmem] at hnone
        obtain ⟨hsorted, hmem⟩ := ih _ (hr.insert a)
        refine ⟨hsorted, fun x => ?_⟩
        rw [hmem, mem_insert, List.mem_cons]
        refine ⟨?_, ?_⟩
        · rintro ((rfl | hx) | hx)
          · exact .inr ⟨.inl rfl, ha⟩
          · exact .inl hx
          · exact .inr ⟨.inr hx.1, hx.2⟩
        · rintro (hx | ⟨rfl | hx, hnot⟩)
          · exact .inl (.inr hx)
          · exact .inl (.inl rfl)
          · exact .inr ⟨hx, hnot⟩
      · rename_i hsome
        have ha : a ∈ s := by
          by_contra hmem
          exact hsome (by simp [hs.find_eq, hmem])
        obtain ⟨hsorted, hmem⟩ := ih _ hr
        refine ⟨hsorted, fun x => ?_⟩
        rw [hmem, List.mem_cons]
        refine or_congr_right (and_congr_left fun hnot => (or_iff_right ?_).symm)
        rintro rfl
        exact hnot ha
  obtain ⟨hsorted, hmem⟩ := hloop t.vset empty sorted_empty
  refine ⟨hsorted, fun x => (hmem x).trans (or_iff_right List.not_mem_nil)⟩

theorem elems_filter_mem (s t : VSet α) :
    elems ⟨t.vset.filter (· ∈ s.vset)⟩ = t.elems ∩ s.elems := by
  ext x
  simp [mem_def]

theorem elems_filter_notMem (s t : VSet α) :
    elems ⟨t.vset.filter (· ∉ s.vset)⟩ = t.elems \ s.elems := by
  ext x
  simp [mem_def]

/-- **The bulk operations are the set operations**, and every access by an index is in range. -/
theorem bulk_operations {a b : VSet α} (ha : a.Sorted) (hb : b.Sorted) :
    (∃ u, a.insertAll b = some (u, (b.elems \ a.elems).card) ∧ u.Sorted ∧
      u.elems = a.elems ∪ b.elems) ∧
    (∃ d, a.eraseAll b = some (d, (a.elems ∩ b.elems).card) ∧ d.Sorted ∧
      d.elems = a.elems \ b.elems) ∧
    a.subsetOfAll b = some (decide (a.elems ⊆ b.elems)) ∧
    (a.intersects b = true ↔ (a.elems ∩ b.elems).Nonempty) ∧
    ((a.intersectWith b).Sorted ∧ (a.intersectWith b).elems = a.elems ∩ b.elems) ∧
    (a.diff b).Sorted ∧ (a.diff b).elems = a.elems \ b.elems := by
  refine ⟨?_, ?_, ?_, ?_, ?_, ?_⟩
  · obtain ⟨hsorted, hmem⟩ := insertSet_spec hb ha
    refine ⟨_, insertAll_eq hb ha, hsorted, ?_⟩
    ext x
    rw [mem_elems, hmem, Finset.mem_union, mem_elems, mem_elems]
  · have hcard := (ha.filter (· ∈ b.vset)).card_elems
    rw [elems_filter_mem] at hcard
    refine ⟨_, ?_, ha.filter _, elems_filter_notMem b a⟩
    rw [hcard]
    exact eraseAll_eq hb ha
  · rw [subsetOfAll_eq, Option.some_inj, Bool.eq_iff_iff, subsetOf_iff ha hb, decide_eq_true_iff]
    simp only [Finset.subset_iff, mem_elems]
  · rw [intersects, intersectsLoop_iff ha hb, Finset.Nonempty]
    simp only [Finset.mem_inter, mem_elems, mem_def]
  · rw [intersectWith_eq hb ha]
    exact ⟨ha.filter _, elems_filter_mem b a⟩
  · rw [diff_eq hb ha]
    exact ⟨ha.filter _, elems_filter_notMem b a⟩

theorem bulk_operations_pair :
    (∃ u, insertAll (⟨[1, 3]⟩ : VSet ℕ) ⟨[2, 3]⟩ =
        some (u, (elems (⟨[2, 3]⟩ : VSet ℕ) \ elems ⟨[1, 3]⟩).card) ∧ u.Sorted ∧
      u.elems = elems ⟨[1, 3]⟩ ∪ elems ⟨[2, 3]⟩) ∧
    (∃ d, eraseAll (⟨[1, 3]⟩ : VSet ℕ) ⟨[2, 3]⟩ =
        some (d, (elems (⟨[1, 3]⟩ : VSet ℕ) ∩ elems ⟨[2, 3]⟩).card) ∧ d.Sorted ∧
      d.elems = elems ⟨[1, 3]⟩ \ elems ⟨[2, 3]⟩) :=
  have h := bulk_operations (a := (⟨[1, 3]⟩ : VSet ℕ)) (b := ⟨[2, 3]⟩)
    (by simp [Sorted]) (by simp [Sorted])
  ⟨h.1, h.2.1⟩

example : eraseAll (⟨[1, 3, 4, 7]⟩ : VSet ℕ) ⟨[2, 3, 5]⟩ = some (⟨[1, 4, 7]⟩, 1) := by decide

end VSet
end GenMC
