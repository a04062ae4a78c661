import Mathlib.Data.List.Nodup
import Mathlib.Tactic

/-!
# The order of a list

A list without repetitions orders its members.  `Before l a b` says that `a` comes before `b`
in `l`, and the lemmas say what happens to this order when the list is cut, filtered or extended,
and how it is related to the places of the members (`before_iff_idxOf_lt`).

`takeWhile_filter_of_stops` is about a loop over a list that ends at the first element that fails,
`findIdx_reverse_cases` about one from the end, and `getD_find?_reverse_range` about one over
numbers from the top.
-/

set_option autoImplicit false

namespace ListOrder

variable {α : Type*}

/-- `a` comes before `b` in a list. -/
def Before (l : List α) (a b : α) : Prop := ∃ l₁ l₂, l = l₁ ++ b :: l₂ ∧ a ∈ l₁

/-- What comes before a member of a prefix is in the prefix. -/
theorem Before.mem_pre {l p : List α} {a b : α} (hl : l.Nodup) (h : Before l a b)
    (hp : p <+: l) (hb : b ∈ p) : a ∈ p := by
  obtain ⟨l₁, l₂, rfl, ha⟩ := h
  obtain ⟨p₁, p₂, rfl⟩ := List.append_of_mem hb
  obtain ⟨q, hq⟩ := hp
  have hb₁ : b ∉ l₁ := fun h => (List.nodup_append.1 hl).2.2 b h b (by simp) rfl
  have hb₂ : b ∉ l₂ := (List.nodup_cons.1 (List.nodup_append.1 hl).2.1).1
  rw [List.append_assoc, List.cons_append] at hq
  obtain ⟨rfl, -, -⟩ := (List.append_cons_inj_of_notMem hb₁ hb₂).1 hq.symm
  exact List.mem_append_left _ ha

/-- What is in a prefix comes before what is listed outside it. -/
theorem before_of_pre {l p : List α} {a b : α} (hp : p <+: l) (ha : a ∈ p) (hb : b ∈ l)
    (hb' : b ∉ p) : Before l a b := by
  obtain ⟨q, rfl⟩ := hp
  obtain ⟨q₁, q₂, rfl⟩ := List.append_of_mem ((List.mem_append.1 hb).resolve_left hb')
  exact ⟨p ++ q₁, q₂, (List.append_assoc _ _ _).symm, List.mem_append_left _ ha⟩

/-- Filtering a list keeps the order of what is left. -/
theorem before_filter_iff {l : List α} {p : α → Bool} {a b : α} :
    Before (l.filter p) a b ↔ Before l a b ∧ p a = true ∧ p b = true := by
  refine ⟨?_, ?_⟩
  · rintro ⟨l₁, l₂, h, ha⟩
    obtain ⟨k₁, k₂, rfl, rfl, hk₂⟩ := List.filter_eq_append_iff.1 h
    obtain ⟨m₁, m₂, rfl, hm₁, hb, -⟩ := List.filter_eq_cons_iff.1 hk₂
    obtain ⟨ha', hpa⟩ := List.mem_filter.1 ha
    exact ⟨⟨k₁ ++ m₁, m₂, (List.append_assoc _ _ _).symm, List.mem_append_left _ ha'⟩, hpa, hb⟩
  · rintro ⟨⟨l₁, l₂, rfl, ha⟩, hpa, hpb⟩
    refine ⟨l₁.filter p, l₂.filter p, ?_, List.mem_filter.2 ⟨ha, hpa⟩⟩
    rw [List.filter_append, List.filter_cons_of_pos hpb]

theorem Before.trans {l : List α} {a b c : α} (hl : l.Nodup) (h : Before l a b)
    (h' : Before l b c) : Before l a c := by
  obtain ⟨l₁, l₂, rfl, hb⟩ := h'
  exact ⟨l₁, l₂, rfl, h.mem_pre hl (List.prefix_append _ _) hb⟩

/-- Extending a list keeps its order. -/
theorem Before.append {l : List α} {a b : α} (h : Before l a b) (l' : List α) :
    Before (l ++ l') a b := by
  obtain ⟨l₁, l₂, rfl, ha⟩ := h
  exact ⟨l₁, l₂ ++ l', by simp, ha⟩

theorem Before.cons {l : List α} {a b : α} (h : Before l a b) (c : α) : Before (c :: l) a b := by
  obtain ⟨l₁, l₂, rfl, ha⟩ := h
  exact ⟨c :: l₁, l₂, rfl, List.mem_cons_of_mem _ ha⟩

/-- Renaming keeps the order of a list. -/
theorem before_map_iff {β : Type*} {f : α → β} {l : List α} {a b : α}
    (hf : ∀ x ∈ l, ∀ y ∈ l, f x = f y → x = y) (ha : a ∈ l) (hb : b ∈ l) :
    Before (l.map f) (f a) (f b) ↔ Before l a b := by
  refine ⟨?_, ?_⟩
  · rintro ⟨l₁, l₂, h, ha'⟩
    obtain ⟨k₁, k₂, rfl, rfl, hk⟩ := List.map_eq_append_iff.1 h
    obtain ⟨c, k₂, rfl, hc, rfl⟩ := List.map_eq_cons_iff.1 hk
    obtain rfl := hf c (by simp) b hb hc
    obtain ⟨d, hd, hda⟩ := List.mem_map.1 ha'
    obtain rfl := hf d (by simp [hd]) a ha hda
    exact ⟨k₁, k₂, rfl, hd⟩
  · rintro ⟨l₁, l₂, rfl, ha'⟩
    exact ⟨l₁.map f, l₂.map f, by simp, List.mem_map_of_mem ha'⟩

/-- The members of a list come before what is added to it. -/
theorem before_concat {l : List α} {a : α} (ha : a ∈ l) (b : α) : Before (l ++ [b]) a b :=
  ⟨l, [], rfl, ha⟩

/-- In a list without repetitions, coming before is having the smaller place. -/
theorem before_iff_idxOf_lt [DecidableEq α] {l : List α} (hl : l.Nodup) {a b : α} (hb : b ∈ l) :
    Before l a b ↔ l.idxOf a < l.idxOf b := by
  obtain ⟨l₁, l₂, rfl⟩ := List.append_of_mem hb
  have hb₁ : b ∉ l₁ := fun h => (List.nodup_append.1 hl).2.2 b h b (by simp) rfl
  rw [List.idxOf_append_of_notMem hb₁, List.idxOf_cons_self, Nat.add_zero]
  refine ⟨fun h => ?_, fun h => ?_⟩
  · have ha : a ∈ l₁ := by
      obtain ⟨k₁, k₂, hk, ha⟩ := h
      have hb₂ : b ∉ l₂ := (List.nodup_cons.1 (List.nodup_append.1 hl).2.1).1
      obtain ⟨rfl, -, -⟩ := (List.append_cons_inj_of_notMem hb₁ hb₂).1 hk
      exact ha
    rw [List.idxOf_append_of_mem ha]
    exact List.idxOf_lt_length_iff.2 ha
  · refine ⟨l₁, l₂, rfl, ?_⟩
    by_contra ha
    rw [List.idxOf_append_of_notMem ha] at h
    omega

/-- Of two members of a list one comes before the other. -/
theorem before_of_mem {l : List α} {a b : α} (hl : l.Nodup) (ha : a ∈ l) (hb : b ∈ l)
    (hne : a ≠ b) : Before l a b ∨ Before l b a := by
  classical
  rw [before_iff_idxOf_lt hl hb, before_iff_idxOf_lt hl ha]
  refine lt_or_gt_of_ne fun heq => hne ?_
  exact List.idxOf_inj ha |>.1 heq

theorem Before.mem_left {l : List α} {a b : α} (h : Before l a b) : a ∈ l := by
  obtain ⟨l₁, l₂, rfl, ha⟩ := h
  exact List.mem_append_left _ ha

theorem Before.mem_right {l : List α} {a b : α} (h : Before l a b) : b ∈ l := by
  obtain ⟨l₁, l₂, rfl, -⟩ := h
  simp

/-- And the other one does not. -/
theorem not_before_symm {l : List α} {a b : α} (hl : l.Nodup) (h : Before l a b) :
    ¬ Before l b a := by
  classical
  intro h'
  exact lt_asymm ((before_iff_idxOf_lt hl h.mem_right).1 h)
    ((before_iff_idxOf_lt hl h'.mem_right).1 h')

theorem Before.ne {l : List α} {a b : α} (hl : l.Nodup) (h : Before l a b) : a ≠ b := by
  rintro rfl
  exact not_before_symm hl h h

theorem rel_of_before {r : α → α → Prop} {l : List α} {a b : α} (hl : l.Pairwise r)
    (h : Before l a b) : r a b := by
  obtain ⟨l₁, l₂, rfl, ha⟩ := h
  exact (List.pairwise_append.1 hl).2.2 a ha b List.mem_cons_self

/-- What comes before an element, seen from a place where the list is split at it. -/
theorem before_append_cons_iff {l₁ l₂ : List α} {a b : α} (hl : (l₁ ++ b :: l₂).Nodup) :
    Before (l₁ ++ b :: l₂) a b ↔ a ∈ l₁ := by
  refine ⟨?_, fun ha => ⟨l₁, l₂, rfl, ha⟩⟩
  rintro ⟨k₁, k₂, hk, ha⟩
  have hb₁ : b ∉ l₁ := fun h => (List.nodup_append.1 hl).2.2 b h b (by simp) rfl
  have hb₂ : b ∉ l₂ := (List.nodup_cons.1 (List.nodup_append.1 hl).2.1).1
  obtain ⟨rfl, -, -⟩ := (List.append_cons_inj_of_notMem hb₁ hb₂).1 hk
  exact ha

theorem before_iff_sublist {l : List α} {a b : α} : Before l a b ↔ [a, b].Sublist l := by
  refine ⟨?_, fun h => ?_⟩
  · rintro ⟨l₁, l₂, rfl, ha⟩
    exact (List.singleton_sublist.2 ha).append (List.singleton_sublist.2 (by simp))
  · obtain ⟨l₁, l₂, rfl, ha, hb⟩ := List.cons_sublist_iff.1 h
    obtain ⟨k₁, k₂, rfl⟩ := List.append_of_mem (List.singleton_sublist.1 hb)
    exact ⟨l₁ ++ k₁, k₂, by simp, List.mem_append_left _ ha⟩

/-- A part of a list has its order. -/
theorem before_of_sublist {l l' : List α} {a b : α} (hl : l.Nodup) (hs : l'.Sublist l)
    (ha : a ∈ l') (hb : b ∈ l') (h : Before l a b) : Before l' a b := by
  rcases before_of_mem (hl.sublist hs) ha hb (h.ne hl) with h' | h'
  · exact h'
  · exact absurd (before_iff_sublist.2 ((before_iff_sublist.1 h').trans hs))
      (not_before_symm hl h)

/-- The order of a list to which a new element has been added. -/
theorem before_concat_iff {l : List α} {a b c : α} (hl : (l ++ [c]).Nodup) :
    Before (l ++ [c]) a b ↔ Before l a b ∨ (a ∈ l ∧ b = c) := by
  have hc : c ∉ l := fun h => (List.nodup_append.1 hl).2.2 c h c (by simp) rfl
  refine ⟨fun h => ?_, ?_⟩
  · by_cases hb : b = c
    · subst hb
      exact .inr ⟨(before_append_cons_iff hl).1 h, rfl⟩
    · have hb' : b ∈ l := by
        have := h.mem_right
        simpa [hb] using this
      have ha : a ∈ l := by
        by_contra ha
        have hac : a = c := by simpa [ha] using h.mem_left
        rw [hac] at h
        exact not_before_symm hl h (before_concat hb' c)
      exact .inl (before_of_sublist hl (List.sublist_append_left l [c]) ha hb' h)
  · rintro (h | ⟨ha, rfl⟩)
    · exact h.append _
    · exact before_concat ha b

/-! ## Loops over a list -/

/-- The last number below `n` that satisfies `p`, or zero. -/
theorem getD_find?_reverse_range (p : ℕ → Bool) (n : ℕ) :
    (∀ j < n, p j = true → j ≤ ((List.range n).reverse.find? p).getD 0) ∧
      (0 < ((List.range n).reverse.find? p).getD 0 →
        p (((List.range n).reverse.find? p).getD 0) = true) := by
  induction n with
  | zero => simp
  | succ n ih =>
    rw [List.range_succ, List.reverse_append, List.reverse_singleton, List.singleton_append,
      List.find?_cons]
    cases hp : p n with
    | true => exact ⟨fun j hj _ => Nat.le_of_lt_succ hj, fun _ => hp⟩
    | false =>
      refine ⟨fun j hj hpj => ih.1 j ?_ hpj, ih.2⟩
      rcases Nat.lt_succ_iff_lt_or_eq.1 hj with hlt | rfl
      · exact hlt
      · rw [hp] at hpj
        cases hpj

/-- A loop from the end of a list stops at the last member that satisfies `p`. -/
theorem findIdx_reverse_cases (p : α → Bool) (l : List α) :
    (l.length - l.reverse.findIdx p = 0 ∧ ∀ x ∈ l, p x = false) ∨
      ∃ l₁ a l₂, l = l₁ ++ a :: l₂ ∧ p a = true ∧ (∀ x ∈ l₂, p x = false) ∧
        l.length - l.reverse.findIdx p = l₁.length + 1 := by
  induction l using List.reverseRecOn with
  | nil => exact .inl ⟨rfl, fun x hx => absurd hx List.not_mem_nil⟩
  | append_singleton l c ih =>
    rw [List.reverse_append, List.reverse_singleton, List.singleton_append, List.findIdx_cons,
      List.length_append, List.length_singleton]
    cases hc : p c with
    | true => exact .inr ⟨l, c, [], rfl, hc, fun x hx => absurd hx List.not_mem_nil, rfl⟩
    | false =>
      rw [cond_false, Nat.add_sub_add_right]
      rcases ih with ⟨h0, hall⟩ | ⟨l₁, a, l₂, rfl, ha, hrest, hlen⟩
      · refine .inl ⟨h0, fun x hx => ?_⟩
        rcases List.mem_append.1 hx with hx | hx
        · exact hall x hx
        · rw [List.mem_singleton.1 hx, hc]
      · refine .inr ⟨l₁, a, l₂ ++ [c], by simp, ha, fun x hx => ?_, hlen⟩
        rcases List.mem_append.1 hx with hx | hx
        · exact hrest x hx
        · rw [List.mem_singleton.1 hx, hc]

/-- A loop that stops early sees nothing of elements at which it would stop, as long as it would
stop at everything after them too. -/
theorem takeWhile_filter_of_stops {l : List α} {p q : α → Bool}
    (hself : ∀ x ∈ l, q x = false → p x = false)
    (hlater : l.Pairwise fun x y => q x = false → p y = false) :
    (l.filter q).takeWhile p = l.takeWhile p := by
  induction l with
  | nil => rfl
  | cons x l ih =>
    obtain ⟨hx, hlater⟩ := List.pairwise_cons.1 hlater
    have ih := ih (fun y hy => hself y (List.mem_cons_of_mem x hy)) hlater
    cases hq : q x with
    | true =>
      rw [List.filter_cons_of_pos hq, List.takeWhile_cons, List.takeWhile_cons, ih]
    | false =>
      rw [List.filter_cons_of_neg (by simp [hq]),
        List.takeWhile_cons_of_neg (by simp [hself x List.mem_cons_self hq])]
      -- nothing that is left would be taken
      cases hrest : l.filter q with
      | nil => rfl
      | cons y rest =>
        have hy : y ∈ l := (List.mem_filter.1 (hrest ▸ List.mem_cons_self)).1
        exact List.takeWhile_cons_of_neg (by simp [hx y hy hq])

end ListOrder
