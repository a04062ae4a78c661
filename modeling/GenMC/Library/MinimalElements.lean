import Mathlib.Order.Minimal
import Mathlib.Order.Preorder.Finite
import Mathlib.Tactic

/-!
# Keeping minimal elements

`minimals le l` goes over a list and keeps some of its elements: a new element is kept unless it is
above one that was kept before, and then everything above it is dropped.

* `kept_minimals`: **what is kept in the end are the minimal elements, each once**, so that the
  order of the list makes no difference but for the order of what is kept.
* `minimals_map`: elements can be compared by anything that represents them faithfully.
-/

set_option autoImplicit false

namespace MinimalElements

section
variable {α : Type*} (le : α → α → Bool)

def addMinimal (res : List α) (x : α) : List α :=
  if res.any (le · x) then res else res.filter (fun y => !le x y) ++ [x]

def minimals (l : List α) : List α := l.foldl (addMinimal le) []

theorem mem_of_mem_addMinimal {le : α → α → Bool} {res : List α} {x y : α}
    (hy : y ∈ addMinimal le res x) : y ∈ res ∨ y = x := by
  rw [addMinimal] at hy
  split at hy
  · exact .inl hy
  · rw [List.mem_append, List.mem_singleton] at hy
    exact hy.imp_left List.mem_of_mem_filter

end

/-! ## Faithful representations -/

section
variable {α β : Type*} {le : α → α → Bool} {le' : β → β → Bool} {f : α → β}

theorem addMinimal_map {res : List α} {x : α}
    (h : ∀ y ∈ res, le' (f y) (f x) = le y x ∧ le' (f x) (f y) = le x y) :
    addMinimal le' (res.map f) (f x) = (addMinimal le res x).map f := by
  have hany : (res.map f).any (le' · (f x)) = res.any (le · x) := by
    rw [Bool.eq_iff_iff, List.any_map, List.any_eq_true, List.any_eq_true]
    exact exists_congr fun y => and_congr_right fun hy => by rw [Function.comp_apply, (h y hy).1]
  have hfilter : (res.map f).filter (fun y => !le' (f x) y) =
      (res.filter fun y => !le x y).map f := by
    rw [List.filter_map]
    refine congrArg (List.map f) (List.filter_congr fun y hy => ?_)
    rw [Function.comp_apply, (h y hy).2]
  rw [addMinimal, addMinimal, hany, hfilter]
  split
  · rfl
  · rw [List.map_append, List.map_singleton]

/-- What is kept of representations are the representations of what is kept. -/
theorem minimals_map {l : List α} (h : ∀ x ∈ l, ∀ y ∈ l, le' (f x) (f y) = le x y) :
    minimals le' (l.map f) = (minimals le l).map f := by
  have hloop : ∀ (l' res : List α), res ⊆ l → l' ⊆ l →
      (l'.map f).foldl (addMinimal le') (res.map f) = (l'.foldl (addMinimal le) res).map f := by
    intro l'
    induction l' with
    | nil => exact fun _ _ _ => rfl
    | cons x l' ih =>
      intro res hres hl'
      have hx : x ∈ l := hl' List.mem_cons_self
      rw [List.map_cons, List.foldl_cons, List.foldl_cons,
        addMinimal_map fun y hy => ⟨h y (hres hy) x hx, h x hx y (hres hy)⟩]
      refine ih _ (fun y hy => ?_) fun y hy => hl' (List.mem_cons_of_mem x hy)
      rcases mem_of_mem_addMinimal hy with hy | rfl
      · exact hres hy
      · exact hx
  exact hloop l [] (List.nil_subset l) (List.Subset.refl l)

end

/-! ## Partial orders -/

section
variable {α : Type*} [PartialOrder α] {le : α → α → Bool} {seen l res : List α} {x y : α}

/-- What is kept are the minimal elements of what was seen. -/
structure Kept (seen res : List α) : Prop where
  nodup : res.Nodup
  mem_iff : ∀ x, x ∈ res ↔ Minimal (· ∈ seen) x

/-- Below everything that was seen there is something that is kept. -/
theorem Kept.exists_le (h : Kept seen res) (hy : y ∈ seen) : ∃ x ∈ res, x ≤ y := by
  obtain ⟨x, hle, hx⟩ := (List.finite_toSet seen).exists_le_minimal hy
  exact ⟨x, (h.mem_iff x).2 hx, hle⟩

theorem minimal_concat_of_le (hx : ∃ y ∈ seen, y ≤ x) (z : α) :
    Minimal (· ∈ seen ++ [x]) z ↔ Minimal (· ∈ seen) z := by
  obtain ⟨y, hy, hyx⟩ := hx
  refine ⟨fun hz => ?_, fun hz => ?_⟩
  · have hmem : z ∈ seen := by
      rcases List.mem_append.1 hz.prop with hmem | hmem
      · exact hmem
      · obtain rfl := List.mem_singleton.1 hmem
        rwa [hz.eq_of_ge (List.mem_append_left _ hy) hyx]
    exact hz.mono (fun w hw => List.mem_append_left _ hw) hmem
  · refine ⟨List.mem_append_left _ hz.prop, fun w hw hwz => ?_⟩
    rcases List.mem_append.1 hw with hw | hw
    · exact hz.le_of_le hw hwz
    · obtain rfl := List.mem_singleton.1 hw
      exact (hz.le_of_le hy (hyx.trans hwz)).trans hyx

theorem minimal_concat_of_not_le (hx : ∀ y ∈ seen, ¬ y ≤ x) (z : α) :
    Minimal (· ∈ seen ++ [x]) z ↔ Minimal (· ∈ seen) z ∧ ¬ x ≤ z ∨ z = x := by
  refine ⟨fun hz => ?_, ?_⟩
  · by_cases hxz : x ≤ z
    · exact .inr (hz.eq_of_ge (by simp) hxz)
    · have hmem : z ∈ seen := by
        rcases List.mem_append.1 hz.prop with hmem | hmem
        · exact hmem
        · exact absurd (List.mem_singleton.1 hmem).ge hxz
      exact .inl ⟨hz.mono (fun w hw => List.mem_append_left _ hw) hmem, hxz⟩
  · rintro (⟨hz, hxz⟩ | rfl)
    · refine ⟨List.mem_append_left _ hz.prop, fun w hw hwz => ?_⟩
      rcases List.mem_append.1 hw with hw | hw
      · exact hz.le_of_le hw hwz
      · obtain rfl := List.mem_singleton.1 hw
        exact absurd hwz hxz
    · refine ⟨by simp, fun w hw hwz => ?_⟩
      rcases List.mem_append.1 hw with hw | hw
      · exact absurd hwz (hx w hw)
      · exact (List.mem_singleton.1 hw).ge

variable (hle : ∀ x y, le x y = true ↔ x ≤ y)
include hle

/-- One more element is seen. -/
theorem Kept.addMinimal (h : Kept seen res) (x : α) : Kept (seen ++ [x]) (addMinimal le res x) := by
  rw [MinimalElements.addMinimal]
  split
  · rename_i hany
    obtain ⟨y, hy, hyx⟩ := List.any_eq_true.1 hany
    refine ⟨h.nodup, fun z => ?_⟩
    rw [minimal_concat_of_le ⟨y, ((h.mem_iff y).1 hy).prop, (hle y x).1 hyx⟩, h.mem_iff]
  · rename_i hany
    have hnot : ∀ y ∈ seen, ¬ y ≤ x := by
      intro y hy hyx
      obtain ⟨w, hw, hwy⟩ := h.exists_le hy
      exact hany (List.any_eq_true.2 ⟨w, hw, (hle w x).2 (hwy.trans hyx)⟩)
    refine ⟨List.nodup_append.2 ⟨h.nodup.filter _, List.nodup_singleton x, ?_⟩, fun z => ?_⟩
    · intro y hy y' hy' heq
      obtain rfl := List.mem_singleton.1 hy'
      have hmem := (h.mem_iff y).1 (List.mem_of_mem_filter hy)
      exact hnot y hmem.prop heq.le
    · rw [minimal_concat_of_not_le hnot, List.mem_append, List.mem_singleton, List.mem_filter,
        h.mem_iff, Bool.not_eq_true', ← Bool.not_eq_true, hle]

/-- **The minimal elements are kept**, and nothing is kept twice. -/
theorem kept_minimals (l : List α) : Kept l (minimals le l) := by
  have hloop : ∀ (l seen res : List α), Kept seen res →
      Kept (seen ++ l) (l.foldl (MinimalElements.addMinimal le) res) := by
    intro l
    induction l with
    | nil =>
      intro seen res h
      rwa [List.append_nil]
    | cons x l ih =>
      intro seen res h
      have hstep := ih (seen ++ [x]) _ (h.addMinimal hle x)
      rwa [List.append_assoc] at hstep
  refine hloop l [] [] ⟨List.nodup_nil, fun x => ?_⟩
  exact iff_of_false List.not_mem_nil fun h => List.not_mem_nil h.prop

end

end MinimalElements
