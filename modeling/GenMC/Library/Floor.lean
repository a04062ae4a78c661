import Mathlib.Data.List.TakeWhile
import Mathlib.Data.Finset.Max
import Mathlib.Tactic

/-!
# The greatest key that is not above a bound

`IsFloor key s o a` says that `a` has the greatest key among the members of `s` whose key is not
above `o`.  A scan of a list that stops at the first key above `o` ends after it if the keys ascend
(`getLast?_takeWhile_eq_some_iff`).
-/

set_option autoImplicit false

namespace Floor

variable {α K : Type*} [LinearOrder K] {key : α → K} {l s : List α} {o : K} {a b : α}

/-- `a` has the greatest key of a list that is not above `o`. -/
structure IsFloor (key : α → K) (s : List α) (o : K) (a : α) : Prop where
  mem : a ∈ s
  le : key a ≤ o
  greatest : ∀ b ∈ s, key b ≤ o → key b ≤ key a

theorem IsFloor.congr (h : IsFloor key s o a) (hs : ∀ b, b ∈ s ↔ b ∈ l) : IsFloor key l o a where
  mem := (hs a).1 h.mem
  le := h.le
  greatest := fun b hb => h.greatest b ((hs b).2 hb)

/-- A member is the floor of its own key. -/
theorem isFloor_self (ha : a ∈ s) : IsFloor key s (key a) a := ⟨ha, le_rfl, fun _ _ h => h⟩

/-- There is a floor as soon as there is a key that is low enough. -/
theorem exists_isFloor (hb : b ∈ s) (hle : key b ≤ o) : ∃ a, IsFloor key s o a := by
  classical
  obtain ⟨a, ha, hmax⟩ := Finset.exists_max_image (s.toFinset.filter (key · ≤ o)) key
    ⟨b, Finset.mem_filter.2 ⟨List.mem_toFinset.2 hb, hle⟩⟩
  obtain ⟨ha, hao⟩ := Finset.mem_filter.1 ha
  exact ⟨a, List.mem_toFinset.1 ha, hao, fun c hc hco =>
    hmax c (Finset.mem_filter.2 ⟨List.mem_toFinset.2 hc, hco⟩)⟩

/-- **A scan of ascending keys finds the floor.** -/
theorem getLast?_takeWhile_eq_some_iff (hl : l.Pairwise (key · < key ·)) :
    (l.takeWhile (key · ≤ o)).getLast? = some a ↔ IsFloor key l o a := by
  induction l generalizing a with
  | nil => exact ⟨fun h => (by cases h), fun h => absurd h.mem List.not_mem_nil⟩
  | cons b l ih =>
    obtain ⟨hb, hl⟩ := List.pairwise_cons.1 hl
    by_cases hbo : key b ≤ o
    · rw [List.takeWhile_cons_of_pos (by simpa using hbo), List.getLast?_cons, Option.some.injEq]
      cases hlast : (l.takeWhile (key · ≤ o)).getLast? with
      | none =>
        -- the scan stops after `b`, and all that comes later is above the bound
        rw [List.getLast?_eq_none_iff] at hlast
        have hhigh : ∀ c ∈ l, o < key c := by
          intro c hc
          refine not_le.1 fun hco => ?_
          obtain ⟨d, hd⟩ := exists_isFloor hc hco
          rw [← ih hl, hlast] at hd
          cases hd
        rw [Option.getD_none]
        refine ⟨?_, fun h => ?_⟩
        · rintro rfl
          refine ⟨List.mem_cons_self, hbo, fun c hc hco => ?_⟩
          rcases List.mem_cons.1 hc with rfl | hc
          · exact le_rfl
          · exact absurd hco (not_le.2 (hhigh c hc))
        · rcases List.mem_cons.1 h.mem with rfl | ha
          · rfl
          · exact absurd h.le (not_le.2 (hhigh a ha))
      | some c =>
        have hc := (ih hl).1 hlast
        rw [Option.getD_some]
        refine ⟨?_, fun h => ?_⟩
        · rintro rfl
          refine ⟨List.mem_cons_of_mem _ hc.mem, hc.le, fun d hd hdo => ?_⟩
          rcases List.mem_cons.1 hd with rfl | hd
          · exact (hb c hc.mem).le
          · exact hc.greatest d hd hdo
        · rcases List.mem_cons.1 h.mem with rfl | ha
          · exact absurd (h.greatest c (List.mem_cons_of_mem _ hc.mem) hc.le)
              (not_le.2 (hb c hc.mem))
          · have hfloor : IsFloor key l o a :=
              ⟨ha, h.le, fun d hd => h.greatest d (List.mem_cons_of_mem _ hd)⟩
            rw [← ih hl, hlast] at hfloor
            exact Option.some.inj hfloor
    · rw [List.takeWhile_cons_of_neg (by simpa using hbo)]
      refine ⟨fun h => (by cases h), fun h => ?_⟩
      rcases List.mem_cons.1 h.mem with rfl | ha
      · exact absurd h.le hbo
      · exact absurd ((hb a ha).le.trans h.le) hbo

end Floor
