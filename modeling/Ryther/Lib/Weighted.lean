import Mathlib.Algebra.BigOperators.Group.Finset.Basic
import Mathlib.Algebra.BigOperators.Intervals

/-!
# Positions among weights

Weights laid out one after the other tile the numbers below their sum, and each number belongs to
one of them.

* `pick l t` — who holds position `t`.
* `pick_eq_none_iff` — every position below the sum is held.
* `card_pick` — everybody holds as many positions as their weights sum to.
-/

namespace Ryther.Lib

variable {α : Type}

/-- The sum of the weights.
Kind: D -/
def totalWeight (l : List (α × ℕ)) : ℕ := (l.map Prod.snd).sum

/-- Who holds a position.
Kind: D -/
def pick : List (α × ℕ) → ℕ → Option α
  | [], _ => none
  | (a, w) :: l, t => if t < w then some a else pick l (t - w)

@[simp] theorem totalWeight_cons (v : α × ℕ) (l : List (α × ℕ)) :
    totalWeight (v :: l) = v.2 + totalWeight l := by
  simp [totalWeight]

/-- Every position below the sum is held, and no other. Kind: P -/
theorem pick_eq_none_iff (l : List (α × ℕ)) (t : ℕ) : pick l t = none ↔ totalWeight l ≤ t := by
  induction l generalizing t with
  | nil => simp [pick, totalWeight]
  | cons v l ih =>
      rw [pick, totalWeight_cons]
      split_ifs with hlt
      · simp only [false_iff]
        omega
      · rw [ih]
        omega

/-- What is picked is an element of the list. Kind: L -/
theorem mem_of_pick {l : List (α × ℕ)} {t : ℕ} {a : α} (h : pick l t = some a) :
    ∃ w, (a, w) ∈ l := by
  induction l generalizing t with
  | nil => cases h
  | cons v l ih =>
      rw [pick] at h
      split_ifs at h with hlt
      · obtain rfl := Option.some.inj h
        exact ⟨v.2, List.mem_cons_self⟩
      · obtain ⟨w, hw⟩ := ih h
        exact ⟨w, List.mem_cons_of_mem _ hw⟩

variable [DecidableEq α]

/-- **Everybody holds as many positions as their weights sum to.** Kind: P -/
theorem card_pick (l : List (α × ℕ)) (a : α) :
    ((Finset.range (totalWeight l)).filter fun t => pick l t = some a).card =
      totalWeight (l.filter fun v => v.1 = a) := by
  rw [Finset.card_filter]
  induction l with
  | nil => rfl
  | cons v l ih =>
      -- the first weight covers the positions below it, the rest is shifted by it
      have hfirst : ∀ t ∈ Finset.range v.2, (if pick (v :: l) t = some a then 1 else 0) =
          if v.1 = a then 1 else 0 := fun t ht => by
        rw [pick, if_pos (Finset.mem_range.mp ht)]
        simp only [Option.some.injEq]
      have hrest : ∀ t, pick (v :: l) (v.2 + t) = pick l t := fun t => by
        rw [pick, if_neg (by omega), Nat.add_sub_cancel_left]
      rw [totalWeight_cons, Finset.sum_range_add, Finset.sum_congr rfl hfirst]
      simp only [hrest, ih]
      by_cases hv : v.1 = a
      · rw [List.filter_cons_of_pos (by simpa using hv), totalWeight_cons]
        simp only [hv, if_true]
        rw [← Finset.card_eq_sum_ones, Finset.card_range]
      · rw [List.filter_cons_of_neg (by simpa using hv)]
        simp [hv]

/-- Where everybody has one weight, it is their sum. Kind: L -/
theorem totalWeight_filter_of_nodup {l : List (α × ℕ)} (hnodup : (l.map Prod.fst).Nodup) {a : α}
    {w : ℕ} (h : (a, w) ∈ l) : totalWeight (l.filter fun v => v.1 = a) = w := by
  induction l with
  | nil => cases h
  | cons v l ih =>
      obtain ⟨hnot, hnodup⟩ := List.nodup_cons.mp hnodup
      rcases List.mem_cons.mp h with rfl | h
      · have hnil : (l.filter fun v => v.1 = a) = [] := by
          refine List.filter_eq_nil_iff.mpr fun v hv => ?_
          have hne : v.1 ≠ a := fun heq => hnot (List.mem_map.mpr ⟨v, hv, heq⟩)
          simpa using hne
        rw [List.filter_cons_of_pos (by simp), hnil]
        simp [totalWeight]
      · have hne : v.1 ≠ a := fun heq => hnot (List.mem_map.mpr ⟨(a, w), h, heq.symm⟩)
        rw [List.filter_cons_of_neg (by simpa using hne), ih hnodup h]

end Ryther.Lib
