import Mathlib.Data.List.Range
import Mathlib.Data.Nat.Find

/-!
# The first hit of a search through a range

A loop over a range that stops at the first number with a property.

* `IsFirst` — the number it stops at; `find?_range'_eq_some_iff` ties it to the search.
* `exists_isFirst` — there is one as soon as some number has the property.
* `IsFirst.exists_le` — with more hits and a longer range, the first hit does not move up.
* `isFirst_iff_isFirst_iff` — two properties have the same first hit exactly if they agree up to and
  including the first hit of the second.
-/

namespace Ryther.Lib

/-- The first number from `lo` to `hi` with the property.
Kind: D -/
def IsFirst (lo hi : ℕ) (p : ℕ → Prop) (n : ℕ) : Prop :=
  (lo ≤ n ∧ n ≤ hi) ∧ p n ∧ ∀ m, lo ≤ m → m < n → ¬ p m

variable {lo hi hi' n : ℕ} {p q : ℕ → Prop}

/-- What a search through the range returns. Kind: L -/
theorem find?_range'_eq_some_iff {lo hi n : ℕ} {p : ℕ → Bool} :
    (List.range' lo (hi + 1 - lo)).find? p = some n ↔ IsFirst lo hi (fun n => p n = true) n := by
  rw [List.find?_range'_eq_some, List.mem_range'_1]
  unfold IsFirst
  constructor
  · rintro ⟨hp, hrange, hbefore⟩
    refine ⟨by omega, hp, fun m hlo hlt => ?_⟩
    simpa using hbefore m hlo hlt
  · rintro ⟨hrange, hp, hbefore⟩
    refine ⟨hp, by omega, fun m hlo hlt => ?_⟩
    simpa using hbefore m hlo hlt

/-- A hit has a first hit at or below it. Kind: L -/
theorem exists_isFirst (hlo : lo ≤ n) (hhi : n ≤ hi) (hp : p n) : ∃ m ≤ n, IsFirst lo hi p m := by
  classical
  have hex : ∃ m, lo ≤ m ∧ p m := ⟨n, hlo, hp⟩
  obtain ⟨hlo', hp'⟩ := Nat.find_spec hex
  have hle : Nat.find hex ≤ n := Nat.find_min' hex ⟨hlo, hp⟩
  refine ⟨Nat.find hex, hle, ⟨hlo', hle.trans hhi⟩, hp', fun m hm hlt hpm => ?_⟩
  exact Nat.find_min hex hlt ⟨hm, hpm⟩

/-- With more hits and a longer range the first hit is not later. Kind: L -/
theorem IsFirst.exists_le (h : IsFirst lo hi p n) (hhi : hi ≤ hi') (hpq : p n → q n) :
    ∃ m ≤ n, IsFirst lo hi' q m :=
  exists_isFirst h.1.1 (h.1.2.trans hhi) (hpq h.2.1)

/-- **When two properties have the same first hit**: they agree at every number before which the
second one has none. Kind: P -/
theorem isFirst_iff_isFirst_iff :
    (∀ n, IsFirst lo hi p n ↔ IsFirst lo hi q n) ↔
      ∀ n, lo ≤ n → n ≤ hi → (∀ m, lo ≤ m → m < n → ¬ q m) → (p n ↔ q n) := by
  constructor
  · intro hsame n hlo hhi hbefore
    constructor
    · intro hp
      obtain ⟨m, hle, hfirst⟩ := exists_isFirst hlo hhi hp
      have hq := (hsame m).mp hfirst
      -- a first hit below `n` would be one of `q`
      rcases Nat.lt_or_ge m n with hlt | hge
      · exact absurd hq.2.1 (hbefore m hq.1.1 hlt)
      · rw [← Nat.le_antisymm hle hge]
        exact hq.2.1
    · intro hq
      exact ((hsame n).mpr ⟨⟨hlo, hhi⟩, hq, hbefore⟩).2.1
  · intro hagree n
    constructor
    · rintro ⟨hrange, hp, hbefore⟩
      have hbefore' : ∀ m, lo ≤ m → m < n → ¬ q m := by
        intro m hlo
        induction m using Nat.strong_induction_on with
        | _ m ih =>
            intro hlt hq
            have hnone : ∀ k, lo ≤ k → k < m → ¬ q k := fun k hk hkm =>
              ih k hkm hk (hkm.trans hlt)
            have hp' := (hagree m hlo (hlt.le.trans hrange.2) hnone).mpr hq
            exact hbefore m hlo hlt hp'
      exact ⟨hrange, (hagree n hrange.1 hrange.2 hbefore').mp hp, hbefore'⟩
    · rintro ⟨hrange, hq, hbefore⟩
      refine ⟨hrange, (hagree n hrange.1 hrange.2 hbefore).mpr hq, fun m hlo hlt hp => ?_⟩
      have hnone : ∀ k, lo ≤ k → k < m → ¬ q k := fun k hk hkm => hbefore k hk (hkm.trans hlt)
      exact hbefore m hlo hlt ((hagree m hlo (hlt.le.trans hrange.2) hnone).mp hp)

end Ryther.Lib
