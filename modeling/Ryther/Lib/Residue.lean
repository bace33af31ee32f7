import Mathlib.Algebra.BigOperators.Group.List.Basic
import Mathlib.Combinatorics.Pigeonhole

/-!
# Short lists with a given residue

A sum of weights modulo `n` is already reached with fewer than `n` of them.

* `exists_sublist_sum_mod` — a sublist of length below `n` whose weights have the same sum modulo
  `n`.
-/

namespace Ryther.Lib

variable {α : Type*} (weight : α → ℕ)

/-- Where two prefixes have one residue, the part between them can be left out. Kind: L -/
theorem sum_mod_of_prefixes {n i j : ℕ} (l : List α)
    (hmod : ((l.take i).map weight).sum % n = ((l.take j).map weight).sum % n) :
    ((l.take i ++ l.drop j).map weight).sum % n = (l.map weight).sum % n := by
  have hsplit : (l.map weight).sum = ((l.take j).map weight).sum + ((l.drop j).map weight).sum := by
    rw [← List.sum_append, ← List.map_append, List.take_append_drop]
  rw [List.map_append, List.sum_append, hsplit, Nat.add_mod, hmod, ← Nat.add_mod]

/-- **A residue is reached with fewer than `n` weights.** By induction on the length: of more than
`n` prefixes two have one residue, and the part between them is left out. Kind: P -/
theorem exists_sublist_sum_mod {n : ℕ} (hn : 0 < n) (l : List α) :
    ∃ l' : List α, l'.Sublist l ∧ l'.length < n ∧
      (l'.map weight).sum % n = (l.map weight).sum % n := by
  induction hlen : l.length using Nat.strong_induction_on generalizing l with
  | _ len ih =>
      subst hlen
      rcases Nat.lt_or_ge l.length n with hshort | hlong
      · exact ⟨l, .refl l, hshort, rfl⟩
      · have hcard : (Finset.range n).card < (Finset.range (n + 1)).card := by
          rw [Finset.card_range, Finset.card_range]
          exact Nat.lt_succ_self n
        have hmaps : Set.MapsTo (fun i => ((l.take i).map weight).sum % n)
            (Finset.range (n + 1)) (Finset.range n) := fun i _ =>
          Finset.mem_coe.mpr (Finset.mem_range.mpr (Nat.mod_lt _ hn))
        obtain ⟨a, ha, b, hb, hne, hmod⟩ :=
          Finset.exists_ne_map_eq_of_card_lt_of_maps_to hcard hmaps
        obtain ⟨i, j, hij, hj, hmod⟩ : ∃ i j, i < j ∧ j ≤ l.length ∧
            ((l.take i).map weight).sum % n = ((l.take j).map weight).sum % n := by
          rw [Finset.mem_range] at ha hb
          rcases Nat.lt_or_gt_of_ne hne with hlt | hgt
          · exact ⟨a, b, hlt, by omega, hmod⟩
          · exact ⟨b, a, hgt, by omega, hmod.symm⟩
        have hsub : (l.take i ++ l.drop j).Sublist l := by
          have hdrop : (l.drop j).Sublist (l.drop i) := List.drop_sublist_drop_left l hij.le
          have happend := (List.Sublist.refl (l.take i)).append hdrop
          rwa [List.take_append_drop] at happend
        have hshorter : (l.take i ++ l.drop j).length < l.length := by
          rw [List.length_append, List.length_take, List.length_drop]
          omega
        obtain ⟨l', hsub', hlen', hsum'⟩ := ih _ hshorter _ rfl
        exact ⟨l', hsub'.trans hsub, hlen', hsum'.trans (sum_mod_of_prefixes weight l hmod)⟩

end Ryther.Lib
