import Mathlib.Data.List.GetD
import Mathlib.Tactic.Linarith

/-!
# Binary search on a slice, read through its comparison outcomes

A comparator-driven binary search sees a slice only through the outcomes the comparator returns
on its elements, so it is modelled on the list of outcomes.

* `Partitioned l` — the outcomes of a slice sorted with respect to the sought position: a block
  of `lt`, then a block of `eq`, then a block of `gt`.
* `BinarySearch` — any search meeting the documented contract: on a partitioned slice, `ok i`
  points at some matching element and `error i` is the insertion point.
* `stdSearch` — the branch-free loop of the standard library. It satisfies the contract
  (`stdRun_ok_last`, `stdRun_error`), and among several matches it settles on the **last** one
  (`stdRun_ok_last`); on a slice given by its three blocks the index is
  `stdSearch_position`.
-/

namespace Ryther.Lib

/-! ### Partitioned outcome lists -/

/-- The position of an outcome in the order `lt`, `eq`, `gt`.
Kind: D -/
def outcomeRank : Ordering → ℕ
  | .lt => 0
  | .eq => 1
  | .gt => 2

/-- The outcomes of a sorted slice never step back in the order `lt`, `eq`, `gt`.
Kind: D -/
def Partitioned (l : List Ordering) : Prop :=
  l.Pairwise fun a b => outcomeRank a ≤ outcomeRank b

/-- Indexed form of `Partitioned`. Kind: L -/
theorem Partitioned.rank_le {l : List Ordering} (h : Partitioned l) {i j : ℕ} {a b : Ordering}
    (hij : i ≤ j) (hi : l[i]? = some a) (hj : l[j]? = some b) :
    outcomeRank a ≤ outcomeRank b := by
  rcases Nat.lt_or_eq_of_le hij with hlt | rfl
  · obtain ⟨hi', rfl⟩ := List.getElem?_eq_some_iff.mp hi
    obtain ⟨hj', rfl⟩ := List.getElem?_eq_some_iff.mp hj
    exact List.pairwise_iff_getElem.mp h i j hi' hj' hlt
  · rw [hi] at hj
    cases hj
    exact le_rfl

/-- Three blocks of outcomes are partitioned. Kind: L -/
theorem partitioned_blocks (a b c : ℕ) :
    Partitioned (List.replicate a .lt ++ List.replicate b .eq ++ List.replicate c .gt) := by
  have hblock : ∀ (n : ℕ) (o : Ordering), Partitioned (List.replicate n o) := fun n o =>
    List.pairwise_replicate.mpr (Or.inr le_rfl)
  refine List.pairwise_append.mpr ⟨List.pairwise_append.mpr ⟨hblock a _, hblock b _, ?_⟩,
    hblock c _, ?_⟩
  · intro x hx y _
    rw [List.eq_of_mem_replicate hx]
    exact Nat.zero_le _
  · intro x _ y hy
    rw [List.eq_of_mem_replicate hy]
    cases x <;> decide

/-- Reading an outcome inside the slice. Kind: L -/
theorem getElem?_of_getD_eq {l : List Ordering} {i : ℕ} {o : Ordering}
    (h : l.getD i .gt = o) (hi : i < l.length) : l[i]? = some o := by
  rw [List.getElem?_eq_getElem hi, ← h, List.getD_eq_getElem _ _ hi]

/-! ### The contract -/

/-- A binary search as its documentation promises it: on a partitioned slice, `ok i` is the index
of some matching element, and `error i` is the index at which a matching element could be
inserted while keeping the order.
Kind: D -/
structure BinarySearch where
  /-- The search, as a function of the outcomes. -/
  run : List Ordering → Except ℕ ℕ
  /-- A reported match is a match. -/
  ok_spec : ∀ {l : List Ordering} {i : ℕ}, Partitioned l → run l = .ok i → l[i]? = some .eq
  /-- A reported insertion point separates the smaller from the larger elements. -/
  error_spec : ∀ {l : List Ordering} {i : ℕ}, Partitioned l → run l = .error i →
    i ≤ l.length ∧ (∀ j, j < i → l[j]? = some .lt) ∧
      ∀ j, i ≤ j → j < l.length → l[j]? = some .gt

/-- The index at which `unwrap_or_else(|pos| pos)` inserts: the match, or the insertion point.
Kind: D -/
def BinarySearch.position (bs : BinarySearch) (l : List Ordering) : ℕ :=
  match bs.run l with
  | .ok i => i
  | .error i => i

/-! ### The loop of the standard library -/

/-- The loop `while size > 1`: halve the window, moving `base` to the middle unless the middle
element is already too large. `fuel` bounds the iterations; the window shrinks in each.
Kind: D -/
def stdLoop (l : List Ordering) : ℕ → ℕ → ℕ → ℕ
  | 0, base, _ => base
  | fuel + 1, base, size =>
      if size ≤ 1 then base
      else
        let half := size / 2
        let mid := base + half
        let base' := if l.getD mid .gt = .gt then base else mid
        stdLoop l fuel base' (size - half)

/-- `slice::binary_search_by`: run the loop from the whole slice, then inspect the element it
ends on.
Kind: D -/
def stdRun (l : List Ordering) : Except ℕ ℕ :=
  if l.length = 0 then .error 0
  else
    let base := stdLoop l l.length 0 l.length
    match l.getD base .gt with
    | .eq => .ok base
    | .lt => .error (base + 1)
    | .gt => .error base

/-- What the loop keeps: `base` is in the window, it is `0` or not too large, and everything past
the window is too large.
Kind: D -/
structure Window (l : List Ordering) (base size : ℕ) : Prop where
  pos : 0 < size
  fits : base + size ≤ l.length
  base_ok : base = 0 ∨ l.getD base .gt ≠ .gt
  beyond : ∀ j, base + size ≤ j → l.getD j .gt = .gt

/-- One iteration keeps the window. Kind: L -/
theorem Window.step {l : List Ordering} (hl : Partitioned l) {base size : ℕ}
    (h : Window l base size) (hsize : 1 < size) :
    Window l (if l.getD (base + size / 2) .gt = .gt then base else base + size / 2)
      (size - size / 2) := by
  have hfits := h.fits
  split_ifs with hmid
  · refine ⟨by omega, by omega, h.base_ok, fun j hj => ?_⟩
    -- everything from the middle on is at least as large as the middle
    by_cases hjl : j < l.length
    · have hmj := hl.rank_le (i := base + size / 2) (j := j) (a := .gt) (by omega)
        (getElem?_of_getD_eq hmid (by omega))
        (List.getElem?_eq_getElem hjl)
      rw [List.getD_eq_getElem _ _ hjl]
      cases hj' : l[j] <;> simp_all [outcomeRank]
    · exact List.getD_eq_default _ _ (by omega)
  · exact ⟨by omega, by omega, Or.inr hmid, fun j hj => h.beyond j (by omega)⟩

/-- Enough fuel takes the loop to a window of size one. Kind: L -/
theorem stdLoop_window {l : List Ordering} (hl : Partitioned l) :
    ∀ (fuel base size : ℕ), size ≤ fuel + 1 → Window l base size →
      Window l (stdLoop l fuel base size) 1
  | 0, base, size, hf, h => by
      have hs : size = 1 := by have := h.pos; omega
      simpa [stdLoop, hs] using h
  | fuel + 1, base, size, hf, h => by
      unfold stdLoop
      by_cases hs : size ≤ 1
      · have hs1 : size = 1 := by have := h.pos; omega
        simpa [hs, hs1] using h
      · rw [if_neg hs]
        exact stdLoop_window hl fuel _ _ (by omega) (h.step hl (by omega))

/-- The loop ends on a window of size one. Kind: L -/
theorem stdLoop_final {l : List Ordering} (hl : Partitioned l) (hne : l.length ≠ 0) :
    Window l (stdLoop l l.length 0 l.length) 1 :=
  stdLoop_window hl _ _ _ (by omega)
    ⟨by omega, by omega, Or.inl rfl, fun j hj => List.getD_eq_default _ _ (by omega)⟩

/-- A match found by the library search is a match, and the last one. Kind: P -/
theorem stdRun_ok_last {l : List Ordering} {i : ℕ} (hl : Partitioned l) (h : stdRun l = .ok i) :
    l[i]? = some .eq ∧ ∀ j, i < j → j < l.length → l[j]? = some .gt := by
  unfold stdRun at h
  split_ifs at h with hne
  have hw := stdLoop_final hl hne
  have hlt : stdLoop l l.length 0 l.length < l.length := by have := hw.fits; omega
  cases hb : l.getD (stdLoop l l.length 0 l.length) .gt <;> simp only [hb] at h <;> cases h
  exact ⟨getElem?_of_getD_eq hb hlt,
    fun j hj hjl => getElem?_of_getD_eq (hw.beyond j (by omega)) hjl⟩

/-- An insertion point found by the library search separates the two sides. Kind: P -/
theorem stdRun_error {l : List Ordering} {i : ℕ} (hl : Partitioned l) (h : stdRun l = .error i) :
    i ≤ l.length ∧ (∀ j, j < i → l[j]? = some .lt) ∧
      ∀ j, i ≤ j → j < l.length → l[j]? = some .gt := by
  unfold stdRun at h
  split_ifs at h with hne
  · cases h
    exact ⟨by omega, fun j hj => absurd hj (by omega), fun j _ hj => absurd hj (by omega)⟩
  · have hw := stdLoop_final hl hne
    generalize stdLoop l l.length 0 l.length = base at h hw
    have hlt : base < l.length := by have := hw.fits; omega
    cases hb : l.getD base .gt with
    | eq =>
        simp only [hb] at h
        cases h
    | lt =>
        simp only [hb] at h
        cases h
        refine ⟨by omega, fun j hj => ?_, fun j hj hjl =>
          getElem?_of_getD_eq (hw.beyond j (by omega)) hjl⟩
        have hrank := hl.rank_le (i := j) (j := base) (by omega)
          (List.getElem?_eq_getElem (by omega)) (getElem?_of_getD_eq hb hlt)
        rw [List.getElem?_eq_getElem (by omega : j < l.length)]
        cases hj' : l[j] <;> simp_all [outcomeRank]
    | gt =>
        simp only [hb] at h
        cases h
        have hb0 : i = 0 := hw.base_ok.resolve_right fun hc => hc hb
        subst hb0
        refine ⟨by omega, fun j hj => absurd hj (by omega), fun j _ hjl => ?_⟩
        rcases Nat.eq_zero_or_pos j with rfl | hj
        · exact getElem?_of_getD_eq hb hlt
        · exact getElem?_of_getD_eq (hw.beyond j (by omega)) hjl

/-- The search of the standard library, with its contract.
Kind: D -/
def stdSearch : BinarySearch where
  run := stdRun
  ok_spec hl h := (stdRun_ok_last hl h).1
  error_spec hl h := stdRun_error hl h

/-- **Where the library inserts.** On `a` larger, `b` equal and `c` smaller elements (in slice
order) the position is just before the last equal element, or after the `a` larger ones if there
is none.
Kind: P -/
theorem stdSearch_position (a b c : ℕ) :
    stdSearch.position
      (List.replicate a .lt ++ List.replicate b .eq ++ List.replicate c .gt) = a + (b - 1) := by
  set l := List.replicate a Ordering.lt ++ List.replicate b .eq ++ List.replicate c .gt with hl
  have hp : Partitioned l := partitioned_blocks a b c
  have hlen : l.length = a + b + c := by simp [hl]; omega
  have hat : ∀ j, l[j]? = if j < a then some .lt else if j < a + b then some .eq
      else if j < a + b + c then some .gt else none := by
    intro j
    simp only [hl, List.getElem?_append, List.getElem?_replicate, List.length_append,
      List.length_replicate]
    split_ifs <;> first | rfl | omega
  unfold BinarySearch.position
  cases hr : stdSearch.run l with
  | ok i =>
      obtain ⟨hi, hlast⟩ := stdRun_ok_last hp hr
      have hib : a ≤ i ∧ i < a + b := by
        rw [hat] at hi
        split_ifs at hi with h1 h2 h3 <;> first | omega | simp at hi
      by_contra hne
      have := hlast (a + (b - 1)) (by simp only at hne; omega) (by omega)
      rw [hat, if_neg (by omega), if_pos (by omega)] at this
      simp at this
  | error i =>
      obtain ⟨hi, hbelow, habove⟩ := stdRun_error hp hr
      have hb : b = 0 := by
        by_contra hb
        rcases Nat.lt_or_ge a i with h | h
        · have := hbelow a h
          rw [hat, if_neg (by omega), if_pos (by omega)] at this
          simp at this
        · have := habove a h (by omega)
          rw [hat, if_neg (by omega), if_pos (by omega)] at this
          simp at this
      subst hb
      rcases Nat.lt_trichotomy i a with h | h | h
      · have := habove i le_rfl (by omega)
        rw [hat, if_pos h] at this
        simp at this
      · simp only; omega
      · have := hbelow a h
        rw [hat, if_neg (by omega), if_neg (by omega)] at this
        split_ifs at this
        simp at this

end Ryther.Lib
