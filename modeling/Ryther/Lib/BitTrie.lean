import Mathlib.Data.List.Basic
import Mathlib.Tactic.Linarith
import Mathlib.Tactic.Tauto

/-!
# Canonical binary tries

Binary tries over keys that are told apart by their bits: `bit k i` is the `i`-th bit of `k`, and
two keys with the same bits below the depth bound `D` are equal.

* `Trie`, `Trie.Has t k v` (the entry `k ↦ v` is in `t`), `Trie.find` (walk down the bits).
* `Trie.Canon d t` — `t` is the trie of its entries at depth `d`: keys sit on the side of their
  bit, and a branch holds at least two entries.
* `Trie.eq_of_has_iff` — **canonical form**: two canonical tries with the same entries are equal.
* `Trie.insert` — descend, pushing a leaf down until two keys part; `Trie.insert_spec` says it
  overwrites one entry and keeps the form.
* `Trie.bottoms` — whether the descent uses up all `D` levels; `Trie.bottoms_spec` and
  `Trie.bottoms_of_twin` say which insertions do.
-/

namespace Ryther.Lib

/-- A binary trie with entries in its leaves.
Kind: D -/
inductive Trie (K V : Type*) where
  | empty
  | leaf (k : K) (v : V)
  | node (l r : Trie K V)

namespace Trie

variable {K V : Type*}

/-- The trie has the entry `k ↦ v`.
Kind: D -/
def Has : Trie K V → K → V → Prop
  | empty, _, _ => False
  | leaf k v, k', v' => k' = k ∧ v' = v
  | node l r, k', v' => Has l k' v' ∨ Has r k' v'

/-- Number of entries.
Kind: D -/
def size : Trie K V → ℕ
  | empty => 0
  | leaf _ _ => 1
  | node l r => size l + size r

/-- A branch with `x` on the side of the bit `b` and `y` on the other one.
Kind: D -/
def branch (b : Bool) (x y : Trie K V) : Trie K V := if b then node y x else node x y

/-- Entries of a branch. Kind: L -/
@[simp] theorem has_branch (b : Bool) (x y : Trie K V) (k : K) (v : V) :
    Has (branch b x y) k v ↔ Has x k v ∨ Has y k v := by
  cases b <;> simp [branch, Has, or_comm]

/-- Size of a branch. Kind: L -/
@[simp] theorem size_branch (b : Bool) (x y : Trie K V) :
    size (branch b x y) = size x + size y := by
  cases b <;> simp [branch, size, Nat.add_comm]

/-- A trie of positive size has an entry. Kind: L -/
theorem exists_has_of_size_pos : (t : Trie K V) → 0 < t.size → ∃ k v, Has t k v
  | empty, h => absurd h (by simp [size])
  | leaf k v, _ => ⟨k, v, rfl, rfl⟩
  | node l r, h => by
      simp only [size] at h
      rcases Nat.eq_zero_or_pos l.size with h0 | h0
      · obtain ⟨k, v, hk⟩ := exists_has_of_size_pos r (by omega)
        exact ⟨k, v, Or.inr hk⟩
      · obtain ⟨k, v, hk⟩ := exists_has_of_size_pos l h0
        exact ⟨k, v, Or.inl hk⟩

variable (bit : K → ℕ → Bool)

/-! ### Canonical form -/

/-- `t` is in canonical form at depth `d`.
Kind: D -/
def Canon : ℕ → Trie K V → Prop
  | _, empty => True
  | _, leaf _ _ => True
  | d, node l r =>
      (∀ k v, Has l k v → bit k d = false) ∧ (∀ k v, Has r k v → bit k d = true) ∧
        2 ≤ size l + size r ∧ Canon (d + 1) l ∧ Canon (d + 1) r

/-- A branch is canonical when its parts are. Kind: L -/
theorem canon_branch_iff {d : ℕ} {b : Bool} {x y : Trie K V} :
    Canon bit d (branch b x y) ↔
      (∀ k v, Has x k v → bit k d = b) ∧ (∀ k v, Has y k v → bit k d = !b) ∧
        2 ≤ size x + size y ∧ Canon bit (d + 1) x ∧ Canon bit (d + 1) y := by
  cases b
  · rfl
  · simp only [branch, if_true, Canon, Bool.not_true, Nat.add_comm (size y)]
    tauto

variable {bit}

/-- A canonical trie of size at least two has two different keys. Kind: L -/
theorem Canon.exists_two : {d : ℕ} → {t : Trie K V} → Canon bit d t → 2 ≤ t.size →
    ∃ k v k' v', k ≠ k' ∧ Has t k v ∧ Has t k' v'
  | _, empty, _, h => absurd h (by simp [size])
  | _, leaf _ _, _, h => absurd h (by simp [size])
  | d, node l r, hc, h => by
      obtain ⟨hl, hr, -, hcl, hcr⟩ := hc
      simp only [size] at h
      by_cases hl0 : l.size = 0
      · obtain ⟨k, v, k', v', hne, hk, hk'⟩ := hcr.exists_two (by omega)
        exact ⟨k, v, k', v', hne, Or.inr hk, Or.inr hk'⟩
      by_cases hr0 : r.size = 0
      · obtain ⟨k, v, k', v', hne, hk, hk'⟩ := hcl.exists_two (by omega)
        exact ⟨k, v, k', v', hne, Or.inl hk, Or.inl hk'⟩
      -- one entry on each side: they differ at bit `d`
      obtain ⟨k, v, hk⟩ := exists_has_of_size_pos l (by omega)
      obtain ⟨k', v', hk'⟩ := exists_has_of_size_pos r (by omega)
      refine ⟨k, v, k', v', ?_, Or.inl hk, Or.inr hk'⟩
      rintro rfl
      have h0 := hl k v hk
      rw [hr k v' hk'] at h0
      cases h0

/-- A branch of canonical tries is not a leaf in disguise. Kind: L -/
theorem Canon.not_has_iff_leaf {d : ℕ} {l r : Trie K V} (hc : Canon bit d (node l r)) (k₀ : K)
    (v₀ : V) : ¬ ∀ k v, Has (leaf k₀ v₀) k v ↔ Has (node l r) k v := by
  intro h
  obtain ⟨k, v, k', v', hne, hk, hk'⟩ := hc.exists_two hc.2.2.1
  have h1 := ((h k v).mpr hk).1
  have h2 := ((h k' v').mpr hk').1
  exact hne (h1.trans h2.symm)

/-- **Canonical form.** Canonical tries with the same entries are equal. Kind: P -/
theorem eq_of_has_iff : {d : ℕ} → (t t' : Trie K V) → Canon bit d t → Canon bit d t' →
    (∀ k v, Has t k v ↔ Has t' k v) → t = t'
  | _, empty, empty, _, _, _ => rfl
  | _, empty, leaf k v, _, _, h => ((h k v).mpr ⟨rfl, rfl⟩).elim
  | _, leaf k v, empty, _, _, h => ((h k v).mp ⟨rfl, rfl⟩).elim
  | _, empty, node l r, _, hc, h => by
      obtain ⟨k, v, hk⟩ := exists_has_of_size_pos (node l r) (Nat.lt_of_lt_of_le two_pos hc.2.2.1)
      exact ((h k v).mpr hk).elim
  | _, node l r, empty, hc, _, h => by
      obtain ⟨k, v, hk⟩ := exists_has_of_size_pos (node l r) (Nat.lt_of_lt_of_le two_pos hc.2.2.1)
      exact ((h k v).mp hk).elim
  | _, leaf k v, leaf k' v', _, _, h => by
      obtain ⟨rfl, rfl⟩ := (h k v).mp ⟨rfl, rfl⟩
      rfl
  | _, leaf k v, node l r, _, hc, h => absurd h (hc.not_has_iff_leaf k v)
  | _, node l r, leaf k v, hc, _, h =>
      absurd (fun k' v' => (h k' v').symm) (hc.not_has_iff_leaf k v)
  | d, node l r, node l' r', hc, hc', h => by
      obtain ⟨hl, hr, -, hcl, hcr⟩ := hc
      obtain ⟨hl', hr', -, hcl', hcr'⟩ := hc'
      -- an entry on one side of `t` lies on the same side of `t'`, by its bit at depth `d`
      have hL : ∀ k v, Has l k v ↔ Has l' k v := fun k v => by
        constructor
        · intro hk
          rcases (h k v).mp (Or.inl hk) with hk' | hk'
          · exact hk'
          · have := hl k v hk; rw [hr' k v hk'] at this; cases this
        · intro hk
          rcases (h k v).mpr (Or.inl hk) with hk' | hk'
          · exact hk'
          · have := hl' k v hk; rw [hr k v hk'] at this; cases this
      have hR : ∀ k v, Has r k v ↔ Has r' k v := fun k v => by
        constructor
        · intro hk
          rcases (h k v).mp (Or.inr hk) with hk' | hk'
          · have := hl' k v hk'; rw [hr k v hk] at this; cases this
          · exact hk'
        · intro hk
          rcases (h k v).mpr (Or.inr hk) with hk' | hk'
          · have := hl k v hk'; rw [hr' k v hk] at this; cases this
          · exact hk'
      rw [eq_of_has_iff l l' hcl hcl' hL, eq_of_has_iff r r' hcr hcr' hR]

/-! ### Keys below a position -/

variable (bit)

/-- `k` shares its first `d` bits with every key of `t`.
Kind: D -/
def Under (d : ℕ) (k : K) (t : Trie K V) : Prop :=
  ∀ k' v', Has t k' v' → ∀ i, i < d → bit k' i = bit k i

/-- Keys are told apart by their first `D` bits.
Kind: D -/
def Separated (D : ℕ) : Prop := ∀ k k' : K, (∀ i, i < D → bit k i = bit k' i) → k = k'

variable {bit}

/-- Descending into the side of one's own bit. Kind: L -/
theorem Under.descend {d : ℕ} {k : K} {t s : Trie K V} (h : Under bit d k t)
    (hsub : ∀ k' v', Has s k' v' → Has t k' v')
    (hside : ∀ k' v', Has s k' v' → bit k' d = bit k d) :
    Under bit (d + 1) k s := fun k' v' hk i hi => by
  rcases Nat.lt_or_eq_of_le (Nat.lt_succ_iff.mp hi) with hlt | rfl
  · exact h k' v' (hsub k' v' hk) i hlt
  · exact hside k' v' hk

/-- The right side of a branch. Kind: L -/
theorem Under.right {d : ℕ} {k : K} {l r : Trie K V} (h : Under bit d k (node l r))
    (hside : ∀ k' v', Has r k' v' → bit k' d = true) (hb : bit k d = true) :
    Under bit (d + 1) k r :=
  h.descend (fun _ _ hk => Or.inr hk) fun k' v' hk => by rw [hside k' v' hk, hb]

/-- The left side of a branch. Kind: L -/
theorem Under.left {d : ℕ} {k : K} {l r : Trie K V} (h : Under bit d k (node l r))
    (hside : ∀ k' v', Has l k' v' → bit k' d = false) (hb : bit k d = false) :
    Under bit (d + 1) k l :=
  h.descend (fun _ _ hk => Or.inl hk) fun k' v' hk => by rw [hside k' v' hk, hb]

/-- At the bottom only the key itself can be there. Kind: L -/
theorem Under.eq_of_bottom {D : ℕ} (hsep : Separated bit D) {k : K} {t : Trie K V}
    (h : Under bit D k t) {k' : K} {v' : V} (hk : Has t k' v') : k' = k :=
  hsep k' k (h k' v' hk)

/-- Keys that agree below the last bit and in it are equal. Kind: L -/
theorem Separated.eq_of_last {d : ℕ} (hsep : Separated bit (d + 1)) {k k' : K}
    (hbelow : ∀ i, i < d → bit k i = bit k' i) (hlast : bit k d = bit k' d) : k = k' := by
  refine hsep k k' fun i hi => ?_
  rcases Nat.lt_or_eq_of_le (Nat.lt_succ_iff.mp hi) with hlt | rfl
  · exact hbelow i hlt
  · exact hlast

/-- At the last level two keys are a key and its twin, which agrees with it in all bits but the last
one. Kind: L -/
theorem twin_of_last_level {d : ℕ} (hsep : Separated bit (d + 1)) {t : Trie K V} {k : K}
    (hc : Canon bit d t) (hu : Under bit d k t) (hsize : 2 ≤ t.size) :
    (∃ v, Has t k v) ∧ ∃ k' v', k' ≠ k ∧ Has t k' v' ∧ ∀ i, i + 1 < d + 1 → bit k' i = bit k i := by
  obtain ⟨k₁, v₁, k₂, v₂, hne, h₁, h₂⟩ := hc.exists_two hsize
  have hagree : ∀ k' v', Has t k' v' → ∀ i, i + 1 < d + 1 → bit k' i = bit k i :=
    fun k' v' hk' i hi => hu k' v' hk' i (Nat.lt_of_succ_lt_succ hi)
  by_cases hb₁ : bit k₁ d = bit k d
  · obtain rfl := hsep.eq_of_last (hu k₁ v₁ h₁) hb₁
    exact ⟨⟨v₁, h₁⟩, k₂, v₂, hne.symm, h₂, hagree k₂ v₂ h₂⟩
  · by_cases hb₂ : bit k₂ d = bit k d
    · obtain rfl := hsep.eq_of_last (hu k₂ v₂ h₂) hb₂
      exact ⟨⟨v₂, h₂⟩, k₁, v₁, hne, h₁, hagree k₁ v₁ h₁⟩
    · -- neither has the bit of `k`, so they have the same one
      refine absurd (hsep.eq_of_last (fun i hi => ?_) ?_) hne
      · rw [hu k₁ v₁ h₁ i hi, hu k₂ v₂ h₂ i hi]
      · rw [Bool.eq_not.mpr hb₁, Bool.eq_not.mpr hb₂]

/-- What insertion does: it overwrites one entry, keeps the form, and grows by a new key.
Kind: D -/
structure Inserted (bit : K → ℕ → Bool) (d : ℕ) (t t' : Trie K V) (k : K) (v : V) : Prop where
  has_iff : ∀ k' v', Has t' k' v' ↔ (k' = k ∧ v' = v) ∨ (k' ≠ k ∧ Has t k' v')
  canon : Canon bit d t'
  size_le : t.size ≤ t'.size
  size_lt : (∀ v', ¬ Has t k v') → t.size < t'.size

/-- A leaf replaces whatever holds at most its own key. Kind: L -/
theorem inserted_leaf {d : ℕ} {t : Trie K V} {k : K} {v : V} (honly : ∀ k' v', Has t k' v' → k' = k)
    (hsize : t.size ≤ 1) : Inserted bit d t (leaf k v) k v where
  has_iff k' v' := by
    constructor
    · exact fun h => Or.inl h
    · rintro (h | ⟨hne, h⟩)
      · exact h
      · exact absurd (honly k' v' h) hne
  canon := trivial
  size_le := hsize
  size_lt h := by
    rcases Nat.eq_zero_or_pos t.size with h0 | h0
    · simp [size, h0]
    · obtain ⟨k', v', hk⟩ := exists_has_of_size_pos t h0
      have := honly k' v' hk
      subst this
      exact absurd hk (h v')

/-- Two keys that part here. Kind: L -/
theorem inserted_part {d : ℕ} {k₀ k : K} {v₀ v : V} (hk : k₀ ≠ k) (hb : bit k₀ d ≠ bit k d) :
    Inserted bit d (leaf k₀ v₀) (branch (bit k d) (leaf k v) (leaf k₀ v₀)) k v := by
  refine ⟨fun k' v' => ?_, (canon_branch_iff bit).mpr ⟨fun k' v' h => by rw [h.1],
    fun k' v' h => ?_, by simp [size], trivial, trivial⟩, by simp [size], fun _ => by simp [size]⟩
  · simp only [has_branch, Has]
    constructor
    · rintro (h | ⟨rfl, rfl⟩)
      · exact Or.inl h
      · exact Or.inr ⟨hk, rfl, rfl⟩
    · rintro (h | ⟨-, h⟩)
      · exact Or.inl h
      · exact Or.inr h
  · rw [h.1]
    exact Bool.eq_not.mpr hb

/-- Inserting on the side of one's own bit inserts in the branch. Kind: L -/
theorem Inserted.branch {d : ℕ} {b : Bool} {x x' y : Trie K V} {k : K} {v : V} (hb : bit k d = b)
    (hx : ∀ k' v', Has x k' v' → bit k' d = b) (hy : ∀ k' v', Has y k' v' → bit k' d = !b)
    (hcy : Canon bit (d + 1) y) (hsize : 2 ≤ size x' + size y)
    (h : Inserted bit (d + 1) x x' k v) :
    Inserted bit d (branch b x y) (branch b x' y) k v where
  has_iff k' v' := by
    simp only [has_branch, h.has_iff]
    have hne : Has y k' v' → k' ≠ k := by
      rintro hk rfl
      have := hy k' v' hk
      rw [hb] at this
      cases b <;> cases this
    tauto
  canon := by
    refine (canon_branch_iff bit).mpr ⟨fun k' v' hk => ?_, hy, hsize, h.canon, hcy⟩
    rcases (h.has_iff k' v').mp hk with ⟨rfl, -⟩ | ⟨-, hk⟩
    · exact hb
    · exact hx k' v' hk
  size_le := by
    have := h.size_le
    simp only [size_branch]
    omega
  size_lt habs := by
    have := h.size_lt fun v' hk => habs v' ((has_branch b x y k v').mpr (Or.inl hk))
    simp only [size_branch]
    omega

/-- At the bottom a canonical trie has at most one entry. Kind: L -/
theorem size_le_one_of_bottom {D d : ℕ} (hsep : Separated bit D) {k : K} {t : Trie K V}
    (hc : Canon bit d t) (hu : Under bit D k t) : t.size ≤ 1 := by
  by_contra h
  obtain ⟨k₁, v₁, k₂, v₂, hne, h₁, h₂⟩ := hc.exists_two (by omega)
  exact hne ((hu.eq_of_bottom hsep h₁).trans (hu.eq_of_bottom hsep h₂).symm)

/-- There is no branch at the bottom: it would hold two keys with the same bits. Kind: L -/
theorem not_canon_node_of_bottom {D d : ℕ} (hsep : Separated bit D) {k : K} {l r : Trie K V}
    (hu : Under bit D k (node l r)) : ¬ Canon bit d (node l r) := by
  intro hc
  have hle := size_le_one_of_bottom hsep hc hu
  have hge : 2 ≤ (node l r).size := hc.2.2.1
  omega

/-! ### Lookup -/

variable [DecidableEq K] (bit)

/-- Walk down the bits of `k` from depth `d`.
Kind: D -/
def find : ℕ → Trie K V → K → Option V
  | _, empty, _ => none
  | _, leaf k' v', k => if k' = k then some v' else none
  | d, node l r, k => if bit k d then find (d + 1) r k else find (d + 1) l k

variable {bit}

/-- On canonical tries `find` decides membership. Kind: P -/
theorem find_eq_some_iff : {d : ℕ} → {t : Trie K V} → Canon bit d t → (k : K) → (v : V) →
    (find bit d t k = some v ↔ Has t k v)
  | _, empty, _, k, v => by simp [find, Has]
  | _, leaf k' v', _, k, v => by
      by_cases h : k' = k
      · subst h
        simp [find, Has, eq_comm]
      · simp [find, Has, h, Ne.symm h]
  | d, node l r, hc, k, v => by
      obtain ⟨hl, hr, -, hcl, hcr⟩ := hc
      cases hb : bit k d with
      | false =>
          simp only [find, hb, Bool.false_eq_true, if_false, Has, find_eq_some_iff hcl k v]
          refine ⟨Or.inl, fun h => h.resolve_right fun hk => ?_⟩
          have := hr k v hk
          rw [hb] at this
          cases this
      | true =>
          simp only [find, hb, if_true, Has, find_eq_some_iff hcr k v]
          refine ⟨Or.inr, fun h => h.resolve_left fun hk => ?_⟩
          have := hl k v hk
          rw [hb] at this
          cases this

/-! ### Insertion -/

variable (bit)

/-- Insert `k ↦ v` at depth `d` with `levels` levels left: an occupied leaf with another key is
pushed down until the two keys part.
Kind: D -/
def insert : ℕ → ℕ → Trie K V → K → V → Trie K V
  | 0, _, _, k, v => leaf k v
  | _ + 1, _, empty, k, v => leaf k v
  | levels + 1, d, leaf k' v', k, v =>
      if k' = k then leaf k v
      else if bit k' d = bit k d then
        branch (bit k d) (insert levels (d + 1) (leaf k' v') k v) empty
      else branch (bit k d) (leaf k v) (leaf k' v')
  | levels + 1, d, node l r, k, v =>
      if bit k d then node l (insert levels (d + 1) r k v)
      else node (insert levels (d + 1) l k v) r

/-- Whether the insertion walks down until no level is left.
Kind: D -/
def bottoms : ℕ → ℕ → Trie K V → K → Bool
  | 0, _, _, _ => true
  | _ + 1, _, empty, _ => false
  | levels + 1, d, leaf k' v', k =>
      if k' = k then false
      else if bit k' d = bit k d then bottoms levels (d + 1) (leaf k' v') k
      else false
  | levels + 1, d, node l r, k =>
      if bit k d then bottoms levels (d + 1) r k else bottoms levels (d + 1) l k

variable {bit}

/-- **Insertion overwrites one entry and keeps canonical form.** Kind: P -/
theorem insert_spec {D : ℕ} (hsep : Separated bit D) :
    (levels d : ℕ) → (t : Trie K V) → (k : K) → (v : V) → levels + d = D → Canon bit d t →
      Under bit d k t → Inserted bit d t (insert bit levels d t k v) k v
  | 0, d, t, k, v, hD, hc, hu => by
      have hd : d = D := by omega
      subst hd
      exact inserted_leaf (fun k' v' hk => hu.eq_of_bottom hsep hk)
        (size_le_one_of_bottom hsep hc hu)
  | levels + 1, d, empty, k, v, _, _, _ =>
      inserted_leaf (fun _ _ hk => hk.elim) (by simp [size])
  | levels + 1, d, leaf k₀ v₀, k, v, hD, hc, hu => by
      by_cases hk : k₀ = k
      · subst hk
        simp only [insert, if_true]
        exact inserted_leaf (fun _ _ h => h.1) le_rfl
      · simp only [insert, if_neg hk]
        by_cases hb : bit k₀ d = bit k d
        · rw [if_pos hb]
          -- same direction: the leaf goes down together with the new key
          have hside : ∀ k' v', Has (leaf k₀ v₀) k' v' → bit k' d = bit k d := fun k' v' h => by
            rw [h.1, hb]
          have ih := insert_spec hsep levels (d + 1) (leaf k₀ v₀) k v (by omega) trivial
            (hu.descend (fun _ _ h => h) hside)
          have hgrow : 1 < size (insert bit levels (d + 1) (leaf k₀ v₀) k v) :=
            ih.size_lt fun v' h => hk h.1.symm
          have h := ih.branch (y := empty) rfl hside (fun _ _ h => h.elim) trivial
            (by simp only [size]; omega)
          exact ⟨fun k' v' => by simp only [h.has_iff, has_branch]; simp [Has], h.canon,
            by simpa [size] using h.size_le, fun _ => by simpa [size] using hgrow⟩
        · rw [if_neg hb]
          exact inserted_part hk hb
  | levels + 1, d, node l r, k, v, hD, hc, hu => by
      obtain ⟨hl, hr, hsize, hcl, hcr⟩ := hc
      cases hb : bit k d with
      | true =>
          simp only [insert, hb, if_true]
          have ih := insert_spec hsep levels (d + 1) r k v (by omega) hcr
            (hu.right hr hb)
          have hle := ih.size_le
          exact ih.branch hb hr hl hcl (by omega)
      | false =>
          simp only [insert, hb, Bool.false_eq_true, if_false]
          have ih := insert_spec hsep levels (d + 1) l k v (by omega) hcl
            (hu.left hl hb)
          have hle := ih.size_le
          exact ih.branch hb hl hr hcr (by omega)

/-- **Which insertions use up all levels**: only those that overwrite a key while another key of
the trie shares all its bits but the last one. Kind: P -/
theorem bottoms_spec {D : ℕ} (hsep : Separated bit D) :
    (levels d : ℕ) → (t : Trie K V) → (k : K) → 0 < levels → levels + d = D → Canon bit d t →
      Under bit d k t → bottoms bit levels d t k = true →
      (∃ v, Has t k v) ∧
        ∃ k' v', k' ≠ k ∧ Has t k' v' ∧ ∀ i, i + 1 < D → bit k' i = bit k i
  | levels + 1, d, empty, k, _, _, _, _, h => by simp [bottoms] at h
  | levels + 1, d, leaf k₀ v₀, k, _, hD, hc, hu, h => by
      by_cases hk : k₀ = k
      · simp [bottoms, hk] at h
      · by_cases hb : bit k₀ d = bit k d
        · simp only [bottoms, if_neg hk, if_pos hb] at h
          have hu' : Under bit (d + 1) k (leaf k₀ v₀) :=
            hu.descend (fun _ _ h => h) fun k' v' h => by rw [h.1, hb]
          rcases Nat.eq_zero_or_pos levels with rfl | hpos
          · have hD' : d + 1 = D := by omega
            rw [hD'] at hu'
            exact absurd (hu'.eq_of_bottom hsep ⟨rfl, rfl⟩) hk
          · obtain ⟨⟨v, hv⟩, -⟩ := bottoms_spec hsep levels (d + 1) (leaf k₀ v₀) k hpos (by omega)
              trivial hu' h
            exact absurd hv.1.symm hk
        · simp [bottoms, hk, hb] at h
  | levels + 1, d, node l r, k, _, hD, hc, hu, h => by
      rcases Nat.eq_zero_or_pos levels with rfl | hpos
      · have hd : D = d + 1 := by omega
        subst hd
        exact twin_of_last_level hsep hc hu hc.2.2.1
      · obtain ⟨hl, hr, -, hcl, hcr⟩ := hc
        cases hb : bit k d with
        | true =>
            simp only [bottoms, hb, if_true] at h
            obtain ⟨⟨v, hv⟩, k', v', hne, hk', hag⟩ := bottoms_spec hsep levels (d + 1) r k hpos
              (by omega) hcr (hu.right hr hb) h
            exact ⟨⟨v, Or.inr hv⟩, k', v', hne, Or.inr hk', hag⟩
        | false =>
            simp only [bottoms, hb, Bool.false_eq_true, if_false] at h
            obtain ⟨⟨v, hv⟩, k', v', hne, hk', hag⟩ := bottoms_spec hsep levels (d + 1) l k hpos
              (by omega) hcl (hu.left hl hb) h
            exact ⟨⟨v, Or.inl hv⟩, k', v', hne, Or.inl hk', hag⟩

/-- Keys that agree on the first `D - 1` bits make the insertion of either go down to the bottom.
Kind: P -/
theorem bottoms_of_twin {D : ℕ} :
    (levels d : ℕ) → (t : Trie K V) → (k k' : K) → (v v' : V) → levels + d = D → Canon bit d t →
      k' ≠ k → Has t k v → Has t k' v' → (∀ i, i + 1 < D → bit k' i = bit k i) →
      bottoms bit levels d t k = true
  | 0, _, _, _, _, _, _, _, _, _, _, _, _ => rfl
  | levels + 1, d, leaf k₀ v₀, k, k', v, v', _, _, hne, hk, hk', _ =>
      absurd (hk'.1.trans hk.1.symm) hne
  | levels + 1, d, node l r, k, k', v, v', hD, hc, hne, hk, hk', hag => by
      obtain ⟨hl, hr, -, hcl, hcr⟩ := hc
      rcases Nat.eq_zero_or_pos levels with rfl | hpos
      · cases hb : bit k d <;> simp [bottoms, hb]
      · -- both keys go to the side of their common bit
        have hd := hag d (by omega)
        cases hb : bit k d with
        | true =>
            simp only [bottoms, hb, if_true]
            rw [hb] at hd
            have hside : ∀ {k₁ v₁}, Has (node l r) k₁ v₁ → bit k₁ d = true → Has r k₁ v₁ :=
              fun h h₁ => h.resolve_left fun hk₁ => by simp [hl _ _ hk₁] at h₁
            exact bottoms_of_twin levels (d + 1) r k k' v v' (by omega) hcr hne (hside hk hb)
              (hside hk' hd) hag
        | false =>
            simp only [bottoms, hb, Bool.false_eq_true, if_false]
            rw [hb] at hd
            have hside : ∀ {k₁ v₁}, Has (node l r) k₁ v₁ → bit k₁ d = false → Has l k₁ v₁ :=
              fun h h₁ => h.resolve_right fun hk₁ => by simp [hr _ _ hk₁] at h₁
            exact bottoms_of_twin levels (d + 1) l k k' v v' (by omega) hcl hne (hside hk hb)
              (hside hk' hd) hag

end Trie

end Ryther.Lib
