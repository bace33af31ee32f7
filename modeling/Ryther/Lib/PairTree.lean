import Mathlib.Algebra.Group.Nat.Defs
import Mathlib.Data.List.Basic
import Mathlib.Data.Nat.Basic

/-!
# Trees built by pairing neighbours

A list is combined level by level: neighbours are paired, and the last element of a level of odd
length is paired with itself, until one is left.

* `pairUp`, `pairLoop` — one level and the loop, over any combining function.
* `PairTree`, `treeOf` — the tree that the loop builds; any run of the loop is an evaluation of it
  (`pairLoop_eq_map_eval`), and the run that appends lists gives its leaves, the list with its
  padding (`padded`).
* `Perfect.eq_of_leaves` — trees of this kind are determined by their leaves.
* `eval_injective` — a combining function without collisions on the pairs it is applied to, none of
  whose values is a leaf, tells trees apart.
* `pairLoop_eq_iff` — **so two lists give the same result exactly if their paddings agree.**
-/

namespace Ryther.Lib

variable {α β γ : Type}

/-! ### The loop -/

/-- One level.
Kind: D -/
def pairUp (h : β → β → β) : List β → List β
  | a :: b :: rest => h a b :: pairUp h rest
  | [a] => [h a a]
  | [] => []

/-- Levels until one element is left, at most `fuel` of them.
Kind: D -/
def pairLoop (h : β → β → β) : ℕ → List β → List β
  | 0, layer => layer
  | fuel + 1, layer => if 1 < layer.length then pairLoop h fuel (pairUp h layer) else layer

/-- A layer has half as many nodes as the one below, rounded up. Kind: L -/
theorem length_pairUp (h : β → β → β) (layer : List β) :
    (pairUp h layer).length = (layer.length + 1) / 2 := by
  fun_induction pairUp h layer with
  | case1 a b rest ih =>
      simp only [List.length_cons, ih]
      omega
  | case2 a => simp
  | case3 => simp

/-- **A level takes at most as many turns as it has elements.** Kind: P -/
theorem length_pairLoop (h : β → β → β) {fuel : ℕ} {layer : List β} (hne : layer ≠ [])
    (hfuel : layer.length ≤ fuel) : (pairLoop h fuel layer).length = 1 := by
  induction fuel generalizing layer with
  | zero => exact absurd (List.eq_nil_of_length_eq_zero (Nat.le_zero.mp hfuel)) hne
  | succ fuel ih =>
      have hpos := List.length_pos_iff.mpr hne
      have hlen := length_pairUp h layer
      unfold pairLoop
      split_ifs with hlt
      · refine ih ?_ (by omega)
        rw [← List.length_pos_iff]
        omega
      · omega

/-- A homomorphism commutes with a level. Kind: L -/
theorem pairUp_map {h : β → β → β} {k : γ → γ → γ} {f : β → γ}
    (hf : ∀ a b, f (h a b) = k (f a) (f b)) (layer : List β) :
    pairUp k (layer.map f) = (pairUp h layer).map f := by
  fun_induction pairUp h layer with
  | case1 a b rest ih => simp [pairUp, hf, ih]
  | case2 a => simp [pairUp, hf]
  | case3 => rfl

/-- A homomorphism commutes with the loop. Kind: L -/
theorem pairLoop_map {h : β → β → β} {k : γ → γ → γ} {f : β → γ}
    (hf : ∀ a b, f (h a b) = k (f a) (f b)) (fuel : ℕ) (layer : List β) :
    pairLoop k fuel (layer.map f) = (pairLoop h fuel layer).map f := by
  induction fuel generalizing layer with
  | zero => rfl
  | succ fuel ih =>
      unfold pairLoop
      rw [List.length_map, pairUp_map hf]
      split_ifs
      · exact ih _
      · rfl

/-- What a level preserves of its elements. Kind: L -/
theorem forall_mem_pairUp {h : β → β → β} {p q : β → Prop} {layer : List β}
    (hlayer : ∀ a ∈ layer, p a) (hstep : ∀ a b, p a → p b → q (h a b)) :
    ∀ a ∈ pairUp h layer, q a := by
  fun_induction pairUp h layer with
  | case1 a b rest ih =>
      simp only [List.forall_mem_cons] at hlayer ⊢
      exact ⟨hstep a b hlayer.1 hlayer.2.1, ih hlayer.2.2⟩
  | case2 a =>
      simp only [List.forall_mem_cons] at hlayer ⊢
      exact ⟨hstep a a hlayer.1 hlayer.1, fun _ h => absurd h List.not_mem_nil⟩
  | case3 => exact fun _ h => absurd h List.not_mem_nil

/-! ### Trees -/

/-- Binary trees with values at the leaves.
Kind: D -/
inductive PairTree (α : Type) where
  | leaf (a : α)
  | node (left right : PairTree α)

namespace PairTree

/-- The value at the root, where an inner node combines the values of its subtrees. Kind: D -/
def eval (h : α → α → α) : PairTree α → α
  | leaf a => a
  | node left right => h (eval h left) (eval h right)

/-- The leaves from left to right.
Kind: D -/
def leaves : PairTree α → List α
  | leaf a => [a]
  | node left right => leaves left ++ leaves right

/-- The pairs that an evaluation combines.
Kind: D -/
def pairs (h : α → α → α) : PairTree α → List (α × α)
  | leaf _ => []
  | node left right => (eval h left, eval h right) :: (pairs h left ++ pairs h right)

/-- All leaves are at depth `n`.
Kind: D -/
def Perfect : ℕ → PairTree α → Prop
  | 0, leaf _ => True
  | n + 1, node left right => Perfect n left ∧ Perfect n right
  | _, _ => False

/-- A perfect tree of height `n` has `2 ^ n` leaves. Kind: L -/
theorem Perfect.length_leaves {n : ℕ} {t : PairTree α} (h : Perfect n t) :
    t.leaves.length = 2 ^ n := by
  induction n generalizing t with
  | zero =>
      cases t with
      | leaf a => rfl
      | node left right => cases h
  | succ n ih =>
      cases t with
      | leaf a => cases h
      | node left right =>
          rw [leaves, List.length_append, ih h.1, ih h.2, Nat.pow_succ]
          omega

/-- Perfect trees of one depth are determined by their leaves. Kind: L -/
theorem Perfect.eq_of_leaves_of_depth {n : ℕ} {t t' : PairTree α} (h : Perfect n t)
    (h' : Perfect n t') (heq : t.leaves = t'.leaves) : t = t' := by
  induction n generalizing t t' with
  | zero =>
      cases t with
      | node left right => cases h
      | leaf a =>
          cases t' with
          | node left right => cases h'
          | leaf b => rw [List.singleton_inj.mp heq]
  | succ n ih =>
      cases t with
      | leaf a => cases h
      | node left right =>
          cases t' with
          | leaf b => cases h'
          | node left' right' =>
              have hlen : left.leaves.length = left'.leaves.length := by
                rw [h.1.length_leaves, h'.1.length_leaves]
              obtain ⟨hleft, hright⟩ := List.append_inj heq hlen
              rw [ih h.1 h'.1 hleft, ih h.2 h'.2 hright]

/-- **Perfect trees are determined by their leaves**: their number gives the depth. Kind: P -/
theorem Perfect.eq_of_leaves {n m : ℕ} {t t' : PairTree α} (h : Perfect n t) (h' : Perfect m t')
    (heq : t.leaves = t'.leaves) : t = t' := by
  have hlen := congrArg List.length heq
  rw [h.length_leaves, h'.length_leaves] at hlen
  obtain rfl := Nat.pow_right_injective (le_refl 2) hlen
  exact h.eq_of_leaves_of_depth h' heq

/-- **Without collisions an evaluation determines the tree.** Kind: P -/
theorem eval_injective {h : α → α → α} {combined : List (α × α)} {values : List α}
    (hinj : ∀ p ∈ combined, ∀ q ∈ combined, h p.1 p.2 = h q.1 q.2 → p = q)
    (hleaf : ∀ a ∈ values, ∀ p ∈ combined, a ≠ h p.1 p.2) (t t' : PairTree α)
    (ht : ∀ p ∈ t.pairs h, p ∈ combined) (ht' : ∀ p ∈ t'.pairs h, p ∈ combined)
    (hv : ∀ a ∈ t.leaves, a ∈ values) (hv' : ∀ a ∈ t'.leaves, a ∈ values)
    (heq : t.eval h = t'.eval h) : t = t' := by
  induction t generalizing t' with
  | leaf a =>
      cases t' with
      | leaf b => rw [show a = b from heq]
      | node left right =>
          exact absurd heq
            (hleaf a (hv a List.mem_cons_self) _ (ht' _ List.mem_cons_self))
  | node left right ihl ihr =>
      cases t' with
      | leaf b =>
          exact absurd heq.symm
            (hleaf b (hv' b List.mem_cons_self) _ (ht _ List.mem_cons_self))
      | node left' right' =>
          have hpair := hinj _ (ht _ List.mem_cons_self) _ (ht' _ List.mem_cons_self) heq
          obtain ⟨hl, hr⟩ := Prod.mk.inj hpair
          simp only [pairs, List.forall_mem_cons, List.forall_mem_append] at ht ht'
          simp only [leaves, List.forall_mem_append] at hv hv'
          rw [ihl left' ht.2.1 ht'.2.1 hv.1 hv'.1 hl, ihr right' ht.2.2 ht'.2.2 hv.2 hv'.2 hr]

end PairTree

open PairTree

/-- The tree that the loop builds, as a list of one tree; none for the empty list.
Kind: D -/
def treeOf (l : List α) : List (PairTree α) := pairLoop .node l.length (l.map .leaf)

/-- Any run of the loop evaluates the tree. Kind: P -/
theorem pairLoop_eq_map_eval (h : α → α → α) (l : List α) :
    pairLoop h l.length l = (treeOf l).map (eval h) := by
  have hleaf : (l.map PairTree.leaf).map (eval h) = l := by
    rw [List.map_map]
    exact List.map_id l
  have hmap := pairLoop_map (h := PairTree.node) (k := h) (f := eval h) (fun _ _ => rfl) l.length
    (l.map .leaf)
  rwa [hleaf] at hmap

/-- The list with the elements that the loop repeats: the run that appends.
Kind: D -/
def padded (l : List α) : List α := (pairLoop (· ++ ·) l.length (l.map fun a => [a])).flatten

/-- The padded list consists of the leaves of the tree from left to right. Kind: L -/
theorem padded_eq (l : List α) : padded l = ((treeOf l).map leaves).flatten := by
  have hleaf : (l.map PairTree.leaf).map leaves = l.map fun a => [a] := by
    rw [List.map_map]
    rfl
  have hmap := pairLoop_map (h := PairTree.node) (k := (· ++ ·)) (f := leaves (α := α))
    (fun _ _ => rfl) l.length (l.map .leaf)
  rw [hleaf] at hmap
  rw [padded, hmap]
  rfl

/-- A level that appends keeps what it had in front. Kind: L -/
theorem flatten_pairUp (layer : List (List α)) :
    ∃ repeated, (pairUp (· ++ ·) layer).flatten = layer.flatten ++ repeated := by
  fun_induction pairUp (· ++ · : List α → List α → List α) layer with
  | case1 a b rest ih =>
      obtain ⟨repeated, hrepeated⟩ := ih
      exact ⟨repeated, by simp [hrepeated]⟩
  | case2 a => exact ⟨a, by simp⟩
  | case3 => exact ⟨[], rfl⟩

/-- The padding comes after the list. Kind: P -/
theorem exists_padded_eq_append (l : List α) : ∃ repeated, padded l = l ++ repeated := by
  have hloop : ∀ (fuel : ℕ) (layer : List (List α)),
      ∃ repeated, (pairLoop (· ++ ·) fuel layer).flatten = layer.flatten ++ repeated := by
    intro fuel
    induction fuel with
    | zero => exact fun layer => ⟨[], by simp [pairLoop]⟩
    | succ fuel ih =>
        intro layer
        unfold pairLoop
        split_ifs
        · obtain ⟨repeated, hrepeated⟩ := ih (pairUp (· ++ ·) layer)
          obtain ⟨first, hfirst⟩ := flatten_pairUp layer
          exact ⟨first ++ repeated, by rw [hrepeated, hfirst, List.append_assoc]⟩
        · exact ⟨[], by simp⟩
  obtain ⟨repeated, hrepeated⟩ := hloop l.length (l.map fun a => [a])
  refine ⟨repeated, hrepeated.trans ?_⟩
  rw [← List.flatMap_def, List.flatMap_singleton']

/-- Lists of one length are determined by their paddings. Kind: L -/
theorem eq_of_padded_eq {l l' : List α} (hlen : l.length = l'.length)
    (h : padded l = padded l') : l = l' := by
  obtain ⟨repeated, hrepeated⟩ := exists_padded_eq_append l
  obtain ⟨repeated', hrepeated'⟩ := exists_padded_eq_append l'
  rw [hrepeated, hrepeated'] at h
  exact List.append_inj_left h hlen

/-! ### What the loop combines -/

/-- The pairs of one level.
Kind: D -/
def layerPairs : List β → List (β × β)
  | a :: b :: rest => (a, b) :: layerPairs rest
  | [a] => [(a, a)]
  | [] => []

/-- The pairs of all levels.
Kind: D -/
def loopPairs (h : β → β → β) : ℕ → List β → List (β × β)
  | 0, _ => []
  | fuel + 1, layer =>
      if 1 < layer.length then layerPairs layer ++ loopPairs h fuel (pairUp h layer) else []

/-- A new layer combines only the pairs of the trees below and the pairs of their values. Kind: L -/
theorem pairs_pairUp {h : α → α → α} {combined : List (α × α)} {layer : List (PairTree α)}
    (hlayer : ∀ t ∈ layer, ∀ p ∈ t.pairs h, p ∈ combined)
    (hpairs : ∀ p ∈ layerPairs (layer.map (eval h)), p ∈ combined) :
    ∀ t ∈ pairUp .node layer, ∀ p ∈ t.pairs h, p ∈ combined := by
  fun_induction pairUp PairTree.node layer with
  | case1 a b rest ih =>
      simp only [List.forall_mem_cons, List.map_cons, layerPairs] at hlayer hpairs ⊢
      refine ⟨?_, ih hlayer.2.2 hpairs.2⟩
      simp only [PairTree.pairs, List.forall_mem_cons, List.forall_mem_append]
      exact ⟨hpairs.1, hlayer.1, hlayer.2.1⟩
  | case2 a =>
      simp only [List.forall_mem_cons, List.map_cons, List.map_nil, layerPairs] at hlayer hpairs ⊢
      refine ⟨?_, fun _ h => absurd h List.not_mem_nil⟩
      simp only [PairTree.pairs, List.forall_mem_cons, List.forall_mem_append]
      exact ⟨hpairs.1, hlayer.1, hlayer.1⟩
  | case3 => exact fun _ h => absurd h List.not_mem_nil

/-- The tree combines no other pairs than the loop. Kind: L -/
theorem pairs_pairLoop {h : α → α → α} {combined : List (α × α)} (fuel : ℕ) :
    ∀ layer : List (PairTree α), (∀ t ∈ layer, ∀ p ∈ t.pairs h, p ∈ combined) →
      (∀ p ∈ loopPairs h fuel (layer.map (eval h)), p ∈ combined) →
      ∀ t ∈ pairLoop .node fuel layer, ∀ p ∈ t.pairs h, p ∈ combined := by
  induction fuel with
  | zero => exact fun _ hlayer _ => hlayer
  | succ fuel ih =>
      intro layer hlayer hpairs
      unfold pairLoop
      unfold loopPairs at hpairs
      rw [List.length_map] at hpairs
      split_ifs at hpairs ⊢ with hlt
      · rw [List.forall_mem_append, pairUp_map (h := PairTree.node) fun _ _ => rfl] at hpairs
        exact ih _ (pairs_pairUp hlayer hpairs.1) hpairs.2
      · exact hlayer

/-- The trees of a level keep their leaves among the given values, and stay perfect. Kind: L -/
theorem perfect_pairLoop (values : List α) (fuel : ℕ) :
    ∀ (n : ℕ) (layer : List (PairTree α)),
      (∀ t ∈ layer, Perfect n t ∧ ∀ a ∈ t.leaves, a ∈ values) →
      ∃ m, ∀ t ∈ pairLoop .node fuel layer, Perfect m t ∧ ∀ a ∈ t.leaves, a ∈ values := by
  induction fuel with
  | zero => exact fun n _ hlayer => ⟨n, hlayer⟩
  | succ fuel ih =>
      intro n layer hlayer
      unfold pairLoop
      split_ifs
      · refine ih (n + 1) _ (forall_mem_pairUp hlayer fun a b ha hb => ⟨⟨ha.1, hb.1⟩, ?_⟩)
        rw [leaves, List.forall_mem_append]
        exact ⟨ha.2, hb.2⟩
      · exact ⟨n, hlayer⟩

/-- The tree of a list with elements. Kind: L -/
theorem exists_treeOf {l : List α} (hne : l ≠ []) :
    ∃ t n, treeOf l = [t] ∧ Perfect n t ∧ ∀ a ∈ t.leaves, a ∈ l := by
  have hlen : (treeOf l).length = 1 :=
    length_pairLoop _ (by simpa using hne) (by simp)
  obtain ⟨t, ht⟩ := List.length_eq_one_iff.mp hlen
  obtain ⟨n, hn⟩ := perfect_pairLoop l l.length 0 (l.map PairTree.leaf) (by
    intro t ht
    obtain ⟨a, ha, rfl⟩ := List.mem_map.mp ht
    exact ⟨trivial, by simpa [leaves] using ha⟩)
  have hmem : t ∈ pairLoop PairTree.node l.length (l.map .leaf) := by
    change t ∈ treeOf l
    rw [ht]
    exact List.mem_cons_self
  exact ⟨t, n, ht, hn t hmem⟩

/-- Nothing is no tree. Kind: L -/
theorem treeOf_nil : treeOf ([] : List α) = [] := rfl

/-- Trees of lists are determined by the paddings. Kind: L -/
theorem treeOf_eq_iff_padded (l l' : List α) : treeOf l = treeOf l' ↔ padded l = padded l' := by
  constructor
  · intro heq
    rw [padded_eq, padded_eq, heq]
  · intro heq
    rw [padded_eq, padded_eq] at heq
    have hnonempty : ∀ {n : ℕ} {t : PairTree α}, Perfect n t → t.leaves ≠ [] := by
      intro n t hperfect hnil
      have hlen := hperfect.length_leaves
      rw [hnil] at hlen
      exact absurd hlen.symm (Nat.pos_iff_ne_zero.mp (Nat.two_pow_pos n))
    by_cases hl : l = []
    · by_cases hl' : l' = []
      · rw [hl, hl']
      · obtain ⟨t', n', ht', hperfect', -⟩ := exists_treeOf hl'
        rw [hl, treeOf_nil, ht'] at heq
        exact absurd (by simpa using heq.symm) (hnonempty hperfect')
    · obtain ⟨t, n, ht, hperfect, -⟩ := exists_treeOf hl
      by_cases hl' : l' = []
      · rw [hl', treeOf_nil, ht] at heq
        exact absurd (by simpa using heq) (hnonempty hperfect)
      · obtain ⟨t', n', ht', hperfect', -⟩ := exists_treeOf hl'
        rw [ht, ht'] at heq ⊢
        rw [hperfect.eq_of_leaves hperfect' (by simpa using heq)]

/-- The tree of a list combines the pairs of the loop. Kind: L -/
theorem pairs_treeOf (h : α → α → α) (l : List α) :
    ∀ t ∈ treeOf l, ∀ p ∈ t.pairs h, p ∈ loopPairs h l.length l := by
  have hleaf : (l.map PairTree.leaf).map (eval h) = l := by
    rw [List.map_map]
    exact List.map_id l
  refine pairs_pairLoop l.length _ (fun t ht => ?_) ?_
  · obtain ⟨a, -, rfl⟩ := List.mem_map.mp ht
    exact fun _ h => absurd h List.not_mem_nil
  · rw [hleaf]
    exact fun _ hp => hp

/-- The result for a list with elements: one of them, or a combined pair. Kind: P -/
theorem exists_pairLoop (h : α → α → α) {l : List α} (hne : l ≠ []) :
    ∃ r, pairLoop h l.length l = [r] ∧
      (r ∈ l ∨ ∃ p ∈ loopPairs h l.length l, r = h p.1 p.2) := by
  obtain ⟨t, n, ht, -, hv⟩ := exists_treeOf hne
  have hmem : t ∈ treeOf l := by
    rw [ht]
    exact List.mem_cons_self
  refine ⟨t.eval h, by rw [pairLoop_eq_map_eval, ht]; rfl, ?_⟩
  cases t with
  | leaf a => exact .inl (hv a List.mem_cons_self)
  | node left right =>
      exact .inr ⟨_, pairs_treeOf h l _ hmem _ List.mem_cons_self, rfl⟩

/-- **Two lists give the same result exactly if their paddings agree**, for a combining function
without collisions on the pairs the two loops combine, none of whose values is an element.
Kind: P -/
theorem pairLoop_eq_iff {h : α → α → α} {l l' : List α}
    (hinj : ∀ p ∈ loopPairs h l.length l ++ loopPairs h l'.length l',
      ∀ q ∈ loopPairs h l.length l ++ loopPairs h l'.length l', h p.1 p.2 = h q.1 q.2 → p = q)
    (hleaf : ∀ a ∈ l ++ l', ∀ p ∈ loopPairs h l.length l ++ loopPairs h l'.length l',
      a ≠ h p.1 p.2) :
    pairLoop h l.length l = pairLoop h l'.length l' ↔ padded l = padded l' := by
  rw [← treeOf_eq_iff_padded, pairLoop_eq_map_eval, pairLoop_eq_map_eval]
  constructor
  · intro heq
    by_cases hl : l = []
    · by_cases hl' : l' = []
      · rw [hl, hl']
      · obtain ⟨t', n', ht', -, -⟩ := exists_treeOf hl'
        simp [hl, treeOf_nil, ht'] at heq
    · obtain ⟨t, n, ht, -, hv⟩ := exists_treeOf hl
      by_cases hl' : l' = []
      · simp [hl', treeOf_nil, ht] at heq
      · obtain ⟨t', n', ht', -, hv'⟩ := exists_treeOf hl'
        have hp := pairs_treeOf h l t (by simp [ht])
        have hp' := pairs_treeOf h l' t' (by simp [ht'])
        rw [ht, ht'] at heq ⊢
        rw [eval_injective hinj hleaf t t' (fun p h => List.mem_append_left _ (hp p h))
          (fun p h => List.mem_append_right _ (hp' p h))
          (fun a ha => List.mem_append_left _ (hv a ha))
          (fun a ha => List.mem_append_right _ (hv' a ha)) (List.singleton_inj.mp heq)]
  · intro heq
    rw [heq]

end Ryther.Lib
