import Mathlib.Data.List.GetD
import Ryther.Lib.BitTrie
import Ryther.Storage.Jmt

/-!
# The Merkle tree refines a canonical trie

The node map of `JellyfishMerkleTree` is a content-addressed picture of a `Lib.Trie` over the bits
of the key hashes.

* `rootOf sha256 t` — the Merkle root of a trie, `trieNodes sha256 t` its nodes.
* `Held sha256 nodes t` — the node map holds every node of `t` under its hash.
* `putRecursive_eq` — on a held trie `put_recursive` is `Trie.insert`: hash, stored nodes and
  arms are functions of the trie alone.
* `TreeInv.put` — a `put` keeps the node map a faithful picture, as long as no two stored nodes
  share a hash and none hashes to the empty hash.
* `runPuts_inv` — hence so does every sequence of puts from the empty tree.
-/

namespace Ryther

open Lib JellyfishMerkleTree

/-- A trie of (key hash, value hash) entries.
Kind: D -/
abbrev HashTrie := Trie (Bytes 32) (Bytes 32)

/-! ### Bits of a key hash -/

/-- A bit of a byte, read as the source reads it. Kind: L -/
theorem shiftRight_and_one_eq (b : UInt8) {n : ℕ} (hn : n < 8) :
    ((b >>> UInt8.ofNat n) &&& 1 == 1) = b.toNat.testBit n := by
  have hmod : n % 2 ^ 8 % 8 = n := by omega
  rw [Nat.testBit_eq_decide_div_mod_eq, Bool.eq_iff_iff, beq_iff_eq, decide_eq_true_iff,
    ← UInt8.toNat_inj, UInt8.toNat_and, UInt8.toNat_shiftRight, UInt8.toNat_ofNat', hmod,
    Nat.shiftRight_eq_div_pow]
  simp [Nat.and_one_is_mod]

/-- Key hashes are told apart by their 256 bits. Kind: P -/
theorem separated_getBit : Trie.Separated getBit 256 := by
  intro k k' h
  have hbyte : ∀ j, j < 32 → k.toList.getD j 0 = k'.toList.getD j 0 := by
    intro j hj
    apply UInt8.toNat_inj.mp
    apply Nat.eq_of_testBit_eq
    intro i
    by_cases hi : i < 8
    · -- bit `i` of byte `j` is bit `8 j + (7 - i)` of the hash
      have hpos := h (8 * j + (7 - i)) (by omega)
      simp only [getBit] at hpos
      have hdiv : (8 * j + (7 - i)) / 8 = j := by omega
      have hmod : 7 - (8 * j + (7 - i)) % 8 = i := by omega
      rwa [hdiv, hmod, shiftRight_and_one_eq _ hi, shiftRight_and_one_eq _ hi] at hpos
    · have hlt : ∀ b : UInt8, b.toNat.testBit i = false := fun b =>
        Nat.testBit_lt_two_pow (lt_of_lt_of_le b.toNat_lt (Nat.pow_le_pow_right two_pos (by omega)))
      rw [hlt, hlt]
  apply Subtype.ext
  apply List.ext_getElem (by rw [k.2, k'.2])
  intro j hj hj'
  have hgetD : k.1.getD j 0 = k'.1.getD j 0 := hbyte j (by rw [← k.2]; exact hj)
  rwa [List.getD_eq_getElem _ _ hj, List.getD_eq_getElem _ _ hj'] at hgetD

/-! ### The Merkle picture of a trie -/

section Picture

variable (sha256 : List UInt8 → Bytes 32)

/-- The node at the top of a trie.
Kind: D -/
def nodeOf : HashTrie → JmtNode
  | .empty => .empty
  | .leaf k v => .leaf k v
  | .node l r => .internal ((nodeOf l).hash sha256) ((nodeOf r).hash sha256)

/-- The Merkle root of a trie.
Kind: D -/
def rootOf (t : HashTrie) : NodeHash := (nodeOf sha256 t).hash sha256

/-- All nodes of a trie.
Kind: D -/
def trieNodes : HashTrie → List JmtNode
  | .empty => []
  | .leaf k v => [.leaf k v]
  | .node l r => nodeOf sha256 (.node l r) :: (trieNodes l ++ trieNodes r)

/-- The nodes an insertion stores, in order.
Kind: D -/
def storedOf (k v : Bytes 32) : ℕ → ℕ → HashTrie → List JmtNode
  | 0, _, _ => [.leaf k v]
  | _ + 1, _, .empty => [.leaf k v]
  | levels + 1, d, .leaf k₀ v₀ =>
      if k₀ = k then [.leaf k v]
      else if getBit k₀ d = getBit k d then
        [.leaf k₀ v₀] ++ storedOf k v levels (d + 1) (.leaf k₀ v₀) ++
          [nodeOf sha256 (Trie.insert getBit (levels + 1) d (.leaf k₀ v₀) k v)]
      else [.leaf k₀ v₀, .leaf k v,
        nodeOf sha256 (Trie.insert getBit (levels + 1) d (.leaf k₀ v₀) k v)]
  | levels + 1, d, .node l r =>
      storedOf k v levels (d + 1) (if getBit k d then r else l) ++
        [nodeOf sha256 (Trie.insert getBit (levels + 1) d (.node l r) k v)]

/-- The arms an insertion takes, in order.
Kind: D -/
def armsOf (k : Bytes 32) : ℕ → ℕ → HashTrie → List PutArm
  | 0, _, _ => [.maxDepth]
  | _ + 1, _, .empty => [.emptySlot]
  | levels + 1, d, .leaf k₀ v₀ =>
      if k₀ = k then [.sameKey]
      else if getBit k₀ d = getBit k d then .sameDirection :: armsOf k levels (d + 1) (.leaf k₀ v₀)
      else [.split]
  | levels + 1, d, .node l r => .internal :: armsOf k levels (d + 1) (if getBit k d then r else l)

/-- Store nodes one after the other.
Kind: D -/
def storeAll (nodes : HashMap NodeHash JmtNode) (stored : List JmtNode) :
    HashMap NodeHash JmtNode :=
  stored.foldl (fun m n => m.insert (n.hash sha256) n) nodes

/-- The map holds every node of the trie under its hash, and none of them hashes to the empty
hash.
Kind: D -/
def Held (nodes : HashMap NodeHash JmtNode) (t : HashTrie) : Prop :=
  ∀ n ∈ trieNodes sha256 t, n.hash sha256 ≠ emptyHash ∧ nodes.lookup (n.hash sha256) = some n

variable {sha256}

/-- The arms of an insertion never miss a node. Kind: L -/
theorem unknown_notMem_armsOf (k : Bytes 32) :
    (levels d : ℕ) → (t : HashTrie) → PutArm.unknown ∉ armsOf k levels d t
  | 0, _, _ => by simp [armsOf]
  | _ + 1, _, .empty => by simp [armsOf]
  | levels + 1, d, .leaf k₀ v₀ => by
      have ih := unknown_notMem_armsOf k levels (d + 1) (.leaf k₀ v₀)
      unfold armsOf
      split_ifs <;> simp [ih]
  | levels + 1, d, .node l r => by
      have ih := unknown_notMem_armsOf k levels (d + 1) (if getBit k d then r else l)
      simp [armsOf, ih]

/-- The depth bound is reached exactly when the descent uses up its levels. Kind: L -/
theorem maxDepth_mem_armsOf (k : Bytes 32) :
    (levels d : ℕ) → (t : HashTrie) →
      (PutArm.maxDepth ∈ armsOf k levels d t ↔ Trie.bottoms getBit levels d t k = true)
  | 0, _, _ => by simp [armsOf, Trie.bottoms]
  | _ + 1, _, .empty => by simp [armsOf, Trie.bottoms]
  | levels + 1, d, .leaf k₀ v₀ => by
      have ih := maxDepth_mem_armsOf k levels (d + 1) (.leaf k₀ v₀)
      unfold armsOf Trie.bottoms
      split_ifs <;> simp [ih]
  | levels + 1, d, .node l r => by
      have ih := maxDepth_mem_armsOf k levels (d + 1) (if getBit k d then r else l)
      simp only [armsOf, List.mem_cons, reduceCtorEq, false_or, ih, Trie.bottoms]
      split_ifs <;> rfl

/-- Nodes of a branch. Kind: L -/
theorem mem_trieNodes_branch (b : Bool) (x y : HashTrie) (n : JmtNode) :
    n ∈ trieNodes sha256 (Trie.branch b x y) ↔
      n = nodeOf sha256 (Trie.branch b x y) ∨ n ∈ trieNodes sha256 x ∨ n ∈ trieNodes sha256 y := by
  cases b <;> simp [Trie.branch, trieNodes, or_comm]

/-- The nodes after an insertion are old ones or stored ones. Kind: L -/
theorem mem_trieNodes_insert (k v : Bytes 32) :
    (levels d : ℕ) → (t : HashTrie) → ∀ n ∈ trieNodes sha256 (Trie.insert getBit levels d t k v),
      n ∈ trieNodes sha256 t ∨ n ∈ storedOf sha256 k v levels d t
  | 0, _, _, _, hn => Or.inr hn
  | _ + 1, _, .empty, _, hn => Or.inr hn
  | levels + 1, d, .leaf k₀ v₀, n, hn => by
      have ih := mem_trieNodes_insert k v levels (d + 1) (.leaf k₀ v₀) n
      by_cases hk : k₀ = k
      · simp only [Trie.insert, storedOf, if_pos hk] at hn ⊢
        exact Or.inr hn
      · by_cases hb : getBit k₀ d = getBit k d
        · simp only [Trie.insert, storedOf, if_neg hk, if_pos hb, mem_trieNodes_branch,
            List.mem_append, List.mem_singleton] at hn ⊢
          rcases hn with hn | hn | hn
          · exact Or.inr (Or.inr hn)
          · exact (ih hn).imp_right fun h => Or.inl (Or.inr h)
          · cases hn
        · simp only [Trie.insert, storedOf, if_neg hk, if_neg hb, mem_trieNodes_branch, trieNodes,
            List.mem_cons, List.not_mem_nil, or_false] at hn ⊢
          grind
  | levels + 1, d, .node l r, n, hn => by
      have ihl := mem_trieNodes_insert k v levels (d + 1) l n
      have ihr := mem_trieNodes_insert k v levels (d + 1) r n
      cases h : getBit k d <;>
        simp only [Trie.insert, storedOf, h, if_true, if_false, Bool.false_eq_true, trieNodes,
          List.mem_cons, List.mem_append, List.not_mem_nil, or_false] at hn ⊢ <;>
        grind

/-- The stored nodes are nodes before or after the insertion. Kind: L -/
theorem mem_storedOf (k v : Bytes 32) :
    (levels d : ℕ) → (t : HashTrie) → ∀ n ∈ storedOf sha256 k v levels d t,
      n ∈ trieNodes sha256 t ∨ n ∈ trieNodes sha256 (Trie.insert getBit levels d t k v)
  | 0, _, _, _, hn => Or.inr hn
  | _ + 1, _, .empty, _, hn => Or.inr hn
  | levels + 1, d, .leaf k₀ v₀, n, hn => by
      have ih := mem_storedOf k v levels (d + 1) (.leaf k₀ v₀) n
      by_cases hk : k₀ = k
      · simp only [Trie.insert, storedOf, if_pos hk] at hn ⊢
        exact Or.inr hn
      · by_cases hb : getBit k₀ d = getBit k d
        · simp only [Trie.insert, storedOf, if_neg hk, if_pos hb, mem_trieNodes_branch,
            List.mem_append, List.mem_singleton] at hn ⊢
          rcases hn with (hn | hn) | hn
          · exact Or.inl (List.mem_singleton.mpr hn)
          · exact (ih hn).imp_right fun h => Or.inr (Or.inl h)
          · exact Or.inr (Or.inl hn)
        · simp only [Trie.insert, storedOf, if_neg hk, if_neg hb, mem_trieNodes_branch, trieNodes,
            List.mem_cons, List.not_mem_nil, or_false] at hn ⊢
          grind
  | levels + 1, d, .node l r, n, hn => by
      have ihl := mem_storedOf k v levels (d + 1) l n
      have ihr := mem_storedOf k v levels (d + 1) r n
      cases h : getBit k d <;>
        simp only [Trie.insert, storedOf, h, if_true, if_false, Bool.false_eq_true, trieNodes,
          List.mem_cons, List.mem_append, List.not_mem_nil, or_false] at hn ⊢ <;>
        grind

/-! ### One insertion -/

/-- Parts of a held trie are held. Kind: L -/
theorem Held.of_node {nodes : HashMap NodeHash JmtNode} {l r : HashTrie}
    (h : Held sha256 nodes (.node l r)) : Held sha256 nodes l ∧ Held sha256 nodes r :=
  ⟨fun n hn => h n (List.mem_cons_of_mem _ (List.mem_append_left _ hn)),
    fun n hn => h n (List.mem_cons_of_mem _ (List.mem_append_right _ hn))⟩

/-- The top node of a held trie. Kind: L -/
theorem Held.top_node {nodes : HashMap NodeHash JmtNode} {l r : HashTrie}
    (h : Held sha256 nodes (.node l r)) : rootOf sha256 (.node l r) ≠ emptyHash ∧
      nodes.lookup (rootOf sha256 (.node l r)) =
        some (.internal (rootOf sha256 l) (rootOf sha256 r)) :=
  h _ List.mem_cons_self

/-- The node of a held leaf. Kind: L -/
theorem Held.top_leaf {nodes : HashMap NodeHash JmtNode} {k v : Bytes 32}
    (h : Held sha256 nodes (.leaf k v)) : rootOf sha256 (.leaf k v) ≠ emptyHash ∧
      nodes.lookup (rootOf sha256 (.leaf k v)) = some (.leaf k v) :=
  h _ List.mem_cons_self

/-- Nodes are stored one after the other. Kind: L -/
theorem storeAll_append (nodes : HashMap NodeHash JmtNode) (a b : List JmtNode) :
    storeAll sha256 nodes (a ++ b) = storeAll sha256 (storeAll sha256 nodes a) b :=
  List.foldl_append

/-- Storing a leaf. Kind: L -/
theorem storeNode_leaf (nodes : HashMap NodeHash JmtNode) (arm : PutArm) (k v : Bytes 32) :
    storeNode sha256 nodes arm (.leaf k v) = ⟨rootOf sha256 (.leaf k v),
      storeAll sha256 nodes [.leaf k v], [arm], [.leaf k v]⟩ := rfl

/-- **On a held trie `put_recursive` is trie insertion**: the returned hash, the stored nodes and
the arms taken are functions of the trie. Kind: P -/
theorem putRecursive_eq (k v : Bytes 32) :
    (levels d : ℕ) → (nodes : HashMap NodeHash JmtNode) → (t : HashTrie) → levels + d = 256 →
      Held sha256 nodes t →
      putRecursive sha256 k v levels nodes (rootOf sha256 t) =
        ⟨rootOf sha256 (Trie.insert getBit levels d t k v),
          storeAll sha256 nodes (storedOf sha256 k v levels d t), armsOf k levels d t,
          storedOf sha256 k v levels d t⟩
  | 0, d, nodes, t, _, _ => by
      simp only [putRecursive, storeNode_leaf, Trie.insert, storedOf, armsOf]
  | levels + 1, d, nodes, .empty, _, _ => by
      have h0 : rootOf sha256 .empty = emptyHash := rfl
      simp only [putRecursive, h0, if_true, storeNode_leaf, Trie.insert, storedOf, armsOf]
  | levels + 1, d, nodes, .leaf k₀ v₀, hD, hheld => by
      obtain ⟨hne, hlook⟩ := hheld.top_leaf
      have hd : 256 - (levels + 1) = d := by omega
      by_cases hk : k₀ = k
      · simp only [putRecursive, if_neg hne, hlook, if_pos hk, storeNode_leaf, Trie.insert,
          storedOf, armsOf]
      · have hroot : (JmtNode.leaf k₀ v₀).hash sha256 = rootOf sha256 (.leaf k₀ v₀) := rfl
        by_cases hb : getBit k₀ d = getBit k d
        · -- the leaf is stored again before the recursive call reads it back
          have hheld' : Held sha256 (nodes.insert (rootOf sha256 (.leaf k₀ v₀)) (.leaf k₀ v₀))
              (.leaf k₀ v₀) := by
            intro n hn
            obtain rfl := List.mem_singleton.mp hn
            exact ⟨hne, AList.lookup_insert _⟩
          have ih := putRecursive_eq k v levels (d + 1) _ (.leaf k₀ v₀) (by omega) hheld'
          simp only [putRecursive, if_neg hne, hlook, if_neg hk, hd, if_pos hb, hroot, ih,
            PutResult.storeParent, Trie.insert, storedOf, armsOf, storeAll_append]
          cases getBit k d <;> rfl
        · simp only [putRecursive, if_neg hne, hlook, if_neg hk, hd, if_neg hb, Trie.insert,
            storedOf, armsOf, storeNode_leaf]
          cases getBit k d <;> rfl
  | levels + 1, d, nodes, .node l r, hD, hheld => by
      obtain ⟨hne, hlook⟩ := hheld.top_node
      obtain ⟨hl, hr⟩ := hheld.of_node
      have hd : 256 - (levels + 1) = d := by omega
      cases hb : getBit k d with
      | true =>
          have ih := putRecursive_eq k v levels (d + 1) nodes r (by omega) hr
          simp only [putRecursive, if_neg hne, hlook, hd, hb, if_true, ih, PutResult.storeParent,
            Trie.insert, storedOf, armsOf, storeAll_append]
          rfl
      | false =>
          have ih := putRecursive_eq k v levels (d + 1) nodes l (by omega) hl
          simp only [putRecursive, if_neg hne, hlook, hd, hb, Bool.false_eq_true, if_false, ih,
            PutResult.storeParent, Trie.insert, storedOf, armsOf, storeAll_append]
          rfl

/-- Lookup in a held empty trie or leaf. Kind: L -/
theorem getRecursive_leaf (k : Bytes 32) {nodes : HashMap NodeHash JmtNode} (levels d : ℕ)
    {k₀ v₀ : Bytes 32} (h : Held sha256 nodes (.leaf k₀ v₀)) :
    getRecursive nodes k levels (rootOf sha256 (.leaf k₀ v₀)) =
      some (Trie.find getBit d (.leaf k₀ v₀) k) := by
  obtain ⟨hne, hlook⟩ := h.top_leaf
  unfold getRecursive
  simp only [if_neg hne, hlook, Trie.find]

/-- **On a held trie `get_recursive` is trie lookup**, and it does not run off the key. Kind: P -/
theorem getRecursive_eq (k : Bytes 32) {nodes : HashMap NodeHash JmtNode} :
    (levels d : ℕ) → (t : HashTrie) → levels + d = 256 → Held sha256 nodes t →
      Trie.Canon getBit d t → Trie.Under getBit d k t →
      getRecursive nodes k levels (rootOf sha256 t) = some (Trie.find getBit d t k)
  | levels, d, .empty, _, _, _, _ => by
      have h0 : rootOf sha256 .empty = emptyHash := rfl
      unfold getRecursive
      simp only [h0, if_true, Trie.find]
  | levels, d, .leaf _ _, _, hheld, _, _ => getRecursive_leaf k levels d hheld
  | 0, d, .node l r, hD, _, hc, hu => by
      have hd : d = 256 := by omega
      subst hd
      exact absurd hc (Trie.not_canon_node_of_bottom separated_getBit hu)
  | levels + 1, d, .node l r, hD, hheld, hc, hu => by
      obtain ⟨hne, hlook⟩ := hheld.top_node
      obtain ⟨hl, hr⟩ := hheld.of_node
      obtain ⟨hsl, hsr, -, hcl, hcr⟩ := hc
      have hd : 256 - (levels + 1) = d := by omega
      unfold getRecursive
      simp only [if_neg hne, hlook, hd, Trie.find]
      cases hb : getBit k d with
      | true =>
          exact getRecursive_eq k levels (d + 1) r (by omega) hr hcr
            (hu.right hsr hb)
      | false =>
          exact getRecursive_eq k levels (d + 1) l (by omega) hl hcl
            (hu.left hsl hb)

/-! ### Collision-free storage -/

variable (sha256)

/-- No two nodes of `S` share a hash, and none hashes to the empty hash.
Kind: D -/
structure CollisionFree (S : JmtNode → Prop) : Prop where
  inj : ∀ m n, S m → S n → m.hash sha256 = n.hash sha256 → m = n
  ne_empty : ∀ n, S n → n.hash sha256 ≠ emptyHash

/-- The map holds nodes of `S` only, each under its hash.
Kind: D -/
def Sound (S : JmtNode → Prop) (nodes : HashMap NodeHash JmtNode) : Prop :=
  ∀ h n, nodes.lookup h = some n → S n ∧ n.hash sha256 = h

variable {sha256} {S : JmtNode → Prop}

/-- Storing a node of `S` keeps what is stored. Kind: L -/
theorem Sound.insert (hS : CollisionFree sha256 S) {nodes : HashMap NodeHash JmtNode}
    (h : Sound sha256 S nodes) {n : JmtNode} (hn : S n) :
    Sound sha256 S (nodes.insert (n.hash sha256) n) ∧
      ∀ h' m, nodes.lookup h' = some m →
        (nodes.insert (n.hash sha256) n).lookup h' = some m := by
  constructor
  · intro h' m hm
    rcases lookup_insert_cases hm with ⟨rfl, rfl⟩ | ⟨-, hm⟩
    · exact ⟨hn, rfl⟩
    · exact h h' m hm
  · intro h' m hm
    by_cases heq : h' = n.hash sha256
    · subst heq
      obtain ⟨hSm, hhash⟩ := h _ m hm
      rw [AList.lookup_insert, hS.inj m n hSm hn hhash]
    · rwa [AList.lookup_insert_ne heq]

/-- Storing nodes of `S` keeps what is stored and holds every stored node. Kind: L -/
theorem Sound.storeAll (hS : CollisionFree sha256 S) :
    (stored : List JmtNode) → {nodes : HashMap NodeHash JmtNode} → Sound sha256 S nodes →
      (∀ n ∈ stored, S n) →
      Sound sha256 S (storeAll sha256 nodes stored) ∧
        (∀ h m, nodes.lookup h = some m → (storeAll sha256 nodes stored).lookup h = some m) ∧
        ∀ n ∈ stored, (storeAll sha256 nodes stored).lookup (n.hash sha256) = some n
  | [], _, h, _ => ⟨h, fun _ _ hm => hm, fun _ hn => by cases hn⟩
  | n :: rest, nodes, h, hmem => by
      obtain ⟨h1, hkeep1⟩ := h.insert hS (hmem n List.mem_cons_self)
      obtain ⟨h2, hkeep2, hheld⟩ :=
        Sound.storeAll hS rest h1 fun m hm => hmem m (List.mem_cons_of_mem _ hm)
      refine ⟨h2, fun h' m hm => hkeep2 h' m (hkeep1 h' m hm), fun m hm => ?_⟩
      rcases List.mem_cons.mp hm with rfl | hm
      · exact hkeep2 _ _ (AList.lookup_insert _)
      · exact hheld m hm

variable (sha256 S)

/-- A tree is a faithful picture of the trie `t`.
Kind: D -/
structure TreeInv (tree : JellyfishMerkleTree) (t : HashTrie) : Prop where
  root_eq : tree.root = rootOf sha256 t
  held : Held sha256 tree.nodes t
  sound : Sound sha256 S tree.nodes
  canon : Trie.Canon getBit 0 t

/-- The trie after a `put`.
Kind: D -/
def trieStep (t : HashTrie) (p : StateKey × U256) : HashTrie :=
  Trie.insert getBit 256 0 t (hashKey sha256 p.1) (hashValue sha256 p.2)

variable {sha256 S}

/-- At depth zero every trie is below every key. Kind: L -/
theorem under_zero (k : Bytes 32) (t : HashTrie) : Trie.Under getBit 0 k t :=
  fun _ _ _ i hi => absurd hi (Nat.not_lt_zero i)

/-- The empty tree. Kind: L -/
theorem TreeInv.new : TreeInv sha256 S .new .empty where
  root_eq := rfl
  held n hn := by cases hn
  sound h n hm := by simp [JellyfishMerkleTree.new] at hm
  canon := trivial

/-- The recursive call of a `put` on a faithful tree. Kind: L -/
theorem TreeInv.putCall_eq {tree : JellyfishMerkleTree} {t : HashTrie}
    (h : TreeInv sha256 S tree t) (p : StateKey × U256) :
    tree.putCall sha256 p.1 p.2 = ⟨rootOf sha256 (trieStep sha256 t p),
      Ryther.storeAll sha256 tree.nodes
        (storedOf sha256 (hashKey sha256 p.1) (hashValue sha256 p.2) 256 0 t),
      armsOf (hashKey sha256 p.1) 256 0 t,
      storedOf sha256 (hashKey sha256 p.1) (hashValue sha256 p.2) 256 0 t⟩ := by
  unfold putCall
  rw [h.root_eq, putRecursive_eq _ _ 256 0 tree.nodes t rfl h.held]
  rfl

/-- What insertion at the root does to the entries. Kind: L -/
theorem trieStep_spec {t : HashTrie} (hc : Trie.Canon getBit 0 t) (p : StateKey × U256) :
    Trie.Inserted getBit 0 t (trieStep sha256 t p) (hashKey sha256 p.1) (hashValue sha256 p.2) :=
  Trie.insert_spec separated_getBit 256 0 t _ _ rfl hc (under_zero _ t)

/-- **A `put` that stores nodes of `S` only keeps the picture faithful.** Kind: P -/
theorem TreeInv.put (hS : CollisionFree sha256 S) {tree : JellyfishMerkleTree} {t : HashTrie}
    (h : TreeInv sha256 S tree t) (p : StateKey × U256)
    (hstored : ∀ n ∈ (tree.putCall sha256 p.1 p.2).stored, S n) :
    TreeInv sha256 S (tree.put sha256 p.1 p.2) (trieStep sha256 t p) := by
  have hcall := h.putCall_eq p
  rw [hcall] at hstored
  obtain ⟨hsound, hkeep, hheld⟩ := h.sound.storeAll hS _ hstored
  have hnodes : (tree.put sha256 p.1 p.2).nodes = Ryther.storeAll sha256 tree.nodes
      (storedOf sha256 (hashKey sha256 p.1) (hashValue sha256 p.2) 256 0 t) := by
    simp only [JellyfishMerkleTree.put, hcall]
  refine ⟨by simp only [JellyfishMerkleTree.put, hcall], fun n hn => ?_, ?_,
    (trieStep_spec h.canon p).canon⟩
  · rw [hnodes]
    rcases mem_trieNodes_insert _ _ 256 0 t n hn with hold | hnew
    · exact ⟨(h.held n hold).1, hkeep _ _ (h.held n hold).2⟩
    · exact ⟨hS.ne_empty n (hstored n hnew), hheld n hnew⟩
  · rw [hnodes]
    exact hsound

/-- **`get` on a faithful tree is lookup in the trie.** Kind: P -/
theorem TreeInv.get_eq {tree : JellyfishMerkleTree} {t : HashTrie} (h : TreeInv sha256 S tree t)
    (key : StateKey) :
    tree.get sha256 key = some (Trie.find getBit 0 t (hashKey sha256 key)) := by
  unfold JellyfishMerkleTree.get
  rw [h.root_eq]
  exact getRecursive_eq _ 256 0 t rfl h.held h.canon (under_zero _ t)

/-! ### Sequences of puts -/

variable (sha256)

/-- The tree after a sequence of puts from the empty tree.
Kind: D -/
def runPuts (puts : List (StateKey × U256)) : JellyfishMerkleTree :=
  puts.foldl (fun tree p => tree.put sha256 p.1 p.2) .new

/-- The nodes a sequence of puts stores from `tree` on.
Kind: D -/
def storedBy : JellyfishMerkleTree → List (StateKey × U256) → List JmtNode
  | _, [] => []
  | tree, p :: rest =>
      (tree.putCall sha256 p.1 p.2).stored ++ storedBy (tree.put sha256 p.1 p.2) rest

/-- The trie after a sequence of puts.
Kind: D -/
def trieOf (puts : List (StateKey × U256)) : HashTrie := puts.foldl (trieStep sha256) .empty

variable {sha256}

/-- The nodes stored by a sequence and one more put. Kind: L -/
theorem storedBy_concat (puts : List (StateKey × U256)) (p : StateKey × U256)
    (tree : JellyfishMerkleTree) :
    storedBy sha256 tree (puts ++ [p]) =
      storedBy sha256 tree puts ++
        ((puts.foldl (fun tree p => tree.put sha256 p.1 p.2) tree).putCall sha256 p.1
          p.2).stored := by
  induction puts generalizing tree with
  | nil => simp [storedBy]
  | cons q rest ih => simp [storedBy, ih]

/-- **Every sequence of puts keeps the picture faithful**, as long as the nodes it stores do not
collide. Kind: P -/
theorem runPuts_inv (hS : CollisionFree sha256 S) (puts : List (StateKey × U256))
    (hstored : ∀ n ∈ storedBy sha256 .new puts, S n) :
    TreeInv sha256 S (runPuts sha256 puts) (trieOf sha256 puts) := by
  induction puts using List.reverseRecOn with
  | nil => exact TreeInv.new
  | append_singleton puts p ih =>
      rw [storedBy_concat] at hstored
      have hinv := ih fun n hn => hstored n (List.mem_append_left _ hn)
      have hstep := hinv.put hS p fun n hn => hstored n (List.mem_append_right _ hn)
      simpa [runPuts, trieOf] using hstep

end Picture

end Ryther
