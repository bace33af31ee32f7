import Ryther.Storage.JmtMap

/-!
# Merkle proofs

Proofs of inclusion of `src/storage/jmt.rs`: the siblings of the path to a key, and the verifier
that hashes a leaf back up to the root.

* `getProof`, `JmtProof.verifyInclusion` — prover and verifier.
* `JmtProof.topNode` — the node the verifier ends with; it recurses along the siblings from the
  root's end, as the prover collects them, while the source folds from the leaf's end.
* `has_of_topNode` — a path that ends in the root of a trie is a path of the trie.
* `verifyInclusion_sound` — hence no prover can make up a proof.
* `verifyInclusion_getProof` — and the proofs of `get_proof` verify.
-/

namespace Ryther

open Lib JellyfishMerkleTree

/-- The siblings on the path of a key, and the root.
Source: `storage/jmt.rs`, `JmtProof`
Kind: D -/
structure JmtProof where
  keyHash : Bytes 32
  siblings : List (ℕ × NodeHash)
  root : NodeHash

/-! ### The prover -/

namespace JellyfishMerkleTree

/-- The siblings below `nodeHash` with `levels` levels left, the upper ones first.
Source: `storage/jmt.rs`, `JellyfishMerkleTree::collect_proof_siblings`
Kind: D -/
def collectProofSiblings (nodes : HashMap NodeHash JmtNode) (keyHash : Bytes 32) :
    ℕ → NodeHash → List (ℕ × NodeHash)
  | 0, _ => []
  | levels + 1, nodeHash =>
      let depth := 256 - (levels + 1)
      if nodeHash = emptyHash then []
      else
        match nodes.lookup nodeHash with
        | some (.internal left right) =>
            if getBit keyHash depth then
              (depth, left) :: collectProofSiblings nodes keyHash levels right
            else (depth, right) :: collectProofSiblings nodes keyHash levels left
        | _ => []

/-- The siblings on the path of a key in the present tree.
Source: `storage/jmt.rs`, `JellyfishMerkleTree::get_proof`
Kind: D -/
def getProof (sha256 : List UInt8 → Bytes 32) (tree : JellyfishMerkleTree) (key : StateKey) :
    JmtProof where
  keyHash := hashKey sha256 key
  siblings := collectProofSiblings tree.nodes (hashKey sha256 key) 256 tree.root
  root := tree.root

end JellyfishMerkleTree

/-! ### The verifier -/

namespace JmtProof

/-- The node above `current` and its sibling.
Kind: D -/
def parent (keyHash : Bytes 32) (current : NodeHash) (sibling : ℕ × NodeHash) : JmtNode :=
  if getBit keyHash sibling.1 then .internal sibling.2 current else .internal current sibling.2

section

variable (sha256 : List UInt8 → Bytes 32)

/-- One turn of the loop, from the leaf upwards; `none` is the panic of `get_bit` past the last bit.
Kind: D -/
def climbStep (keyHash : Bytes 32) (current : NodeHash) (sibling : ℕ × NodeHash) :
    Option NodeHash :=
  if sibling.1 < 256 then some ((parent keyHash current sibling).hash sha256) else none

/-- Whether the path from a leaf up over the siblings ends at the root.
Source: `storage/jmt.rs`, `JmtProof::verify_inclusion`
Kind: D -/
def verifyInclusion (p : JmtProof) (valueHash : Bytes 32) : Option Bool :=
  let leaf := JmtNode.leaf p.keyHash valueHash
  (p.siblings.reverse.foldlM (climbStep sha256 p.keyHash) (leaf.hash sha256)).map (· == p.root)

/-- The last node that verification hashes.
Kind: D -/
def topNode (keyHash valueHash : Bytes 32) : List (ℕ × NodeHash) → JmtNode
  | [] => .leaf keyHash valueHash
  | s :: rest => parent keyHash ((topNode keyHash valueHash rest).hash sha256) s

/-- All nodes that verification hashes.
Kind: D -/
def pathNodes (keyHash valueHash : Bytes 32) : List (ℕ × NodeHash) → List JmtNode
  | [] => [.leaf keyHash valueHash]
  | s :: rest => topNode sha256 keyHash valueHash (s :: rest) :: pathNodes keyHash valueHash rest

variable {sha256}

/-- The loop of the verifier ends in the hash of the top node. Kind: L -/
theorem foldlM_climbStep_eq_some_iff (keyHash valueHash : Bytes 32) (siblings : List (ℕ × NodeHash))
    (h : NodeHash) :
    siblings.reverse.foldlM (climbStep sha256 keyHash)
        ((JmtNode.leaf keyHash valueHash).hash sha256) = some h ↔
      (∀ s ∈ siblings, s.1 < 256) ∧
        (topNode sha256 keyHash valueHash siblings).hash sha256 = h := by
  induction siblings generalizing h with
  | nil => simp [topNode]
  | cons s rest ih =>
      rw [List.reverse_cons, List.foldlM_append, Option.bind_eq_bind, Option.bind_eq_some_iff]
      simp only [List.foldlM_cons, List.foldlM_nil, bind_pure, ih, List.mem_cons, forall_eq_or_imp,
        topNode, climbStep]
      constructor
      · rintro ⟨below, ⟨hrest, rfl⟩, hstep⟩
        split_ifs at hstep with hs
        exact ⟨⟨hs, hrest⟩, Option.some.inj hstep⟩
      · rintro ⟨⟨hs, hrest⟩, rfl⟩
        exact ⟨_, ⟨hrest, rfl⟩, if_pos hs⟩

/-- What the verifier accepts. Kind: L -/
theorem verifyInclusion_eq_true_iff (p : JmtProof) (valueHash : Bytes 32) :
    p.verifyInclusion sha256 valueHash = some true ↔
      (∀ s ∈ p.siblings, s.1 < 256) ∧
        (topNode sha256 p.keyHash valueHash p.siblings).hash sha256 = p.root := by
  unfold verifyInclusion
  simp only [Option.map_eq_some_iff, foldlM_climbStep_eq_some_iff, beq_iff_eq]
  constructor
  · rintro ⟨h, ⟨hdepth, rfl⟩, hroot⟩
    exact ⟨hdepth, hroot⟩
  · rintro ⟨hdepth, hroot⟩
    exact ⟨_, ⟨hdepth, rfl⟩, hroot⟩

/-- The topmost node is one of the nodes of the path. Kind: L -/
theorem topNode_mem_pathNodes (keyHash valueHash : Bytes 32) (siblings : List (ℕ × NodeHash)) :
    topNode sha256 keyHash valueHash siblings ∈ pathNodes sha256 keyHash valueHash siblings := by
  cases siblings with
  | nil => exact List.mem_singleton_self _
  | cons s rest => exact List.mem_cons_self

/-! ### Soundness -/

/-- **A path that ends in the root of a trie is a path of the trie.** The depths the prover gives
are not compared with anything: what counts is that every hash has one preimage. Kind: P -/
theorem has_of_topNode {S : JmtNode → Prop} (hS : CollisionFree sha256 S)
    {keyHash valueHash : Bytes 32} {siblings : List (ℕ × NodeHash)} {t : HashTrie}
    (hpath : ∀ n ∈ pathNodes sha256 keyHash valueHash siblings, S n)
    (htrie : ∀ n ∈ trieNodes sha256 t, S n)
    (hroot : (topNode sha256 keyHash valueHash siblings).hash sha256 = rootOf sha256 t) :
    Trie.Has t keyHash valueHash := by
  induction siblings generalizing t with
  | nil =>
      have htop : S (.leaf keyHash valueHash) := hpath _ List.mem_cons_self
      match t with
      | .empty => exact absurd hroot (hS.ne_empty _ htop)
      | .leaf k v =>
          have heq := hS.inj _ _ htop (htrie _ List.mem_cons_self) hroot
          exact JmtNode.leaf.inj heq
      | .node l r => cases hS.inj _ _ htop (htrie _ List.mem_cons_self) hroot
  | cons s rest ih =>
      have htop := hpath _ (topNode_mem_pathNodes keyHash valueHash (s :: rest))
      have hrest : ∀ n ∈ pathNodes sha256 keyHash valueHash rest, S n :=
        fun n hn => hpath n (List.mem_cons_of_mem _ hn)
      match t with
      | .empty => exact absurd hroot (hS.ne_empty _ htop)
      | .leaf k v =>
          have heq := hS.inj _ _ htop (htrie _ List.mem_cons_self) hroot
          unfold topNode parent at heq
          split_ifs at heq
      | .node l r =>
          have heq := hS.inj _ _ htop (htrie _ List.mem_cons_self) hroot
          unfold topNode parent at heq
          split_ifs at heq with hbit
          · right
            refine ih hrest (fun n hn => htrie n ?_) (JmtNode.internal.inj heq).2
            exact List.mem_cons_of_mem _ (List.mem_append_right _ hn)
          · left
            refine ih hrest (fun n hn => htrie n ?_) (JmtNode.internal.inj heq).1
            exact List.mem_cons_of_mem _ (List.mem_append_left _ hn)

/-- **Merkle proofs are sound against any prover.** A proof for the hash of `k` and the current root
that verifies for `valueHash` shows what `get` answers, whatever siblings and depths it lists.
Source: `storage/jmt.rs`, `JmtProof::verify_inclusion`
Kind: P -/
theorem verifyInclusion_sound (sha256 : List UInt8 → Bytes 32) (puts : List (StateKey × U256))
    (k : StateKey) (valueHash : Bytes 32) (p : JmtProof)
    (hinj : InjectiveOn sha256 (inputsUsed sha256 puts ++
      (pathNodes sha256 p.keyHash valueHash p.siblings).map JmtNode.data))
    (hne : ∀ n ∈ storedBy sha256 .new puts ++ pathNodes sha256 p.keyHash valueHash p.siblings,
      n.hash sha256 ≠ emptyHash)
    (hkey : p.keyHash = hashKey sha256 k) (hroot : p.root = (runPuts sha256 puts).root)
    (hverify : p.verifyInclusion sha256 valueHash = some true) :
    (runPuts sha256 puts).get sha256 k = some (some valueHash) := by
  have hS : CollisionFree sha256
      (· ∈ storedBy sha256 .new puts ++ pathNodes sha256 p.keyHash valueHash p.siblings) := by
    refine collisionFree_of_injectiveOn (hinj.mono fun x hx => ?_) hne
    rw [List.map_append, List.mem_append] at hx
    rw [inputsUsed, List.mem_append, List.mem_append]
    exact hx.imp_left .inr
  have hinv := runPuts_inv hS puts fun n hn => List.mem_append_left _ hn
  rw [verifyInclusion_eq_true_iff, hroot, hinv.root_eq] at hverify
  have hhas : Trie.Has (trieOf sha256 puts) p.keyHash valueHash :=
    has_of_topNode hS (fun n hn => List.mem_append_right _ hn) hinv.mem_trieNodes hverify.2
  rw [hkey] at hhas
  rw [hinv.get_eq, (Trie.find_eq_some_iff hinv.canon _ _).mpr hhas]

/-- The general theorem on the proof for the first of two keys. Kind: L -/
theorem verifyInclusion_sound_sample :
    (runPuts treeSha256 [(makeKey 1 100, .fromU64 42), (makeKey 2 200, .fromU64 100)]).get
      treeSha256 (makeKey 1 100) = some (some (hashValue treeSha256 (.fromU64 42))) :=
  verifyInclusion_sound treeSha256 [(makeKey 1 100, .fromU64 42), (makeKey 2 200, .fromU64 100)]
    (makeKey 1 100) (hashValue treeSha256 (.fromU64 42))
    ⟨hashKey treeSha256 (makeKey 1 100),
      [(0, emptyHash), (1, (JmtNode.leaf (hashKey treeSha256 (makeKey 2 200))
        (hashValue treeSha256 (.fromU64 100))).hash treeSha256)],
      (runPuts treeSha256 [(makeKey 1 100, .fromU64 42), (makeKey 2 200, .fromU64 100)]).root⟩
    (by decide +kernel) (by decide +kernel) rfl rfl (by decide +kernel)

/-! ### Completeness -/

/-- The siblings of a path in a held trie lead from the entry back to the root. Kind: L -/
theorem topNode_collectProofSiblings {nodes : HashMap NodeHash JmtNode} (k v : Bytes 32) :
    (levels d : ℕ) → (t : HashTrie) → levels + d = 256 → Held sha256 nodes t →
      Trie.Canon getBit d t → Trie.Under getBit d k t → Trie.find getBit d t k = some v →
      (∀ s ∈ collectProofSiblings nodes k levels (rootOf sha256 t), s.1 < 256) ∧
        (topNode sha256 k v (collectProofSiblings nodes k levels (rootOf sha256 t))).hash sha256 =
          rootOf sha256 t
  | _, _, .empty, _, _, _, _, hfind => by cases hfind
  | levels, d, .leaf k₀ v₀, _, hheld, _, _, hfind => by
      obtain ⟨hne, hlook⟩ := hheld.top_leaf
      have hnone : collectProofSiblings nodes k levels (rootOf sha256 (.leaf k₀ v₀)) = [] := by
        cases levels with
        | zero => rfl
        | succ levels => simp only [collectProofSiblings, if_neg hne, hlook]
      unfold Trie.find at hfind
      split_ifs at hfind with hk
      obtain rfl := Option.some.inj hfind
      subst hk
      rw [hnone]
      exact ⟨fun s hs => absurd hs List.not_mem_nil, rfl⟩
  | 0, d, .node l r, hD, _, hc, hu, _ => by
      have hd : d = 256 := by omega
      subst hd
      exact absurd hc (Trie.not_canon_node_of_bottom separated_getBit hu)
  | levels + 1, d, .node l r, hD, hheld, hc, hu, hfind => by
      obtain ⟨hne, hlook⟩ := hheld.top_node
      obtain ⟨hl, hr⟩ := hheld.of_node
      obtain ⟨hsl, hsr, -, hcl, hcr⟩ := hc
      have hd : 256 - (levels + 1) = d := by omega
      have hdlt : d < 256 := by omega
      unfold Trie.find at hfind
      cases hb : getBit k d with
      | true =>
          rw [if_pos hb] at hfind
          obtain ⟨hdepth, htop⟩ := topNode_collectProofSiblings k v levels (d + 1) r (by omega) hr
            hcr (hu.right hsr hb) hfind
          simp only [collectProofSiblings, if_neg hne, hlook, hd, hb, if_true, topNode, parent,
            htop, List.mem_cons, forall_eq_or_imp]
          exact ⟨⟨hdlt, hdepth⟩, rfl⟩
      | false =>
          rw [if_neg (by rw [hb]; exact Bool.false_ne_true)] at hfind
          obtain ⟨hdepth, htop⟩ := topNode_collectProofSiblings k v levels (d + 1) l (by omega) hl
            hcl (hu.left hsl hb) hfind
          simp only [collectProofSiblings, if_neg hne, hlook, hd, hb, Bool.false_eq_true, if_false,
            topNode, parent, htop, List.mem_cons, forall_eq_or_imp]
          exact ⟨⟨hdlt, hdepth⟩, rfl⟩

/-- **The proofs of `get_proof` verify** for the value that `get` answers.
Source: `storage/jmt.rs`, `JellyfishMerkleTree::get_proof`
Kind: P -/
theorem verifyInclusion_getProof (sha256 : List UInt8 → Bytes 32) (puts : List (StateKey × U256))
    (k : StateKey) (valueHash : Bytes 32) (hinj : InjectiveOn sha256 (inputsUsed sha256 puts))
    (hne : ∀ n ∈ storedBy sha256 .new puts, n.hash sha256 ≠ emptyHash)
    (hget : (runPuts sha256 puts).get sha256 k = some (some valueHash)) :
    ((runPuts sha256 puts).getProof sha256 k).verifyInclusion sha256 valueHash = some true := by
  have hS := @collisionFree_storedBy sha256 puts [] hinj hne
  have hinv := runPuts_inv hS puts fun _ hn => hn
  rw [hinv.get_eq] at hget
  rw [verifyInclusion_eq_true_iff]
  simp only [getProof, hinv.root_eq]
  exact topNode_collectProofSiblings _ valueHash 256 0 _ rfl hinv.held hinv.canon (under_zero _ _)
    (Option.some.inj hget)

/-- The general theorem on the second of two keys. Kind: L -/
theorem verifyInclusion_getProof_sample :
    ((runPuts treeSha256 [(makeKey 1 100, .fromU64 42), (makeKey 2 200, .fromU64 100)]).getProof
      treeSha256 (makeKey 2 200)).verifyInclusion treeSha256
        (hashValue treeSha256 (.fromU64 100)) = some true :=
  verifyInclusion_getProof treeSha256 [(makeKey 1 100, .fromU64 42), (makeKey 2 200, .fromU64 100)]
    (makeKey 2 200) _ (by decide +kernel) (by decide +kernel) (by decide +kernel)

end

end JmtProof

end Ryther
