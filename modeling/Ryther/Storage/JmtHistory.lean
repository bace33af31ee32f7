import Ryther.Storage.JmtProof

/-!
# Versions of the tree

A `put` of `src/storage/jmt.rs` stores new nodes and moves the root; it removes nothing. So the
store holds the nodes of all versions of the tree, and the root of an earlier version still leads to
that version.

* `JellyfishMerkleTree.atRoot` — the tree read from another root.
* `nodes_are_versions` — the store holds the nodes of the tries of all prefixes of the puts and
  nothing else, and a put adds at most 257 nodes.
* `snapshots_readable` — from an earlier root, `get` and `get_proof` answer as they did then.

As everywhere in this part of the development, the assumption is that the inputs that were hashed do
not collide.
-/

namespace Ryther

open Lib JellyfishMerkleTree

namespace JellyfishMerkleTree

/-- The number of stored nodes, those of earlier roots included.
Source: `storage/jmt.rs`, `JellyfishMerkleTree::node_count`
Kind: D -/
def nodeCount (tree : JellyfishMerkleTree) : ℕ := tree.nodes.keys.length

/-- The tree read from another root.
Kind: D -/
def atRoot (tree : JellyfishMerkleTree) (root : NodeHash) : JellyfishMerkleTree :=
  { tree with root := root }

end JellyfishMerkleTree

section History

variable {sha256 : List UInt8 → Bytes 32} {S : JmtNode → Prop}

/-! ### What a put stores -/

/-- A node of the store after some insertions was there or was stored. Kind: L -/
theorem lookup_storeAll_cases {h : NodeHash} {n : JmtNode} :
    (stored : List JmtNode) → {nodes : HashMap NodeHash JmtNode} →
      (storeAll sha256 nodes stored).lookup h = some n →
      nodes.lookup h = some n ∨ n ∈ stored
  | [], _, hlook => .inl hlook
  | m :: stored, nodes, hlook => by
      rcases lookup_storeAll_cases stored hlook with hbefore | hmem
      · by_cases hh : h = m.hash sha256
        · subst hh
          rw [AList.lookup_insert] at hbefore
          cases hbefore
          exact .inr List.mem_cons_self
        · rw [AList.lookup_insert_ne hh] at hbefore
          exact .inl hbefore
      · exact .inr (List.mem_cons_of_mem _ hmem)

/-- An insertion stores nodes of the trie it works on, and at most one new node for each level and a
leaf. By recursion as in `storedOf`. Kind: L -/
theorem exists_new_storedOf (k v : Bytes 32) :
    (levels d : ℕ) → (t : HashTrie) → ∃ new : List JmtNode, new.length ≤ levels + 1 ∧
      ∀ n ∈ storedOf sha256 k v levels d t, n ∈ trieNodes sha256 t ∨ n ∈ new
  | 0, _, _ => ⟨[.leaf k v], Nat.le_refl _, fun _ hn => .inr hn⟩
  | levels + 1, _, .empty => ⟨[.leaf k v], by simp, fun _ hn => .inr hn⟩
  | levels + 1, d, .leaf k₀ v₀ => by
      by_cases hk : k₀ = k
      · refine ⟨[.leaf k v], by simp, fun n hn => .inr ?_⟩
        rwa [storedOf, if_pos hk] at hn
      · by_cases hb : getBit k₀ d = getBit k d
        · obtain ⟨new, hlength, hnew⟩ := exists_new_storedOf k v levels (d + 1) (.leaf k₀ v₀)
          refine ⟨new ++ [nodeOf sha256 (Trie.insert getBit (levels + 1) d (.leaf k₀ v₀) k v)],
            ?_, fun n hn => ?_⟩
          · rw [List.length_append, List.length_singleton]
            omega
          · rw [storedOf, if_neg hk, if_pos hb, List.mem_append, List.mem_append] at hn
            rw [List.mem_append, ← or_assoc]
            rcases hn with (hold | hbelow) | hparent
            · exact .inl (.inl hold)
            · exact .inl (hnew n hbelow)
            · exact .inr hparent
        · refine ⟨[.leaf k v, nodeOf sha256 (Trie.insert getBit (levels + 1) d (.leaf k₀ v₀) k v)],
            by simp, fun n hn => ?_⟩
          rw [storedOf, if_neg hk, if_neg hb, List.mem_cons] at hn
          exact hn.imp_left List.mem_singleton.mpr
  | levels + 1, d, .node l r => by
      obtain ⟨new, hlength, hnew⟩ :=
        exists_new_storedOf k v levels (d + 1) (if getBit k d then r else l)
      refine ⟨new ++ [nodeOf sha256 (Trie.insert getBit (levels + 1) d (.node l r) k v)], ?_,
        fun n hn => ?_⟩
      · rw [List.length_append, List.length_singleton]
        omega
      · rw [storedOf, List.mem_append] at hn
        rw [List.mem_append, ← or_assoc]
        rcases hn with hbelow | hparent
        · refine .inl ((hnew n hbelow).imp_left fun hold => List.mem_cons_of_mem _ ?_)
          split_ifs at hold
          · exact List.mem_append_right _ hold
          · exact List.mem_append_left _ hold
        · exact .inr hparent

/-- The keys of the store after some insertions are old ones or hashes of stored nodes. Kind: L -/
theorem mem_keys_storeAll {h : NodeHash} :
    (stored : List JmtNode) → {nodes : HashMap NodeHash JmtNode} →
      h ∈ (storeAll sha256 nodes stored).keys → h ∈ nodes.keys ∨ ∃ n ∈ stored, n.hash sha256 = h
  | [], _, hmem => .inl hmem
  | m :: stored, nodes, hmem => by
      rcases mem_keys_storeAll stored hmem with hbefore | ⟨n, hn, hhash⟩
      · rcases (AList.mem_insert _).mp hbefore with heq | hold
        · exact .inr ⟨m, List.mem_cons_self, heq.symm⟩
        · exact .inl hold
      · exact .inr ⟨n, List.mem_cons_of_mem _ hn, hhash⟩

/-- **A put adds at most 257 nodes.** Kind: L -/
theorem nodeCount_put {tree : JellyfishMerkleTree} {t : HashTrie} (h : TreeInv sha256 S tree t)
    (p : StateKey × U256) :
    (tree.put sha256 p.1 p.2).nodeCount ≤ tree.nodeCount + 257 := by
  obtain ⟨new, hlength, hnew⟩ :=
    @exists_new_storedOf sha256 (hashKey sha256 p.1) (hashValue sha256 p.2) 256 0 t
  have hsub : (tree.put sha256 p.1 p.2).nodes.keys ⊆
      tree.nodes.keys ++ new.map (JmtNode.hash sha256) := by
    intro hash hmem
    have hnodes : (tree.put sha256 p.1 p.2).nodes = Ryther.storeAll sha256 tree.nodes
        (storedOf sha256 (hashKey sha256 p.1) (hashValue sha256 p.2) 256 0 t) := by
      simp only [JellyfishMerkleTree.put, h.putCall_eq p]
    rw [hnodes] at hmem
    rcases mem_keys_storeAll _ hmem with hold | ⟨n, hn, rfl⟩
    · exact List.mem_append_left _ hold
    · rcases hnew n hn with hin | hin
      · refine List.mem_append_left _ (AList.lookup_isSome.mp ?_)
        rw [(h.held n hin).2]
        rfl
      · exact List.mem_append_right _ (List.mem_map_of_mem hin)
  have hle := ((AList.keys_nodup _).subperm hsub).length_le
  rw [List.length_append, List.length_map] at hle
  unfold nodeCount
  omega

/-! ### The nodes of all versions -/

/-- The store holds the nodes of the tries of all prefixes of the puts and nothing else.
Kind: D -/
def HoldsVersions (sha256 : List UInt8 → Bytes 32) (nodes : HashMap NodeHash JmtNode)
    (puts : List (StateKey × U256)) : Prop :=
  ∀ h n, nodes.lookup h = some n ↔
    n.hash sha256 = h ∧ ∃ before, before <+: puts ∧ n ∈ trieNodes sha256 (trieOf sha256 before)

/-- One more put: the new nodes are those of the new version. Kind: L -/
theorem HoldsVersions.put (hS : CollisionFree sha256 S) {puts : List (StateKey × U256)}
    {tree : JellyfishMerkleTree} (hinv : TreeInv sha256 S tree (trieOf sha256 puts))
    (hversions : HoldsVersions sha256 tree.nodes puts) (p : StateKey × U256)
    (hstored : ∀ n ∈ (tree.putCall sha256 p.1 p.2).stored, S n) :
    HoldsVersions sha256 (tree.put sha256 p.1 p.2).nodes (puts ++ [p]) := by
  have hnext : trieOf sha256 (puts ++ [p]) = trieStep sha256 (trieOf sha256 puts) p := by
    simp [trieOf]
  have hafter := hinv.put hS p hstored
  have hcall := hinv.putCall_eq p
  rw [hcall] at hstored
  obtain ⟨-, hkeep, hheld⟩ := hinv.sound.storeAll hS _ hstored
  have hnodes : (tree.put sha256 p.1 p.2).nodes = Ryther.storeAll sha256 tree.nodes
      (storedOf sha256 (hashKey sha256 p.1) (hashValue sha256 p.2) 256 0 (trieOf sha256 puts)) := by
    simp only [JellyfishMerkleTree.put, hcall]
  intro h n
  constructor
  · intro hlook
    refine ⟨(hafter.sound h n hlook).2, ?_⟩
    rw [hnodes] at hlook
    rcases lookup_storeAll_cases _ hlook with hold | hnew
    · obtain ⟨-, before, hprefix, hn⟩ := (hversions h n).mp hold
      exact ⟨before, hprefix.trans (List.prefix_append _ _), hn⟩
    · rcases mem_storedOf _ _ 256 0 _ n hnew with hold | hnew
      · exact ⟨puts, List.prefix_append _ _, hold⟩
      · exact ⟨puts ++ [p], List.prefix_rfl, hnext ▸ hnew⟩
  · rintro ⟨rfl, before, hprefix, hn⟩
    rcases List.prefix_concat_iff.mp hprefix with rfl | hprefix
    · exact (hafter.held n (hnext ▸ hn)).2
    · rw [hnodes]
      exact hkeep _ _ ((hversions _ n).mpr ⟨rfl, before, hprefix, hn⟩)

/-- **Every sequence of puts.** By induction on it from the end. Kind: L -/
theorem holdsVersions_runPuts (hS : CollisionFree sha256 S) (puts : List (StateKey × U256))
    (hstored : ∀ n ∈ storedBy sha256 .new puts, S n) :
    HoldsVersions sha256 (runPuts sha256 puts).nodes puts ∧
      (runPuts sha256 puts).nodeCount ≤ 257 * puts.length := by
  induction puts using List.reverseRecOn with
  | nil =>
      refine ⟨fun h n => ⟨fun hlook => ?_, ?_⟩, Nat.le_refl _⟩
      · simp [runPuts, JellyfishMerkleTree.new] at hlook
      · rintro ⟨-, before, hprefix, hn⟩
        rw [List.prefix_nil.mp hprefix] at hn
        cases hn
  | append_singleton puts p ih =>
      rw [storedBy_concat] at hstored
      have hbefore : ∀ n ∈ storedBy sha256 .new puts, S n :=
        fun n hn => hstored n (List.mem_append_left _ hn)
      obtain ⟨hversions, hcount⟩ := ih hbefore
      have hinv := runPuts_inv hS puts hbefore
      have hrun : runPuts sha256 (puts ++ [p]) =
          (runPuts sha256 puts).put sha256 p.1 p.2 := by
        simp [runPuts]
      rw [hrun]
      refine ⟨hversions.put hS hinv p fun n hn => hstored n (List.mem_append_right _ hn), ?_⟩
      have hput := nodeCount_put hinv p
      rw [List.length_append, List.length_singleton]
      omega

/-- Two stores that hold a trie give the same proofs for it. By recursion over the trie. Kind: L -/
theorem collectProofSiblings_congr {nodes nodes' : HashMap NodeHash JmtNode} (k : Bytes 32) :
    (levels : ℕ) → (t : HashTrie) → Held sha256 nodes t → Held sha256 nodes' t →
      collectProofSiblings nodes k levels (rootOf sha256 t) =
        collectProofSiblings nodes' k levels (rootOf sha256 t)
  | 0, _, _, _ => rfl
  | _ + 1, .empty, _, _ => rfl
  | levels + 1, .leaf k₀ v₀, h, h' => by
      rw [collectProofSiblings, collectProofSiblings, h.top_leaf.2, h'.top_leaf.2]
  | levels + 1, .node l r, h, h' => by
      obtain ⟨hl, hr⟩ := h.of_node
      obtain ⟨hl', hr'⟩ := h'.of_node
      rw [collectProofSiblings, collectProofSiblings, h.top_node.2, h'.top_node.2]
      simp only [collectProofSiblings_congr k levels l hl hl',
        collectProofSiblings_congr k levels r hr hr']

end History

/-! ### Main results -/

/-- **The store is the history of the tree.** After any puts it holds, under their hashes, exactly
the nodes of the tree as it was after each prefix of them; and it holds at most 257 nodes for each
put.
Source: `storage/jmt.rs`, `JellyfishMerkleTree::put_recursive`, `JellyfishMerkleTree::node_count`
Kind: P -/
theorem nodes_are_versions (sha256 : List UInt8 → Bytes 32) (puts : List (StateKey × U256))
    (hinj : InjectiveOn sha256 (inputsUsed sha256 puts))
    (hne : ∀ n ∈ storedBy sha256 .new puts, n.hash sha256 ≠ emptyHash) :
    (∀ h n, (runPuts sha256 puts).nodes.lookup h = some n ↔
        n.hash sha256 = h ∧
          ∃ before, before <+: puts ∧ n ∈ trieNodes sha256 (trieOf sha256 before)) ∧
      (runPuts sha256 puts).nodeCount ≤ 257 * puts.length :=
  holdsVersions_runPuts (@collisionFree_storedBy sha256 puts [] hinj hne) puts fun _ hn => hn

/-- Three puts, the last one on the key of the second: the store has seven nodes. Kind: L -/
theorem nodes_are_versions_sample :
    let puts := [(makeKey 1 100, .fromU64 42), (makeKey 2 200, .fromU64 7),
      (makeKey 2 200, .fromU64 100)]
    (runPuts treeSha256 puts).nodeCount = 7 ∧
      (∀ h n, (runPuts treeSha256 puts).nodes.lookup h = some n ↔
        n.hash treeSha256 = h ∧
          ∃ before, before <+: puts ∧ n ∈ trieNodes treeSha256 (trieOf treeSha256 before)) ∧
      (runPuts treeSha256 puts).nodeCount ≤ 257 * puts.length := by
  intro puts
  exact ⟨by decide +kernel,
    nodes_are_versions treeSha256 puts (by decide +kernel) (by decide +kernel)⟩

/-- **Earlier roots stay readable.** From the root that the tree had after the first puts, the tree
after all puts finds what was put last among the first ones, and gives the proof that it gave then.
Source: `storage/jmt.rs`, `JellyfishMerkleTree::put`, `JellyfishMerkleTree::get_recursive`,
`JellyfishMerkleTree::get_proof`
Kind: P -/
theorem snapshots_readable (sha256 : List UInt8 → Bytes 32) (before after : List (StateKey × U256))
    (k : StateKey)
    (hinj : InjectiveOn sha256 (k.toBytes.toList :: inputsUsed sha256 (before ++ after)))
    (hne : ∀ n ∈ storedBy sha256 .new (before ++ after), n.hash sha256 ≠ emptyHash) :
    let earlier := runPuts sha256 before
    let snapshot := (runPuts sha256 (before ++ after)).atRoot earlier.root
    snapshot.get sha256 k = some ((lastPut before k).map (hashValue sha256)) ∧
      snapshot.getProof sha256 k = earlier.getProof sha256 k := by
  intro earlier snapshot
  have hS := @collisionFree_storedBy sha256 (before ++ after) [k.toBytes.toList] hinj hne
  have hearlier : TreeInv sha256 (· ∈ storedBy sha256 .new (before ++ after)) earlier
      (trieOf sha256 before) := runPuts_inv hS before (storedBy_append_left before after)
  obtain ⟨hversions, -⟩ := holdsVersions_runPuts hS (before ++ after) fun _ hn => hn
  -- the later store holds the earlier trie, as one of its versions
  have hheld : Held sha256 snapshot.nodes (trieOf sha256 before) := by
    intro n hn
    refine ⟨(hearlier.held n hn).1, ?_⟩
    exact (hversions _ n).mpr ⟨rfl, before, List.prefix_append _ _, hn⟩
  have hroot : snapshot.root = rootOf sha256 (trieOf sha256 before) := hearlier.root_eq
  constructor
  · unfold JellyfishMerkleTree.get
    rw [hroot, getRecursive_eq _ 256 0 _ rfl hheld hearlier.canon (under_zero _ _), find_trieOf]
    refine hinj.mono fun x hx => ?_
    rcases List.mem_cons.mp hx with rfl | hx
    · exact List.mem_cons_self
    · obtain ⟨p, hp, rfl⟩ := List.mem_map.mp hx
      exact List.mem_cons_of_mem _ (mem_inputsUsed (List.mem_append_left _ hp)).1
  · have hsiblings := @collectProofSiblings_congr sha256 snapshot.nodes earlier.nodes
      (hashKey sha256 k) 256 (trieOf sha256 before) hheld hearlier.held
    unfold JellyfishMerkleTree.getProof
    rw [show snapshot.root = earlier.root from rfl, hearlier.root_eq, hsiblings]

/-- The value of a key is put again: from the root before that the old value is found. Kind: L -/
theorem snapshots_readable_sample :
    let before := [(makeKey 1 100, .fromU64 42), (makeKey 2 200, .fromU64 7)]
    let earlier := runPuts treeSha256 before
    let later := runPuts treeSha256 (before ++ [(makeKey 2 200, .fromU64 100)])
    later.get treeSha256 (makeKey 2 200) = some (some (hashValue treeSha256 (.fromU64 100))) ∧
      (later.atRoot earlier.root).get treeSha256 (makeKey 2 200) =
        some (some (hashValue treeSha256 (.fromU64 7))) ∧
      (later.atRoot earlier.root).getProof treeSha256 (makeKey 2 200) =
        earlier.getProof treeSha256 (makeKey 2 200) := by
  intro before earlier later
  exact ⟨by decide +kernel,
    snapshots_readable treeSha256 before [(makeKey 2 200, .fromU64 100)] (makeKey 2 200)
      (by decide +kernel) (by decide +kernel)⟩

end Ryther
