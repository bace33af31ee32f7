import Mathlib.Tactic.IntervalCases
import Ryther.Storage.JmtTrie

/-!
# The Merkle tree is a map with a canonical root

What sequences of `put` from the empty tree leave behind, when `sha256` does not collide on the
inputs it was applied to.

* `get_eq_lastPut` — `get` answers the hash of the last value put, no insertion ever misses a
  node, and the depth bound is reached exactly by puts to a present key that has a twin: another
  present key whose hash differs in the last bit only.
* `twin_put_reaches_maxDepth` — such puts exist.
* `root_eq_iff_lastPut_eq` — the root is a function of the final map, and determines it.
-/

namespace Ryther

open Lib JellyfishMerkleTree

/-! ### The final map -/

/-- The value of the last put to `k`, if there is one.
Kind: D -/
def lastPut (puts : List (StateKey × U256)) (k : StateKey) : Option U256 :=
  (puts.filter fun p => p.1 = k).getLast?.map Prod.snd

/-- One more put. Kind: L -/
theorem lastPut_concat (puts : List (StateKey × U256)) (p : StateKey × U256) (k : StateKey) :
    lastPut (puts ++ [p]) k = if p.1 = k then some p.2 else lastPut puts k := by
  unfold lastPut
  by_cases h : p.1 = k <;> simp [List.filter_append, h]

/-- The last put is a put. Kind: L -/
theorem mem_of_lastPut {puts : List (StateKey × U256)} {k : StateKey} {v : U256}
    (h : lastPut puts k = some v) : (k, v) ∈ puts := by
  obtain ⟨⟨k', v'⟩, hp, rfl⟩ := Option.map_eq_some_iff.mp h
  have hmem := List.mem_of_getLast? hp
  rw [List.mem_filter, decide_eq_true_iff] at hmem
  obtain ⟨hmem, rfl⟩ := hmem
  exact hmem

/-- A key that was put has a last put. Kind: L -/
theorem exists_lastPut {puts : List (StateKey × U256)} {p : StateKey × U256} (h : p ∈ puts) :
    ∃ v, lastPut puts p.1 = some v := by
  have hmem : p ∈ puts.filter fun q => q.1 = p.1 := List.mem_filter.mpr ⟨h, by simp⟩
  cases hlast : (puts.filter fun q => q.1 = p.1).getLast? with
  | none => rw [List.getLast?_eq_none_iff.mp hlast] at hmem; cases hmem
  | some q => exact ⟨q.2, by unfold lastPut; rw [hlast]; rfl⟩

section

variable (sha256 : List UInt8 → Bytes 32)

/-- What `sha256` is applied to in a sequence of puts: the keys, the values and the stored nodes.
Kind: D -/
def inputsUsed (puts : List (StateKey × U256)) : List (List UInt8) :=
  puts.map (fun p => p.1.toBytes.toList) ++ puts.map (fun p => p.2.toBeBytes.toList) ++
    (storedBy sha256 .new puts).map JmtNode.data

variable {sha256}

/-- Keys with the same hash are equal. Kind: L -/
theorem key_eq_of_hash {xs : List (List UInt8)} (hinj : InjectiveOn sha256 xs) {k k' : StateKey}
    (hk : k.toBytes.toList ∈ xs) (hk' : k'.toBytes.toList ∈ xs)
    (h : hashKey sha256 k = hashKey sha256 k') : k = k' :=
  StateKey.toBytes_injective (Subtype.ext (hinj _ hk _ hk' h))

/-- Values with the same hash are equal. Kind: L -/
theorem value_eq_of_hash {xs : List (List UInt8)} (hinj : InjectiveOn sha256 xs) {v v' : U256}
    (hv : v.toBeBytes.toList ∈ xs) (hv' : v'.toBeBytes.toList ∈ xs)
    (h : hashValue sha256 v = hashValue sha256 v') : v = v' :=
  U256.toBeBytes_injective (Subtype.ext (hinj _ hv _ hv' h))

/-- The keys and values of the puts are inputs. Kind: L -/
theorem mem_inputsUsed {puts : List (StateKey × U256)} {p : StateKey × U256} (hp : p ∈ puts) :
    p.1.toBytes.toList ∈ inputsUsed sha256 puts ∧
      p.2.toBeBytes.toList ∈ inputsUsed sha256 puts :=
  ⟨List.mem_append_left _ (List.mem_append_left _
      (List.mem_map_of_mem (f := fun p => p.1.toBytes.toList) hp)),
    List.mem_append_left _ (List.mem_append_right _
      (List.mem_map_of_mem (f := fun p => p.2.toBeBytes.toList) hp))⟩

/-- The inputs of a first part of the sequence. Kind: L -/
theorem storedBy_append_left (before after : List (StateKey × U256)) :
    ∀ n ∈ storedBy sha256 .new before, n ∈ storedBy sha256 .new (before ++ after) := by
  have h : ∀ tree, ∀ n ∈ storedBy sha256 tree before,
      n ∈ storedBy sha256 tree (before ++ after) := by
    induction before with
    | nil => intro tree n hn; cases hn
    | cons p rest ih =>
        intro tree n hn
        simp only [storedBy, List.cons_append, List.mem_append] at hn ⊢
        exact hn.imp_right (ih _ n)
  exact h _

/-- What the first updates hash is hashed in a longer run as well. Kind: L -/
theorem inputsUsed_append_left (before after : List (StateKey × U256)) :
    ∀ x ∈ inputsUsed sha256 before, x ∈ inputsUsed sha256 (before ++ after) := by
  intro x hx
  simp only [inputsUsed, List.map_append, List.mem_append, List.mem_map] at hx ⊢
  rcases hx with (hx | hx) | ⟨n, hn, rfl⟩
  · exact .inl (.inl (.inl hx))
  · exact .inl (.inr (.inl hx))
  · exact .inr ⟨n, storedBy_append_left before after n hn, rfl⟩

/-- Nodes are told apart by the bytes that are hashed. Kind: L -/
theorem data_injective {m n : JmtNode} (hm : m ≠ .empty) (hn : n ≠ .empty)
    (h : m.data = n.data) : m = n := by
  cases m with
  | empty => exact absurd rfl hm
  | leaf a b => cases n with
    | empty => exact absurd rfl hn
    | leaf c d =>
        obtain ⟨hleft, hright⟩ := selfDelimiting_vector 32 (List.cons.inj h).2
        rw [hleft, List.Vector.toList_injective hright]
    | internal c d => exact absurd (List.cons.inj h).1 (by decide)
  | internal a b => cases n with
    | empty => exact absurd rfl hn
    | leaf c d => exact absurd (List.cons.inj h).1 (by decide)
    | internal c d =>
        obtain ⟨hleft, hright⟩ := selfDelimiting_vector 32 (List.cons.inj h).2
        rw [hleft, List.Vector.toList_injective hright]

/-- Nodes without colliding inputs do not collide. Kind: L -/
theorem collisionFree_of_injectiveOn {nodes : List JmtNode}
    (hinj : InjectiveOn sha256 (nodes.map JmtNode.data))
    (hne : ∀ n ∈ nodes, n.hash sha256 ≠ emptyHash) : CollisionFree sha256 (· ∈ nodes) where
  inj m n hm hn h := by
    have hm' : m ≠ .empty := by rintro rfl; exact hne _ hm rfl
    have hn' : n ≠ .empty := by rintro rfl; exact hne _ hn rfl
    have hhash : ∀ x : JmtNode, x ≠ .empty → x.hash sha256 = sha256 x.data := fun x hx => by
      cases x with
      | empty => exact absurd rfl hx
      | leaf _ _ => rfl
      | internal _ _ => rfl
    rw [hhash m hm', hhash n hn'] at h
    exact data_injective hm' hn' (hinj _ (List.mem_map_of_mem hm) _ (List.mem_map_of_mem hn) h)
  ne_empty := hne

/-- The trie of a sequence of puts is canonical. Kind: L -/
theorem canon_trieOf (puts : List (StateKey × U256)) :
    Trie.Canon getBit 0 (trieOf sha256 puts) := by
  induction puts using List.reverseRecOn with
  | nil => exact trivial
  | append_singleton puts p ih =>
      have h := (@trieStep_spec sha256 _ ih p).canon
      simpa [trieOf] using h

/-- **The entries of the trie are the last puts.** Kind: P -/
theorem has_trieOf (puts : List (StateKey × U256))
    (hinj : InjectiveOn sha256 (puts.map fun p => p.1.toBytes.toList)) (kh vh : Bytes 32) :
    Trie.Has (trieOf sha256 puts) kh vh ↔
      ∃ k v, lastPut puts k = some v ∧ hashKey sha256 k = kh ∧ hashValue sha256 v = vh := by
  induction puts using List.reverseRecOn with
  | nil => simp [trieOf, Trie.Has, lastPut]
  | append_singleton puts p ih =>
      have ih := ih (hinj.mono fun x hx => by
        rw [List.map_append]
        exact List.mem_append_left _ hx)
      have hstep : trieOf sha256 (puts ++ [p]) = trieStep sha256 (trieOf sha256 puts) p := by
        simp [trieOf]
      rw [hstep, (trieStep_spec (canon_trieOf puts) p).has_iff, ih]
      -- keys of the sequence with the hash of `p.1` are `p.1`
      have hkey : ∀ k v, lastPut puts k = some v → hashKey sha256 k = hashKey sha256 p.1 →
          k = p.1 := fun k v hk h => by
        have hmem : k.toBytes.toList ∈ (puts ++ [p]).map fun p => p.1.toBytes.toList :=
          List.mem_map.mpr ⟨(k, v), List.mem_append_left _ (mem_of_lastPut hk), rfl⟩
        have hmemp : p.1.toBytes.toList ∈ (puts ++ [p]).map fun p => p.1.toBytes.toList :=
          List.mem_map.mpr ⟨p, List.mem_append_right _ List.mem_cons_self, rfl⟩
        exact key_eq_of_hash hinj hmem hmemp h
      constructor
      · rintro (⟨rfl, rfl⟩ | ⟨hne, k, v, hk, rfl, rfl⟩)
        · exact ⟨p.1, p.2, by rw [lastPut_concat, if_pos rfl], rfl, rfl⟩
        · refine ⟨k, v, ?_, rfl, rfl⟩
          rw [lastPut_concat, if_neg fun h => hne (by rw [h])]
          exact hk
      · rintro ⟨k, v, hk, rfl, rfl⟩
        rw [lastPut_concat] at hk
        by_cases h : p.1 = k
        · rw [if_pos h] at hk
          obtain rfl := Option.some.inj hk
          exact Or.inl ⟨by rw [h], rfl⟩
        · rw [if_neg h] at hk
          exact Or.inr ⟨fun hh => h (hkey k v hk hh).symm, k, v, hk, rfl, rfl⟩

/-- A key is an entry exactly when it was put. Kind: L -/
theorem find_trieOf {puts : List (StateKey × U256)} {k : StateKey}
    (hinj : InjectiveOn sha256 (k.toBytes.toList :: puts.map fun p => p.1.toBytes.toList)) :
    Trie.find getBit 0 (trieOf sha256 puts) (hashKey sha256 k) =
      (lastPut puts k).map (hashValue sha256) := by
  have hhas := has_trieOf puts (hinj.mono fun x hx => List.mem_cons_of_mem _ hx)
  have hkey : ∀ k' v, lastPut puts k' = some v → hashKey sha256 k' = hashKey sha256 k →
      k' = k := fun k' v hk h => by
    have hmem : k'.toBytes.toList ∈ k.toBytes.toList :: puts.map fun p => p.1.toBytes.toList :=
      List.mem_cons_of_mem _ (List.mem_map.mpr ⟨(k', v), mem_of_lastPut hk, rfl⟩)
    exact key_eq_of_hash hinj hmem List.mem_cons_self h
  apply Option.ext
  intro vh
  rw [Trie.find_eq_some_iff (canon_trieOf puts), hhas, Option.map_eq_some_iff]
  constructor
  · rintro ⟨k', v, hk, hh, rfl⟩
    rw [hkey k' v hk hh] at hk
    exact ⟨v, hk, rfl⟩
  · rintro ⟨v, hk, rfl⟩
    exact ⟨k, v, hk, rfl, rfl⟩

/-! ### Lookup -/

/-- Puts to a present key with a present twin, and no others, go down to the depth bound.
Kind: L -/
theorem bottoms_trieOf_iff {puts : List (StateKey × U256)} {k : StateKey}
    (hinj : InjectiveOn sha256 (k.toBytes.toList :: puts.map fun p => p.1.toBytes.toList)) :
    Trie.bottoms getBit 256 0 (trieOf sha256 puts) (hashKey sha256 k) = true ↔
      (∃ q ∈ puts, q.1 = k) ∧ ∃ q ∈ puts, q.1 ≠ k ∧
        ∀ i, i < 255 → getBit (hashKey sha256 q.1) i = getBit (hashKey sha256 k) i := by
  have hhas := has_trieOf puts (hinj.mono fun x hx => List.mem_cons_of_mem _ hx)
  have hkey : ∀ k', ∀ q ∈ puts, q.1 = k' → hashKey sha256 k' = hashKey sha256 k → k' = k := by
    rintro _ q hq rfl h
    have hmem : q.1.toBytes.toList ∈ k.toBytes.toList :: puts.map fun p => p.1.toBytes.toList :=
      List.mem_cons_of_mem _ (List.mem_map_of_mem hq)
    exact key_eq_of_hash hinj hmem List.mem_cons_self h
  constructor
  · intro h
    obtain ⟨⟨v, hv⟩, kh, vh, hne, hk', hag⟩ := Trie.bottoms_spec separated_getBit 256 0 _ _
      (by omega) rfl (canon_trieOf puts) (under_zero _ _) h
    obtain ⟨k₁, v₁, h₁, hh₁, -⟩ := (hhas _ _).mp hv
    obtain ⟨k₂, v₂, h₂, rfl, -⟩ := (hhas _ _).mp hk'
    exact ⟨⟨_, mem_of_lastPut h₁, hkey _ _ (mem_of_lastPut h₁) rfl hh₁⟩, _, mem_of_lastPut h₂,
      fun h => hne (by rw [← h]), fun i hi => hag i (by omega)⟩
  · rintro ⟨⟨q₁, h₁, rfl⟩, q₂, h₂, hne, hag⟩
    obtain ⟨v₁, hv₁⟩ := exists_lastPut h₁
    obtain ⟨v₂, hv₂⟩ := exists_lastPut h₂
    exact Trie.bottoms_of_twin (D := 256) 256 0 _ _ (hashKey sha256 q₂.1) (hashValue sha256 v₁)
      (hashValue sha256 v₂) rfl (canon_trieOf puts) (fun h => hne (hkey _ q₂ h₂ rfl h))
      ((hhas _ _).mpr ⟨_, v₁, hv₁, rfl, rfl⟩) ((hhas _ _).mpr ⟨_, v₂, hv₂, rfl, rfl⟩)
      fun i hi => hag i (by omega)

/-- The nodes of a sequence of puts do not collide. Kind: L -/
theorem collisionFree_storedBy {puts : List (StateKey × U256)} {extra : List (List UInt8)}
    (hinj : InjectiveOn sha256 (extra ++ inputsUsed sha256 puts))
    (hne : ∀ n ∈ storedBy sha256 .new puts, n.hash sha256 ≠ emptyHash) :
    CollisionFree sha256 (· ∈ storedBy sha256 .new puts) :=
  collisionFree_of_injectiveOn (hinj.mono fun _ hx =>
    List.mem_append_right _ (List.mem_append_right _ hx)) hne

/-- Lookup after a sequence of puts. Kind: L -/
theorem get_runPuts {puts : List (StateKey × U256)} {k : StateKey}
    (hinj : InjectiveOn sha256 (k.toBytes.toList :: inputsUsed sha256 puts))
    (hne : ∀ n ∈ storedBy sha256 .new puts, n.hash sha256 ≠ emptyHash) :
    (runPuts sha256 puts).get sha256 k = some ((lastPut puts k).map (hashValue sha256)) := by
  have hS := @collisionFree_storedBy sha256 puts [k.toBytes.toList] hinj hne
  rw [(runPuts_inv hS puts fun _ hn => hn).get_eq, find_trieOf]
  refine hinj.mono fun x hx => ?_
  rcases List.mem_cons.mp hx with rfl | hx
  · exact List.mem_cons_self
  · exact List.mem_cons_of_mem _ (List.mem_append_left _ (List.mem_append_left _ hx))

end

/-- **The tree is a map.** After any sequence of puts from the empty tree `get` answers the hash of
the last value put to the key and `None` for a key never put. No put misses a node, and a put
reaches the depth bound exactly when its key is present together with another key whose hash has
the same first 255 bits. Kind: P -/
theorem get_eq_lastPut (sha256 : List UInt8 → Bytes 32) (puts : List (StateKey × U256))
    (k : StateKey) (hinj : InjectiveOn sha256 (k.toBytes.toList :: inputsUsed sha256 puts))
    (hne : ∀ n ∈ storedBy sha256 .new puts, n.hash sha256 ≠ emptyHash) :
    (runPuts sha256 puts).get sha256 k = some ((lastPut puts k).map (hashValue sha256)) ∧
      ∀ before p after, puts = before ++ p :: after →
        PutArm.unknown ∉ ((runPuts sha256 before).putCall sha256 p.1 p.2).arms ∧
        (PutArm.maxDepth ∈ ((runPuts sha256 before).putCall sha256 p.1 p.2).arms ↔
          (∃ q ∈ before, q.1 = p.1) ∧ ∃ q ∈ before, q.1 ≠ p.1 ∧
            ∀ i, i < 255 → getBit (hashKey sha256 q.1) i = getBit (hashKey sha256 p.1) i) := by
  refine ⟨get_runPuts hinj hne, ?_⟩
  · rintro before p after rfl
    have hS := @collisionFree_storedBy sha256 _ [k.toBytes.toList] hinj hne
    have hinv := runPuts_inv hS before fun n hn => storedBy_append_left before (p :: after) n hn
    rw [hinv.putCall_eq p]
    refine ⟨unknown_notMem_armsOf _ 256 0 _, ?_⟩
    rw [maxDepth_mem_armsOf, bottoms_trieOf_iff]
    refine hinj.mono fun x hx => ?_
    refine List.mem_cons_of_mem _ (List.mem_append_left _ (List.mem_append_left _ ?_))
    simp only [List.map_append, List.map_cons, List.mem_append, List.mem_cons] at hx ⊢
    tauto

/-! ### A run with known digests -/

/-- A key of the unit tests.
Source: `storage/jmt.rs`, `make_key` of the tests
Kind: D -/
def makeKey (addr : UInt8) (slot : UInt64) : StateKey := ⟨Bytes.fill 20 addr, U256.fromU64 slot⟩

/-- SHA-256 on the inputs of the runs below. The two keys share the first bit of their hashes.
Kind: D -/
def treeSha256 : List UInt8 → Bytes 32 :=
  let key1 := 0xb8e518ac920a2e0199adf712083ac8a2160e986c18914bf55db75cd62cfbe73d
  let key2 := 0xc407596b5d59f92e8fb7dcf0d8f697aa638a67586c451da06d8da124bbf50039
  let value42 := 0x0a28e9ffef0073f9a6a674cf57ee77307f38f0f1bebb087888d9011ed0eeefdf
  let value100 := 0x70147d9c3fe0b99a2ec9f2cbd549e637cb54c230e2bc7e6fb34b629ebe04272a
  let value7 := 0x48428bdb7ddd829410d6bbb924fdeb3a3d7e88c2577bffae073b990c6f061d08
  let leaf1 := 0x207990c11b08fe7c59d74328877d2a692d6149238a7a05024917427703f82800
  let leaf2 := 0x8f8f676b6774283dceb8f9e721f38bb4fe4a44ab7586d88eb10998d08b650d10
  let leaf2old := 0x004c313d0263be8d8d7c4660f5566b55a43f1239920069fe46a7d4e7693f0a8e
  let inner := 0x41b04b4cbb29cbd593dc0fbecd9c780c4290701c0773696aefbbc50fe0b37905
  let innerOld := 0x7644c2853d7389ebe27f9a8b413a3bbba1f6f0dc9f4992e08e5804c50446eb7c
  let root := 0x57311b149bbf13941cae09533dbe85a2c6b163d71fc3c68b4fc5c37331f25d19
  let rootOld := 0xbeaf6d9550664d4853ae4a1e1b0e5b9353e2c0307be284f8ae1b28d5fa2a8319
  tableHash [
    ((makeKey 1 100).toBytes.toList, key1),
    ((makeKey 2 200).toBytes.toList, key2),
    ((U256.fromU64 42).toBeBytes.toList, value42),
    ((U256.fromU64 100).toBeBytes.toList, value100),
    ((U256.fromU64 7).toBeBytes.toList, value7),
    ((JmtNode.leaf (digest key1) (digest value42)).data, leaf1),
    ((JmtNode.leaf (digest key2) (digest value100)).data, leaf2),
    ((JmtNode.leaf (digest key2) (digest value7)).data, leaf2old),
    ((JmtNode.internal (digest leaf1) (digest leaf2)).data, inner),
    ((JmtNode.internal (digest leaf1) (digest leaf2old)).data, innerOld),
    ((JmtNode.internal emptyHash (digest inner)).data, root),
    ((JmtNode.internal emptyHash (digest innerOld)).data, rootOld)]

/-- The general theorem on two puts and a lookup of the first key. Kind: L -/
theorem get_eq_lastPut_sample :
    (runPuts treeSha256 [(makeKey 1 100, .fromU64 42), (makeKey 2 200, .fromU64 100)]).get
      treeSha256 (makeKey 1 100) = some (some (hashValue treeSha256 (.fromU64 42))) :=
  (get_eq_lastPut treeSha256 [(makeKey 1 100, .fromU64 42), (makeKey 2 200, .fromU64 100)]
    (makeKey 1 100) (by decide +kernel) (by decide +kernel)).1

/-! ### Twin keys

A hash function under which two keys have hashes that differ in the last bit only. -/

/-- The first of two twin keys. Kind: D -/
def twinA : StateKey := makeKey 1 0

/-- The second of two twin keys. Kind: D -/
def twinB : StateKey := makeKey 2 0

/-- The inputs of the run below, each with the number its digest denotes. A branch with an empty
right side has a digest ten above that of its left side.
Kind: D -/
inductive TwinInput : List UInt8 → ℕ → Prop
  | keyA : TwinInput twinA.toBytes.toList 0
  | keyB : TwinInput twinB.toBytes.toList 1
  | value0 : TwinInput (U256.fromU64 0).toBeBytes.toList 2
  | value1 : TwinInput (U256.fromU64 1).toBeBytes.toList 3
  | value2 : TwinInput (U256.fromU64 2).toBeBytes.toList 4
  | leafB : TwinInput (JmtNode.leaf (digest 1) (digest 3)).data 5
  | leafA : TwinInput (JmtNode.leaf (digest 0) (digest 2)).data 6
  | leafA' : TwinInput (JmtNode.leaf (digest 0) (digest 4)).data 7
  | pair : TwinInput (JmtNode.internal (digest 6) (digest 5)).data 8
  | pair' : TwinInput (JmtNode.internal (digest 7) (digest 5)).data 9
  | chain (x : ℕ) (h8 : 8 ≤ x) (hx : x < 10000) :
      TwinInput (JmtNode.internal (digest x) emptyHash).data (x + 10)

/-- A hash function with these digests.
Kind: D -/
def twinHash (x : List UInt8) : Bytes 32 :=
  match ([(twinA.toBytes.toList, 0), (twinB.toBytes.toList, 1),
    ((U256.fromU64 0).toBeBytes.toList, 2), ((U256.fromU64 1).toBeBytes.toList, 3),
    ((U256.fromU64 2).toBeBytes.toList, 4), ((JmtNode.leaf (digest 1) (digest 3)).data, 5),
    ((JmtNode.leaf (digest 0) (digest 2)).data, 6), ((JmtNode.leaf (digest 0) (digest 4)).data, 7),
    ((JmtNode.internal (digest 6) (digest 5)).data, 8),
    ((JmtNode.internal (digest 7) (digest 5)).data, 9)] : List (List UInt8 × ℕ)).lookup x with
  | some n => digest n
  | none => digest (ofBeBytes ((x.drop 1).take 32) + 10)

/-- One level up the path, the artificial hash of a node over an empty sibling adds 10. Kind: L -/
theorem twinHash_chain (x : ℕ) (hx : x < 10000) :
    twinHash (JmtNode.internal (digest x) emptyHash).data = digest (x + 10) := by
  have hlast : ∀ y : ℕ, 0 < y → y < 10000 → ∀ z : Bytes 32,
      (JmtNode.internal z (digest y)).data ≠ (JmtNode.internal (digest x) emptyHash).data := by
    intro y hy hy' z h
    obtain ⟨-, hright⟩ := selfDelimiting_vector 32 (List.cons.inj h).2
    have := digest_injective (m := y) (n := 0) (by omega) (by norm_num) (Subtype.ext hright)
    omega
  have hlen : ∀ ys : List UInt8, ys.length ≠ 65 →
      ((JmtNode.internal (digest x) emptyHash).data == ys) = false := fun ys hys => by
    rw [beq_eq_false_iff_ne]
    rintro rfl
    exact hys (by simp [JmtNode.data])
  have hleaf : ∀ a b : Bytes 32,
      ((JmtNode.internal (digest x) emptyHash).data == (JmtNode.leaf a b).data) = false :=
    fun a b => by
      rw [beq_eq_false_iff_ne]
      intro h
      exact absurd (List.cons.inj h).1 (by decide)
  have hpair : ∀ z : Bytes 32, ((JmtNode.internal (digest x) emptyHash).data ==
      (JmtNode.internal z (digest 5)).data) = false := fun z => by
    rw [beq_eq_false_iff_ne]
    exact (hlast 5 (by omega) (by omega) z).symm
  unfold twinHash
  simp only [List.lookup_cons, hlen _ (by simp : twinA.toBytes.toList.length ≠ 65),
    hlen _ (by simp : twinB.toBytes.toList.length ≠ 65),
    fun v : U256 => hlen _ (by simp : v.toBeBytes.toList.length ≠ 65), hleaf, hpair,
    List.lookup_nil]
  have htake : ((JmtNode.internal (digest x) emptyHash).data.drop 1).take 32 = beBytes 32 x := by
    simp only [JmtNode.data, List.drop_one, List.tail_cons]
    rw [List.take_append_of_le_length (by simp), List.take_of_length_le (by simp)]
    rfl
  rw [htake, ofBeBytes_beBytes, Nat.mod_eq_of_lt (by omega)]

/-- Digests of the listed inputs. Kind: L -/
theorem TwinInput.hash_eq {x : List UInt8} {n : ℕ} (h : TwinInput x n) :
    twinHash x = digest n ∧ n < 20000 := by
  cases h with
  | chain y h8 hy => exact ⟨twinHash_chain y hy, by omega⟩
  | _ => exact ⟨by decide +kernel, by omega⟩

/-- The listed inputs do not collide. Kind: L -/
theorem TwinInput.inj {x y : List UInt8} {m n : ℕ} (hx : TwinInput x m) (hy : TwinInput y n)
    (h : twinHash x = twinHash y) : x = y := by
  obtain ⟨hx', hm⟩ := hx.hash_eq
  obtain ⟨hy', hn⟩ := hy.hash_eq
  rw [hx', hy'] at h
  have hmn := digest_injective (by omega) (by omega) h
  cases hx <;> cases hy <;> first
    | rfl
    | (exfalso; omega)
    | (congr 3; omega)

/-- `m` branches with an empty right side above `t`.
Kind: D -/
def chain : ℕ → HashTrie → HashTrie
  | 0, t => t
  | m + 1, t => .node (chain m t) .empty

/-- The first of the two keys has only zero bits. Kind: L -/
theorem getBit_twinA : ∀ i, i < 256 → getBit (digest 0) i = false := by decide +kernel

/-- The second key has the same bits down to the last. Kind: L -/
theorem getBit_twinB : ∀ i, i < 255 → getBit (digest 1) i = false := by decide +kernel

/-- The first twin is pushed down to the last bit. Kind: L -/
theorem insert_twin (vA vB : Bytes 32) : (n : ℕ) → n ≤ 255 →
    Trie.insert getBit (n + 1) (255 - n) (.leaf (digest 0) vA) (digest 1) vB =
      chain n (.node (.leaf (digest 0) vA) (.leaf (digest 1) vB))
  | 0, _ => by
      have hne : digest 0 ≠ digest 1 := by decide
      have h0 : getBit (digest 0) 255 = false := getBit_twinA 255 (by omega)
      have h1 : getBit (digest 1) 255 = true := by decide
      simp [Trie.insert, hne, h0, h1, Trie.branch, chain]
  | n + 1, hn => by
      have hne : digest 0 ≠ digest 1 := by decide
      have h0 := getBit_twinA (255 - (n + 1)) (by omega)
      have h1 := getBit_twinB (255 - (n + 1)) (by omega)
      have hd : 255 - (n + 1) + 1 = 255 - n := by omega
      have ih := insert_twin vA vB n (by omega)
      rw [Trie.insert, if_neg hne, h0, h1, if_pos rfl, hd, ih]
      rfl

/-- The first twin is overwritten at the last bit. Kind: L -/
theorem insert_twin_again (v v' : Bytes 32) (B : HashTrie) : (n : ℕ) → n ≤ 255 →
    Trie.insert getBit (n + 1) (255 - n) (chain n (.node (.leaf (digest 0) v) B)) (digest 0) v' =
      chain n (.node (.leaf (digest 0) v') B)
  | 0, _ => by
      have h0 : getBit (digest 0) 255 = false := getBit_twinA 255 (by omega)
      simp [Trie.insert, h0, chain]
  | n + 1, hn => by
      have h0 := getBit_twinA (255 - (n + 1)) (by omega)
      have hd : 255 - (n + 1) + 1 = 255 - n := by omega
      have ih := insert_twin_again v v' B n (by omega)
      rw [chain, Trie.insert, h0, hd, ih]
      rfl

/-- The nodes of the run.
Kind: D -/
def TwinNode (n : JmtNode) : Prop := n ≠ .empty ∧ ∃ m, 5 ≤ m ∧ TwinInput n.data m

/-- The digest of a node of the run. Kind: L -/
theorem TwinNode.hash_eq {n : JmtNode} {m : ℕ} (hne : n ≠ .empty) (h : TwinInput n.data m) :
    n.hash twinHash = digest m := by
  cases n with
  | empty => exact absurd rfl hne
  | leaf _ _ => exact h.hash_eq.1
  | internal _ _ => exact h.hash_eq.1

/-- The nodes of the run do not collide. Kind: L -/
theorem collisionFree_twinNode : CollisionFree twinHash TwinNode where
  inj := by
    rintro a b ⟨ha, m, -, hm⟩ ⟨hb, n, -, hn⟩ h
    refine data_injective ha hb (hm.inj hn ?_)
    rw [hm.hash_eq.1, hn.hash_eq.1, ← TwinNode.hash_eq ha hm, ← TwinNode.hash_eq hb hn, h]
  ne_empty := by
    rintro a ⟨ha, m, h5, hm⟩ h
    rw [TwinNode.hash_eq ha hm] at h
    have := hm.hash_eq.2
    have := digest_injective (m := m) (n := 0) (by omega) (by omega) h
    omega

/-- The nodes of a chain over a pair. Kind: L -/
theorem twinNode_chain {t : HashTrie} {N : ℕ} (hN : 8 ≤ N)
    (hroot : rootOf twinHash t = digest N) (ht : ∀ n ∈ trieNodes twinHash t, TwinNode n) :
    (m : ℕ) → N + 10 * m < 10000 → rootOf twinHash (chain m t) = digest (N + 10 * m) ∧
      ∀ n ∈ trieNodes twinHash (chain m t), TwinNode n
  | 0, _ => ⟨hroot, ht⟩
  | m + 1, hm => by
      obtain ⟨ih, ihn⟩ := twinNode_chain hN hroot ht m (by omega)
      have hnode : nodeOf twinHash (.node (chain m t) .empty) =
          .internal (digest (N + 10 * m)) emptyHash := by
        rw [← ih]
        rfl
      have hin := TwinInput.chain (N + 10 * m) (by omega) (by omega)
      constructor
      · have := TwinNode.hash_eq (n := .internal (digest (N + 10 * m)) emptyHash) (by simp) hin
        unfold rootOf chain
        rw [hnode, this]
        congr 1
      · intro n hn
        simp only [chain, trieNodes, List.append_nil, List.mem_cons, hnode] at hn
        rcases hn with rfl | hn
        · exact ⟨by simp, _, by omega, hin⟩
        · exact ihn n hn

/-- Nodes of the intermediate tries bound the nodes a run stores. Kind: L -/
theorem storedBy_of_trieNodes {sha256 : List UInt8 → Bytes 32} {S : JmtNode → Prop}
    (hS : CollisionFree sha256 S) (puts : List (StateKey × U256))
    (h : ∀ before after, puts = before ++ after →
      ∀ n ∈ trieNodes sha256 (trieOf sha256 before), S n) :
    ∀ n ∈ storedBy sha256 .new puts, S n := by
  induction puts using List.reverseRecOn with
  | nil => intro n hn; cases hn
  | append_singleton puts p ih =>
      have ih := ih fun before after heq n hn => h before (after ++ [p]) (by simp [heq]) n hn
      intro n hn
      rw [storedBy_concat] at hn
      rcases List.mem_append.mp hn with hn | hn
      · exact ih n hn
      · have hcall := (runPuts_inv hS puts ih).putCall_eq p
        change n ∈ ((runPuts sha256 puts).putCall sha256 p.1 p.2).stored at hn
        rw [hcall] at hn
        rcases mem_storedOf _ _ 256 0 _ n hn with hn | hn
        · exact h puts [p] rfl n hn
        · refine h (puts ++ [p]) [] (by simp) n ?_
          simpa [trieOf, trieStep] using hn

/-- Two twin keys, then the first one again.
Kind: D -/
def twinPuts : List (StateKey × U256) :=
  [(twinA, .fromU64 0), (twinB, .fromU64 1), (twinA, .fromU64 2)]

/-- The tries of the run. Kind: L -/
theorem trieOf_twinPuts :
    trieOf twinHash (twinPuts.take 1) = .leaf (digest 0) (digest 2) ∧
      trieOf twinHash (twinPuts.take 2) =
        chain 255 (.node (.leaf (digest 0) (digest 2)) (.leaf (digest 1) (digest 3))) ∧
      trieOf twinHash twinPuts =
        chain 255 (.node (.leaf (digest 0) (digest 4)) (.leaf (digest 1) (digest 3))) := by
  have hkA : hashKey twinHash twinA = digest 0 := TwinInput.keyA.hash_eq.1
  have hkB : hashKey twinHash twinB = digest 1 := TwinInput.keyB.hash_eq.1
  have hv0 : hashValue twinHash (.fromU64 0) = digest 2 := TwinInput.value0.hash_eq.1
  have hv1 : hashValue twinHash (.fromU64 1) = digest 3 := TwinInput.value1.hash_eq.1
  have hv2 : hashValue twinHash (.fromU64 2) = digest 4 := TwinInput.value2.hash_eq.1
  have h1 : trieOf twinHash (twinPuts.take 1) = .leaf (digest 0) (digest 2) := by
    simp only [twinPuts, List.take_succ_cons, List.take_zero, trieOf, List.foldl_cons,
      List.foldl_nil, trieStep, hkA, hv0, Trie.insert]
  have h2 : trieOf twinHash (twinPuts.take 2) =
      chain 255 (.node (.leaf (digest 0) (digest 2)) (.leaf (digest 1) (digest 3))) := by
    have hstep : trieOf twinHash (twinPuts.take 2) =
        trieStep twinHash (trieOf twinHash (twinPuts.take 1)) (twinB, .fromU64 1) := rfl
    rw [hstep, h1, trieStep, hkB, hv1]
    exact insert_twin _ _ 255 le_rfl
  refine ⟨h1, h2, ?_⟩
  have hstep : trieOf twinHash twinPuts =
      trieStep twinHash (trieOf twinHash (twinPuts.take 2)) (twinA, .fromU64 2) := rfl
  rw [hstep, h2, trieStep, hkA, hv2]
  exact insert_twin_again _ _ _ 255 le_rfl

/-- The nodes of a chain over a pair of twins. Kind: L -/
theorem twinNode_pair {v m N : ℕ} (hm : TwinInput (JmtNode.leaf (digest 0) (digest v)).data m)
    (h5 : 5 ≤ m) (hN : TwinInput (JmtNode.internal (digest m) (digest 5)).data N) (h8 : 8 ≤ N)
    (h9 : N ≤ 9) :
    ∀ n ∈ trieNodes twinHash
      (chain 255 (.node (.leaf (digest 0) (digest v)) (.leaf (digest 1) (digest 3)))),
      TwinNode n := by
  have hnode : nodeOf twinHash (.node (.leaf (digest 0) (digest v)) (.leaf (digest 1) (digest 3))) =
      .internal (digest m) (digest 5) := by
    have hA : (JmtNode.leaf (digest 0) (digest v)).hash twinHash = digest m := hm.hash_eq.1
    have hB : (JmtNode.leaf (digest 1) (digest 3)).hash twinHash = digest 5 :=
      TwinInput.leafB.hash_eq.1
    simp only [nodeOf, hA, hB]
  refine (twinNode_chain (N := N) h8 ?_ ?_ 255 (by omega)).2
  · unfold rootOf
    rw [hnode]
    exact hN.hash_eq.1
  · intro n hn
    simp only [trieNodes, hnode, List.cons_append, List.nil_append, List.mem_cons, List.not_mem_nil,
      or_false] at hn
    rcases hn with rfl | rfl | rfl
    · exact ⟨by simp, N, by omega, hN⟩
    · exact ⟨by simp, m, h5, hm⟩
    · exact ⟨by simp, 5, le_rfl, .leafB⟩

/-- The nodes of every trie of the run. Kind: L -/
theorem twinNode_of_prefix (before after : List (StateKey × U256))
    (h : twinPuts = before ++ after) :
    ∀ n ∈ trieNodes twinHash (trieOf twinHash before), TwinNode n := by
  obtain ⟨h1, h2, h3⟩ := trieOf_twinPuts
  have hbefore : before = twinPuts.take before.length := by simp [h]
  have hlen : before.length ≤ 3 := by
    have := congrArg List.length h
    simp only [twinPuts, List.length_cons, List.length_nil, List.length_append] at this
    omega
  rw [hbefore]
  interval_cases before.length
  · intro n hn; cases hn
  · rw [h1]
    intro n hn
    obtain rfl := List.mem_singleton.mp hn
    exact ⟨by simp, 6, by omega, .leafA⟩
  · rw [h2]
    exact twinNode_pair .leafA (by omega) .pair le_rfl (by omega)
  · have hall : twinPuts.take 3 = twinPuts := rfl
    rw [hall, h3]
    exact twinNode_pair .leafA' (by omega) .pair' (by omega) le_rfl

/-- **The depth bound can be reached**: a put to a present key whose twin is present too takes the
depth-256 arm, although nothing collides and no node hashes to the empty hash. Kind: P -/
theorem twin_put_reaches_maxDepth :
    ∃ (sha256 : List UInt8 → Bytes 32) (puts : List (StateKey × U256)) (k : StateKey),
      InjectiveOn sha256 (k.toBytes.toList :: inputsUsed sha256 puts) ∧
        (∀ n ∈ storedBy sha256 .new puts, n.hash sha256 ≠ emptyHash) ∧
        ∃ before p after, puts = before ++ p :: after ∧
          PutArm.maxDepth ∈ ((runPuts sha256 before).putCall sha256 p.1 p.2).arms := by
  have hstored := storedBy_of_trieNodes collisionFree_twinNode twinPuts twinNode_of_prefix
  have hinput : ∀ x ∈ twinA.toBytes.toList :: inputsUsed twinHash twinPuts,
      ∃ m, TwinInput x m := by
    intro x hx
    simp only [inputsUsed, twinPuts, List.map_cons, List.map_nil, List.mem_cons, List.mem_append,
      List.not_mem_nil, or_false] at hx
    rcases hx with rfl | ((rfl | rfl | rfl) | (rfl | rfl | rfl)) | hx
    · exact ⟨_, .keyA⟩
    · exact ⟨_, .keyA⟩
    · exact ⟨_, .keyB⟩
    · exact ⟨_, .keyA⟩
    · exact ⟨_, .value0⟩
    · exact ⟨_, .value1⟩
    · exact ⟨_, .value2⟩
    · obtain ⟨n, hn, rfl⟩ := List.mem_map.mp hx
      obtain ⟨-, m, -, hm⟩ := hstored n hn
      exact ⟨m, hm⟩
  have hinj : InjectiveOn twinHash (twinA.toBytes.toList :: inputsUsed twinHash twinPuts) := by
    intro x hx y hy h
    obtain ⟨m, hm⟩ := hinput x hx
    obtain ⟨n, hn⟩ := hinput y hy
    exact hm.inj hn h
  refine ⟨twinHash, twinPuts, twinA, hinj,
    fun n hn => collisionFree_twinNode.ne_empty n (hstored n hn),
    twinPuts.take 2, (twinA, .fromU64 2), [], rfl, ?_⟩
  have hbefore := runPuts_inv collisionFree_twinNode (twinPuts.take 2) fun n hn =>
    hstored n (storedBy_append_left (twinPuts.take 2) [(twinA, .fromU64 2)] n hn)
  rw [hbefore.putCall_eq, maxDepth_mem_armsOf, bottoms_trieOf_iff]
  · refine ⟨⟨(twinA, .fromU64 0), List.mem_cons_self, rfl⟩, (twinB, .fromU64 1),
      List.mem_cons_of_mem _ List.mem_cons_self, by decide, fun i hi => ?_⟩
    have hkA : hashKey twinHash twinA = digest 0 := TwinInput.keyA.hash_eq.1
    have hkB : hashKey twinHash twinB = digest 1 := TwinInput.keyB.hash_eq.1
    rw [hkA, hkB, getBit_twinA i (by omega), getBit_twinB i hi]
  · refine hinj.mono fun x hx => ?_
    rcases List.mem_cons.mp hx with rfl | hx
    · exact List.mem_cons_self
    · refine List.mem_cons_of_mem _ (List.mem_append_left _ (List.mem_append_left _ ?_))
      obtain ⟨p, hp, rfl⟩ := List.mem_map.mp hx
      exact List.mem_map_of_mem (f := fun p : StateKey × U256 => p.1.toBytes.toList)
        (List.mem_of_mem_take hp)

/-! ### The root -/

section

variable {sha256 : List UInt8 → Bytes 32} {S : JmtNode → Prop}

/-- The nodes of a pictured trie are nodes of `S`. Kind: L -/
theorem TreeInv.mem_trieNodes {tree : JellyfishMerkleTree} {t : HashTrie}
    (h : TreeInv sha256 S tree t) : ∀ n ∈ trieNodes sha256 t, S n :=
  fun n hn => (h.sound _ n (h.held n hn).2).1

/-- **The root binds the trie**: without collisions, tries with equal roots are equal. Kind: P -/
theorem rootOf_injective (hS : CollisionFree sha256 S) :
    (t t' : HashTrie) → (∀ n ∈ trieNodes sha256 t, S n) → (∀ n ∈ trieNodes sha256 t', S n) →
      rootOf sha256 t = rootOf sha256 t' → t = t'
  | .empty, .empty, _, _, _ => rfl
  | .empty, .leaf _ _, _, h', h => absurd h.symm (hS.ne_empty _ (h' _ List.mem_cons_self))
  | .empty, .node _ _, _, h', h => absurd h.symm (hS.ne_empty _ (h' _ List.mem_cons_self))
  | .leaf _ _, .empty, h₀, _, h => absurd h (hS.ne_empty _ (h₀ _ List.mem_cons_self))
  | .node _ _, .empty, h₀, _, h => absurd h (hS.ne_empty _ (h₀ _ List.mem_cons_self))
  | .leaf k v, .leaf k' v', h₀, h', h => by
      have heq := hS.inj _ _ (h₀ _ List.mem_cons_self) (h' _ List.mem_cons_self) h
      obtain ⟨rfl, rfl⟩ := JmtNode.leaf.inj heq
      rfl
  | .leaf k v, .node l r, h₀, h', h => by
      cases hS.inj _ _ (h₀ _ List.mem_cons_self) (h' _ List.mem_cons_self) h
  | .node l r, .leaf k v, h₀, h', h => by
      cases hS.inj _ _ (h₀ _ List.mem_cons_self) (h' _ List.mem_cons_self) h
  | .node l r, .node l' r', h₀, h', h => by
      have heq := hS.inj _ _ (h₀ _ List.mem_cons_self) (h' _ List.mem_cons_self) h
      obtain ⟨hl, hr⟩ := JmtNode.internal.inj heq
      have ihl := rootOf_injective hS l l'
        (fun n hn => h₀ n (List.mem_cons_of_mem _ (List.mem_append_left _ hn)))
        (fun n hn => h' n (List.mem_cons_of_mem _ (List.mem_append_left _ hn))) hl
      have ihr := rootOf_injective hS r r'
        (fun n hn => h₀ n (List.mem_cons_of_mem _ (List.mem_append_right _ hn)))
        (fun n hn => h' n (List.mem_cons_of_mem _ (List.mem_append_right _ hn))) hr
      rw [ihl, ihr]

/-- Tries with the same entries come from the same final map. Kind: L -/
theorem lastPut_le_of_has {puts puts' : List (StateKey × U256)}
    (hinj : InjectiveOn sha256 (inputsUsed sha256 puts ++ inputsUsed sha256 puts'))
    (hhas : ∀ kh vh, Trie.Has (trieOf sha256 puts) kh vh → Trie.Has (trieOf sha256 puts') kh vh)
    (k : StateKey) (v : U256) (h : lastPut puts k = some v) : lastPut puts' k = some v := by
  have hkeys : InjectiveOn sha256 (puts.map fun p => p.1.toBytes.toList) := by
    refine hinj.mono fun x hx => ?_
    obtain ⟨p, hp, rfl⟩ := List.mem_map.mp hx
    exact List.mem_append_left _ (mem_inputsUsed hp).1
  have hkeys' : InjectiveOn sha256 (puts'.map fun p => p.1.toBytes.toList) := by
    refine hinj.mono fun x hx => ?_
    obtain ⟨p, hp, rfl⟩ := List.mem_map.mp hx
    exact List.mem_append_right _ (mem_inputsUsed hp).1
  have hin := hhas _ _ ((has_trieOf puts hkeys _ _).mpr ⟨k, v, h, rfl, rfl⟩)
  obtain ⟨k', v', h', hk, hv⟩ := (has_trieOf puts' hkeys' _ _).mp hin
  obtain ⟨hmk, hmv⟩ := @mem_inputsUsed sha256 _ _ (mem_of_lastPut h)
  obtain ⟨hmk', hmv'⟩ := @mem_inputsUsed sha256 _ _ (mem_of_lastPut h')
  obtain rfl : k' = k :=
    key_eq_of_hash hinj (List.mem_append_right _ hmk') (List.mem_append_left _ hmk) hk
  obtain rfl : v' = v :=
    value_eq_of_hash hinj (List.mem_append_right _ hmv') (List.mem_append_left _ hmv) hv
  exact h'

/-- Sequences with the same final map have the same trie. Kind: L -/
theorem trieOf_eq_of_lastPut_eq {puts puts' : List (StateKey × U256)}
    (hinj : InjectiveOn sha256 (inputsUsed sha256 puts))
    (hinj' : InjectiveOn sha256 (inputsUsed sha256 puts'))
    (hmap : ∀ k, lastPut puts k = lastPut puts' k) : trieOf sha256 puts = trieOf sha256 puts' := by
  have hkeys : ∀ {ps : List (StateKey × U256)}, ∀ x ∈ ps.map fun p => p.1.toBytes.toList,
      x ∈ inputsUsed sha256 ps :=
    fun x hx => List.mem_append_left _ (List.mem_append_left _ hx)
  apply Trie.eq_of_has_iff _ _ (canon_trieOf puts) (canon_trieOf puts')
  intro kh vh
  rw [has_trieOf puts (hinj.mono hkeys), has_trieOf puts' (hinj'.mono hkeys)]
  simp only [hmap]

end

/-- **The root is canonical and binding.** Two sequences of puts from the empty tree leave the same
root exactly when they leave the same final map. Kind: P -/
theorem root_eq_iff_lastPut_eq (sha256 : List UInt8 → Bytes 32)
    (puts puts' : List (StateKey × U256))
    (hinj : InjectiveOn sha256 (inputsUsed sha256 puts ++ inputsUsed sha256 puts'))
    (hne : ∀ n ∈ storedBy sha256 .new puts ++ storedBy sha256 .new puts',
      n.hash sha256 ≠ emptyHash) :
    (runPuts sha256 puts).rootHash = (runPuts sha256 puts').rootHash ↔
      ∀ k, lastPut puts k = lastPut puts' k := by
  have hS : CollisionFree sha256
      (· ∈ storedBy sha256 .new puts ++ storedBy sha256 .new puts') := by
    refine collisionFree_of_injectiveOn (hinj.mono fun x hx => ?_) hne
    rw [List.map_append] at hx
    exact (List.mem_append.mp hx).elim
      (fun h => List.mem_append_left _ (List.mem_append_right _ h))
      fun h => List.mem_append_right _ (List.mem_append_right _ h)
  have h := runPuts_inv hS puts fun n hn => List.mem_append_left _ hn
  have h' := runPuts_inv hS puts' fun n hn => List.mem_append_right _ hn
  have hinj' : InjectiveOn sha256 (inputsUsed sha256 puts' ++ inputsUsed sha256 puts) :=
    hinj.mono fun x hx => List.mem_append.mpr (List.mem_append.mp hx).symm
  unfold rootHash
  rw [h.root_eq, h'.root_eq]
  constructor
  · intro hroot k
    have ht := rootOf_injective hS _ _ h.mem_trieNodes h'.mem_trieNodes hroot
    apply Option.ext
    intro v
    constructor
    · exact lastPut_le_of_has hinj (fun _ _ hh => by rwa [← ht]) k v
    · exact lastPut_le_of_has hinj' (fun _ _ hh => by rwa [ht]) k v
  · intro hmap
    rw [trieOf_eq_of_lastPut_eq (hinj.mono fun x hx => List.mem_append_left _ hx)
      (hinj.mono fun x hx => List.mem_append_right _ hx) hmap]

/-- The general theorem on two orders of the same puts, one of them with an overwritten value.
Kind: L -/
theorem root_eq_iff_lastPut_eq_sample :
    (runPuts treeSha256 [(makeKey 1 100, .fromU64 42), (makeKey 2 200, .fromU64 100)]).rootHash =
        (runPuts treeSha256 [(makeKey 2 200, .fromU64 7), (makeKey 1 100, .fromU64 42),
          (makeKey 2 200, .fromU64 100)]).rootHash ↔
      ∀ k, lastPut [(makeKey 1 100, .fromU64 42), (makeKey 2 200, .fromU64 100)] k =
        lastPut [(makeKey 2 200, .fromU64 7), (makeKey 1 100, .fromU64 42),
          (makeKey 2 200, .fromU64 100)] k :=
  root_eq_iff_lastPut_eq treeSha256 _ _ (by decide +kernel) (by decide +kernel)

end Ryther
