import Ryther.Types.Basic

/-!
# The Jellyfish Merkle tree

`src/storage/jmt.rs`: a binary tree over the bits of key hashes, kept as a content-addressed map
from node hashes to nodes.

* `JmtNode`, `JmtNode.hash` — nodes and their hashes; `sha256` is a parameter throughout.
* `putRecursive`, `JellyfishMerkleTree.put` — insertion, with every arm of the source.
* `getRecursive`, `JellyfishMerkleTree.get` — lookup.

The recursions go by the levels left below the current depth, `depth = 256 - levels`. A call of
`putRecursive` also reports which arms it took and which nodes it stored, in order; the code
keeps no such record, and nothing in the model reads it back.
-/

namespace Ryther

open Lib

/-- The hash of a node.
Source: `storage/jmt.rs`, `NodeHash`
Kind: D -/
abbrev NodeHash := Bytes 32

/-- The hash of the empty tree.
Source: `storage/jmt.rs`, `EMPTY_HASH`
Kind: D -/
def emptyHash : NodeHash := Bytes.fill 32 0

/-- The nodes of the tree; an inner node has two hashes.
Source: `storage/jmt.rs`, `JmtNode`
Kind: D -/
inductive JmtNode where
  | internal (left right : NodeHash)
  | leaf (keyHash valueHash : Bytes 32)
  | empty
  deriving DecidableEq

/-- The 65 bytes that are hashed for a node: a marker and two hashes. An empty node is not hashed.
Kind: D -/
def JmtNode.data : JmtNode → List UInt8
  | .internal left right => 0x01 :: (left.toList ++ right.toList)
  | .leaf keyHash valueHash => 0x00 :: (keyHash.toList ++ valueHash.toList)
  | .empty => []

/-- The hash of a node; the empty node is not hashed.
Source: `storage/jmt.rs`, `JmtNode::hash`
Kind: D -/
def JmtNode.hash (sha256 : List UInt8 → Bytes 32) : JmtNode → NodeHash
  | .empty => emptyHash
  | node => sha256 node.data

/-- Bit `pos` of a key hash, counted from the left.
Source: `storage/jmt.rs`, `JellyfishMerkleTree::get_bit`
Kind: D -/
def getBit (keyHash : Bytes 32) (pos : ℕ) : Bool :=
  let byteIdx := pos / 8
  let bitIdx := 7 - pos % 8
  (keyHash.toList.getD byteIdx 0 >>> UInt8.ofNat bitIdx) &&& 1 == 1

/-! ### Insertion -/

/-- The arms of `put_recursive`.
Kind: D -/
inductive PutArm where
  | maxDepth
  | emptySlot
  | sameKey
  | sameDirection
  | split
  | internal
  | unknown
  deriving DecidableEq

/-- What a call of `put_recursive` leaves: the hash it returns, the node map, and the record of
the arms taken and the nodes stored.
Kind: D -/
structure PutResult where
  hash : NodeHash
  nodes : HashMap NodeHash JmtNode
  arms : List PutArm
  stored : List JmtNode

/-- Store one node: `let hash = node.hash(); self.nodes.insert(hash, node); hash`.
Kind: D -/
def storeNode (sha256 : List UInt8 → Bytes 32) (nodes : HashMap NodeHash JmtNode) (arm : PutArm)
    (node : JmtNode) : PutResult where
  hash := node.hash sha256
  nodes := nodes.insert (node.hash sha256) node
  arms := [arm]
  stored := [node]

/-- Store the parent of what a recursive call left.
Kind: D -/
def PutResult.storeParent (sha256 : List UInt8 → Bytes 32) (child : PutResult) (arm : PutArm)
    (before : List JmtNode) (parent : JmtNode) : PutResult where
  hash := parent.hash sha256
  nodes := child.nodes.insert (parent.hash sha256) parent
  arms := arm :: child.arms
  stored := before ++ child.stored ++ [parent]

/-- Insert below `nodeHash`, with `levels` levels left.
Source: `storage/jmt.rs`, `JellyfishMerkleTree::put_recursive`
Kind: D -/
def putRecursive (sha256 : List UInt8 → Bytes 32) (keyHash valueHash : Bytes 32) :
    ℕ → HashMap NodeHash JmtNode → NodeHash → PutResult
  | 0, nodes, _ => storeNode sha256 nodes .maxDepth (.leaf keyHash valueHash)
  | levels + 1, nodes, nodeHash =>
      let depth := 256 - (levels + 1)
      if nodeHash = emptyHash then
        storeNode sha256 nodes .emptySlot (.leaf keyHash valueHash)
      else
        match nodes.lookup nodeHash with
        | some (.leaf existingKey existingValue) =>
            if existingKey = keyHash then
              storeNode sha256 nodes .sameKey (.leaf keyHash valueHash)
            else
              let existingBit := getBit existingKey depth
              let newBit := getBit keyHash depth
              let existingLeaf := JmtNode.leaf existingKey existingValue
              let existingHash := existingLeaf.hash sha256
              let nodes := nodes.insert existingHash existingLeaf
              if existingBit = newBit then
                let child := putRecursive sha256 keyHash valueHash levels nodes existingHash
                child.storeParent sha256 .sameDirection [existingLeaf]
                  (if newBit then .internal emptyHash child.hash
                  else .internal child.hash emptyHash)
              else
                let child := storeNode sha256 nodes .split (.leaf keyHash valueHash)
                let internal := if newBit then JmtNode.internal existingHash child.hash
                  else .internal child.hash existingHash
                { hash := internal.hash sha256
                  nodes := child.nodes.insert (internal.hash sha256) internal
                  arms := child.arms
                  stored := [existingLeaf] ++ child.stored ++ [internal] }
        | some (.internal left right) =>
            if getBit keyHash depth then
              let child := putRecursive sha256 keyHash valueHash levels nodes right
              child.storeParent sha256 .internal [] (.internal left child.hash)
            else
              let child := putRecursive sha256 keyHash valueHash levels nodes left
              child.storeParent sha256 .internal [] (.internal child.hash right)
        | _ => storeNode sha256 nodes .unknown (.leaf keyHash valueHash)

/-- The nodes by hash, the root, and the number of updates.
Source: `storage/jmt.rs`, `JellyfishMerkleTree`
Kind: D -/
structure JellyfishMerkleTree where
  nodes : HashMap NodeHash JmtNode
  root : NodeHash
  version : UInt64

namespace JellyfishMerkleTree

/-- The empty tree.
Source: `storage/jmt.rs`, `JellyfishMerkleTree::new`
Kind: D -/
def new : JellyfishMerkleTree := ⟨∅, emptyHash, 0⟩

/-- The hash of the root.
Source: `storage/jmt.rs`, `JellyfishMerkleTree::root_hash`
Kind: D -/
def rootHash (tree : JellyfishMerkleTree) : NodeHash := tree.root

variable (sha256 : List UInt8 → Bytes 32)

/-- The path of a key is its digest.
Source: `storage/jmt.rs`, `JellyfishMerkleTree::hash_key`
Kind: D -/
def hashKey (key : StateKey) : Bytes 32 := sha256 key.toBytes.toList

/-- The hash of a value that `put` stores in a leaf.
Kind: D -/
def hashValue (value : U256) : Bytes 32 := sha256 value.toBeBytes.toList

/-- The recursive call `put` makes, from the root.
Kind: D -/
def putCall (tree : JellyfishMerkleTree) (key : StateKey) (value : U256) : PutResult :=
  putRecursive sha256 (hashKey sha256 key) (hashValue sha256 value) 256 tree.nodes tree.root

/-- The value is stored under the path of its key, and the root moves on.
Source: `storage/jmt.rs`, `JellyfishMerkleTree::put`
Kind: D -/
def put (tree : JellyfishMerkleTree) (key : StateKey) (value : U256) : JellyfishMerkleTree :=
  let result := tree.putCall sha256 key value
  { nodes := result.nodes, root := result.hash, version := tree.version + 1 }

/-! ### Lookup -/

/-- Look up below `nodeHash`, with `levels` levels left. The outer `none` is the panic of
`get_bit` past the last bit; a missing node makes the source return `None`, as an empty slot does.
Source: `storage/jmt.rs`, `JellyfishMerkleTree::get_recursive`
Kind: D -/
def getRecursive (nodes : HashMap NodeHash JmtNode) (keyHash : Bytes 32) :
    ℕ → NodeHash → Option (Option (Bytes 32))
  | levels, nodeHash =>
      if nodeHash = emptyHash then some none
      else
        match nodes.lookup nodeHash with
        | none => some none
        | some (.leaf storedKey valueHash) =>
            some (if storedKey = keyHash then some valueHash else none)
        | some (.internal left right) =>
            match levels with
            | 0 => none
            | levels + 1 =>
                if getBit keyHash (256 - (levels + 1)) then getRecursive nodes keyHash levels right
                else getRecursive nodes keyHash levels left
        | some .empty => some none

/-- The digest of the value that is stored under a key; the outer `none` is a panic past the last
bit of the path.
Source: `storage/jmt.rs`, `JellyfishMerkleTree::get`
Kind: D -/
def get (tree : JellyfishMerkleTree) (key : StateKey) : Option (Option (Bytes 32)) :=
  getRecursive tree.nodes (hashKey sha256 key) 256 tree.root

end JellyfishMerkleTree

end Ryther
