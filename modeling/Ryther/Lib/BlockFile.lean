import Mathlib.Data.Vector.Basic
import Mathlib.Data.List.TakeDrop

/-!
# Files of equal blocks

A file as the list of its elements, written and read at an offset.

* `writeAt`, `readExact` — what a seek followed by `write_all` or `read_exact` does: a write past
  the end fills the gap, a read past the end fails.
* `concat` — the file that consists of the given blocks of length `n`, one after another; it
  determines them (`concat_injective`).
* On such a file a write at a block boundary replaces that block (`writeAt_concat_set`) or appends
  it (`writeAt_concat_append`), and a read there gives that block (`readExact_concat`). No further
  fact about elements and offsets is needed.
-/

namespace Ryther.Lib

variable {α : Type} {n : ℕ}

/-- The file after `data` was written at `offset`; a gap between the end and `offset` is filled.
Kind: D -/
def writeAt (fill : α) (file : List α) (offset : ℕ) (data : List α) : List α :=
  file.takeD offset fill ++ data ++ file.drop (offset + data.length)

/-- The `n` elements at `offset`, or nothing if the file ends before.
Kind: D -/
def readExact (file : List α) (offset n : ℕ) : Option (List.Vector α n) :=
  if h : offset + n ≤ file.length then
    some ⟨(file.drop offset).take n, by rw [List.length_take, List.length_drop]; omega⟩
  else none

/-- The file of the given blocks.
Kind: D -/
def concat (blocks : List (List.Vector α n)) : List α :=
  blocks.flatMap List.Vector.toList

@[simp] theorem concat_nil : concat ([] : List (List.Vector α n)) = [] := rfl

/-- The blocks of two lists are written one after the other. Kind: L -/
@[simp] theorem concat_append (xs ys : List (List.Vector α n)) :
    concat (xs ++ ys) = concat xs ++ concat ys :=
  List.flatMap_append

@[simp] theorem concat_singleton (block : List.Vector α n) : concat [block] = block.toList :=
  List.append_nil _

/-- A file of whole blocks has their number times the size of a block. Kind: L -/
@[simp] theorem length_concat (blocks : List (List.Vector α n)) :
    (concat blocks).length = blocks.length * n := by
  induction blocks with
  | nil => simp
  | cons block blocks ih =>
      rw [← List.singleton_append, concat_append, List.length_append, ih, concat_singleton,
        List.Vector.toList_length, List.length_append, List.length_singleton, Nat.add_mul,
        Nat.one_mul]

/-- Blocks that are not empty can be told apart in their concatenation. Kind: L -/
theorem concat_injective (hn : 0 < n) {blocks blocks' : List (List.Vector α n)}
    (h : concat blocks = concat blocks') : blocks = blocks' := by
  induction blocks generalizing blocks' with
  | nil =>
      have hlength := congrArg List.length h
      rw [length_concat, length_concat, List.length_nil, Nat.zero_mul, eq_comm,
        Nat.mul_eq_zero] at hlength
      exact (List.eq_nil_of_length_eq_zero (hlength.resolve_right hn.ne')).symm
  | cons block blocks ih =>
      cases blocks' with
      | nil =>
          have hlength := congrArg List.length h
          rw [length_concat, length_concat, List.length_nil, Nat.zero_mul,
            Nat.mul_eq_zero] at hlength
          exact absurd (hlength.resolve_right hn.ne') (Nat.succ_ne_zero _)
      | cons block' blocks' =>
          obtain ⟨hhead, htail⟩ := List.append_inj h (by simp)
          rw [List.Vector.toList_injective hhead, ih htail]

/-- A list around its member at `i`. Kind: L -/
theorem concat_split {blocks : List (List.Vector α n)} {i : ℕ} (hi : i < blocks.length) :
    concat blocks
      = concat (blocks.take i) ++ (blocks[i].toList ++ concat (blocks.drop (i + 1))) := by
  rw [← concat_singleton blocks[i], ← concat_append, ← concat_append, List.singleton_append,
    ← List.drop_eq_getElem_cons hi, List.take_append_drop]

/-- The offset of a block is its index times the size of a block. Kind: L -/
theorem length_concat_take {blocks : List (List.Vector α n)} {i : ℕ} (hi : i ≤ blocks.length) :
    (concat (blocks.take i)).length = i * n := by
  rw [length_concat, List.length_take, Nat.min_eq_left hi]

/-- **A write at a block boundary replaces that block.** Kind: P -/
theorem writeAt_concat_set (fill : α) {blocks : List (List.Vector α n)} {i : ℕ}
    (hi : i < blocks.length) (block : List.Vector α n) :
    writeAt fill (concat blocks) (i * n) block.toList = concat (blocks.set i block) := by
  have hbefore : (concat (blocks.take i)).length = i * n := length_concat_take hi.le
  have hdrop : (concat blocks).drop (i * n + n) = concat (blocks.drop (i + 1)) := by
    rw [concat_split hi, ← List.append_assoc]
    apply List.drop_left'
    rw [List.length_append, hbefore, List.Vector.toList_length]
  have htake : (concat blocks).takeD (i * n) fill = concat (blocks.take i) := by
    rw [concat_split hi]
    exact List.takeD_left' hbefore
  rw [writeAt, List.Vector.toList_length, hdrop, htake, List.set_eq_take_append_cons_drop,
    if_pos hi, ← List.singleton_append, concat_append, concat_append, concat_singleton,
    List.append_assoc]

/-- **A write at the end appends a block.** Kind: P -/
theorem writeAt_concat_append (fill : α) (blocks : List (List.Vector α n))
    (block : List.Vector α n) :
    writeAt fill (concat blocks) (blocks.length * n) block.toList = concat (blocks ++ [block]) := by
  have htake : (concat blocks).takeD (blocks.length * n) fill = concat blocks := by
    rw [List.takeD_eq_take fill (length_concat blocks).ge, ← length_concat, List.take_length]
  have hdrop : (concat blocks).drop (blocks.length * n + n) = [] := by
    apply List.drop_eq_nil_of_le
    rw [length_concat]
    exact Nat.le_add_right _ _
  rw [writeAt, List.Vector.toList_length, htake, hdrop, List.append_nil, concat_append,
    concat_singleton]

/-- **A read at a block boundary gives that block.** Kind: P -/
theorem readExact_concat {blocks : List (List.Vector α n)} {i : ℕ} (hi : i < blocks.length) :
    readExact (concat blocks) (i * n) n = some blocks[i] := by
  have hin : i * n + n ≤ (concat blocks).length := by
    rw [length_concat, ← Nat.succ_mul]
    exact Nat.mul_le_mul_right n hi
  have hdrop : (concat blocks).drop (i * n)
      = blocks[i].toList ++ concat (blocks.drop (i + 1)) := by
    rw [concat_split hi]
    exact List.drop_left' (length_concat_take hi.le)
  rw [readExact, dif_pos hin]
  congr 1
  apply List.Vector.toList_injective
  change ((concat blocks).drop (i * n)).take n = blocks[i].toList
  rw [hdrop]
  exact List.take_left' blocks[i].toList_length

end Ryther.Lib
