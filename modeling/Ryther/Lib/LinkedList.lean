import Mathlib.Data.List.Basic
import Mathlib.Data.List.Nodup

/-!
# Doubly linked lists threaded through a vector

Nodes live in the slots of a vector and name their neighbours by index; a slot is free or holds a
node. `Segment slots before cells after` says that the cells, pairs of an index and a value, are
linked one after the other, the first one back to `before` and the last one on to `after`.

* `segment_append` — a segment splits at any cell; the two parts meet in one pair of links.
* `segment_congr` — a segment depends on its own slots only.
* `segment_unlink`, `segment_pushFront`, `segment_setValue` — the pointer updates that take a cell
  out, put one in front, and change a value.
* `Slots.shape` — which slots are free; no pointer update changes it.
-/

namespace Ryther.Lib

/-- A node of a doubly linked list.
Kind: D -/
structure ListNode (V : Type) where
  value : V
  prev : Option ℕ
  next : Option ℕ

/-- The slots of the vector.
Kind: D -/
abbrev Slots (V : Type) := List (Option (ListNode V))

variable {V : Type}

/-! ### Slots -/

namespace Slots

/-- Changes the node in a slot, if there is one.
Kind: D -/
def update (slots : Slots V) (i : ℕ) (f : ListNode V → ListNode V) : Slots V :=
  slots.modify i (Option.map f)

/-- Which slots hold a node.
Kind: D -/
def shape (slots : Slots V) : List Bool := slots.map Option.isSome

/-- An update changes the node of its own slot only. Kind: L -/
theorem getElem?_update (slots : Slots V) (i j : ℕ) (f : ListNode V → ListNode V) :
    (slots.update i f)[j]? = if i = j then slots[j]?.map (Option.map f) else slots[j]? := by
  unfold update
  rw [List.getElem?_modify]
  split <;> simp

theorem getElem?_update_self {slots : Slots V} {i : ℕ} {n : ListNode V}
    (h : slots[i]? = some (some n)) (f : ListNode V → ListNode V) :
    (slots.update i f)[i]? = some (some (f n)) := by
  rw [getElem?_update, if_pos rfl, h]
  rfl

/-- An update occupies and frees no slot. Kind: L -/
@[simp] theorem shape_update (slots : Slots V) (i : ℕ) (f : ListNode V → ListNode V) :
    (slots.update i f).shape = slots.shape := by
  apply List.ext_getElem?
  intro j
  unfold shape
  rw [List.getElem?_map, getElem?_update, List.getElem?_map]
  split
  · cases slots[j]? with
    | none => rfl
    | some o => cases o <;> rfl
  · rfl

/-- The shape marks the slots with a node. Kind: L -/
theorem getElem?_shape_eq_true {slots : Slots V} {i : ℕ} :
    slots.shape[i]? = some true ↔ ∃ n, slots[i]? = some (some n) := by
  unfold shape
  rw [List.getElem?_map]
  cases slots[i]? with
  | none => simp
  | some o => cases o <;> simp

/-- The shape tells a free slot from one that is not there. Kind: L -/
theorem getElem?_shape_eq_false {slots : Slots V} {i : ℕ} :
    slots.shape[i]? = some false ↔ slots[i]? = some none := by
  unfold shape
  rw [List.getElem?_map]
  cases slots[i]? with
  | none => simp
  | some o => cases o <;> simp

theorem shape_set (slots : Slots V) (i : ℕ) (o : Option (ListNode V)) :
    shape (slots.set i o) = slots.shape.set i o.isSome := by
  unfold shape
  rw [List.map_set]

/-! ### Pointer updates -/

/-- Lets the node before a gap point over it.
Kind: D -/
def relinkNext (slots : Slots V) (prev next : Option ℕ) : Slots V :=
  match prev with
  | none => slots
  | some p => slots.update p fun n => { n with next := next }

/-- Lets the node after a gap point over it.
Kind: D -/
def relinkPrev (slots : Slots V) (next prev : Option ℕ) : Slots V :=
  match next with
  | none => slots
  | some i => slots.update i fun n => { n with prev := prev }

/-- Lets the neighbours of a node point to each other.
Kind: D -/
def unlink (slots : Slots V) (prev next : Option ℕ) : Slots V :=
  (slots.relinkNext prev next).relinkPrev next prev

/-- Links a node in front of the list that starts at `head`.
Kind: D -/
def pushFront (slots : Slots V) (i : ℕ) (head : Option ℕ) : Slots V :=
  (slots.update i fun n => { n with prev := none, next := head }).relinkPrev head (some i)

@[simp] theorem shape_relinkNext (slots : Slots V) (prev next : Option ℕ) :
    (slots.relinkNext prev next).shape = slots.shape := by
  cases prev with
  | none => rfl
  | some p => exact shape_update slots p _

@[simp] theorem shape_relinkPrev (slots : Slots V) (next prev : Option ℕ) :
    (slots.relinkPrev next prev).shape = slots.shape := by
  cases next with
  | none => rfl
  | some i => exact shape_update slots i _

/-- Taking a node out of its chain frees no slot. Kind: L -/
@[simp] theorem shape_unlink (slots : Slots V) (prev next : Option ℕ) :
    (slots.unlink prev next).shape = slots.shape := by
  unfold unlink
  rw [shape_relinkPrev, shape_relinkNext]

/-- Putting a node in front of a chain occupies no slot. Kind: L -/
@[simp] theorem shape_pushFront (slots : Slots V) (i : ℕ) (head : Option ℕ) :
    (slots.pushFront i head).shape = slots.shape := by
  unfold pushFront
  rw [shape_relinkPrev, shape_update]

/-- Relinking forwards changes only the node that is linked from. Kind: L -/
theorem getElem?_relinkNext_of_ne {slots : Slots V} {prev : Option ℕ} {j : ℕ}
    (h : prev ≠ some j) (next : Option ℕ) : (slots.relinkNext prev next)[j]? = slots[j]? := by
  cases prev with
  | none => rfl
  | some p =>
      show (slots.update p _)[j]? = _
      rw [getElem?_update, if_neg fun hp => h (congrArg some hp)]

/-- Relinking backwards changes only the node that is linked from. Kind: L -/
theorem getElem?_relinkPrev_of_ne {slots : Slots V} {next : Option ℕ} {j : ℕ}
    (h : next ≠ some j) (prev : Option ℕ) : (slots.relinkPrev next prev)[j]? = slots[j]? := by
  cases next with
  | none => rfl
  | some i =>
      show (slots.update i _)[j]? = _
      rw [getElem?_update, if_neg fun hi => h (congrArg some hi)]

end Slots

open Slots

/-! ### Segments -/

/-- The index of the first cell, or what comes after no cells.
Kind: D -/
def firstOf : List (ℕ × V) → Option ℕ → Option ℕ
  | [], after => after
  | cell :: _, _ => some cell.1

/-- The index of the last cell, or what comes before no cells.
Kind: D -/
def lastOf : Option ℕ → List (ℕ × V) → Option ℕ
  | before, [] => before
  | _, cell :: cells => lastOf (some cell.1) cells

/-- The cells are linked one after the other.
Kind: D -/
def Segment (slots : Slots V) : Option ℕ → List (ℕ × V) → Option ℕ → Prop
  | _, [], _ => True
  | before, (i, v) :: cells, after =>
      slots[i]? = some (some ⟨v, before, firstOf cells after⟩) ∧ Segment slots (some i) cells after

/-- The first index of two chains in a row. Kind: L -/
theorem firstOf_append (l₁ l₂ : List (ℕ × V)) (after : Option ℕ) :
    firstOf (l₁ ++ l₂) after = firstOf l₁ (firstOf l₂ after) := by
  cases l₁ <;> rfl

/-- The last index of two chains in a row. Kind: L -/
theorem lastOf_append (before : Option ℕ) (l₁ l₂ : List (ℕ × V)) :
    lastOf before (l₁ ++ l₂) = lastOf (lastOf before l₁) l₂ := by
  induction l₁ generalizing before with
  | nil => rfl
  | cons cell l₁ ih => exact ih (some cell.1)

/-- After an index there is a last one. Kind: L -/
theorem lastOf_some_ne_none (i : ℕ) (l : List (ℕ × V)) : lastOf (some i) l ≠ none := by
  induction l generalizing i with
  | nil => exact Option.some_ne_none i
  | cons cell l ih => exact ih cell.1

/-- The first index is one of the chain. Kind: L -/
theorem mem_of_firstOf {l : List (ℕ × V)} {j : ℕ} (h : firstOf l none = some j) :
    j ∈ l.map Prod.fst := by
  cases l with
  | nil => cases h
  | cons cell l =>
      cases h
      exact List.mem_cons_self

/-- The last index is one of the chain. Kind: L -/
theorem mem_of_lastOf {l : List (ℕ × V)} {j : ℕ} (h : lastOf none l = some j) :
    j ∈ l.map Prod.fst := by
  rcases List.eq_nil_or_concat l with rfl | ⟨l', cell, rfl⟩
  · cases h
  · rw [List.concat_eq_append, lastOf_append] at h
    cases h
    simp

/-- A segment is its first node, linked to what is before and to the next, and a segment after it.
Kind: L -/
theorem segment_cons {slots : Slots V} {before after : Option ℕ} {cell : ℕ × V}
    {l : List (ℕ × V)} :
    Segment slots before (cell :: l) after ↔
      slots[cell.1]? = some (some ⟨cell.2, before, firstOf l after⟩) ∧
        Segment slots (some cell.1) l after :=
  Iff.rfl

/-- A segment splits anywhere, each part linked to the other. Kind: L -/
theorem segment_append {slots : Slots V} {before after : Option ℕ} {l₁ l₂ : List (ℕ × V)} :
    Segment slots before (l₁ ++ l₂) after ↔
      Segment slots before l₁ (firstOf l₂ after) ∧ Segment slots (lastOf before l₁) l₂ after := by
  induction l₁ generalizing before with
  | nil => exact ⟨fun h => ⟨trivial, h⟩, fun h => h.2⟩
  | cons cell l₁ ih =>
      rw [List.cons_append, segment_cons, segment_cons, firstOf_append, ih, and_assoc]
      rfl

/-- A segment depends on its own slots only. Kind: L -/
theorem segment_congr {slots slots' : Slots V} {before after : Option ℕ} {l : List (ℕ × V)}
    (h : Segment slots before l after) (hsame : ∀ j ∈ l.map Prod.fst, slots'[j]? = slots[j]?) :
    Segment slots' before l after := by
  induction l generalizing before with
  | nil => trivial
  | cons cell l ih =>
      refine ⟨(hsame _ List.mem_cons_self).trans h.1, ih h.2 fun j hj => ?_⟩
      exact hsame j (List.mem_cons_of_mem _ hj)

/-- The slots of a segment hold nodes, linked to cells of the segment or to its ends. Kind: L -/
theorem exists_node_of_mem {slots : Slots V} {l : List (ℕ × V)} {cell : ℕ × V}
    (h : Segment slots none l none) (hmem : cell ∈ l) :
    ∃ l₁ l₂, l = l₁ ++ cell :: l₂ ∧
      slots[cell.1]? = some (some ⟨cell.2, lastOf none l₁, firstOf l₂ none⟩) := by
  obtain ⟨l₁, l₂, rfl⟩ := List.append_of_mem hmem
  exact ⟨l₁, l₂, rfl, (segment_append.mp h).2.1⟩

/-- Relinking the last node of a segment from the head moves its end. Kind: L -/
theorem segment_relinkNext {slots : Slots V} {l : List (ℕ × V)} {after : Option ℕ}
    (hnodup : (l.map Prod.fst).Nodup) (h : Segment slots none l after) (after' : Option ℕ) :
    Segment (slots.relinkNext (lastOf none l) after') none l after' := by
  rcases List.eq_nil_or_concat l with rfl | ⟨l', cell, rfl⟩
  · trivial
  rw [List.concat_eq_append] at h hnodup ⊢
  rw [List.map_append, List.nodup_append'] at hnodup
  rw [lastOf_append]
  obtain ⟨hinit, hlast, -⟩ := segment_append.mp h
  refine segment_append.mpr ⟨?_, ?_, trivial⟩
  · -- only the last cell changes
    refine segment_congr hinit fun j hj => getElem?_relinkNext_of_ne ?_ _
    rintro ⟨⟩
    exact hnodup.2.2 hj List.mem_cons_self
  · exact getElem?_update_self hlast _

/-- Relinking the first node of a segment up to the tail moves its beginning. Kind: L -/
theorem segment_relinkPrev {slots : Slots V} {l : List (ℕ × V)} {before : Option ℕ}
    (hnodup : (l.map Prod.fst).Nodup) (h : Segment slots before l none) (before' : Option ℕ) :
    Segment (slots.relinkPrev (firstOf l none) before') before' l none := by
  cases l with
  | nil => trivial
  | cons cell l =>
      refine ⟨getElem?_update_self h.1 _, segment_congr h.2 fun j hj => ?_⟩
      -- only the first cell changes
      apply getElem?_relinkPrev_of_ne
      rintro ⟨⟩
      exact (List.nodup_cons.mp hnodup).1 hj

/-- **Unlinking takes one cell out.** Kind: L -/
theorem segment_unlink {slots : Slots V} {l₁ l₂ : List (ℕ × V)} {cell : ℕ × V}
    (hnodup : ((l₁ ++ cell :: l₂).map Prod.fst).Nodup)
    (h : Segment slots none (l₁ ++ cell :: l₂) none) :
    Segment (slots.unlink (lastOf none l₁) (firstOf l₂ none)) none (l₁ ++ l₂) none ∧
      (slots.unlink (lastOf none l₁) (firstOf l₂ none))[cell.1]? = slots[cell.1]? := by
  rw [List.map_append, List.map_cons, List.nodup_append', List.nodup_cons,
    List.disjoint_cons_right] at hnodup
  obtain ⟨hnodup₁, ⟨hcell₂, hnodup₂⟩, hcell₁, hdisj⟩ := hnodup
  obtain ⟨hseg₁, -, hseg₂⟩ := segment_append.mp h
  have hlast : ∀ j ∉ l₁.map Prod.fst, lastOf none l₁ ≠ some j :=
    fun j hj hlast => hj (mem_of_lastOf hlast)
  have hfirst : ∀ j ∉ l₂.map Prod.fst, firstOf l₂ none ≠ some j :=
    fun j hj hfirst => hj (mem_of_firstOf hfirst)
  constructor
  · refine segment_append.mpr ⟨?_, ?_⟩
    · refine segment_congr (segment_relinkNext hnodup₁ hseg₁ _) fun j hj => ?_
      exact getElem?_relinkPrev_of_ne (hfirst j fun hj' => hdisj hj hj') _
    · refine segment_relinkPrev hnodup₂ (segment_congr hseg₂ fun j hj => ?_) _
      exact getElem?_relinkNext_of_ne (hlast j fun hj' => hdisj hj' hj) _
  · unfold unlink
    rw [getElem?_relinkPrev_of_ne (hfirst _ hcell₂), getElem?_relinkNext_of_ne (hlast _ hcell₁)]

/-- **Pushing puts one cell in front.** Kind: L -/
theorem segment_pushFront {slots : Slots V} {l : List (ℕ × V)} {i : ℕ} {n : ListNode V}
    (hnodup : (l.map Prod.fst).Nodup) (h : Segment slots none l none)
    (hnode : slots[i]? = some (some n)) (hnew : i ∉ l.map Prod.fst) :
    Segment (slots.pushFront i (firstOf l none)) none ((i, n.value) :: l) none := by
  constructor
  · unfold pushFront
    rw [getElem?_relinkPrev_of_ne fun hfirst => hnew (mem_of_firstOf hfirst)]
    exact getElem?_update_self hnode _
  · refine segment_relinkPrev hnodup (segment_congr h fun j hj => ?_) _
    rw [getElem?_update, if_neg]
    rintro rfl
    exact hnew hj

/-- Changing the value of one node. Kind: L -/
theorem segment_setValue {slots : Slots V} {l₁ l₂ : List (ℕ × V)} {i : ℕ} {v : V}
    (hnodup : ((l₁ ++ (i, v) :: l₂).map Prod.fst).Nodup)
    (h : Segment slots none (l₁ ++ (i, v) :: l₂) none) (v' : V) :
    Segment (slots.update i fun n => { n with value := v' }) none (l₁ ++ (i, v') :: l₂) none := by
  rw [List.map_append, List.map_cons, List.nodup_append', List.nodup_cons,
    List.disjoint_cons_right] at hnodup
  obtain ⟨-, ⟨hcell₂, -⟩, hcell₁, -⟩ := hnodup
  obtain ⟨hseg₁, hnode, hseg₂⟩ := segment_append.mp h
  have hother : ∀ l : List (ℕ × V), i ∉ l.map Prod.fst → ∀ j ∈ l.map Prod.fst,
      (slots.update i fun n => { n with value := v' })[j]? = slots[j]? := by
    intro l hi j hj
    rw [getElem?_update, if_neg]
    rintro rfl
    exact hi hj
  exact segment_append.mpr ⟨segment_congr hseg₁ (hother l₁ hcell₁),
    getElem?_update_self hnode _, segment_congr hseg₂ (hother l₂ hcell₂)⟩

end Ryther.Lib
