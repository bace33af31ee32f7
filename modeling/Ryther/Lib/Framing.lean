import Mathlib.Data.Vector.Basic

/-!
# Self-delimiting encodings

Strings that are hashed are often plain concatenations of fields. Such a string determines its
fields if each encoding but the last can be told from what follows it.

* `SelfDelimiting` — a value and the rest of a string can be read off.
* `selfDelimiting_of_length`, `selfDelimiting_vector` — fields of a fixed length.
* `SelfDelimiting.option` — an optional field behind a mark.
-/

namespace Ryther.Lib

variable {α β γ : Type*}

/-- Whatever follows it, an encoding determines its value and the rest.
Kind: D -/
def SelfDelimiting (encode : α → List β) : Prop :=
  ∀ ⦃a b rest rest'⦄, encode a ++ rest = encode b ++ rest' → a = b ∧ rest = rest'

/-- An injective encoding of a fixed length. Kind: L -/
theorem selfDelimiting_of_length {encode : α → List β} (hinj : Function.Injective encode) {n : ℕ}
    (hlen : ∀ a, (encode a).length = n) : SelfDelimiting encode := by
  intro a b rest rest' heq
  obtain ⟨hfield, hrest⟩ := List.append_inj heq ((hlen a).trans (hlen b).symm)
  exact ⟨hinj hfield, hrest⟩

/-- Vectors of one length end where their length says. Kind: L -/
theorem selfDelimiting_vector (n : ℕ) :
    SelfDelimiting (List.Vector.toList : List.Vector β n → List β) :=
  selfDelimiting_of_length List.Vector.toList_injective List.Vector.toList_length

/-- A value in another representation. Kind: L -/
theorem SelfDelimiting.comp {encode : α → List β} (h : SelfDelimiting encode) {f : γ → α}
    (hf : Function.Injective f) : SelfDelimiting fun c => encode (f c) := by
  intro a b rest rest' heq
  obtain ⟨hfield, hrest⟩ := h heq
  exact ⟨hf hfield, hrest⟩

/-- An optional value behind a mark that says whether it is there.
Kind: D -/
def encodeOption (present absent : β) (encode : α → List β) : Option α → List β
  | some a => present :: encode a
  | none => [absent]

/-- An optional value with a mark in front ends where the value does. Kind: L -/
theorem SelfDelimiting.option {encode : α → List β} (h : SelfDelimiting encode)
    {present absent : β} (hne : present ≠ absent) :
    SelfDelimiting (encodeOption present absent encode) := by
  intro a b rest rest' heq
  rcases a with _ | a <;> rcases b with _ | b <;>
    simp only [encodeOption, List.cons_append, List.nil_append, List.cons.injEq] at heq
  · exact ⟨rfl, heq.2⟩
  · exact absurd heq.1.symm hne
  · exact absurd heq.1 hne
  · obtain ⟨rfl, hrest⟩ := h heq.2
    exact ⟨rfl, hrest⟩

end Ryther.Lib
