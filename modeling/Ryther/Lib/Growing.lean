import Mathlib.Data.List.Infix

/-!
# Sequences whose next element is determined

Sequences that grow at their end, where what may come next depends on what is there. If the next
element is determined, then any two of them are prefixes of one another.

* `Growing next l` — every element of `l` is allowed after the ones before it.
* `Growing.comparable` — with a determined next element, one of two sequences is a prefix of the
  other.
-/

namespace Ryther.Lib

variable {α : Type*} {next : List α → α → Prop}

/-- Every element of the sequence is allowed after the ones before it.
Kind: D -/
def Growing (next : List α → α → Prop) (l : List α) : Prop :=
  ∀ before x, before ++ [x] <+: l → next before x

/-- The empty sequence grows. Kind: L -/
theorem Growing.nil : Growing next [] := fun before x h => by simp at h

/-- A prefix of a growing sequence is growing. Kind: L -/
theorem Growing.of_prefix {l m : List α} (h : Growing next m) (hl : l <+: m) : Growing next l :=
  fun before x hx => h before x (hx.trans hl)

/-- Every element is allowed after the ones it follows. Kind: L -/
theorem Growing.next_take {l : List α} (h : Growing next l) {i : ℕ} {x : α} (hx : l[i]? = some x) :
    next (l.take i) x := by
  refine h (l.take i) x ?_
  have htake : l.take (i + 1) = l.take i ++ [x] := by simp [List.take_add_one, hx]
  rw [← htake]
  exact List.take_prefix _ _

/-- One more element. Kind: L -/
theorem Growing.concat {l : List α} {x : α} (h : Growing next l) (hx : next l x) :
    Growing next (l ++ [x]) := by
  intro before y hy
  rcases List.prefix_concat_iff.mp hy with heq | hprefix
  · obtain ⟨rfl, heq⟩ := List.append_inj' heq rfl
    rwa [List.singleton_inj.mp (List.append_cancel_left heq)]
  · exact h before y hprefix

/-- **Two growing sequences are comparable** if the next element is determined. By induction on the
first from its end. Kind: P -/
theorem Growing.comparable (hdet : ∀ before x y, next before x → next before y → x = y)
    {l m : List α} (hl : Growing next l) (hm : Growing next m) : l <+: m ∨ m <+: l := by
  induction l using List.reverseRecOn with
  | nil => exact Or.inl List.nil_prefix
  | append_singleton l x ih =>
      rcases ih (hl.of_prefix (List.prefix_append l [x])) with ⟨rest, rfl⟩ | h
      · cases rest with
        | nil => exact Or.inr (by simp)
        | cons y rest =>
            have hy : l ++ [y] <+: l ++ y :: rest := ⟨rest, by simp⟩
            rw [hdet l x y (hl l x List.prefix_rfl) (hm l y hy)]
            exact Or.inl hy
      · exact Or.inr (h.trans (List.prefix_append l [x]))

end Ryther.Lib
