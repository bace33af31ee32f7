import Mathlib.Algebra.Order.Ring.Nat
import Mathlib.Data.List.Basic
import Mathlib.Logic.Relation

/-!
# Breadth-first search

A search with a queue and a set of visited nodes, over a graph given by a successor function of
finite support. The loop is bounded by fuel; `search_ne_none` says how much it needs.

* `search` — the loop; `none` is out of fuel.
* `search_ne_none` — one unit for each queued node and each edge out of an unvisited node.
* `exists_reaches_of_search`, `not_reaches_of_search` — the answer is reachability.
* `search_single_iff` — the search from one node.
-/

namespace Ryther.Lib

variable {α : Type*} {next : α → List α} {goal : α}

/-! ### Reachability -/

/-- One node leads to another along the successor function.
Kind: D -/
def Reaches (next : α → List α) : α → α → Prop := Relation.ReflTransGen fun a b => b ∈ next a

/-- The successors of visited nodes are visited or queued.
Kind: D -/
def Explored (next : α → List α) (visited queue : List α) : Prop :=
  ∀ a ∈ visited, ∀ b ∈ next a, b ∈ visited ∨ b ∈ queue

/-- A queued node that was visited before may be dropped. Kind: L -/
theorem Explored.skip {visited queue : List α} {current : α}
    (h : Explored next visited (current :: queue)) (hvisited : current ∈ visited) :
    Explored next visited queue := by
  intro a ha b hb
  rcases h a ha b hb with hb | hb
  · exact Or.inl hb
  · rcases List.mem_cons.mp hb with rfl | hb
    · exact Or.inl hvisited
    · exact Or.inr hb

/-- With nothing queued, no path leaves the visited nodes. Kind: L -/
theorem Explored.not_reaches {visited : List α} (h : Explored next visited [])
    (hgoal : goal ∉ visited) {a : α} (ha : a ∈ visited) : ¬ Reaches next a goal := by
  intro hreach
  refine hgoal (hreach.rec ha fun _ hbc hb => ?_)
  simpa using h _ hb _ hbc

/-! ### The loop -/

variable [DecidableEq α]

/-- Search for `goal` from the nodes of the queue.
Kind: D -/
def search (next : α → List α) (goal : α) : ℕ → List α → List α → Option Bool
  | _, [], _ => some false
  | 0, _ :: _, _ => none
  | fuel + 1, current :: queue, visited =>
      if current = goal then some true
      else if current ∈ visited then search next goal fuel queue visited
      else
        let visited := current :: visited
        search next goal fuel (queue ++ (next current).filter (· ∉ visited)) visited

/-! ### Fuel -/

/-- The number of edges out of unvisited nodes.
Kind: D -/
def openEdges (next : α → List α) (nodes visited : List α) : ℕ :=
  ((nodes.filter (· ∉ visited)).map fun a => (next a).length).sum

/-- Visiting a node takes its edges away. Kind: L -/
theorem openEdges_visit {nodes visited : List α} {current : α} (hnew : current ∉ visited)
    (hnodes : next current ≠ [] → current ∈ nodes) :
    openEdges next nodes (current :: visited) + (next current).length ≤
      openEdges next nodes visited := by
  have hmono : ∀ nodes : List α, openEdges next nodes (current :: visited) ≤
      openEdges next nodes visited := by
    intro nodes
    induction nodes with
    | nil => exact Nat.le_refl _
    | cons a nodes ih =>
        unfold openEdges at ih ⊢
        by_cases hcur : a = current <;> by_cases hvis : a ∈ visited <;>
          simp [hcur, hvis, hnew] <;> simp at ih <;> omega
  by_cases hnil : next current = []
  · rw [hnil]
    exact hmono nodes
  · have hmem := hnodes hnil
    clear hnodes
    induction nodes with
    | nil => cases hmem
    | cons a nodes ih =>
        have hrest := hmono nodes
        unfold openEdges at ih hrest ⊢
        by_cases hcur : a = current
        · subst hcur
          simp [hnew] at hrest ⊢
          omega
        · have hmem : current ∈ nodes := by
            rcases List.mem_cons.mp hmem with h | h
            · exact absurd h.symm hcur
            · exact h
          have ih := ih hmem
          by_cases hvis : a ∈ visited <;> simp [hcur, hvis] at ih ⊢ <;> omega

/-- **The search ends** with one unit of fuel for each queued node and each open edge. Kind: P -/
theorem search_ne_none {nodes : List α} (hnodes : ∀ a, next a ≠ [] → a ∈ nodes) (fuel : ℕ) :
    ∀ queue visited, queue.length + openEdges next nodes visited ≤ fuel →
      search next goal fuel queue visited ≠ none := by
  induction fuel with
  | zero =>
      intro queue visited h
      cases queue with
      | nil => simp [search]
      | cons a queue => simp at h
  | succ fuel ih =>
      intro queue visited h
      cases queue with
      | nil => simp [search]
      | cons current queue =>
          rw [List.length_cons] at h
          rw [search]
          split_ifs with hgoal hvisited
          · simp
          · exact ih _ _ (by omega)
          · refine ih _ _ ?_
            have hopen := openEdges_visit hvisited (hnodes current)
            have hfilter := List.length_filter_le (· ∉ current :: visited) (next current)
            rw [List.length_append]
            omega

/-! ### Answers -/

/-- A found goal is reached from the queue. Kind: P -/
theorem exists_reaches_of_search (fuel : ℕ) :
    ∀ queue visited, search next goal fuel queue visited = some true →
      ∃ a ∈ queue, Reaches next a goal := by
  induction fuel with
  | zero =>
      intro queue visited h
      cases queue <;> simp [search] at h
  | succ fuel ih =>
      intro queue visited h
      cases queue with
      | nil => simp [search] at h
      | cons current queue =>
          rw [search] at h
          split_ifs at h with hgoal hvisited
          · exact ⟨current, List.mem_cons_self, hgoal ▸ Relation.ReflTransGen.refl⟩
          · obtain ⟨a, ha, hreach⟩ := ih _ _ h
            exact ⟨a, List.mem_cons_of_mem _ ha, hreach⟩
          · obtain ⟨a, ha, hreach⟩ := ih _ _ h
            rcases List.mem_append.mp ha with ha | ha
            · exact ⟨a, List.mem_cons_of_mem _ ha, hreach⟩
            · exact ⟨current, List.mem_cons_self, hreach.head (List.mem_filter.mp ha).1⟩

/-- Visiting a queued node queues its new successors. Kind: L -/
theorem Explored.visit {visited queue : List α} {current : α}
    (h : Explored next visited (current :: queue)) :
    Explored next (current :: visited)
      (queue ++ (next current).filter (· ∉ current :: visited)) := by
  intro a ha b hb
  by_cases hbv : b ∈ current :: visited
  · exact Or.inl hbv
  · refine Or.inr (List.mem_append.mpr ?_)
    rcases List.mem_cons.mp ha with rfl | ha
    · exact Or.inr (List.mem_filter.mpr ⟨hb, by simpa using hbv⟩)
    · rcases h a ha b hb with hb | hb
      · exact absurd (List.mem_cons_of_mem _ hb) hbv
      · rcases List.mem_cons.mp hb with rfl | hb
        · exact absurd List.mem_cons_self hbv
        · exact Or.inl hb

/-- A search without success leaves nothing: the goal is not reachable from any node that was
visited or queued. Kind: P -/
theorem not_reaches_of_search (fuel : ℕ) :
    ∀ queue visited, search next goal fuel queue visited = some false → goal ∉ visited →
      Explored next visited queue → ∀ a, a ∈ visited ∨ a ∈ queue → ¬ Reaches next a goal := by
  have hdone : ∀ visited : List α, goal ∉ visited → Explored next visited [] →
      ∀ a, a ∈ visited ∨ a ∈ [] → ¬ Reaches next a goal := fun visited hgoal hexp a ha =>
    hexp.not_reaches hgoal (by simpa using ha)
  induction fuel with
  | zero =>
      intro queue visited h
      cases queue with
      | nil => exact hdone visited
      | cons a queue => simp [search] at h
  | succ fuel ih =>
      intro queue visited h hgoal hexp
      cases queue with
      | nil => exact hdone visited hgoal hexp
      | cons current queue =>
          rw [search] at h
          split_ifs at h with hcur hvisited
          · cases h
          · intro a ha
            apply ih _ _ h hgoal (hexp.skip hvisited)
            rcases ha with ha | ha
            · exact Or.inl ha
            · rcases List.mem_cons.mp ha with rfl | ha
              · exact Or.inl hvisited
              · exact Or.inr ha
          · intro a ha
            have hgoal' : goal ∉ current :: visited := fun hmem => by
              rcases List.mem_cons.mp hmem with h | h
              · exact hcur h.symm
              · exact hgoal h
            apply ih _ _ h hgoal' hexp.visit
            rcases ha with ha | ha
            · exact Or.inl (List.mem_cons_of_mem _ ha)
            · rcases List.mem_cons.mp ha with rfl | ha
              · exact Or.inl List.mem_cons_self
              · exact Or.inr (List.mem_append_left _ ha)

/-- **The search from one node decides reachability.** Kind: P -/
theorem search_single_iff {nodes : List α} (hnodes : ∀ a, next a ≠ [] → a ∈ nodes) {start : α}
    {fuel : ℕ} (hfuel : 1 + openEdges next nodes [] ≤ fuel) :
    search next goal fuel [start] [] = some true ↔ Reaches next start goal := by
  constructor
  · intro h
    obtain ⟨a, ha, hreach⟩ := exists_reaches_of_search fuel _ _ h
    rwa [List.mem_singleton.mp ha] at hreach
  · intro hreach
    cases hsearch : search next goal fuel [start] [] with
    | none => exact absurd hsearch (search_ne_none hnodes fuel _ _ (by simpa using hfuel))
    | some found =>
        cases found with
        | true => rfl
        | false =>
            have hexp : Explored next [] [start] := fun a ha => absurd ha List.not_mem_nil
            exact absurd hreach (not_reaches_of_search fuel _ _ hsearch List.not_mem_nil hexp start
              (Or.inr List.mem_cons_self))

end Ryther.Lib
