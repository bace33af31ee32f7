import Mathlib.Data.List.Basic
import Mathlib.Tactic.Linarith

/-!
# Multi-version memory

The general store behind optimistic execution: every key holds at most one visible value per
sequence number, and a reader placed at `r` sees the newest one strictly below `r`.

* `newestBelow f r` — the newest entry of a column `f : ℕ → Option α` below `r`, with the
  sequence number it was found at.
* `Memory K V` — a flat base and one column per key; `Memory.read`, `Memory.put`.
* `Memory.run_ascending` — **the simulation**: transactions run in ascending order on the
  multi-version memory see, and leave behind, exactly what they see and leave on a flat map.
* `tuck` — a column may be kept as a list of repeated entries in which a new entry goes just
  before the last one; `foldl_tuck_nil` is the layout after a series of insertions.
-/

namespace Ryther.Lib

variable {K V α : Type*}

/-! ### The newest entry below a reader -/

/-- The newest entry of the column `f` strictly below `r`, with its sequence number.
Kind: D -/
def newestBelow (f : ℕ → Option α) : ℕ → Option (α × ℕ)
  | 0 => none
  | r + 1 =>
      match f r with
      | some v => some (v, r)
      | none => newestBelow f r

@[simp] theorem newestBelow_zero (f : ℕ → Option α) : newestBelow f 0 = none := rfl

/-- A version at the number just below is the newest. Kind: L -/
theorem newestBelow_succ_of_some {f : ℕ → Option α} {r : ℕ} {v : α} (h : f r = some v) :
    newestBelow f (r + 1) = some (v, r) := by
  simp only [newestBelow, h]

/-- A number without a version does not matter. Kind: L -/
theorem newestBelow_succ_of_none {f : ℕ → Option α} {r : ℕ} (h : f r = none) :
    newestBelow f (r + 1) = newestBelow f r := by
  simp only [newestBelow, h]

/-- A reader depends only on the entries below it. Kind: L -/
theorem newestBelow_congr {f g : ℕ → Option α} {r : ℕ} (h : ∀ q, q < r → f q = g q) :
    newestBelow f r = newestBelow g r := by
  induction r with
  | zero => rfl
  | succ r ih =>
      have hr := h r (by omega)
      have ih' := ih fun q hq => h q (by omega)
      simp only [newestBelow, hr, ih']

/-- Empty entries between two readers change nothing. Kind: L -/
theorem newestBelow_of_gap {f : ℕ → Option α} {s r : ℕ} (hsr : s ≤ r)
    (h : ∀ q, s ≤ q → q < r → f q = none) : newestBelow f r = newestBelow f s := by
  induction r with
  | zero => rw [Nat.le_zero.mp hsr]
  | succ r ih =>
      rcases Nat.lt_or_eq_of_le hsr with hlt | rfl
      · rw [newestBelow_succ_of_none (h r (by omega) (by omega))]
        exact ih (by omega) fun q hq hqr => h q hq (by omega)
      · rfl

/-- What it means to be the newest entry below a reader. Kind: L -/
theorem newestBelow_eq_some_iff {f : ℕ → Option α} {r q : ℕ} {v : α} :
    newestBelow f r = some (v, q) ↔
      q < r ∧ f q = some v ∧ ∀ p, q < p → p < r → f p = none := by
  induction r with
  | zero => simp
  | succ r ih =>
      cases hr : f r with
      | some w =>
          rw [newestBelow_succ_of_some hr]
          constructor
          · intro h
            cases h
            exact ⟨by omega, hr, fun p hp hp' => absurd hp' (by omega)⟩
          · rintro ⟨hq, hv, hgap⟩
            rcases Nat.lt_or_eq_of_le (Nat.lt_succ_iff.mp hq) with hlt | rfl
            · have := hgap r hlt (by omega)
              rw [hr] at this
              cases this
            · rw [hr] at hv
              cases hv
              rfl
      | none =>
          rw [newestBelow_succ_of_none hr, ih]
          constructor
          · rintro ⟨hq, hv, hgap⟩
            refine ⟨by omega, hv, fun p hp hp' => ?_⟩
            rcases Nat.lt_or_eq_of_le (Nat.lt_succ_iff.mp hp') with hlt | rfl
            · exact hgap p hp hlt
            · exact hr
          · rintro ⟨hq, hv, hgap⟩
            rcases Nat.lt_or_eq_of_le (Nat.lt_succ_iff.mp hq) with hlt | rfl
            · exact ⟨hlt, hv, fun p hp hp' => hgap p hp (by omega)⟩
            · rw [hr] at hv
              cases hv

/-- A reader finds nothing exactly when nothing is below it. Kind: L -/
theorem newestBelow_eq_none_iff {f : ℕ → Option α} {r : ℕ} :
    newestBelow f r = none ↔ ∀ q, q < r → f q = none := by
  constructor
  · intro h q hq
    induction r with
    | zero => omega
    | succ r ih =>
        cases hr : f r with
        | some w =>
            rw [newestBelow_succ_of_some hr] at h
            cases h
        | none =>
            rw [newestBelow_succ_of_none hr] at h
            rcases Nat.lt_or_eq_of_le (Nat.lt_succ_iff.mp hq) with hlt | rfl
            · exact ih h hlt
            · exact hr
  · intro h
    rw [newestBelow_of_gap (Nat.zero_le r) fun q _ hq => h q hq, newestBelow_zero]

/-- A column that extends another one, and shows its newest entry no later, shows the same entry.
Kind: L -/
theorem newestBelow_eq_of_extends {f g : ℕ → Option α} {r q q' : ℕ} {v v' : α}
    (hext : ∀ p, f p ≠ none → g p = f p) (hf : newestBelow f r = some (v', q'))
    (hg : newestBelow g r = some (v, q)) (hle : q ≤ q') : v' = v ∧ q' = q := by
  obtain ⟨hq', hv', -⟩ := newestBelow_eq_some_iff.mp hf
  obtain ⟨-, hv, hgap⟩ := newestBelow_eq_some_iff.mp hg
  have hgv : g q' = some v' := by
    rw [hext q' (by rw [hv']; simp), hv']
  have hqq : q' = q := by
    by_contra hne
    have hnone := hgap q' (by omega) hq'
    rw [hgv] at hnone
    cases hnone
  subst hqq
  rw [hgv] at hv
  exact ⟨Option.some.inj hv, rfl⟩

/-- An entry added at 0 is found exactly when nothing else is. Kind: L -/
theorem newestBelow_of_zero {f g : ℕ → Option α} {r : ℕ} {b : α} (hr : 0 < r) (hf : f 0 = none)
    (hg : g 0 = some b) (hrest : ∀ q, 0 < q → g q = f q) :
    newestBelow g r = some ((newestBelow f r).getD (b, 0)) := by
  cases hnew : newestBelow f r with
  | none =>
      have hnone := newestBelow_eq_none_iff.mp hnew
      exact newestBelow_eq_some_iff.mpr
        ⟨hr, hg, fun p hp hpr => by rw [hrest p hp, hnone p hpr]⟩
  | some p =>
      obtain ⟨u, q⟩ := p
      obtain ⟨hq, hu, hgap⟩ := newestBelow_eq_some_iff.mp hnew
      have hpos : 0 < q := by
        refine Nat.pos_of_ne_zero fun h => ?_
        rw [h, hf] at hu
        cases hu
      exact newestBelow_eq_some_iff.mpr
        ⟨hq, by rw [hrest q hpos, hu], fun p hp hpr => by rw [hrest p (by omega), hgap p hp hpr]⟩

/-! ### The memory and its flat counterpart -/

/-- A flat base with a column of newer entries for every key.
Kind: D -/
structure Memory (K V : Type*) where
  /-- The value of a key without entries. -/
  base : K → V
  /-- The entry of a key at a sequence number, if any. -/
  column : K → ℕ → Option V

namespace Memory

/-- What a reader at `r` sees.
Kind: D -/
def read (m : Memory K V) (k : K) (r : ℕ) : V :=
  match newestBelow (m.column k) r with
  | some (v, _) => v
  | none => m.base k

/-- Set the whole row at sequence number `s`.
Kind: D -/
def put (m : Memory K V) (s : ℕ) (row : K → Option V) : Memory K V where
  base := m.base
  column k q := if q = s then row k else m.column k q

/-- A row overrides a flat map.
Kind: D -/
def overlay (f : K → V) (row : K → Option V) : K → V := fun k => (row k).getD (f k)

/-- A row put at `s` is invisible to readers at or below `s`. Kind: L -/
theorem read_put_of_le (m : Memory K V) {s r : ℕ} (row : K → Option V) (k : K) (h : r ≤ s) :
    (m.put s row).read k r = m.read k r := by
  have hcol : newestBelow ((m.put s row).column k) r = newestBelow (m.column k) r :=
    newestBelow_congr fun q hq => if_neg (by omega)
  unfold read
  rw [hcol]
  rfl

/-- Readers above `s`, with nothing newer in between, see the row over what was below. Kind: L -/
theorem read_put_of_lt (m : Memory K V) {s r : ℕ} (row : K → Option V) (k : K) (h : s < r)
    (hgap : ∀ q, s < q → q < r → m.column k q = none) :
    (m.put s row).read k r = (row k).getD (m.read k s) := by
  have hgap' : ∀ q, s + 1 ≤ q → q < r → (m.put s row).column k q = none := fun q hq hqr => by
    have hne : q ≠ s := by omega
    simp only [put, if_neg hne]
    exact hgap q (by omega) hqr
  have hr : newestBelow ((m.put s row).column k) r = newestBelow ((m.put s row).column k) (s + 1) :=
    newestBelow_of_gap (by omega) hgap'
  have hs : (m.put s row).column k s = row k := if_pos rfl
  cases hrow : row k with
  | some v =>
      rw [hrow] at hs
      simp only [read, hr, newestBelow_succ_of_some hs, Option.getD_some]
  | none =>
      rw [hrow] at hs
      have := read_put_of_le m row k (le_refl s)
      simp only [read] at this
      simp only [read, hr, newestBelow_succ_of_none hs, Option.getD_none]
      exact this

/-- A transaction: its sequence number, and the row it writes and the answer it gives as functions
of what it sees.
Kind: D -/
structure Step (K V O : Type*) where
  seq : ℕ
  row : (K → V) → K → Option V
  out : (K → V) → O

variable {O : Type*}

/-- Run transactions one after the other on the memory, each reading at its own number: their
answers and the memory they leave.
Kind: D -/
def run (m : Memory K V) : List (Step K V O) → List O × Memory K V
  | [] => ([], m)
  | t :: ts =>
      let view := fun k => m.read k t.seq
      let rest := run (m.put t.seq (t.row view)) ts
      (t.out view :: rest.1, rest.2)

/-- Run transactions one after the other on a flat map. Numbers at the horizon leave no trace.
Kind: D -/
def runFlat (horizon : ℕ) (f : K → V) : List (Step K V O) → List O × (K → V)
  | [] => ([], f)
  | t :: ts =>
      let rest := runFlat horizon (if t.seq < horizon then overlay f (t.row f) else f) ts
      (t.out f :: rest.1, rest.2)

/-- No entry at or above `s`.
Kind: D -/
def BelowSeq (m : Memory K V) (s : ℕ) : Prop := ∀ k q, s ≤ q → m.column k q = none

/-- Putting a row at `s` leaves nothing above. Kind: L -/
theorem BelowSeq.put {m : Memory K V} {lo s : ℕ} (h : m.BelowSeq lo) (hs : lo ≤ s)
    (row : K → Option V) : (m.put s row).BelowSeq (s + 1) := fun k q hq => by
  have hne : q ≠ s := by omega
  simp only [Memory.put, if_neg hne]
  exact h k q (by omega)

/-- **The simulation.** Ascending transactions run on the memory give the answers, and leave for a
reader at the horizon the values, that they give and leave when run one at a time on a flat map.
Kind: P -/
theorem run_ascending {horizon : ℕ} (ts : List (Step K V O)) :
    ∀ (m : Memory K V) (f : K → V) (lo : ℕ), m.BelowSeq lo →
      (∀ k r, lo ≤ r → m.read k r = f k) → lo ≤ horizon →
      (∀ t ∈ ts, lo ≤ t.seq ∧ t.seq ≤ horizon) → ts.Pairwise (fun t u => t.seq < u.seq) →
      (m.run ts).1 = (runFlat horizon f ts).1 ∧
        ∀ k, (m.run ts).2.read k horizon = (runFlat horizon f ts).2 k := by
  induction ts with
  | nil => intro m f lo _ hread hlo _ _; exact ⟨rfl, fun k => hread k horizon hlo⟩
  | cons t ts ih =>
      intro m f lo hbelow hread hlo hseq hasc
      obtain ⟨htlo, hth⟩ := hseq t List.mem_cons_self
      obtain ⟨hhead, hasc⟩ := List.pairwise_cons.mp hasc
      have hview : (fun k => m.read k t.seq) = f := funext fun k => hread k t.seq htlo
      simp only [run, runFlat, hview]
      rcases Nat.lt_or_eq_of_le hth with hlt | heq
      · rw [if_pos hlt]
        have ih := ih (m.put t.seq (t.row f)) (overlay f (t.row f)) (t.seq + 1)
          (hbelow.put htlo _) (fun k r hr => ?_) hlt
          (fun u hu => ⟨hhead u hu, (hseq u (List.mem_cons_of_mem _ hu)).2⟩) hasc
        · exact ⟨by rw [ih.1], ih.2⟩
        · rw [read_put_of_lt m _ k hr fun q hq _ => hbelow k q (by omega), hread k t.seq htlo]
          rfl
      · -- nothing comes after the horizon, and a reader there does not see the last row
        have hnil : ts = [] := List.eq_nil_iff_forall_not_mem.mpr fun u hu => by
          have := hhead u hu
          have := (hseq u (List.mem_cons_of_mem _ hu)).2
          omega
        subst hnil
        refine ⟨rfl, fun k => ?_⟩
        rw [if_neg (by omega)]
        exact (read_put_of_le m _ k (by omega)).trans (hread k horizon hlo)

end Memory

/-! ### Runs of repeated entries -/

/-- Insert just before the last entry, or alone into an empty run.
Kind: D -/
def tuck (l : List α) (v : α) : List α := l.dropLast ++ v :: l.getLast?.toList

@[simp] theorem tuck_nil (v : α) : tuck [] v = [v] := rfl

/-- A value is tucked in before the last element. Kind: L -/
@[simp] theorem tuck_concat (l : List α) (a v : α) : tuck (l ++ [a]) v = l ++ [v, a] := by
  simp [tuck]

/-- Tucking adds one entry. Kind: L -/
theorem mem_tuck {l : List α} {v x : α} : x ∈ tuck l v ↔ x = v ∨ x ∈ l := by
  rcases List.eq_nil_or_concat l with rfl | ⟨l, a, rfl⟩
  · simp
  · rw [List.concat_eq_append, tuck_concat]
    simp only [List.mem_append, List.mem_cons, List.not_mem_nil, or_false]
    tauto

/-- Tucking into a non-empty run keeps its last entry last. Kind: L -/
theorem foldl_tuck_concat (ws l : List α) (a : α) :
    ws.foldl tuck (l ++ [a]) = l ++ ws ++ [a] := by
  induction ws generalizing l with
  | nil => simp
  | cons w ws ih =>
      have : l ++ [w, a] = (l ++ [w]) ++ [a] := by simp
      rw [List.foldl_cons, tuck_concat, this, ih]
      simp

/-- **Layout after a series of insertions** into an empty run: the first one ends up last.
Kind: P -/
theorem foldl_tuck_nil (w : α) (ws : List α) : (w :: ws).foldl tuck [] = ws ++ [w] := by
  simpa using foldl_tuck_concat ws [] w

/-- The second entry of a list, or its only one.
Kind: D -/
def secondOrOnly : List α → Option α
  | [] => none
  | [v] => some v
  | _ :: v :: _ => some v

/-- Only the empty list has no such element. Kind: L -/
@[simp] theorem secondOrOnly_eq_none_iff {l : List α} : secondOrOnly l = none ↔ l = [] := by
  rcases l with _ | ⟨v, _ | ⟨w, l⟩⟩ <;> simp [secondOrOnly]

end Ryther.Lib
