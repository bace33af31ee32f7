import Mathlib.Data.Vector.Zip
import Ryther.Lib.Bytes

/-!
# Exclusive or of byte strings

* `Bytes.xor` — byte by byte. Every string is its own inverse (`Bytes.xor_self`), so doubling gives
  zero.
* `Bytes.xorAll` — the sum of a list; `xorAll_map_ite` collects equal summands by their parity.
-/

namespace Ryther.Lib

namespace Bytes

variable {n : ℕ}

/-- Exclusive or, byte by byte.
Kind: D -/
def xor (a b : Bytes n) : Bytes n := List.Vector.zipWith (· ^^^ ·) a b

@[simp] theorem get_xor (a b : Bytes n) (i : Fin n) : (a.xor b).get i = a.get i ^^^ b.get i :=
  List.Vector.zipWith_get _ _ _ _

@[simp] theorem get_fill (b : UInt8) (i : Fin n) : (fill n b).get i = b :=
  List.Vector.get_replicate _ _

/-- The sum of byte strings is commutative. Kind: L -/
theorem xor_comm (a b : Bytes n) : a.xor b = b.xor a := by
  ext i
  simp [UInt8.xor_comm]

/-- The sum of byte strings is associative. Kind: L -/
theorem xor_assoc (a b c : Bytes n) : (a.xor b).xor c = a.xor (b.xor c) := by
  ext i
  simp [UInt8.xor_assoc]

instance : Std.Commutative (xor (n := n)) := ⟨xor_comm⟩

instance : Std.Associative (xor (n := n)) := ⟨xor_assoc⟩

/-- Doubling gives zero. Kind: L -/
@[simp] theorem xor_self (a : Bytes n) : a.xor a = fill n 0 := by
  ext i
  simp

@[simp] theorem xor_zero (a : Bytes n) : a.xor (fill n 0) = a := by
  ext i
  simp

@[simp] theorem zero_xor (a : Bytes n) : (fill n 0).xor a = a := by
  rw [xor_comm, xor_zero]

/-- Adding a byte string twice changes nothing. Kind: L -/
@[simp] theorem xor_xor_cancel (a b : Bytes n) : a.xor (a.xor b) = b := by
  rw [← xor_assoc, xor_self, zero_xor]

/-! ### Sums -/

/-- The sum of some strings.
Kind: D -/
def xorAll (l : List (Bytes n)) : Bytes n := l.foldr xor (fill n 0)

@[simp] theorem xorAll_nil : xorAll ([] : List (Bytes n)) = fill n 0 := rfl

@[simp] theorem xorAll_cons (a : Bytes n) (l : List (Bytes n)) :
    xorAll (a :: l) = a.xor (xorAll l) := rfl

/-- A sum from the left, from any start. Kind: L -/
theorem foldl_xor (l : List (Bytes n)) (a : Bytes n) : l.foldl xor a = a.xor (xorAll l) := by
  induction l generalizing a with
  | nil => rw [List.foldl_nil, xorAll_nil, xor_zero]
  | cons b l ih => rw [List.foldl_cons, ih, xorAll_cons, xor_assoc]

/-- A sum of values from the left. Kind: L -/
theorem foldl_xor_map {ι : Type} (f : ι → Bytes n) (l : List ι) (a : Bytes n) :
    l.foldl (fun a i => a.xor (f i)) a = a.xor (xorAll (l.map f)) := by
  rw [← foldl_xor, List.foldl_map]

/-- The order of the summands does not matter. Kind: L -/
theorem xorAll_reverse (l : List (Bytes n)) : xorAll l.reverse = xorAll l := by
  rw [xorAll, List.foldr_reverse]
  have hflip : (fun a b : Bytes n => b.xor a) = xor := funext fun a => funext fun b => xor_comm b a
  rw [hflip, foldl_xor, zero_xor]

/-- The order of the summands does not matter. Kind: L -/
theorem xorAll_perm {l l' : List (Bytes n)} (h : l.Perm l') : xorAll l = xorAll l' :=
  h.foldr_op_eq

/-- The string, or zero.
Kind: D -/
def keepIf (p : Bool) (a : Bytes n) : Bytes n := if p then a else fill n 0

@[simp] theorem keepIf_true (a : Bytes n) : keepIf true a = a := rfl

@[simp] theorem keepIf_false (a : Bytes n) : keepIf false a = fill n 0 := rfl

/-- Two kept copies of one string. Kind: L -/
theorem keepIf_xor_keepIf (p q : Bool) (a : Bytes n) :
    (keepIf p a).xor (keepIf q a) = keepIf (p ^^ q) a := by
  cases p <;> cases q <;> simp

/-- A kept sum. Kind: L -/
theorem keepIf_xor (p : Bool) (a b : Bytes n) :
    keepIf p (a.xor b) = (keepIf p a).xor (keepIf p b) := by
  cases p <;> simp

/-- **Copies of one string cancel in pairs**: what is left of them depends on the parity of their
number. Kind: P -/
theorem xorAll_map_keepIf {ι : Type} (p : ι → Bool) (a : Bytes n) (l : List ι) :
    xorAll (l.map fun i => keepIf (p i) a) = keepIf ((l.countP p) % 2 == 1) a := by
  induction l with
  | nil => rfl
  | cons i l ih =>
      rw [List.map_cons, xorAll_cons, ih, keepIf_xor_keepIf, List.countP_cons]
      congr 1
      cases p i with
      | false => simp
      | true =>
          rcases Nat.mod_two_eq_zero_or_one (l.countP p) with h | h
          · simp [Nat.add_mod, h]
          · simp [Nat.add_mod, h]

/-- Sums add up. Kind: L -/
theorem xorAll_map_xor {ι : Type} (f g : ι → Bytes n) (l : List ι) :
    xorAll (l.map fun i => (f i).xor (g i)) = (xorAll (l.map f)).xor (xorAll (l.map g)) := by
  induction l with
  | nil => simp
  | cons i l ih =>
      simp only [List.map_cons, xorAll_cons, ih]
      ac_rfl

end Bytes

end Ryther.Lib
