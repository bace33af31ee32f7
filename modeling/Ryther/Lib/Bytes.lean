import Mathlib.Data.Vector.Basic
import Mathlib.Data.Fintype.Vector
import Mathlib.Tactic.Ring

/-!
# Fixed-length byte strings and positional encodings

* `Bytes n` — byte strings of length `n`, the arrays `[u8; n]`.
* `leBytes k n` / `beBytes k n` — the `k` low bytes of `n`, least / most significant first, and
  `ofLeBytes` / `ofBeBytes`, the number a byte string denotes. Decoding inverts encoding
  (`ofLeBytes_leBytes`, `ofBeBytes_beBytes`), so encodings are injective below `256 ^ k`
  (`beBytes_injective`); strings of one length are injective in turn (`eq_of_ofBeBytes_eq`).
-/

namespace Ryther.Lib

/-- A byte string of length `n`: the array type `[u8; n]`.
Kind: D -/
abbrev Bytes (n : ℕ) := List.Vector UInt8 n

/-- There are finitely many bytes. Kind: L -/
instance instFintypeUInt8 : Fintype UInt8 :=
  Fintype.ofBijective (fun i : Fin 256 => UInt8.ofNat i) <| by
    constructor
    · intro i j h
      have h' := congrArg UInt8.toNat h
      simp only [UInt8.toNat_ofNat'] at h'
      exact Fin.ext (by omega)
    · intro b
      exact ⟨⟨b.toNat, b.toNat_lt⟩, by simp⟩

/-- The array filled with one byte, `[b; n]`.
Kind: D -/
def Bytes.fill (n : ℕ) (b : UInt8) : Bytes n := List.Vector.replicate n b

/-! ### Little- and big-endian encodings -/

/-- The `k` low bytes of `n`, least significant first.
Kind: D -/
def leBytes : ℕ → ℕ → List UInt8
  | 0, _ => []
  | k + 1, n => UInt8.ofNat n :: leBytes k (n / 256)

/-- The `k` low bytes of `n`, most significant first.
Kind: D -/
def beBytes (k n : ℕ) : List UInt8 := (leBytes k n).reverse

/-- The number a byte string denotes, least significant byte first.
Kind: D -/
def ofLeBytes : List UInt8 → ℕ
  | [] => 0
  | b :: bs => b.toNat + 256 * ofLeBytes bs

/-- The number a byte string denotes, most significant byte first.
Kind: D -/
def ofBeBytes (bs : List UInt8) : ℕ := ofLeBytes bs.reverse

/-- A number is written with as many bytes as are asked for. Kind: L -/
@[simp] theorem length_leBytes (k n : ℕ) : (leBytes k n).length = k := by
  induction k generalizing n with
  | zero => rfl
  | succ k ih => simp [leBytes, ih]

@[simp] theorem length_beBytes (k n : ℕ) : (beBytes k n).length = k := by
  simp [beBytes]

/-- Decoding an encoding keeps the low `k` bytes. Kind: P -/
theorem ofLeBytes_leBytes (k n : ℕ) : ofLeBytes (leBytes k n) = n % 256 ^ k := by
  induction k generalizing n with
  | zero => simp [leBytes, ofLeBytes, Nat.mod_one]
  | succ k ih =>
      simp only [leBytes, ofLeBytes, ih, UInt8.toNat_ofNat']
      rw [show (256 : ℕ) ^ (k + 1) = 256 * 256 ^ k by ring, Nat.mod_mul]

/-- Big-endian decoding of an encoding. Kind: P -/
theorem ofBeBytes_beBytes (k n : ℕ) : ofBeBytes (beBytes k n) = n % 256 ^ k := by
  simp [ofBeBytes, beBytes, ofLeBytes_leBytes]

/-- Big-endian encodings of `k` bytes tell numbers below `256 ^ k` apart. Kind: P -/
theorem beBytes_injective {k m n : ℕ} (hm : m < 256 ^ k) (hn : n < 256 ^ k)
    (h : beBytes k m = beBytes k n) : m = n := by
  have h' := congrArg ofBeBytes h
  rwa [ofBeBytes_beBytes, ofBeBytes_beBytes, Nat.mod_eq_of_lt hm, Nat.mod_eq_of_lt hn] at h'

/-- The value of little-endian bytes, by a front part and the rest. Kind: L -/
theorem ofLeBytes_append (xs ys : List UInt8) :
    ofLeBytes (xs ++ ys) = ofLeBytes xs + 256 ^ xs.length * ofLeBytes ys := by
  induction xs with
  | nil => simp [ofLeBytes]
  | cons b xs ih =>
      rw [List.cons_append, ofLeBytes, ofLeBytes, ih, List.length_cons]
      ring

/-- The first string stands at the higher places. Kind: L -/
theorem ofBeBytes_append (xs ys : List UInt8) :
    ofBeBytes (xs ++ ys) = 256 ^ ys.length * ofBeBytes xs + ofBeBytes ys := by
  rw [ofBeBytes, List.reverse_append, ofLeBytes_append, List.length_reverse, Nat.add_comm]
  rfl

/-- The value of little-endian bytes is bounded by their number. Kind: L -/
theorem ofLeBytes_lt (bs : List UInt8) : ofLeBytes bs < 256 ^ bs.length := by
  induction bs with
  | nil => exact Nat.one_pos
  | cons b bs ih =>
      have hb := b.toNat_lt
      rw [ofLeBytes, List.length_cons, Nat.pow_succ]
      omega

/-- The value of big-endian bytes is bounded by their number. Kind: L -/
theorem ofBeBytes_lt (bs : List UInt8) : ofBeBytes bs < 256 ^ bs.length := by
  have h := ofLeBytes_lt bs.reverse
  rwa [List.length_reverse] at h

/-- Encoding what a byte string denotes gives it back. Kind: P -/
theorem leBytes_ofLeBytes (bs : List UInt8) : leBytes bs.length (ofLeBytes bs) = bs := by
  induction bs with
  | nil => rfl
  | cons b bs ih =>
      have hb := b.toNat_lt
      have hlow : UInt8.ofNat (b.toNat + 256 * ofLeBytes bs) = b := by
        apply UInt8.toNat_inj.mp
        rw [UInt8.toNat_ofNat']
        omega
      have hhigh : (b.toNat + 256 * ofLeBytes bs) / 256 = ofLeBytes bs := by omega
      rw [ofLeBytes, List.length_cons, leBytes, hlow, hhigh, ih]

/-- Byte strings of one length are told apart by what they denote. Kind: L -/
theorem eq_of_ofBeBytes_eq {xs ys : List UInt8} (hlength : xs.length = ys.length)
    (h : ofBeBytes xs = ofBeBytes ys) : xs = ys := by
  apply List.reverse_injective
  have hx := leBytes_ofLeBytes xs.reverse
  have hy := leBytes_ofLeBytes ys.reverse
  rw [List.length_reverse] at hx hy
  rw [← hx, ← hy, hlength]
  exact congrArg (leBytes ys.length) h

/-! ### Digests -/

/-- The 32-byte digest that denotes `n`.
Kind: D -/
def digest (n : ℕ) : Bytes 32 := ⟨beBytes 32 n, by simp⟩

/-- Digests tell numbers below `2 ^ 256` apart. Kind: L -/
theorem digest_injective {m n : ℕ} (hm : m < 2 ^ 256) (hn : n < 2 ^ 256)
    (h : digest m = digest n) : m = n :=
  beBytes_injective (k := 32) (by omega) (by omega) (congrArg Subtype.val h)

/-- A hash function given by its digests on finitely many inputs.
Kind: D -/
def tableHash (table : List (List UInt8 × ℕ)) (data : List UInt8) : Bytes 32 :=
  digest ((table.lookup data).getD 0)

end Ryther.Lib
