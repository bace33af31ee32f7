import Mathlib.Data.List.AList
import Ryther.Lib.Bytes
import Ryther.Lib.Framing

/-!
# Core types: addresses, keys and 256-bit words

The types of `src/types/mod.rs` that the subsystems below share.

* `U256` is four `u64` limbs, least significant first; `U256.toNat` is the number they denote.
* `wrappingAdd` is the limb loop with carries, and it is addition modulo `2 ^ 256`
  (`toNat_wrappingAdd`).
* `toBeBytes` and `StateKey.toBytes` are the byte layouts hashed by the Merkle tree; both are
  injective (`U256.toBeBytes_injective`, `StateKey.toBytes_injective`).

Hash maps (`HashMap`, `DashMap`) are association lists without repeated keys, `AList`; the order
of the entries stands for the unspecified iteration order. Arithmetic on `u64` is that of a
release build: it wraps.
-/

namespace Ryther

open Lib

/-- A finite map with an unspecified iteration order: `HashMap` and `DashMap`.
Kind: D -/
abbrev HashMap (K V : Type) := AList fun _ : K => V

/-- The largest `u64`.
Kind: D -/
abbrev u64Max : UInt64 := 18446744073709551615

/-- The successor of a `u64` below the largest. Kind: L -/
theorem toNat_succ {s : UInt64} (hmax : s ≠ u64Max) : (s + 1).toNat = s.toNat + 1 := by
  have h1 := s.toNat_lt
  have h2 : s.toNat ≠ 18446744073709551615 := fun h => hmax (UInt64.toNat_inj.mp h)
  rw [UInt64.toNat_add]
  exact Nat.mod_eq_of_lt (by change s.toNat + 1 < 2 ^ 64; omega)

/-- Only the largest `u64` has a successor that wraps. Kind: L -/
theorem succ_eq_zero_iff {s : UInt64} : s + 1 = 0 ↔ s = u64Max := by
  constructor
  · intro h
    by_contra hne
    have hnat := congrArg UInt64.toNat h
    rw [toNat_succ hne] at hnat
    exact absurd hnat (Nat.succ_ne_zero _)
  · rintro rfl
    rfl

/-- A number below another is not `u64::MAX`. Kind: L -/
theorem ne_u64Max_of_lt {s r : UInt64} (h : s < r) : s ≠ u64Max := by
  rintro rfl
  have hlt : 18446744073709551615 < r.toNat := UInt64.lt_iff_toNat_lt.mp h
  have hr := r.toNat_lt
  omega

/-- The larger of two `u64`s is the larger of their values. Kind: L -/
theorem toNat_max (a b : UInt64) : (max a b).toNat = max a.toNat b.toNat := by
  rw [show max a b = if a ≤ b then b else a from rfl]
  split
  · next hle =>
      rw [UInt64.le_iff_toNat_le] at hle
      omega
  · next hle =>
      rw [UInt64.le_iff_toNat_le] at hle
      omega

/-- The smaller of two `u64`s is the smaller of their values. Kind: L -/
theorem toNat_min (a b : UInt64) : (min a b).toNat = min a.toNat b.toNat := by
  rw [show min a b = if a ≤ b then a else b from rfl]
  split
  · next hle =>
      rw [UInt64.le_iff_toNat_le] at hle
      omega
  · next hle =>
      rw [UInt64.le_iff_toNat_le] at hle
      omega

/-- The maximum of two is `u64::MAX` exactly if one of them is. Kind: L -/
theorem max_eq_u64Max_iff (a b : UInt64) : max a b = u64Max ↔ a = u64Max ∨ b = u64Max := by
  have htop : ∀ n : UInt64, n = u64Max ↔ n.toNat = 2 ^ 64 - 1 := fun n => by
    rw [← UInt64.toNat_inj]
    rfl
  have ha := a.toNat_lt
  have hb := b.toNat_lt
  rw [htop, htop, htop, toNat_max]
  omega

/-- The maximum of a list is `u64::MAX` exactly if that is in the list or the start. Kind: L -/
theorem foldl_max_eq_u64Max_iff (l : List UInt64) (a : UInt64) :
    l.foldl max a = u64Max ↔ a = u64Max ∨ u64Max ∈ l := by
  induction l generalizing a with
  | nil => simp
  | cons b l ih =>
      rw [List.foldl_cons, ih, max_eq_u64Max_iff, List.mem_cons, or_assoc, eq_comm (a := u64Max)]

/-- The largest of some numbers is not below any of them. Kind: L -/
theorem le_foldl_max (l : List UInt64) (a : UInt64) :
    a ≤ l.foldl max a ∧ ∀ b ∈ l, b ≤ l.foldl max a := by
  induction l generalizing a with
  | nil => exact ⟨UInt64.le_refl _, fun b hb => absurd hb List.not_mem_nil⟩
  | cons c l ih =>
      obtain ⟨hfirst, hrest⟩ := ih (max a c)
      rw [UInt64.le_iff_toNat_le, toNat_max] at hfirst
      have ha : a ≤ l.foldl max (max a c) := UInt64.le_iff_toNat_le.mpr (by omega)
      have hc : c ≤ l.foldl max (max a c) := UInt64.le_iff_toNat_le.mpr (by omega)
      refine ⟨ha, fun b hb => ?_⟩
      rcases List.mem_cons.mp hb with rfl | hb
      · exact hc
      · exact hrest b hb

/-! ### Functions without collisions -/

/-- `f` tells the members of `xs` apart.
Kind: D -/
def InjectiveOn {α β : Type} (f : α → β) (xs : List α) : Prop :=
  ∀ x ∈ xs, ∀ y ∈ xs, f x = f y → x = y

instance {α β : Type} [DecidableEq α] [DecidableEq β] (f : α → β) (xs : List α) :
    Decidable (InjectiveOn f xs) :=
  inferInstanceAs (Decidable (∀ x ∈ xs, ∀ y ∈ xs, f x = f y → x = y))

/-- What is injective on a list is so on a part of it. Kind: L -/
theorem InjectiveOn.mono {α β : Type} {f : α → β} {xs ys : List α} (h : InjectiveOn f ys)
    (hsub : ∀ x ∈ xs, x ∈ ys) : InjectiveOn f xs :=
  fun x hx y hy => h x (hsub x hx) y (hsub y hy)

/-! ### Maps built by insertion -/

/-- What is found after an insertion is the new value or was there before. Kind: L -/
theorem lookup_insert_cases {K V : Type} [DecidableEq K] {m : HashMap K V} {k a : K} {v w : V}
    (h : (m.insert k v).lookup a = some w) : (a = k ∧ w = v) ∨ (a ≠ k ∧ m.lookup a = some w) := by
  rcases eq_or_ne a k with rfl | hne
  · rw [AList.lookup_insert] at h
    exact .inl ⟨rfl, (Option.some.inj h).symm⟩
  · rw [AList.lookup_insert_ne hne] at h
    exact .inr ⟨hne, h⟩

/-- Only a new key makes a map longer. Kind: L -/
theorem length_keys_insert {K V : Type} [DecidableEq K] (m : HashMap K V) (k : K) (v : V) :
    (m.insert k v).keys.length = if k ∈ m then m.keys.length else m.keys.length + 1 := by
  rw [AList.keys_insert, List.length_cons]
  split_ifs with hmem
  · have hmem' : k ∈ m.keys := AList.mem_keys.mp hmem
    rw [List.length_erase_of_mem hmem']
    have hpos : 0 < m.keys.length := List.length_pos_of_mem hmem'
    omega
  · rw [List.erase_of_not_mem fun h => hmem (AList.mem_keys.mpr h)]

/-- After any insertions a key has the last value inserted under it, or the one it had. By induction
from the end. Kind: L -/
theorem lookup_foldl_insert_key {V K : Type} [DecidableEq K] (key : V → K) (l : List V)
    (m : HashMap K V) (k : K) :
    (l.foldl (fun m v => m.insert (key v) v) m).lookup k =
      ((l.filter fun v => key v = k).getLast?).or (m.lookup k) := by
  induction l using List.reverseRecOn with
  | nil => rfl
  | append_singleton l v ih =>
      rw [List.foldl_append, List.filter_append]
      by_cases hkey : key v = k
      · subst hkey
        simp
      · simp [AList.lookup_insert_ne (Ne.symm hkey), ih, hkey]

/-- Inserting new keys one after the other. Kind: L -/
theorem entries_foldl_insert {α K V : Type} [DecidableEq K] (key : α → K) (val : α → V)
    (l : List α) (m : HashMap K V) (hnodup : (l.map key).Nodup) (hnew : ∀ a ∈ l, key a ∉ m) :
    (l.foldl (fun m a => m.insert (key a) (val a)) m).entries =
      (l.map fun a => (⟨key a, val a⟩ : Sigma fun _ : K => V)).reverse ++ m.entries := by
  induction l generalizing m with
  | nil => simp
  | cons a l ih =>
      obtain ⟨hnot, hnodup⟩ := List.nodup_cons.mp hnodup
      rw [List.foldl_cons, ih _ hnodup]
      · rw [AList.entries_insert_of_notMem (hnew a List.mem_cons_self)]
        simp
      · intro b hb hmem
        rcases (AList.mem_insert _).mp hmem with heq | hmem
        · exact hnot (heq ▸ List.mem_map_of_mem hb)
        · exact hnew b (List.mem_cons_of_mem _ hb) hmem

/-! ### Addresses -/

/-- An account address, 20 bytes.
Source: `types/mod.rs`, `Address`
Kind: D -/
structure Address where
  bytes : Bytes 20
  deriving DecidableEq

/-- Addresses are their bytes. Kind: L -/
def Address.equivBytes : Address ≃ Bytes 20 where
  toFun := Address.bytes
  invFun := Address.mk
  left_inv _ := rfl
  right_inv _ := rfl

/-- There are finitely many addresses. Kind: L -/
instance instFintypeAddress : Fintype Address := Fintype.ofEquiv _ Address.equivBytes.symm

/-- The address all of whose bytes are `b`, as the tests of the source write them.
Kind: D -/
def Address.fill (b : UInt8) : Address := ⟨Bytes.fill 20 b⟩

/-! ### 256-bit words -/

/-- A 256-bit word as four limbs, least significant first.
Source: `types/mod.rs`, `U256`
Kind: D -/
@[ext] structure U256 where
  limb0 : UInt64
  limb1 : UInt64
  limb2 : UInt64
  limb3 : UInt64
  deriving DecidableEq

namespace U256

/-- The number a word denotes.
Kind: D -/
def toNat (a : U256) : ℕ :=
  a.limb0.toNat + 2 ^ 64 * a.limb1.toNat + 2 ^ 128 * a.limb2.toNat + 2 ^ 192 * a.limb3.toNat

/-- The number 0.
Source: `types/mod.rs`, `U256::ZERO`
Kind: D -/
def zero : U256 := ⟨0, 0, 0, 0⟩

/-- A `u64` as the lowest limb.
Source: `types/mod.rs`, `U256::from_u64`
Kind: D -/
def fromU64 (val : UInt64) : U256 := ⟨val, 0, 0, 0⟩

/-- `u64::overflowing_add`: the wrapped sum and whether it wrapped.
Kind: D -/
def overflowingAdd (a b : UInt64) : UInt64 × Bool := (a + b, a + b < a)

/-- One turn of the addition loop: the limb of the sum and the carry out of it.
Source: `types/mod.rs`, body of the loop in `U256::wrapping_add`
Kind: D -/
def addLimb (a b carry : UInt64) : UInt64 × UInt64 :=
  let (sum, c1) := overflowingAdd a b
  let (sum, c2) := overflowingAdd sum carry
  (sum, c1.toNat.toUInt64 + c2.toNat.toUInt64)

/-- Limb-wise addition with carries, dropping the carry out of the top limb.
Source: `types/mod.rs`, `U256::wrapping_add`
Kind: D -/
def wrappingAdd (a b : U256) : U256 :=
  let (r0, carry) := addLimb a.limb0 b.limb0 0
  let (r1, carry) := addLimb a.limb1 b.limb1 carry
  let (r2, carry) := addLimb a.limb2 b.limb2 carry
  let (r3, _) := addLimb a.limb3 b.limb3 carry
  ⟨r0, r1, r2, r3⟩

/-- A word is below `2 ^ 256`. Kind: L -/
theorem toNat_lt (a : U256) : a.toNat < 2 ^ 256 := by
  have h0 := a.limb0.toNat_lt
  have h1 := a.limb1.toNat_lt
  have h2 := a.limb2.toNat_lt
  have h3 := a.limb3.toNat_lt
  unfold toNat
  omega

/-- Words are determined by the numbers they denote. Kind: L -/
theorem toNat_injective : Function.Injective toNat := by
  intro a b h
  have ha0 := a.limb0.toNat_lt
  have ha1 := a.limb1.toNat_lt
  have ha2 := a.limb2.toNat_lt
  have ha3 := a.limb3.toNat_lt
  have hb0 := b.limb0.toNat_lt
  have hb1 := b.limb1.toNat_lt
  have hb2 := b.limb2.toNat_lt
  have hb3 := b.limb3.toNat_lt
  unfold toNat at h
  ext <;> omega

@[simp] theorem toNat_zero : zero.toNat = 0 := rfl

/-- A `u64` keeps its value as a 256-bit number. Kind: L -/
@[simp] theorem toNat_fromU64 (v : UInt64) : (fromU64 v).toNat = v.toNat := by
  simp [toNat, fromU64]

/-- The low limb of a word. Kind: L -/
theorem toNat_limb0 (a : U256) : a.limb0.toNat = a.toNat % 2 ^ 64 := by
  have h := a.limb0.toNat_lt
  unfold toNat
  omega

/-- The embedding of `u64` is injective. Kind: L -/
theorem fromU64_injective : Function.Injective fromU64 := fun _ _ h => congrArg limb0 h

/-- The carry of `overflowing_add`. Kind: L -/
theorem overflowingAdd_snd (a b : UInt64) :
    (overflowingAdd a b).2 = decide (2 ^ 64 ≤ a.toNat + b.toNat) := by
  have ha := a.toNat_lt
  have hb := b.toNat_lt
  simp only [overflowingAdd, UInt64.lt_iff_toNat_lt, UInt64.toNat_add]
  congr 1
  apply propext
  omega

/-- A turn of the loop adds two limbs and a carry bit exactly. Kind: L -/
theorem addLimb_spec (a b carry : UInt64) (hc : carry.toNat ≤ 1) :
    (addLimb a b carry).1.toNat + 2 ^ 64 * (addLimb a b carry).2.toNat =
        a.toNat + b.toNat + carry.toNat ∧
      (addLimb a b carry).2.toNat ≤ 1 := by
  have ha := a.toNat_lt
  have hb := b.toNat_lt
  have h1 := overflowingAdd_snd a b
  have h2 := overflowingAdd_snd (a + b) carry
  simp only [UInt64.toNat_add] at h2
  have hsum : (addLimb a b carry).1.toNat = ((a.toNat + b.toNat) % 2 ^ 64 + carry.toNat) % 2 ^ 64 :=
    by simp [addLimb, overflowingAdd]
  have hcarry : (addLimb a b carry).2 = (overflowingAdd a b).2.toNat.toUInt64 +
      (overflowingAdd (a + b) carry).2.toNat.toUInt64 := rfl
  have hbit : ∀ c : Bool, c.toNat.toUInt64.toNat = c.toNat := fun c => by cases c <;> rfl
  have hc1 : (overflowingAdd a b).2.toNat = if 2 ^ 64 ≤ a.toNat + b.toNat then 1 else 0 := by
    rw [h1]
    split_ifs with h <;> simp only [h, decide_true, decide_false, Bool.toNat_true, Bool.toNat_false]
  have hc2 : (overflowingAdd (a + b) carry).2.toNat =
      if 2 ^ 64 ≤ (a.toNat + b.toNat) % 2 ^ 64 + carry.toNat then 1 else 0 := by
    rw [h2]
    split_ifs with h <;> simp only [h, decide_true, decide_false, Bool.toNat_true, Bool.toNat_false]
  rw [hsum, hcarry, UInt64.toNat_add, hbit, hbit, hc1, hc2]
  split_ifs <;> omega

/-- **`wrapping_add` is addition modulo `2 ^ 256`.** Kind: P -/
theorem toNat_wrappingAdd (a b : U256) :
    (a.wrappingAdd b).toNat = (a.toNat + b.toNat) % 2 ^ 256 := by
  obtain ⟨h0, c0⟩ := addLimb_spec a.limb0 b.limb0 0 (by decide)
  obtain ⟨h1, c1⟩ := addLimb_spec a.limb1 b.limb1 _ c0
  obtain ⟨h2, c2⟩ := addLimb_spec a.limb2 b.limb2 _ c1
  obtain ⟨h3, c3⟩ := addLimb_spec a.limb3 b.limb3 _ c2
  have hlt := toNat_lt (a.wrappingAdd b)
  have hsum : (a.wrappingAdd b).toNat + 2 ^ 256 * (addLimb a.limb3 b.limb3
      (addLimb a.limb2 b.limb2 (addLimb a.limb1 b.limb1
        (addLimb a.limb0 b.limb0 0).2).2).2).2.toNat = a.toNat + b.toNat := by
    simp only [toNat, wrappingAdd] at *
    simp only [UInt64.toNat_zero] at h0
    omega
  omega

/-- Adding zero changes nothing. Kind: L -/
@[simp] theorem wrappingAdd_zero (a : U256) : a.wrappingAdd zero = a := by
  apply toNat_injective
  rw [toNat_wrappingAdd, toNat_zero, Nat.add_zero, Nat.mod_eq_of_lt a.toNat_lt]

/-- The addend is determined by the sum. Kind: L -/
theorem wrappingAdd_left_cancel {a b c : U256} (h : a.wrappingAdd b = a.wrappingAdd c) :
    b = c := by
  have h' := congrArg toNat h
  simp only [toNat_wrappingAdd] at h'
  have := b.toNat_lt
  have := c.toNat_lt
  have := a.toNat_lt
  exact toNat_injective (by omega)

/-! ### Byte layout -/

/-- Big-endian bytes: the limbs from the top one down, each most significant byte first.
Source: `types/mod.rs`, `U256::to_be_bytes`
Kind: D -/
def toBeBytes (a : U256) : Bytes 32 :=
  ⟨beBytes 8 a.limb3.toNat ++ beBytes 8 a.limb2.toNat ++ beBytes 8 a.limb1.toNat ++
    beBytes 8 a.limb0.toNat, by simp⟩

/-- Eight bytes for every limb, the highest limb first.
Source: `types/mod.rs`, `U256::from_be_bytes`
Kind: D -/
def fromBeBytes (bytes : Bytes 32) : U256 where
  limb3 := UInt64.ofNat (ofBeBytes (bytes.toList.take 8))
  limb2 := UInt64.ofNat (ofBeBytes ((bytes.toList.drop 8).take 8))
  limb1 := UInt64.ofNat (ofBeBytes ((bytes.toList.drop 16).take 8))
  limb0 := UInt64.ofNat (ofBeBytes ((bytes.toList.drop 24).take 8))

/-- The byte layout tells words apart. Kind: P -/
theorem toBeBytes_injective : Function.Injective toBeBytes := by
  intro a b h
  have hl : beBytes 8 a.limb3.toNat ++ beBytes 8 a.limb2.toNat ++ beBytes 8 a.limb1.toNat ++
      beBytes 8 a.limb0.toNat = beBytes 8 b.limb3.toNat ++ beBytes 8 b.limb2.toNat ++
      beBytes 8 b.limb1.toNat ++ beBytes 8 b.limb0.toNat := congrArg Subtype.val h
  obtain ⟨hl, h0⟩ := List.append_inj hl (by simp)
  obtain ⟨hl, h1⟩ := List.append_inj hl (by simp)
  obtain ⟨h3, h2⟩ := List.append_inj hl (by simp)
  have hinj : ∀ {x y : UInt64}, beBytes 8 x.toNat = beBytes 8 y.toNat → x = y := fun {x y} hxy =>
    UInt64.toNat_inj.mp (beBytes_injective (by have := x.toNat_lt; omega)
      (by have := y.toNat_lt; omega) hxy)
  ext1
  exacts [hinj h0, hinj h1, hinj h2, hinj h3]

end U256

/-! ### Fields of a hashed string -/

/-- The eight bytes of a number determine it. Kind: L -/
theorem leBytes_u64_injective {a b : UInt64} (h : leBytes 8 a.toNat = leBytes 8 b.toNat) :
    a = b := by
  have hlt : ∀ c : UInt64, c.toNat < 256 ^ 8 := fun c => c.toNat_lt
  have hdecoded := congrArg ofLeBytes h
  rw [ofLeBytes_leBytes, ofLeBytes_leBytes, Nat.mod_eq_of_lt (hlt a),
    Nat.mod_eq_of_lt (hlt b)] at hdecoded
  exact UInt64.toNat_inj.mp hdecoded

/-- A `u64` is written with eight bytes, so its end is known. Kind: L -/
theorem selfDelimiting_u64 : SelfDelimiting fun n : UInt64 => leBytes 8 n.toNat :=
  selfDelimiting_of_length (fun _ _ => leBytes_u64_injective) (n := 8) fun n => by simp

/-- A 256-bit number is written with 32 bytes, so its end is known. Kind: L -/
theorem selfDelimiting_u256 : SelfDelimiting fun a : U256 => a.toBeBytes.toList :=
  (selfDelimiting_vector 32).comp U256.toBeBytes_injective

/-- An address is written with 20 bytes, so its end is known. Kind: L -/
theorem selfDelimiting_address : SelfDelimiting fun a : Address => a.bytes.toList :=
  (selfDelimiting_vector 20).comp Address.equivBytes.injective

/-! ### State keys -/

/-- A storage slot of an account.
Source: `types/mod.rs`, `StateKey`
Kind: D -/
structure StateKey where
  address : Bytes 20
  slot : U256
  deriving DecidableEq

namespace StateKey

/-- The 52 bytes of a key: its address, then its slot.
Source: `types/mod.rs`, `StateKey::to_bytes`
Kind: D -/
def toBytes (key : StateKey) : Bytes 52 :=
  ⟨key.address.toList ++ key.slot.toBeBytes.toList, by simp⟩

/-- The byte layout tells keys apart. Kind: P -/
theorem toBytes_injective : Function.Injective toBytes := by
  intro a b h
  have hl : a.address.toList ++ a.slot.toBeBytes.toList =
      b.address.toList ++ b.slot.toBeBytes.toList := congrArg Subtype.val h
  obtain ⟨haddress, hslot⟩ := selfDelimiting_vector 20 hl
  have hslot' := U256.toBeBytes_injective (List.Vector.toList_injective hslot)
  rcases a with ⟨address, slot⟩
  rcases b with ⟨address', slot'⟩
  rw [show address = address' from haddress, show slot = slot' from hslot']

end StateKey

end Ryther
