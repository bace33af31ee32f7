import Ryther.Lib.Bytes

/-!
# Binary codecs

A codec writes values as bytes and reads them back from the front of a byte string. Two laws make it
lawful: what was written is read back, whatever follows it, and what was read had been written. The
first one holds for encodings shorter than `2 ^ 64` bytes, as lists carry their length in 64 bits.

* `Codec.pair`, `Codec.sigma`, `Codec.map`, `Codec.restrict` — products, tagged unions, another
  representation of the values, and a part of them.
* `Codec.array`, `Codec.unsigned`, `Codec.list`, `Codec.option`, `Codec.bool`, `Codec.string` — the
  formats of the basic types.
-/

namespace Ryther.Lib

/-- A binary format for the values of a type.
Kind: D -/
structure Codec (α : Type) where
  encode : α → List UInt8
  decode : List UInt8 → Option (α × List UInt8)
  decode_encode : ∀ a rest, (encode a).length < 2 ^ 64 →
    decode (encode a ++ rest) = some (a, rest)
  encode_decode : ∀ bytes a rest, decode bytes = some (a, rest) → bytes = encode a ++ rest

namespace Codec

variable {α β ι : Type}

/-! ### Operations on codecs -/

/-- One value after the other.
Kind: D -/
def pair (c : Codec α) (d : Codec β) : Codec (α × β) where
  encode p := c.encode p.1 ++ d.encode p.2
  decode bytes :=
    (c.decode bytes).bind fun (a, bytes) =>
      (d.decode bytes).map fun (b, bytes) => ((a, b), bytes)
  decode_encode p rest h := by
    rw [List.length_append] at h
    have hd := d.decode_encode p.2 rest (by omega)
    rw [List.append_assoc, c.decode_encode p.1 _ (by omega)]
    simp only [Option.bind_some, hd, Option.map_some]
  encode_decode bytes p rest h := by
    obtain ⟨⟨a, bytes'⟩, hc, h⟩ := Option.bind_eq_some_iff.mp h
    obtain ⟨⟨b, rest'⟩, hd, h⟩ := Option.map_eq_some_iff.mp h
    cases h
    rw [c.encode_decode _ _ _ hc, d.encode_decode _ _ _ hd, List.append_assoc]

/-- A tag, and a value in the format that belongs to it.
Kind: D -/
def sigma {γ : ι → Type} (c : Codec ι) (d : (i : ι) → Codec (γ i)) : Codec ((i : ι) × γ i) where
  encode p := c.encode p.1 ++ (d p.1).encode p.2
  decode bytes :=
    (c.decode bytes).bind fun (i, bytes) =>
      ((d i).decode bytes).map fun (b, bytes) => (⟨i, b⟩, bytes)
  decode_encode p rest h := by
    rw [List.length_append] at h
    have hd := (d p.1).decode_encode p.2 rest (by omega)
    rw [List.append_assoc, c.decode_encode p.1 _ (by omega)]
    simp only [Option.bind_some, hd, Option.map_some]
  encode_decode bytes p rest h := by
    obtain ⟨⟨i, bytes'⟩, hc, h⟩ := Option.bind_eq_some_iff.mp h
    obtain ⟨⟨b, rest'⟩, hd, h⟩ := Option.map_eq_some_iff.mp h
    cases h
    rw [c.encode_decode _ _ _ hc, (d i).encode_decode _ _ _ hd, List.append_assoc]

/-- The values `b` written as `write b`; what `read` does not accept is an error.
Kind: D -/
def restrict (c : Codec α) (write : β → α) (read : α → Option β)
    (read_write : ∀ b, read (write b) = some b)
    (write_read : ∀ a b, read a = some b → a = write b) : Codec β where
  encode b := c.encode (write b)
  decode bytes :=
    (c.decode bytes).bind fun (a, bytes) => (read a).map fun b => (b, bytes)
  decode_encode b rest h := by
    rw [c.decode_encode _ _ h]
    simp only [Option.bind_some, read_write, Option.map_some]
  encode_decode bytes b rest h := by
    obtain ⟨⟨a, bytes'⟩, hc, h⟩ := Option.bind_eq_some_iff.mp h
    obtain ⟨b', hread, h⟩ := Option.map_eq_some_iff.mp h
    cases h
    rw [c.encode_decode _ _ _ hc, write_read a b hread]

/-- Another representation of the same values.
Kind: D -/
def map (c : Codec α) (e : β ≃ α) : Codec β :=
  c.restrict e (fun a => some (e.symm a)) (fun b => by rw [e.symm_apply_apply])
    fun a b h => by rw [← Option.some.inj h, e.apply_symm_apply]

@[simp] theorem encode_pair (c : Codec α) (d : Codec β) (p : α × β) :
    (c.pair d).encode p = c.encode p.1 ++ d.encode p.2 := rfl

@[simp] theorem encode_sigma {γ : ι → Type} (c : Codec ι) (d : (i : ι) → Codec (γ i))
    (p : (i : ι) × γ i) : (c.sigma d).encode p = c.encode p.1 ++ (d p.1).encode p.2 := rfl

@[simp] theorem encode_restrict (c : Codec α) (write : β → α) (read : α → Option β)
    (h : ∀ b, read (write b) = some b) (h' : ∀ a b, read a = some b → a = write b) (b : β) :
    (c.restrict write read h h').encode b = c.encode (write b) := rfl

@[simp] theorem encode_map (c : Codec α) (e : β ≃ α) (b : β) :
    (c.map e).encode b = c.encode (e b) := rfl

/-! ### Basic types -/

/-- Nothing.
Kind: D -/
def unit : Codec Unit where
  encode _ := []
  decode bytes := some ((), bytes)
  decode_encode _ _ _ := rfl
  encode_decode _ _ _ h := by
    cases h
    rfl

/-- The bytes of an array, without a length.
Kind: D -/
def array (n : ℕ) : Codec (Bytes n) where
  encode a := a.toList
  decode bytes :=
    if h : n ≤ bytes.length then some (⟨bytes.take n, List.length_take_of_le h⟩, bytes.drop n)
    else none
  decode_encode a rest _ := by
    have hlen : a.toList.length = n := a.toList_length
    rw [dif_pos (by rw [List.length_append]; omega)]
    congr 1
    refine Prod.ext (List.Vector.toList_injective ?_) ?_
    · exact List.take_left' hlen
    · exact List.drop_left' hlen
  encode_decode bytes a rest h := by
    split_ifs at h
    cases h
    exact (List.take_append_drop n bytes).symm

@[simp] theorem encode_array (n : ℕ) (a : Bytes n) : (array n).encode a = a.toList := rfl

/-- Numbers below `256 ^ k`, least significant byte first.
Kind: D -/
def unsigned (k : ℕ) (toNat : α → ℕ) (ofNat : ℕ → α) (ofNat_toNat : ∀ a, ofNat (toNat a) = a)
    (toNat_lt : ∀ a, toNat a < 256 ^ k) (toNat_ofNat : ∀ n < 256 ^ k, toNat (ofNat n) = n) :
    Codec α :=
  (array k).map
    { toFun := fun a => ⟨leBytes k (toNat a), length_leBytes k _⟩
      invFun := fun bytes => ofNat (ofLeBytes bytes.toList)
      left_inv := fun a => by
        show ofNat (ofLeBytes (leBytes k (toNat a))) = a
        rw [ofLeBytes_leBytes, Nat.mod_eq_of_lt (toNat_lt a), ofNat_toNat]
      right_inv := fun bytes => by
        have hlt := ofLeBytes_lt bytes.toList
        rw [bytes.toList_length] at hlt
        refine List.Vector.toList_injective ?_
        show leBytes k (toNat (ofNat (ofLeBytes bytes.toList))) = bytes.toList
        have hbytes := leBytes_ofLeBytes bytes.toList
        rw [bytes.toList_length] at hbytes
        rw [toNat_ofNat _ hlt, hbytes] }

/-- One byte. Kind: D -/
def u8 : Codec UInt8 :=
  unsigned 1 UInt8.toNat UInt8.ofNat (fun _ => UInt8.ofNat_toNat)
    (fun a => by have := a.toNat_lt; omega) fun n h => by rw [UInt8.toNat_ofNat']; omega

/-- Two bytes, the lowest first. Kind: D -/
def u16 : Codec UInt16 :=
  unsigned 2 UInt16.toNat UInt16.ofNat (fun _ => UInt16.ofNat_toNat)
    (fun a => by have := a.toNat_lt; omega) fun n h => by rw [UInt16.toNat_ofNat']; omega

/-- Four bytes, the lowest first. Kind: D -/
def u32 : Codec UInt32 :=
  unsigned 4 UInt32.toNat UInt32.ofNat (fun _ => UInt32.ofNat_toNat)
    (fun a => by have := a.toNat_lt; omega) fun n h => by rw [UInt32.toNat_ofNat']; omega

/-- Eight bytes, the lowest first. Kind: D -/
def u64 : Codec UInt64 :=
  unsigned 8 UInt64.toNat UInt64.ofNat (fun _ => UInt64.ofNat_toNat)
    (fun a => by have := a.toNat_lt; omega) fun n h => by rw [UInt64.toNat_ofNat']; omega

@[simp] theorem encode_u8 (b : UInt8) : u8.encode b = [b] := by
  show [UInt8.ofNat b.toNat] = [b]
  rw [UInt8.ofNat_toNat]

@[simp] theorem encode_u32 (n : UInt32) : u32.encode n = leBytes 4 n.toNat := rfl

@[simp] theorem encode_u64 (n : UInt64) : u64.encode n = leBytes 8 n.toNat := rfl

/-- A byte that is 0 or 1.
Kind: D -/
def bool : Codec Bool :=
  u8.restrict (fun b => if b then 1 else 0)
    (fun byte => if byte = 0 then some false else if byte = 1 then some true else none)
    (fun b => by cases b <;> rfl) fun a b h => by
      split_ifs at h with h0 h1
      · cases h
        exact h0
      · cases h
        exact h1

/-! ### Sequences -/

/-- Read `n` values.
Kind: D -/
def decodeMany (c : Codec α) : ℕ → List UInt8 → Option (List α × List UInt8)
  | 0, bytes => some ([], bytes)
  | n + 1, bytes =>
      (c.decode bytes).bind fun (a, bytes) =>
        (decodeMany c n bytes).map fun (l, bytes) => (a :: l, bytes)

/-- Values written one after the other are read back, and what follows them is left. Kind: L -/
theorem decodeMany_flatMap (c : Codec α) (l : List α) (rest : List UInt8)
    (h : (l.flatMap c.encode).length < 2 ^ 64) :
    c.decodeMany l.length (l.flatMap c.encode ++ rest) = some (l, rest) := by
  induction l with
  | nil => rfl
  | cons a l ih =>
      rw [List.flatMap_cons, List.length_append] at h
      rw [List.flatMap_cons, List.append_assoc, List.length_cons, decodeMany,
        c.decode_encode a _ (by omega)]
      simp only [Option.bind_some, ih (by omega), Option.map_some]

/-- What is read as some values is their encodings, one after the other. Kind: L -/
theorem flatMap_of_decodeMany (c : Codec α) (n : ℕ) :
    ∀ (bytes : List UInt8) (l : List α) (rest : List UInt8),
      c.decodeMany n bytes = some (l, rest) →
      l.length = n ∧ bytes = l.flatMap c.encode ++ rest := by
  induction n with
  | zero =>
      intro bytes l rest h
      cases h
      exact ⟨rfl, rfl⟩
  | succ n ih =>
      intro bytes l rest h
      obtain ⟨⟨a, bytes'⟩, hc, h⟩ := Option.bind_eq_some_iff.mp h
      obtain ⟨⟨l', rest'⟩, hmany, h⟩ := Option.map_eq_some_iff.mp h
      cases h
      obtain ⟨hlen, hbytes⟩ := ih bytes' l' rest hmany
      refine ⟨by rw [List.length_cons, hlen], ?_⟩
      rw [c.encode_decode _ _ _ hc, hbytes, List.flatMap_cons, List.append_assoc]

/-- Values with encodings that are not empty are no more than their bytes. Kind: L -/
theorem length_le_length_flatMap (c : Codec α) (hne : ∀ a, c.encode a ≠ []) (l : List α) :
    l.length ≤ (l.flatMap c.encode).length := by
  induction l with
  | nil => exact Nat.le_refl _
  | cons a l ih =>
      have ha := List.length_pos_iff.mpr (hne a)
      rw [List.flatMap_cons, List.length_append, List.length_cons]
      omega

/-- The number of values in 64 bits, then the values. No value may be written as nothing, as the
length of the encoding bounds their number then.
Kind: D -/
def list (c : Codec α) (hne : ∀ a, c.encode a ≠ []) : Codec (List α) where
  encode l := leBytes 8 l.length ++ l.flatMap c.encode
  decode bytes := (u64.decode bytes).bind fun (n, bytes) => c.decodeMany n.toNat bytes
  decode_encode l rest h := by
    rw [List.length_append, length_leBytes] at h
    have hle := c.length_le_length_flatMap hne l
    have hnat : (UInt64.ofNat l.length).toNat = l.length := by
      rw [UInt64.toNat_ofNat']
      exact Nat.mod_eq_of_lt (by omega)
    have hcount : leBytes 8 l.length = u64.encode (UInt64.ofNat l.length) := by
      show _ = leBytes 8 (UInt64.ofNat l.length).toNat
      rw [hnat]
    have hshort : (u64.encode (UInt64.ofNat l.length)).length < 2 ^ 64 := by
      rw [← hcount, length_leBytes]
      omega
    rw [hcount, List.append_assoc, u64.decode_encode _ _ hshort]
    simp only [Option.bind_some, hnat]
    exact c.decodeMany_flatMap l rest (by omega)
  encode_decode bytes l rest h := by
    obtain ⟨⟨n, bytes'⟩, hn, h⟩ := Option.bind_eq_some_iff.mp h
    obtain ⟨hlen, hbytes⟩ := c.flatMap_of_decodeMany n.toNat bytes' l rest h
    rw [u64.encode_decode _ _ _ hn, hbytes, hlen, List.append_assoc]
    rfl

/-- A list is written as its length and its elements. Kind: L -/
@[simp] theorem encode_list (c : Codec α) (hne : ∀ a, c.encode a ≠ []) (l : List α) :
    (c.list hne).encode l = leBytes 8 l.length ++ l.flatMap c.encode := rfl

/-! ### Options and strings -/

/-- What follows the byte of an option.
Kind: D -/
def optionPayload (c : Codec α) : (present : Bool) → Codec (cond present α Unit)
  | true => c
  | false => unit

/-- An option as a byte that says whether there is a value, and the value.
Kind: D -/
def optionEquiv (α : Type) : Option α ≃ (present : Bool) × cond present α Unit where
  toFun
    | some a => ⟨true, a⟩
    | none => ⟨false, ()⟩
  invFun
    | ⟨true, a⟩ => some a
    | ⟨false, _⟩ => none
  left_inv a := by cases a <;> rfl
  right_inv := by
    rintro ⟨present, a⟩
    cases present <;> rfl

/-- A flag, and the value if there is one. Kind: D -/
def option (c : Codec α) : Codec (Option α) := (bool.sigma c.optionPayload).map (optionEquiv α)

/-- A byte has an encoding that is not empty, as lists of bytes need it. Kind: L -/
theorem encode_u8_ne_nil (b : UInt8) : u8.encode b ≠ [] := by simp

/-- The number of bytes, then the bytes.
Kind: D -/
def byteList : Codec (List UInt8) := u8.list encode_u8_ne_nil

/-- The bytes stand as they are behind their number. Kind: L -/
@[simp] theorem encode_byteList (bytes : List UInt8) :
    byteList.encode bytes = leBytes 8 bytes.length ++ bytes := by
  rw [byteList, encode_list]
  congr 1
  induction bytes with
  | nil => rfl
  | cons b bytes ih => rw [List.flatMap_cons, encode_u8, ih, List.singleton_append]

/-- The UTF-8 bytes of a string; other bytes are an error.
Kind: D -/
def string : Codec String :=
  byteList.restrict (fun s => s.toUTF8.data.toList) (fun bytes => String.fromUTF8? ⟨bytes.toArray⟩)
    (fun s => by
      show String.fromUTF8? s.toUTF8 = some s
      unfold String.fromUTF8?
      rw [String.toUTF8_eq_toByteArray, dif_pos s.isValidUTF8]
      rfl)
    fun bytes s h => by
      rw [String.fromUTF8?] at h
      split_ifs at h
      cases h
      rfl

end Codec

end Ryther.Lib
