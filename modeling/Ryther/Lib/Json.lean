import Mathlib.Logic.Function.Basic
import Ryther.Lib.Hex

/-!
# JSON values and records

JSON as a tree, and the formats of values in it.

* `JsonCodec` — how values of a type are written and read; reading undoes writing.
* `JsonCodec.text`, `JsonCodec.list`, `JsonCodec.option`, `JsonCodec.byteArray` — strings, arrays,
  values that may be missing, arrays of bytes.
* `RecordFormat` — a record as an object with one entry a field: names, formats, and when a field is
  left out. Entries are read in their order; unknown ones are ignored, repeated and missing ones are
  errors.
* `RecordFormat.decode_encode_iff` — a record comes back exactly if none of its fields is left out.
-/

namespace Ryther.Lib

/-- Values of JSON; the natural numbers are kept apart from all others. Kind: D -/
inductive Json where
  | null
  | bool (b : Bool)
  | num (n : ℕ)
  /-- A negative number or one with a fraction or an exponent. -/
  | otherNum (text : String)
  | str (s : String)
  | arr (values : List Json)
  | obj (entries : List (String × Json))

/-- Why a value cannot be read.
Kind: D -/
inductive DeError where
  | missingField (name : String)
  | duplicateField (name : String)
  | invalidType
  | invalidValue
  | invalidLength (length : ℕ)
  | hex (error : FromHexError)
  | parseInt (error : ParseIntError)
  | custom (message : String)
  deriving DecidableEq

/-- A JSON format for the values of a type.
Kind: D -/
structure JsonCodec (α : Type) where
  encode : α → Json
  decode : Json → Except DeError α
  decode_encode : ∀ a, decode (encode a) = .ok a

namespace JsonCodec

variable {α β : Type}

/-- Values written as text.
Kind: D -/
def text (write : α → List Char) (read : List Char → Except DeError α)
    (read_write : ∀ a, read (write a) = .ok a) : JsonCodec α where
  encode a := .str (String.ofList (write a))
  decode
    | .str s => read s.toList
    | _ => .error .invalidType
  decode_encode a := by
    show read (String.ofList (write a)).toList = .ok a
    rw [String.toList_ofList, read_write]

/-- Values are told apart by what is written for them. Kind: L -/
theorem encode_injective (c : JsonCodec α) : Function.Injective c.encode := by
  intro a b h
  have hdecoded := congrArg c.decode h
  rw [c.decode_encode, c.decode_encode] at hdecoded
  exact Except.ok.inj hdecoded

/-- The two literals. Kind: D -/
def bool : JsonCodec Bool where
  encode b := .bool b
  decode
    | .bool b => .ok b
    | _ => .error .invalidType
  decode_encode _ := rfl

/-- A byte as a number.
Kind: D -/
def u8 : JsonCodec UInt8 where
  encode b := .num b.toNat
  decode
    | .num n => if n < 256 then .ok (UInt8.ofNat n) else .error .invalidValue
    | _ => .error .invalidType
  decode_encode b := by
    show (if b.toNat < 256 then _ else _) = _
    rw [if_pos b.toNat_lt, UInt8.ofNat_toNat]

/-- The values of an array, read one after the other.
Kind: D -/
def decodeAll (c : JsonCodec α) : List Json → Except DeError (List α)
  | [] => .ok []
  | value :: values =>
      match c.decode value with
      | .error e => .error e
      | .ok a =>
          match decodeAll c values with
          | .error e => .error e
          | .ok l => .ok (a :: l)

/-- Elements written one by one are read back. Kind: L -/
theorem decodeAll_map (c : JsonCodec α) (l : List α) : c.decodeAll (l.map c.encode) = .ok l := by
  induction l with
  | nil => rfl
  | cons a l ih => simp only [List.map_cons, decodeAll, c.decode_encode, ih]

/-- An array of the encodings of the elements. Kind: D -/
def list (c : JsonCodec α) : JsonCodec (List α) where
  encode l := .arr (l.map c.encode)
  decode
    | .arr values => c.decodeAll values
    | _ => .error .invalidType
  decode_encode := c.decodeAll_map

/-- An array of a fixed number of bytes.
Kind: D -/
def byteArray (n : ℕ) : JsonCodec (Bytes n) where
  encode a := u8.list.encode a.toList
  decode value :=
    match u8.list.decode value with
    | .error e => .error e
    | .ok bytes =>
        if h : bytes.length = n then .ok ⟨bytes, h⟩ else .error (.invalidLength bytes.length)
  decode_encode a := by
    rw [u8.list.decode_encode]
    exact dif_pos a.toList_length

/-- A value that may be missing; `null` stands for none.
Kind: D -/
def decodeOption (decode : Json → Except DeError α) : Json → Except DeError (Option α)
  | .null => .ok none
  | value => (decode value).map some

/-- A value other than `null` is read as a value that is there. Kind: L -/
theorem decodeOption_of_ne_null (decode : Json → Except DeError α) {value : Json}
    (h : value ≠ .null) : decodeOption decode value = (decode value).map some := by
  rcases value with _ | _ | _ | _ | _ | _ | _
  · exact absurd rfl h
  all_goals rfl

/-- The value or `null`, for values that are never written as `null`. Kind: D -/
def option (c : JsonCodec α) (encode_ne_null : ∀ a, c.encode a ≠ .null) : JsonCodec (Option α) where
  encode a := (a.map c.encode).getD .null
  decode := decodeOption c.decode
  decode_encode := by
    rintro (_ | a)
    · rfl
    · rw [Option.map_some, Option.getD_some, decodeOption_of_ne_null _ (encode_ne_null a),
        c.decode_encode]
      rfl

/-- Another representation of the same values.
Kind: D -/
def map (c : JsonCodec α) (e : β ≃ α) : JsonCodec β where
  encode b := c.encode (e b)
  decode value := (c.decode value).map e.symm
  decode_encode b := by
    rw [c.decode_encode]
    show Except.ok (e.symm (e b)) = _
    rw [e.symm_apply_apply]

end JsonCodec

/-! ### Records -/

/-- A record with fields `F` of types `T`, given as a function on its fields.
Kind: D -/
structure RecordFormat (F : Type) (T : F → Type) where
  fields : List F
  nodup : fields.Nodup
  complete : ∀ f, f ∈ fields
  name : F → String
  name_injective : Function.Injective name
  codec : (f : F) → JsonCodec (T f)
  skip : (f : F) → T f → Bool

namespace RecordFormat

variable {F : Type} {T : F → Type} (format : RecordFormat F T)

/-- The entries of a record.
Kind: D -/
def entries (fields : List F) (record : (f : F) → T f) : List (String × Json) :=
  (fields.filter fun f => !format.skip f (record f)).map fun f =>
    (format.name f, (format.codec f).encode (record f))

/-- A record as an object with all its fields in order. Kind: D -/
def encode (record : (f : F) → T f) : Json := .obj (format.entries format.fields record)

/-- The field with a name.
Kind: D -/
def fieldOf (name : String) : Option F := format.fields.find? fun f => format.name f = name

/-- The record in the slots, or its first field without a value.
Kind: D -/
def finish (slots : (f : F) → Option (T f)) : Except DeError ((f : F) → T f) :=
  match h : format.fields.find? fun f => (slots f).isNone with
  | some f => .error (.missingField (format.name f))
  | none => .ok fun f => (slots f).get <| by
      have hf := List.find?_eq_none.mp h f (format.complete f)
      simpa [Option.isSome_iff_ne_none] using hf

/-- A field is found by its name. Kind: L -/
theorem fieldOf_name (f : F) : format.fieldOf (format.name f) = some f := by
  unfold fieldOf
  cases hfind : format.fields.find? fun f' => format.name f' = format.name f with
  | none => simpa using List.find?_eq_none.mp hfind f (format.complete f)
  | some f' =>
      have hname : format.name f' = format.name f := by simpa using List.find?_some hfind
      rw [format.name_injective hname]

/-- A field left out is missing. Kind: L -/
theorem finish_eq_error {record : (f : F) → T f} {f : F} (h : format.skip f (record f) = true) :
    ∃ f', format.skip f' (record f') = true ∧
      format.finish (fun f => if format.skip f (record f) = false then some (record f) else none) =
        .error (.missingField (format.name f')) := by
  unfold finish
  split
  · next f' hfind =>
    refine ⟨f', ?_, rfl⟩
    have hnone := List.find?_some hfind
    by_contra hskip
    simp [hskip] at hnone
  · next hfind =>
    have hsome := List.find?_eq_none.mp hfind f (format.complete f)
    simp [h] at hsome

variable [DecidableEq F]

/-- Read the entries one after the other into the slots of the fields.
Kind: D -/
def visitMap : List (String × Json) → ((f : F) → Option (T f)) →
    Except DeError ((f : F) → Option (T f))
  | [], slots => .ok slots
  | (name, value) :: entries, slots =>
      match format.fieldOf name with
      | none => visitMap entries slots
      | some f =>
          if (slots f).isSome then .error (.duplicateField name)
          else
            match (format.codec f).decode value with
            | .error e => .error e
            | .ok a => visitMap entries (Function.update slots f (some a))

/-- An object is read entry by entry; what is missing in the end is an error or a default. Kind: D
-/
def decode : Json → Except DeError ((f : F) → T f)
  | .obj entries =>
      match format.visitMap entries fun _ => none with
      | .error e => .error e
      | .ok slots => format.finish slots
  | _ => .error .invalidType

/-- **Reading the entries of a record** fills the slots of the fields that were not left out.
By induction on the fields; the ones already read are those with a filled slot. Kind: P -/
theorem visitMap_entries (record : (f : F) → T f) (fields : List F) (hnodup : fields.Nodup)
    (slots : (f : F) → Option (T f)) (hfree : ∀ f ∈ fields, slots f = none) :
    format.visitMap (format.entries fields record) slots =
      .ok fun f => if f ∈ fields ∧ format.skip f (record f) = false then some (record f)
        else slots f := by
  induction fields generalizing slots with
  | nil => simp [entries, visitMap]
  | cons f fields ih =>
      have hf : f ∉ fields := (List.nodup_cons.mp hnodup).1
      have hrest := ih (List.nodup_cons.mp hnodup).2
      cases hskip : format.skip f (record f) with
      | true =>
          have hentries : format.entries (f :: fields) record = format.entries fields record := by
            simp [entries, hskip]
          rw [hentries, hrest slots fun f' h => hfree f' (List.mem_cons_of_mem _ h)]
          congr 1
          funext f'
          by_cases heq : f' = f
          · subst heq
            simp [hf, hskip]
          · simp [heq]
      | false =>
          have hentries : format.entries (f :: fields) record =
              (format.name f, (format.codec f).encode (record f)) ::
                format.entries fields record := by
            simp [entries, hskip]
          rw [hentries, visitMap, fieldOf_name]
          simp only
          rw [hfree f List.mem_cons_self, (format.codec f).decode_encode]
          simp only [Option.isSome_none, Bool.false_eq_true, if_false]
          rw [hrest]
          · congr 1
            funext f'
            by_cases heq : f' = f
            · subst heq
              simp [hf, hskip]
            · simp [heq]
          · intro f' hf'
            have hne : f' ≠ f := fun h => hf (h ▸ hf')
            rw [Function.update_of_ne hne]
            exact hfree f' (List.mem_cons_of_mem _ hf')

/-- Reading a whole record. Kind: L -/
theorem decode_encode (record : (f : F) → T f) :
    format.decode (format.encode record) =
      format.finish fun f =>
        if format.skip f (record f) = false then some (record f) else none := by
  unfold encode decode
  simp only [format.visitMap_entries record _ format.nodup _ fun _ _ => rfl, format.complete,
    true_and]

/-- **A record comes back exactly if none of its fields is left out.** Kind: P -/
theorem decode_encode_iff (record : (f : F) → T f) :
    format.decode (format.encode record) = .ok record ↔ ∀ f, format.skip f (record f) = false := by
  rw [decode_encode]
  constructor
  · intro h f
    by_contra hskip
    obtain ⟨f', -, herror⟩ := format.finish_eq_error (by simpa using hskip)
    rw [h] at herror
    cases herror
  · intro h
    unfold finish
    split
    · next f hfind =>
      have hnone := List.find?_some hfind
      simp [h] at hnone
    · simp [h]

/-- The format of a record of which no field is left out.
Kind: D -/
def total (hskip : ∀ f a, format.skip f a = false) : JsonCodec ((f : F) → T f) where
  encode := format.encode
  decode := format.decode
  decode_encode record := (format.decode_encode_iff record).mpr fun f => hskip f (record f)

end RecordFormat

end Ryther.Lib
