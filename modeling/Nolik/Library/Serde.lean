import Nolik.Library.Json
import Nolik.Library.Record
import Mathlib.Data.List.FinRange

/-! What `derive(Serialize, Deserialize)` makes of structs with named fields, over JSON
documents. Unknown keys are skipped, a repeated or missing one is an error, and a struct may
also come as an array of its fields. The text format is a parameter. -/
namespace Serde
open ByteString Effects JsonText

/-- Why a document has the wrong shape. -/
inductive DeError where
  | invalidType (expected : String)
  | invalidValue (expected : String)
  | invalidLength (expected : Nat)
  | trailing
  | missingField (name : String)
  | duplicateField (name : String)
  | unknownVariant (name : String)
  | custom (message : String)

def serializeU8 (b : UInt8) : Json := .number (UInt64.ofNat b.toNat)

def deserializeU8 : Json → Except DeError UInt8
  | .number n => if n.toNat < 256 then .ok (UInt8.ofNat n.toNat) else .error (.invalidValue "u8")
  | _ => .error (.invalidType "u8")

/-- `[u8; n]`. -/
def serializeArray {n : Nat} (a : ByteArr n) : Json := .array (a.toList.map serializeU8)

def deserializeArray (n : Nat) : Json → Except DeError (ByteArr n)
  | .array items => do
      let bytes ← (items.take n).mapM deserializeU8
      match tryInto n bytes with
      | none => .error (.invalidLength n)
      | some a => if items.length = n then .ok a else .error .trailing
  | _ => .error (.invalidType "array")

def serializeString (s : String) : Json := .string s

def deserializeString : Json → Except DeError String
  | .string s => .ok s
  | _ => .error (.invalidType "string")

def serializeVec {α : Type} (serialize : α → Json) (xs : List α) : Json :=
  .array (xs.map serialize)

def deserializeVec {α : Type} (deserialize : Json → Except DeError α) :
    Json → Except DeError (List α)
  | .array items => items.mapM deserialize
  | _ => .error (.invalidType "sequence")

theorem deserializeU8_serializeU8 (b : UInt8) : deserializeU8 (serializeU8 b) = .ok b := by
  have bound := b.toNat_lt
  have value : (UInt64.ofNat b.toNat).toNat = b.toNat := by
    rw [UInt64.toNat_ofNat']
    omega
  rw [serializeU8, deserializeU8, value, if_pos bound, UInt8.ofNat_toNat]

theorem except_mapM_map_ok {ε α β : Type} {f : β → Except ε α} {g : α → β}
    (back : ∀ x, f (g x) = .ok x) (xs : List α) : (xs.map g).mapM f = .ok xs := by
  rw [except_mapM_ok_iff, List.forall₂_map_left_iff, List.forall₂_same]
  exact fun x _ => back x

theorem deserializeArray_serializeArray {n : Nat} (a : ByteArr n) :
    deserializeArray n (serializeArray a) = .ok a := by
  have size : (a.toList.map serializeU8).length = n := by
    rw [List.length_map, List.Vector.toList_length]
  rw [serializeArray, deserializeArray, List.take_of_length_le size.le,
    except_mapM_map_ok deserializeU8_serializeU8]
  simp only [bind, Except.bind, tryInto_toList, if_pos size]

theorem deserializeVec_serializeVec {α : Type} {serialize : α → Json}
    {deserialize : Json → Except DeError α} (back : ∀ x, deserialize (serialize x) = .ok x)
    (xs : List α) : deserializeVec deserialize (serializeVec serialize xs) = .ok xs :=
  except_mapM_map_ok back xs

structure Field where
  name : String
  Carrier : Type
  serialize : Carrier → Json
  deserialize : Json → Except DeError Carrier

structure Field.Lawful (field : Field) : Prop where
  deserialize_serialize : ∀ x, field.deserialize (field.serialize x) = .ok x

section Struct
variable {n : Nat} (fields : Fin n → Field)

abbrev Record := ∀ i, (fields i).Carrier

def serializeStruct (x : Record fields) : Json :=
  .object ((List.finRange n).map fun i => ((fields i).name, (fields i).serialize (x i)))

/-- One turn of the loop over the entries; `found` is what the earlier ones gave. -/
def visitEntry (found : ∀ i, Option (fields i).Carrier) (entry : String × Json) :
    Except DeError (∀ i, Option (fields i).Carrier) :=
  match (List.finRange n).find? fun i => (fields i).name = entry.1 with
  | none => .ok found
  | some i =>
      match found i with
      | some _ => .error (.duplicateField entry.1)
      | none => do
          let x ← (fields i).deserialize entry.2
          .ok (Function.update found i (some x))

def visitMap (entries : List (String × Json)) : Except DeError (Record fields) := do
  let found ← entries.foldlM (visitEntry fields) fun _ => none
  collectFields fun i => match found i with
    | some x => .ok x
    | none => .error (.missingField (fields i).name)

def visitSeq (items : List Json) : Except DeError (Record fields) := do
  let x ← collectFields fun i => match items[i.val]? with
    | some item => (fields i).deserialize item
    | none => .error (.invalidLength n)
  if items.length ≤ n then .ok x else .error .trailing

def deserializeStruct : Json → Except DeError (Record fields)
  | .object entries => visitMap fields entries
  | .array items => visitSeq fields items
  | _ => .error (.invalidType "struct")

variable {fields}

theorem find_name (distinct : Function.Injective fun i => (fields i).name) (i : Fin n) :
    ((List.finRange n).find? fun j => (fields j).name = (fields i).name) = some i := by
  cases search : (List.finRange n).find? fun j => (fields j).name = (fields i).name with
  | none =>
      have absent := List.find?_eq_none.mp search i (List.mem_finRange i)
      exact absurd (decide_eq_true rfl) absent
  | some j =>
      have same := List.find?_some search
      exact congrArg some (distinct (of_decide_eq_true same))

/-- The loop fills in the fields it meets, and only those. -/
theorem foldlM_visitEntry (distinct : Function.Injective fun i => (fields i).name)
    (lawful : ∀ i, (fields i).Lawful) (x : Record fields) {is : List (Fin n)} (nodup : is.Nodup)
    {found : ∀ i, Option (fields i).Carrier} (free : ∀ i ∈ is, found i = none) :
    (is.map fun i => ((fields i).name, (fields i).serialize (x i))).foldlM (visitEntry fields)
      found = .ok fun j => if j ∈ is then some (x j) else found j := by
  induction is generalizing found with
  | nil => rfl
  | cons i is ih =>
      obtain ⟨fresh, nodup⟩ := List.nodup_cons.mp nodup
      obtain ⟨first, rest⟩ := List.forall_mem_cons.mp free
      have step : visitEntry fields found ((fields i).name, (fields i).serialize (x i)) =
          .ok (Function.update found i (some (x i))) := by
        simp only [visitEntry, find_name distinct i, first, (lawful i).deserialize_serialize]
        rfl
      have later : ∀ j ∈ is, Function.update found i (some (x i)) j = none := by
        intro j member
        have other : j ≠ i := fun same => fresh (same ▸ member)
        rw [Function.update_of_ne other]
        exact rest j member
      rw [List.map_cons, List.foldlM_cons, step]
      refine (ih nodup later).trans (congrArg Except.ok (funext fun j => ?_))
      by_cases same : j = i
      · subst same
        rw [if_neg fresh, if_pos List.mem_cons_self, Function.update_self]
      · simp only [List.mem_cons, same, false_or, Function.update_of_ne same]

theorem deserializeStruct_serializeStruct (distinct : Function.Injective fun i => (fields i).name)
    (lawful : ∀ i, (fields i).Lawful) (x : Record fields) :
    deserializeStruct fields (serializeStruct fields x) = .ok x := by
  have filled := @foldlM_visitEntry n fields distinct lawful x _ (List.nodup_finRange n)
    (fun _ => none) fun _ _ => rfl
  rw [serializeStruct, deserializeStruct, visitMap, filled]
  apply except_collectFields_ok_iff.mpr
  intro i
  simp only [List.mem_finRange, if_true]

theorem fits_serializeStruct {depth : Nat} {x : Record fields}
    (fits : ∀ i, ((fields i).serialize (x i)).Fits depth) :
    (serializeStruct fields x).Fits (depth + 1) := by
  rw [serializeStruct, Json.Fits, List.forall_mem_map]
  exact fun i _ => fits i

end Struct

/-- A type as the record of its fields. -/
structure Layout (n : Nat) (α : Type) where
  fields : Fin n → Field
  toRecord : α → Record fields
  ofRecord : Record fields → α
  ofRecord_toRecord : ∀ x, ofRecord (toRecord x) = x
  distinct : Function.Injective fun i => (fields i).name

section Layout
variable {n : Nat} {α : Type} (layout : Layout n α)

def Layout.serialize (x : α) : Json := serializeStruct layout.fields (layout.toRecord x)

def Layout.deserialize (doc : Json) : Except DeError α := do
  let record ← deserializeStruct layout.fields doc
  pure (layout.ofRecord record)

variable {layout}

theorem Layout.deserialize_serialize (lawful : ∀ i, (layout.fields i).Lawful) (x : α) :
    layout.deserialize (layout.serialize x) = .ok x := by
  rw [serialize, deserialize, deserializeStruct_serializeStruct layout.distinct lawful]
  exact congrArg Except.ok (layout.ofRecord_toRecord x)

end Layout

section Enum
variable {α : Type} (variants : List (String × α))

/-- A variant without fields is its name, or an object with that name and `null`. -/
def deserializeEnum : Json → Except DeError α
  | .string name => match variants.lookup name with
      | some x => .ok x
      | none => .error (.unknownVariant name)
  | .object [(name, value)] => match variants.lookup name, value with
      | some x, .null => .ok x
      | some _, _ => .error (.invalidType "unit variant")
      | none, _ => .error (.unknownVariant name)
  | _ => .error (.invalidType "enum")

end Enum

theorem fits_string {depth : Nat} (s : String) : (Json.string s).Fits (depth + 1) := trivial

theorem fits_serializeArray {depth n : Nat} (a : ByteArr n) :
    (serializeArray a).Fits (depth + 2) := by
  rw [serializeArray, Json.Fits, List.forall_mem_map]
  exact fun _ _ => trivial

theorem fits_serializeVec {depth : Nat} {α : Type} {serialize : α → Json}
    (fits : ∀ x, (serialize x).Fits depth) (xs : List α) :
    (serializeVec serialize xs).Fits (depth + 1) := by
  rw [serializeVec, Json.Fits, List.forall_mem_map]
  exact fun x _ => fits x

/-- A text format, with the texts of its errors. `describe` is the text for a document of
a wrong shape. -/
structure TextFormat where
  toText : Json → Except String Bytes
  read : Bytes → Except String Json
  describe : Bytes → DeError → String

/-- What is written is read back and can be kept in a C string; no error is silent. -/
structure TextFormat.Lawful (format : TextFormat) : Prop where
  read_toText : ∀ {doc : Json}, doc.Fits depthLimit →
    ∃ text, format.toText doc = .ok text ∧ format.read text = .ok doc ∧ 0 ∉ text
  read_error : ∀ {bytes e}, format.read bytes = .error e → e ≠ ""
  describe_ne_empty : ∀ bytes e, format.describe bytes e ≠ ""

def TextFormat.fromSlice {α : Type} (format : TextFormat)
    (deserialize : Json → Except DeError α) (bytes : Bytes) : Except String α := do
  let doc ← format.read bytes
  (deserialize doc).mapError (format.describe bytes)

theorem TextFormat.fromSlice_ok {α : Type} {format : TextFormat}
    {deserialize : Json → Except DeError α} {bytes : Bytes} {doc : Json} {x : α}
    (read : format.read bytes = .ok doc) (shape : deserialize doc = .ok x) :
    format.fromSlice deserialize bytes = .ok x :=
  except_bind_ok_iff.mpr ⟨doc, read, except_mapError_ok_iff.mpr shape⟩

theorem TextFormat.fromSlice_error {α : Type} {format : TextFormat} (lawful : format.Lawful)
    {deserialize : Json → Except DeError α} {bytes : Bytes} {e : String}
    (refused : format.fromSlice deserialize bytes = .error e) : e ≠ "" := by
  rcases except_bind_error_iff.mp refused with unread | ⟨doc, -, misshapen⟩
  · exact lawful.read_error unread
  · obtain ⟨e', -, rfl⟩ := except_mapError_error_iff.mp misshapen
    exact lawful.describe_ne_empty bytes e'

/-- The compact text of the JSON library. -/
def compactText : TextFormat where
  toText doc := match print depthLimit doc with
    | some text => .ok text
    | none => .error "cannot serialize"
  read bytes := match readText bytes with
    | some doc => .ok doc
    | none => .error "expected value"
  describe _ _ := "data did not match"

theorem compactText_lawful : compactText.Lawful where
  read_toText := by
    intro doc fits
    obtain ⟨text, printed⟩ := print_total fits
    refine ⟨text, ?_, ?_, nul_notMem_print printed⟩
    · simp only [compactText, printed]
    · simp only [compactText, readText_print printed]
  read_error := by
    intro bytes e refused
    simp only [compactText] at refused
    split at refused
    · cases refused
    · cases refused
      decide
  describe_ne_empty := by
    intro bytes e
    change "data did not match" ≠ ""
    decide

end Serde
