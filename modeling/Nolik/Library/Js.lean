import Nolik.Library.Bytes

/-! Arrays, maps and byte arrays as plain containers, read through casts that fail on any other
value. Maps are read and written at string keys only. A missing key reads as `undefined`. The
identity of objects is not modelled. -/
namespace Js
open ByteString

inductive JsValue where
  | undefined
  | uint8Array (bytes : Bytes)
  | array (items : List JsValue)
  | map (get : String → JsValue)
  | error (message : String)
  /-- Any other value: a number, a string, another object. -/
  | other (id : Nat)

abbrev JsMap := String → JsValue

namespace JsMap

def new : JsMap := fun _ => .undefined

def get (map : JsMap) (key : String) : JsValue := map key

def set (map : JsMap) (key : String) (value : JsValue) : JsMap := Function.update map key value

@[simp] theorem get_set_self (map : JsMap) (key : String) (value : JsValue) :
    (map.set key value).get key = value := by
  rw [get, set, Function.update_self]

@[simp] theorem get_set_ne (map : JsMap) {key other : String} (value : JsValue)
    (different : other ≠ key) : (map.set key value).get other = map.get other := by
  rw [get, set, Function.update_of_ne different, get]

end JsMap

namespace JsValue

/-- `dyn_into::<Uint8Array>()`. A failed cast returns the value itself. -/
def toUint8Array : JsValue → Except JsValue Bytes
  | uint8Array bytes => .ok bytes
  | value => .error value

def toArray : JsValue → Except JsValue (List JsValue)
  | array items => .ok items
  | value => .error value

def toMap : JsValue → Except JsValue JsMap
  | map get => .ok get
  | value => .error value

theorem toUint8Array_ok_iff {value : JsValue} {bytes : Bytes} :
    value.toUint8Array = .ok bytes ↔ value = uint8Array bytes := by
  cases value <;> simp [toUint8Array]

theorem toArray_ok_iff {value : JsValue} {items : List JsValue} :
    value.toArray = .ok items ↔ value = array items := by
  cases value <;> simp [toArray]

theorem toMap_ok_iff {value : JsValue} {entries : JsMap} :
    value.toMap = .ok entries ↔ value = map entries := by
  cases value <;> simp [toMap]

end JsValue

/-- The 16 bit units of a character. -/
def units (c : Char) : Nat := if c.val ≤ 0xffff then 1 else 2

/-- `length` counts the units of a text. -/
def textLength (text : List Char) : Nat := (text.map units).sum

/-- `TextEncoder.encode`. -/
def encodeText (text : List Char) : Bytes := text.flatMap String.utf8EncodeChar

theorem units_le (c : Char) : units c ≤ c.utf8Size := by
  unfold units
  split
  · exact c.utf8Size_pos
  · rename_i large
    rw [Char.utf8Size_eq_four_iff.mpr (UInt32.not_le.mp large)]
    decide

theorem utf8Size_eq_units_iff (c : Char) : c.utf8Size = units c ↔ c.toNat < 128 := by
  have one : c.utf8Size = 1 ↔ c.toNat < 128 := by
    rw [Char.utf8Size_eq_one_iff, UInt32.le_iff_toNat_le]
    exact Nat.lt_succ_iff.symm
  rw [← one]
  unfold units
  split
  · rfl
  · rename_i large
    rw [Char.utf8Size_eq_four_iff.mpr (UInt32.not_le.mp large)]
    decide

theorem length_encodeText (text : List Char) :
    (encodeText text).length = (text.map Char.utf8Size).sum := by
  rw [encodeText, List.length_flatMap]
  simp only [String.length_utf8EncodeChar]

theorem textLength_le_encodeText (text : List Char) :
    textLength text ≤ (encodeText text).length := by
  rw [length_encodeText]
  induction text with
  | nil => exact Nat.le_refl 0
  | cons c text ih => exact Nat.add_le_add (units_le c) ih

/-- The two lengths of a text are the same exactly for the characters of ASCII. -/
theorem length_encodeText_eq_iff (text : List Char) :
    (encodeText text).length = textLength text ↔ ∀ c ∈ text, c.toNat < 128 := by
  induction text with
  | nil => exact ⟨fun _ c member => (List.not_mem_nil member).elim, fun _ => rfl⟩
  | cons c text ih =>
      have first := utf8Size_eq_units_iff c
      have least := units_le c
      have rest := textLength_le_encodeText text
      rw [List.forall_mem_cons, ← ih, ← first]
      rw [length_encodeText] at rest ⊢
      simp only [textLength, length_encodeText, List.map_cons, List.sum_cons] at rest ⊢
      omega

/-- Only the character zero is encoded with a zero. -/
theorem zero_notMem_encodeChar {c : Char} (nonzero : c.toNat ≠ 0) :
    0 ∉ String.utf8EncodeChar c := by
  have marked : ∀ b : UInt8, b ||| 0x80 ≠ 0 ∧ b ||| 0xc0 ≠ 0 ∧ b ||| 0xe0 ≠ 0 ∧
      b ||| 0xf0 ≠ 0 := by
    have every : ∀ n : Fin 256, UInt8.ofFin n ||| 0x80 ≠ 0 ∧ UInt8.ofFin n ||| 0xc0 ≠ 0 ∧
        UInt8.ofFin n ||| 0xe0 ≠ 0 ∧ UInt8.ofFin n ||| 0xf0 ≠ 0 := by decide +kernel
    exact fun b => every b.toFin
  intro member
  rcases c.utf8Size_eq with size | size | size | size
  · rw [String.utf8EncodeChar_eq_singleton size, List.mem_singleton] at member
    have small : c.toNat ≤ 127 := UInt32.le_iff_toNat_le.mp (Char.utf8Size_eq_one_iff.mp size)
    have value : c.val.toUInt8.toNat = c.toNat % 256 := UInt32.toNat_toUInt8 c.val
    rw [← member] at value
    change 0 = c.toNat % 256 at value
    omega
  · rw [String.utf8EncodeChar_eq_cons_cons size] at member
    simp only [List.mem_cons, List.not_mem_nil, or_false] at member
    rcases member with high | low
    · exact (marked _).2.1 high.symm
    · exact (marked _).1 low.symm
  · rw [String.utf8EncodeChar_eq_cons_cons_cons size] at member
    simp only [List.mem_cons, List.not_mem_nil, or_false] at member
    rcases member with high | middle | low
    · exact (marked _).2.2.1 high.symm
    · exact (marked _).1 middle.symm
    · exact (marked _).1 low.symm
  · rw [String.utf8EncodeChar_eq_cons_cons_cons_cons size] at member
    simp only [List.mem_cons, List.not_mem_nil, or_false] at member
    rcases member with high | middle | middle | low
    · exact (marked _).2.2.2 high.symm
    · exact (marked _).1 middle.symm
    · exact (marked _).1 middle.symm
    · exact (marked _).1 low.symm

theorem zero_notMem_encodeText {text : List Char} (nonzero : ∀ c ∈ text, c.toNat ≠ 0) :
    0 ∉ encodeText text := by
  intro member
  obtain ⟨c, found, inside⟩ := List.mem_flatMap.mp member
  exact zero_notMem_encodeChar (nonzero c found) inside

end Js
