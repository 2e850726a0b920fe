import Mathlib.Data.Vector.Basic
import Mathlib.Tactic.Ring

/-! Unbounded byte strings, arrays of a fixed length, the little-endian encoding of a natural
number, and the concatenation of blocks of one width. -/
namespace ByteString

abbrev Bytes := List UInt8

/-- `[u8; n]`. The length is part of the type, so no value has a wrong one. -/
abbrev ByteArr (n : Nat) := List.Vector UInt8 n

/-- `bytes.try_into::<[u8; n]>()`. -/
def tryInto (n : Nat) (bytes : Bytes) : Option (ByteArr n) :=
  if size : bytes.length = n then some ⟨bytes, size⟩ else none

@[simp] theorem tryInto_toList {n : Nat} (a : ByteArr n) : tryInto n a.toList = some a := by
  simp only [tryInto, List.Vector.toList_length, ↓reduceDIte]
  rfl

theorem tryInto_eq_some {n : Nat} {bytes : Bytes} {a : ByteArr n} :
    tryInto n bytes = some a ↔ bytes = a.toList := by
  constructor
  · intro h
    unfold tryInto at h
    split_ifs at h with size
    cases h
    rfl
  · rintro rfl
    exact tryInto_toList a

theorem tryInto_eq_none {n : Nat} {bytes : Bytes} :
    tryInto n bytes = none ↔ bytes.length ≠ n := by
  unfold tryInto
  split_ifs with size <;> simp [size]

def leBytes : Nat → Nat → Bytes
  | 0, _ => []
  | width + 1, value => UInt8.ofNat (value % 256) :: leBytes width (value / 256)

def leValue : Bytes → Nat
  | [] => 0
  | b :: bytes => b.toNat + 256 * leValue bytes

@[simp] theorem leBytes_length (width value : Nat) : (leBytes width value).length = width := by
  induction width generalizing value with
  | zero => rfl
  | succ width ih => exact congrArg Nat.succ (ih (value / 256))

theorem leValue_leBytes {width value : Nat} (bound : value < 256 ^ width) :
    leValue (leBytes width value) = value := by
  induction width generalizing value with
  | zero => exact (Nat.lt_one_iff.mp bound).symm
  | succ width ih =>
      have small : value / 256 < 256 ^ width := by
        rw [Nat.div_lt_iff_lt_mul (by decide), ← Nat.pow_succ]
        exact bound
      have digit : (UInt8.ofNat (value % 256)).toNat = value % 256 := by
        rw [UInt8.toNat_ofNat']
        omega
      rw [leBytes, leValue, ih small, digit]
      omega

/-- Two numbers in range with the same digits are equal. -/
theorem leBytes_injective {width a b : Nat} (ha : a < 256 ^ width) (hb : b < 256 ^ width)
    (same : leBytes width a = leBytes width b) : a = b := by
  rw [← leValue_leBytes ha, same, leValue_leBytes hb]

theorem leValue_lt (bytes : Bytes) : leValue bytes < 256 ^ bytes.length := by
  induction bytes with
  | nil => exact Nat.one_pos
  | cons b bytes ih =>
      have digit := b.toNat_lt
      rw [leValue, List.length_cons, Nat.pow_succ]
      omega

/-- Every string of the width is the string of its value. -/
theorem leBytes_leValue (bytes : Bytes) : leBytes bytes.length (leValue bytes) = bytes := by
  induction bytes with
  | nil => rfl
  | cons b bytes ih =>
      have digit := b.toNat_lt
      have low : (b.toNat + 256 * leValue bytes) % 256 = b.toNat := by omega
      have high : (b.toNat + 256 * leValue bytes) / 256 = leValue bytes := by omega
      rw [leValue, List.length_cons, leBytes, low, high, ih, UInt8.ofNat_toNat]

/-- The lowest digit comes first. -/
theorem leBytes_getElem? {width i : Nat} (value : Nat) (inside : i < width) :
    (leBytes width value)[i]? = some (UInt8.ofNat (value / 256 ^ i % 256)) := by
  induction width generalizing value i with
  | zero => cases inside
  | succ width ih =>
      cases i with
      | zero => rw [leBytes, List.getElem?_cons_zero, Nat.pow_zero, Nat.div_one]
      | succ i =>
          have later : i < width := Nat.lt_of_succ_lt_succ inside
          rw [leBytes, List.getElem?_cons_succ, ih _ later, Nat.div_div_eq_div_mul, Nat.pow_succ']

/-- Equal suffixes of one length can be cut off a concatenation. -/
theorem append_array_inj {n : Nat} {xs ys : Bytes} {a b : ByteArr n}
    (same : xs ++ a.toList = ys ++ b.toList) : xs = ys ∧ a = b := by
  obtain ⟨front, back⟩ := List.append_inj' same (by simp only [List.Vector.toList_length])
  exact ⟨front, List.Vector.toList_injective back⟩

theorem array_append_inj {n : Nat} {a b : ByteArr n} {xs ys : Bytes}
    (same : a.toList ++ xs = b.toList ++ ys) : a = b ∧ xs = ys := by
  obtain ⟨front, back⟩ := List.append_inj same (by simp only [List.Vector.toList_length])
  exact ⟨List.Vector.toList_injective front, back⟩

/-- A list of blocks of a positive width is read back from its concatenation,
its length included. -/
theorem flatMap_blocks_inj {n : Nat} (positive : 0 < n) {as bs : List (ByteArr n)}
    (same : as.flatMap List.Vector.toList = bs.flatMap List.Vector.toList) : as = bs := by
  induction as generalizing bs with
  | nil =>
      cases bs with
      | nil => rfl
      | cons b bs =>
          have size := congrArg List.length same
          simp only [List.flatMap_nil, List.flatMap_cons, List.length_nil, List.length_append,
            List.Vector.toList_length] at size
          omega
  | cons a as ih =>
      cases bs with
      | nil =>
          have size := congrArg List.length same
          simp only [List.flatMap_nil, List.flatMap_cons, List.length_nil, List.length_append,
            List.Vector.toList_length] at size
          omega
      | cons b bs =>
          simp only [List.flatMap_cons] at same
          obtain ⟨rfl, rest⟩ := array_append_inj same
          rw [ih rest]

end ByteString
