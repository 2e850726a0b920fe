import Nolik.Library.Bytes

/-! Base64 engines between bytes and strings, and the standard alphabet with padding. Bits that
the padding stands for must be zero. -/
namespace Base64
open ByteString

/-- A refused string comes with the text of its error. -/
structure Engine where
  encode : Bytes → String
  decode : String → Except String Bytes

structure Engine.Lawful (engine : Engine) : Prop where
  decode_encode : ∀ bytes, engine.decode (engine.encode bytes) = .ok bytes

abbrev pad : Char := '='

def sextetChar (n : Nat) : Char :=
  if n < 26 then Char.ofNat (65 + n)
  else if n < 52 then Char.ofNat (71 + n)
  else if n < 62 then Char.ofNat (n - 4)
  else if n = 62 then '+'
  else '/'

def charSextet (c : Char) : Option Nat :=
  if 65 ≤ c.toNat ∧ c.toNat ≤ 90 then some (c.toNat - 65)
  else if 97 ≤ c.toNat ∧ c.toNat ≤ 122 then some (c.toNat - 71)
  else if 48 ≤ c.toNat ∧ c.toNat ≤ 57 then some (c.toNat + 4)
  else if c = '+' then some 62
  else if c = '/' then some 63
  else none

theorem sextetChar_spec {n : Nat} (small : n < 64) :
    charSextet (sextetChar n) = some n ∧ sextetChar n ≠ pad := by
  have every : ∀ n : Fin 64, charSextet (sextetChar n) = some n.val ∧ sextetChar n ≠ pad := by
    decide +kernel
  exact every ⟨n, small⟩

def encodeChars : Bytes → List Char
  | [] => []
  | [a] => [sextetChar (a.toNat / 4), sextetChar (a.toNat % 4 * 16), pad, pad]
  | [a, b] =>
      [sextetChar (a.toNat / 4), sextetChar (a.toNat % 4 * 16 + b.toNat / 16),
        sextetChar (b.toNat % 16 * 4), pad]
  | a :: b :: c :: rest =>
      sextetChar (a.toNat / 4) :: sextetChar (a.toNat % 4 * 16 + b.toNat / 16) ::
        sextetChar (b.toNat % 16 * 4 + c.toNat / 64) :: sextetChar (c.toNat % 64) ::
          encodeChars rest

/-- The last group, when it ends in padding. -/
def decodeLast (w x y : Char) : Option Bytes := do
  let w ← charSextet w
  let x ← charSextet x
  if y = pad then
    if x % 16 = 0 then some [UInt8.ofNat (w * 4 + x / 16)] else none
  else do
    let y ← charSextet y
    if y % 4 = 0 then
      some [UInt8.ofNat (w * 4 + x / 16), UInt8.ofNat (x % 16 * 16 + y / 4)]
    else none

def decodeChars : List Char → Option Bytes
  | [] => some []
  | w :: x :: y :: z :: rest =>
      if z = pad then
        if rest.isEmpty then decodeLast w x y else none
      else do
        let w ← charSextet w
        let x ← charSextet x
        let y ← charSextet y
        let z ← charSextet z
        let bytes ← decodeChars rest
        some (UInt8.ofNat (w * 4 + x / 16) :: UInt8.ofNat (x % 16 * 16 + y / 4) ::
          UInt8.ofNat (y % 4 * 64 + z) :: bytes)
  | _ => none

theorem ofNat_eq {n : Nat} {b : UInt8} (same : n = b.toNat) : UInt8.ofNat n = b := by
  rw [same, UInt8.ofNat_toNat]

theorem decodeLast_one (a : UInt8) :
    decodeLast (sextetChar (a.toNat / 4)) (sextetChar (a.toNat % 4 * 16)) pad = some [a] := by
  have bound := a.toNat_lt
  have first := (sextetChar_spec (show a.toNat / 4 < 64 by omega)).1
  have second := (sextetChar_spec (show a.toNat % 4 * 16 < 64 by omega)).1
  have byte : UInt8.ofNat (a.toNat / 4 * 4 + a.toNat % 4 * 16 / 16) = a := ofNat_eq (by omega)
  simp only [decodeLast, first, second, Option.bind_eq_bind, Option.bind_some, if_true, byte]
  exact if_pos (by omega)

theorem decodeLast_two (a b : UInt8) :
    decodeLast (sextetChar (a.toNat / 4)) (sextetChar (a.toNat % 4 * 16 + b.toNat / 16))
      (sextetChar (b.toNat % 16 * 4)) = some [a, b] := by
  have boundA := a.toNat_lt
  have boundB := b.toNat_lt
  have first := (sextetChar_spec (show a.toNat / 4 < 64 by omega)).1
  have second := (sextetChar_spec (show a.toNat % 4 * 16 + b.toNat / 16 < 64 by omega)).1
  obtain ⟨third, solid⟩ := sextetChar_spec (show b.toNat % 16 * 4 < 64 by omega)
  have byteA : UInt8.ofNat (a.toNat / 4 * 4 + (a.toNat % 4 * 16 + b.toNat / 16) / 16) = a :=
    ofNat_eq (by omega)
  have byteB : UInt8.ofNat ((a.toNat % 4 * 16 + b.toNat / 16) % 16 * 16 +
      b.toNat % 16 * 4 / 4) = b := ofNat_eq (by omega)
  simp only [decodeLast, first, second, third, if_neg solid, Option.bind_eq_bind,
    Option.bind_some, byteA, byteB]
  exact if_pos (by omega)

/-- The groups follow the recursion of the encoder. -/
theorem decodeChars_encodeChars (bytes : Bytes) : decodeChars (encodeChars bytes) = some bytes := by
  induction bytes using encodeChars.induct with
  | case1 => rfl
  | case2 a => exact decodeLast_one a
  | case3 a b => exact decodeLast_two a b
  | case4 a b c rest ih =>
      have boundA := a.toNat_lt
      have boundB := b.toNat_lt
      have boundC := c.toNat_lt
      have first := (sextetChar_spec (show a.toNat / 4 < 64 by omega)).1
      have second := (sextetChar_spec (show a.toNat % 4 * 16 + b.toNat / 16 < 64 by omega)).1
      have third := (sextetChar_spec (show b.toNat % 16 * 4 + c.toNat / 64 < 64 by omega)).1
      obtain ⟨fourth, solid⟩ := sextetChar_spec (show c.toNat % 64 < 64 by omega)
      have byteA : UInt8.ofNat (a.toNat / 4 * 4 + (a.toNat % 4 * 16 + b.toNat / 16) / 16) = a :=
        ofNat_eq (by omega)
      have byteB : UInt8.ofNat ((a.toNat % 4 * 16 + b.toNat / 16) % 16 * 16 +
          (b.toNat % 16 * 4 + c.toNat / 64) / 4) = b := ofNat_eq (by omega)
      have byteC : UInt8.ofNat ((b.toNat % 16 * 4 + c.toNat / 64) % 4 * 64 + c.toNat % 64) = c :=
        ofNat_eq (by omega)
      simp only [encodeChars, decodeChars, if_neg solid, first, second, third, fourth, ih,
        Option.bind_eq_bind, Option.bind_some, byteA, byteB, byteC]

def standard : Engine where
  encode bytes := String.ofList (encodeChars bytes)
  decode s := match decodeChars s.toList with
    | some bytes => .ok bytes
    | none => .error "Invalid padding"

theorem standard_lawful : standard.Lawful := by
  constructor
  intro bytes
  simp only [standard, String.toList_ofList, decodeChars_encodeChars]

end Base64
