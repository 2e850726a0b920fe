import Nolik.Library.Bytes

/-! Hexadecimal text, written in lower case and read in either case. A text of odd length and a
character that is no digit are refused. -/
namespace Hex
open ByteString

def digitChar (n : Nat) : Char := if n < 10 then Char.ofNat (48 + n) else Char.ofNat (87 + n)

def charDigit (c : Char) : Option Nat :=
  if 48 ≤ c.toNat ∧ c.toNat ≤ 57 then some (c.toNat - 48)
  else if 65 ≤ c.toNat ∧ c.toNat ≤ 70 then some (c.toNat - 55)
  else if 97 ≤ c.toNat ∧ c.toNat ≤ 102 then some (c.toNat - 87)
  else none

def encode : Bytes → List Char
  | [] => []
  | b :: bytes => digitChar (b.toNat / 16) :: digitChar (b.toNat % 16) :: encode bytes

def decode : List Char → Option Bytes
  | [] => some []
  | [_] => none
  | high :: low :: text => do
      let high ← charDigit high
      let low ← charDigit low
      let bytes ← decode text
      some (UInt8.ofNat (high * 16 + low) :: bytes)

theorem charDigit_digitChar {n : Nat} (small : n < 16) : charDigit (digitChar n) = some n := by
  have every : ∀ n : Fin 16, charDigit (digitChar n) = some n.val := by decide
  exact every ⟨n, small⟩

/-- Nothing but digits is written. -/
theorem forall_mem_encode {P : Char → Prop} (digits : ∀ n < 16, P (digitChar n)) (bytes : Bytes) :
    ∀ c ∈ encode bytes, P c := by
  induction bytes with
  | nil => exact fun c member => (List.not_mem_nil member).elim
  | cons b bytes ih =>
      have bound := b.toNat_lt
      refine List.forall_mem_cons.mpr ⟨digits _ (by omega), ?_⟩
      exact List.forall_mem_cons.mpr ⟨digits _ (by omega), ih⟩

theorem decode_encode (bytes : Bytes) : decode (encode bytes) = some bytes := by
  induction bytes with
  | nil => rfl
  | cons b bytes ih =>
      have bound := b.toNat_lt
      have high := charDigit_digitChar (show b.toNat / 16 < 16 by omega)
      have low := charDigit_digitChar (show b.toNat % 16 < 16 by omega)
      have whole : b.toNat / 16 * 16 + b.toNat % 16 = b.toNat := by omega
      simp only [encode, decode, high, low, ih, Option.bind_eq_bind, Option.bind_some, whole,
        UInt8.ofNat_toNat]

end Hex
