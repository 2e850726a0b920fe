import Nolik.Library.Effects
import Nolik.Library.Sealing
import Mathlib.Data.Vector.Zip

/-! Keys, nonces, the `BytesCypher` of byte slices and the `Cypher` trait with its `Vec`
implementation. `crypto_box` is the parameter `cb`. Encryption keeps the log of its
`SalsaBox::encrypt` calls; decryption makes no call worth recording. -/
namespace Nolik
open ByteString Effects Sealing

abbrev keySize : Nat := 32
abbrev nonceSize : Nat := 24

/-- `Nonce<SalsaBox>`, a byte array of 24 bytes. -/
abbrev SalsaNonce := ByteArr nonceSize

/-- `SalsaNonce::from_slice`, which aborts on any other length. -/
def SalsaNonce.fromSlice {ε : Type} (slice : Bytes) : Outcome ε SalsaNonce :=
  match tryInto nonceSize slice with
  | some nonce => .ok nonce
  | none => .panic

@[simp] theorem SalsaNonce.fromSlice_toList {ε : Type} (nonce : SalsaNonce) :
    (SalsaNonce.fromSlice nonce.toList : Outcome ε SalsaNonce) = .ok nonce := by
  simp only [fromSlice, tryInto_toList]

theorem SalsaNonce.fromSlice_ok_iff {ε : Type} {slice : Bytes} {nonce : SalsaNonce} :
    (fromSlice slice : Outcome ε SalsaNonce) = .ok nonce ↔ slice = nonce.toList := by
  rw [fromSlice, ← tryInto_eq_some]
  cases tryInto nonceSize slice <;> simp

theorem SalsaNonce.fromSlice_panic_iff {ε : Type} {slice : Bytes} :
    (fromSlice slice : Outcome ε SalsaNonce) = .panic ↔ slice.length ≠ nonceSize := by
  rw [fromSlice, ← tryInto_eq_none]
  cases tryInto nonceSize slice <;> simp

structure PublicKey where
  bytes : ByteArr keySize
  deriving DecidableEq

structure SecretKey where
  bytes : ByteArr keySize
  deriving DecidableEq

def PublicKey.asBytes (pk : PublicKey) : Bytes := pk.bytes.toList

theorem PublicKey.asBytes_injective : Function.Injective PublicKey.asBytes := by
  intro a b same
  cases a; cases b
  exact congrArg PublicKey.mk (List.Vector.toList_injective same)

inductive CypherError where
  | encryptionFailed (pk : PublicKey)
  | decryptionFailed (pk : PublicKey)
  | unexpectedNonceType (nonce : SalsaNonce)
  | invalidPubkey (bytes : Bytes)
  deriving DecidableEq

/-- `Debug` of what the errors carry. -/
structure DebugText where
  publicKey : PublicKey → String
  salsaNonce : SalsaNonce → String
  bytes : Bytes → String

/-- `Display`, as derived from the `#[error(..)]` attributes. -/
def CypherError.display (debug : DebugText) : CypherError → String
  | encryptionFailed pk => "Could not encrypt data for " ++ debug.publicKey pk
  | decryptionFailed pk => "Could not decrypt data for " ++ debug.publicKey pk
  | unexpectedNonceType nonce => "Could not parse nonce " ++ debug.salsaNonce nonce
  | invalidPubkey bytes => "Could not parse pubkey " ++ debug.bytes bytes

theorem CypherError.display_ne_empty (debug : DebugText) (e : CypherError) :
    e.display debug ≠ "" := by
  have opening : ∀ text rest : String, text ≠ "" → text ++ rest ≠ "" := by
    intro text rest some empty
    exact some (String.append_eq_empty_iff.mp empty).1
  cases e <;> exact opening _ _ (by decide)

abbrev CryptoBox (K : Type) := BoxScheme SecretKey PublicKey SalsaNonce K

abbrev Encrypting (K : Type) := Traced (SealCall SalsaNonce K) CypherError

variable {K : Type}

namespace BytesCypher

def encrypt (cb : CryptoBox K) (self : Bytes) (nonce : SalsaNonce) (pk : PublicKey)
    (sk : SecretKey) : Encrypting K Bytes :=
  let sbox := cb.new pk sk
  Traced.call ⟨sbox, nonce, self⟩ (match cb.encrypt sbox nonce self with
    | some sealed => .ok sealed
    | none => .error (.encryptionFailed pk))

def decrypt (cb : CryptoBox K) (self : Bytes) (nonce : SalsaNonce) (pk : PublicKey)
    (sk : SecretKey) : Except CypherError Bytes :=
  let sbox := cb.new pk sk
  match cb.decrypt sbox nonce self with
  | some plaintext => .ok plaintext
  | none => .error (.decryptionFailed pk)

variable {cb : CryptoBox K} {m c : Bytes} {nonce : SalsaNonce} {pk : PublicKey} {sk : SecretKey}

@[simp] theorem trace_encrypt (cb : CryptoBox K) (m : Bytes) (nonce : SalsaNonce)
    (pk : PublicKey) (sk : SecretKey) :
    (encrypt cb m nonce pk sk).trace = [⟨cb.new pk sk, nonce, m⟩] := rfl

theorem encrypt_ok_iff :
    (encrypt cb m nonce pk sk).result = .ok c ↔ cb.encrypt (cb.new pk sk) nonce m = some c := by
  simp only [encrypt, Traced.result_call]
  cases cb.encrypt (cb.new pk sk) nonce m <;> simp

theorem decrypt_ok_iff :
    decrypt cb c nonce pk sk = .ok m ↔ cb.decrypt (cb.new pk sk) nonce c = some m := by
  simp only [decrypt]
  cases cb.decrypt (cb.new pk sk) nonce c <;> simp

theorem decrypt_error_iff :
    (∃ e, decrypt cb c nonce pk sk = .error e) ↔ cb.decrypt (cb.new pk sk) nonce c = none := by
  simp only [decrypt]
  cases cb.decrypt (cb.new pk sk) nonce c <;> simp

/-- There is one error to report. -/
theorem decrypt_ok_or_failed (cb : CryptoBox K) (c : Bytes) (nonce : SalsaNonce) (pk : PublicKey)
    (sk : SecretKey) :
    (∃ m, decrypt cb c nonce pk sk = .ok m) ∨
      decrypt cb c nonce pk sk = .error (.decryptionFailed pk) := by
  simp only [decrypt]
  cases cb.decrypt (cb.new pk sk) nonce c with
  | none => exact .inr rfl
  | some m => exact .inl ⟨m, rfl⟩

/-- Both ends of a key pair agree on the box key, so either opens the box. -/
theorem decrypt_encrypt (lawful : cb.Lawful) {pk' : PublicKey} {sk' : SecretKey}
    (agreed : cb.new pk sk = cb.new pk' sk') (sealed : (encrypt cb m nonce pk sk).result = .ok c) :
    decrypt cb c nonce pk' sk' = .ok m := by
  rw [decrypt_ok_iff, ← agreed]
  exact lawful.open_seal (encrypt_ok_iff.mp sealed)

theorem decrypt_foreign {pk' : PublicKey} {sk' : SecretKey}
    (confined : cb.Confined (cb.new pk sk) nonce m (cb.new pk' sk'))
    (foreign : cb.new pk' sk' ≠ cb.new pk sk)
    (sealed : (encrypt cb m nonce pk sk).result = .ok c) :
    ∃ e, decrypt cb c nonce pk' sk' = .error e := by
  rw [decrypt_error_iff]
  exact confined foreign c (encrypt_ok_iff.mp sealed)

theorem decrypt_other (keyBound : cb.KeyBound) (nonceBound : cb.NonceBound) {nonce' : SalsaNonce}
    {pk' : PublicKey} {sk' : SecretKey} (other : nonce' ≠ nonce ∨ cb.new pk' sk' ≠ cb.new pk sk)
    (sealed : (encrypt cb m nonce pk sk).result = .ok c) :
    ∃ e, decrypt cb c nonce' pk' sk' = .error e := by
  by_cases same : nonce' = nonce
  · subst same
    have foreign := other.resolve_left fun changed => changed rfl
    exact decrypt_foreign (keyBound _ _ _ _) foreign sealed
  · rw [decrypt_error_iff]
    exact nonceBound (encrypt_ok_iff.mp sealed) same

theorem encrypt_total (seals : cb.SealsAll) (m : Bytes) (nonce : SalsaNonce) (pk : PublicKey)
    (sk : SecretKey) : ∃ c, (encrypt cb m nonce pk sk).result = .ok c := by
  obtain ⟨c, sealed⟩ := seals (cb.new pk sk) nonce m
  exact ⟨c, encrypt_ok_iff.mpr sealed⟩

end BytesCypher

/-- The `Cypher` trait, for a fixed `crypto_box`. -/
class Cypher (cb : CryptoBox K) (α : Type) where
  encrypt : α → SalsaNonce → PublicKey → SecretKey → Encrypting K α
  decrypt : α → SalsaNonce → PublicKey → SecretKey → Except CypherError α

instance {α : Type} (cb : CryptoBox K) [Cypher cb α] : Cypher cb (List α) where
  encrypt self nonce pk sk := self.mapM fun x => Cypher.encrypt cb x nonce pk sk
  decrypt self nonce pk sk := self.mapM fun x => Cypher.decrypt cb x nonce pk sk

/-- Whoever agrees on the box key reads back what was encrypted. -/
structure RoundTrips (cb : CryptoBox K) (α : Type) [Cypher cb α] : Prop where
  decrypt_encrypt : ∀ {x e : α} {nonce : SalsaNonce} {pk pk' : PublicKey} {sk sk' : SecretKey},
    cb.new pk sk = cb.new pk' sk' → (Cypher.encrypt cb x nonce pk sk).result = .ok e →
      Cypher.decrypt cb e nonce pk' sk' = .ok x

theorem RoundTrips.vec {cb : CryptoBox K} {α : Type} [Cypher cb α] (item : RoundTrips cb α) :
    RoundTrips cb (List α) := by
  constructor
  intro xs es nonce pk pk' sk sk' agreed sealed
  change (xs.mapM fun x => Cypher.encrypt cb x nonce pk sk).result = .ok es at sealed
  change es.mapM (fun e => Cypher.decrypt cb e nonce pk' sk') = .ok xs
  rw [Traced.result_mapM, except_mapM_ok_iff] at sealed
  rw [except_mapM_ok_iff]
  exact (sealed.imp fun x e first => item.decrypt_encrypt agreed first).flip

/-- Key agreement adds the key bytes. The laws hold, nothing is hidden. -/
def clearBox : CryptoBox (ByteArr keySize) :=
  clearScheme (fun sk => ⟨sk.bytes⟩)
    (fun pk sk => List.Vector.zipWith (· + ·) pk.bytes sk.bytes)
    (fun k n => k.toList ++ n.toList)

theorem zipWith_add_comm (a b : ByteArr keySize) :
    List.Vector.zipWith (· + ·) a b = List.Vector.zipWith (· + ·) b a := by
  ext i
  simp only [List.Vector.zipWith_get]
  rw [UInt8.add_comm]

theorem clearBox_lawful : clearBox.Lawful :=
  clearScheme_lawful fun a b => zipWith_add_comm a.bytes b.bytes

theorem clearBox_keyBound : clearBox.KeyBound := by
  apply clearScheme_keyBound
  · intro k n k' n'
    simp only [List.length_append, List.Vector.toList_length]
  · intro k n k' n' same
    exact List.Vector.toList_injective (append_array_inj same).1

theorem clearBox_nonceBound : clearBox.NonceBound := by
  apply clearScheme_nonceBound
  · intro k n k' n'
    simp only [List.length_append, List.Vector.toList_length]
  · intro k n k' n' same
    exact (append_array_inj same).2

theorem clearBox_sealsAll : clearBox.SealsAll := clearScheme_sealsAll _ _ _

theorem clearBox_expands : clearBox.Expands (keySize + nonceSize) := by
  apply clearScheme_expands
  intro k n
  simp only [List.length_append, List.Vector.toList_length]

theorem clearBox_sealsNonempty : clearBox.SealsNonempty := by
  apply clearScheme_sealsNonempty
  intro k n empty
  have size : keySize + nonceSize = 0 := by
    simpa only [List.length_append, List.Vector.toList_length, List.length_nil] using
      congrArg List.length empty
  cases size

/-- A tag of 16 bytes, the size of an authenticator. It holds only half of the box key, so two
parties are kept apart if their keys differ there. -/
def shortBox : CryptoBox (ByteArr keySize) :=
  clearScheme (fun sk => ⟨sk.bytes⟩)
    (fun pk sk => List.Vector.zipWith (· + ·) pk.bytes sk.bytes)
    (fun k _ => k.toList.take 16)

theorem shortBox_lawful : shortBox.Lawful :=
  clearScheme_lawful fun a b => zipWith_add_comm a.bytes b.bytes

theorem shortBox_sealsAll : shortBox.SealsAll := clearScheme_sealsAll _ _ _

theorem length_take_key (k : ByteArr keySize) : (k.toList.take 16).length = 16 := by
  rw [List.length_take, List.Vector.toList_length]
  rfl

theorem shortBox_expands : shortBox.Expands 16 := clearScheme_expands fun k _ => length_take_key k

theorem shortBox_sealsNonempty : shortBox.SealsNonempty := by
  apply clearScheme_sealsNonempty
  intro k n empty
  have size := length_take_key k
  rw [empty] at size
  cases size

theorem shortBox_confined {k k' : ByteArr keySize} (other : k'.toList.take 16 ≠ k.toList.take 16)
    (nonce : SalsaNonce) (m : Bytes) : shortBox.Confined k nonce m k' := by
  intro _ c sealed
  exact clearScheme_closed ((length_take_key k').trans (length_take_key k).symm) other sealed

end Nolik
