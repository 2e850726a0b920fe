import Nolik.FrontEnds
import Nolik.Pallet
import Nolik.Verify

/-! The command line client, from the decoded secret seed to the extrinsic that is submitted.
The origin in the root hash is a fixed account, the signer is the account of the seed. The
random draws are arguments; `sr25519` is the key pair of `sp_core`. -/
namespace Nolik
open ByteString Effects Digest

abbrev AccountId32 := ByteArr keySize

structure Sr25519 where
  Pair : Type
  fromSeedSlice : Bytes → Option Pair
  publicKey : Pair → ByteArr keySize

/-- `AccountKeyring::Alice.public().0`. -/
def AccountKeyring.alice : ByteArr keySize :=
  ⟨[0xd4, 0x35, 0x93, 0xc7, 0x15, 0xfd, 0xd3, 0x1c, 0x61, 0x14, 0x1a, 0xbd,
    0x04, 0xa9, 0x9f, 0xd6, 0x82, 0x2c, 0x85, 0x58, 0x85, 0x4c, 0xcd, 0xe3,
    0x9a, 0x56, 0x84, 0xe7, 0xa5, 0x6d, 0xa2, 0x7d], rfl⟩

namespace Cli

/-- What `OsRng` gives, in the order of the draws. -/
structure Draws where
  nonce : SalsaNonce
  senderSk : SecretKey
  receiverSk : SecretKey
  secretNonce : SalsaNonce
  brokerSk : SecretKey

/-- The key is "key" and the value is "value". -/
def message : Message where
  entries := [{
    key := [0x6b, 0x65, 0x79]
    value := [0x76, 0x61, 0x6c, 0x75, 0x65]
    kind := default }]

variable {K : Type}

/-- `main`, up to the signed extrinsic. -/
def main (cb : CryptoBox K) (blake2s : Bytes → ByteArr keySize) (sr25519 : Sr25519)
    (secret : Bytes) (draws : Draws) : Outcome CypherError (Call AccountId32) := do
  let secret ← match sr25519.fromSeedSlice secret with
    | some pair => pure pair
    | none => .panic
  let senderPk := cb.publicKey draws.senderSk
  let receiverPk := cb.publicKey draws.receiverSk
  let (encryptedMetadata, secretNonce) ← .ofExcept (PolkadotMessageMetadata.newEncrypted cb
    blake2s ⟨AccountKeyring.alice⟩ draws.nonce senderPk [receiverPk] message draws.secretNonce
    draws.brokerSk).result
  let encryptedMessage ← .ofExcept
    (Cypher.encrypt cb message secretNonce receiverPk draws.senderSk).result
  match encryptedMessage.encode with
  | some bytes => pure {
      origin := .signed (sr25519.publicKey secret)
      metadata := encryptedMetadata.decoded
      message := bytes }
  | none => .panic

namespace Draws
variable (cb : CryptoBox K) (draws : Draws)

def draft (origin : PublicKey) : Draft where
  origin := origin
  publicNonce := draws.nonce
  senderPk := cb.publicKey draws.senderSk
  recipients := [cb.publicKey draws.receiverSk]
  message := message
  secretNonce := draws.secretNonce
  brokerSk := draws.brokerSk

def rootHash (blake2s : Bytes → ByteArr keySize) (origin : PublicKey) :
    Hashing (ByteArr keySize) :=
  ((draws.draft cb origin).rootHashArgs cb message).rootHash blake2s

def envelope : Envelope where
  secretNonce := draws.secretNonce
  senderPk := cb.publicKey draws.senderSk
  recipients := [cb.publicKey draws.receiverSk]

/-- The metadata verifies against the account, and against another one only where two
hashed strings collide. -/
structure Verifies (blake2s : Bytes → ByteArr keySize) (metadata : MessageMetadata)
    (account : PublicKey) : Prop where
  hash : metadata.hash = (draws.rootHash cb blake2s account).value
  recomputed : metadata.recompute blake2s account (draws.envelope cb) message = metadata.hash
  unique : ∀ other, other ≠ account →
    metadata.hash = (draws.rootHash cb blake2s other).value →
    Collision blake2s ((draws.rootHash cb blake2s account).log ++
      (draws.rootHash cb blake2s other).log)

end Draws

variable {cb : CryptoBox K} {blake2s : Bytes → ByteArr keySize} {sr25519 : Sr25519}
  {draws : Draws} {secret : Bytes} {pair : sr25519.Pair} {call : Call AccountId32}

theorem Draws.rootHash_collides {a b : PublicKey} (other : a ≠ b)
    (same : (draws.rootHash cb blake2s a).value = (draws.rootHash cb blake2s b).value) :
    Collision blake2s ((draws.rootHash cb blake2s a).log ++ (draws.rootHash cb blake2s b).log) := by
  by_contra free
  exact other (RootHashArgs.sameContent_of_not_collision free same).origin

/-- What a run submits. The signer and the origin of the metadata have nothing in common. -/
theorem main_ok (loaded : sr25519.fromSeedSlice secret = some pair)
    (sent : main cb blake2s sr25519 secret draws = .ok call) :
    call.origin = .signed (sr25519.publicKey pair) ∧
      (draws.draft cb ⟨AccountKeyring.alice⟩).Yields cb blake2s call.metadata
        draws.secretNonce := by
  simp only [main, loaded, Outcome.pure_eq, Outcome.ok_bind, Outcome.bind_ok_iff,
    Outcome.ofExcept_ok_iff] at sent
  obtain ⟨⟨encryptedMetadata, secretNonce⟩, returned, encryptedMessage, -, sent⟩ := sent
  obtain ⟨metadata, core, rfl⟩ := PolkadotMessageMetadata.newEncrypted_ok returned
  have yields : (draws.draft cb ⟨AccountKeyring.alice⟩).Yields cb blake2s metadata secretNonce :=
    Draft.yields_of_ok core
  have same : secretNonce = draws.secretNonce := yields.secretNonce
  subst same
  split at sent
  · cases sent
    rw [PolkadotMessageMetadata.decoded_fromMetadata]
    exact ⟨rfl, yields⟩
  · cases sent

theorem Draws.verifies_of_yields {account : PublicKey} {metadata : MessageMetadata}
    (yields : (draws.draft cb account).Yields cb blake2s metadata draws.secretNonce) :
    draws.Verifies cb blake2s metadata account := by
  have hash : metadata.hash = (draws.rootHash cb blake2s account).value := yields.hash
  have recomputed := Draft.recompute_yields yields
  refine ⟨hash, recomputed, fun other different matched => ?_⟩
  exact draws.rootHash_collides different.symm (hash.symm.trans matched)

/-- The metadata that is sent verifies against the signer exactly when the signer is the
fixed account of the origin, or two of the strings hashed for these two accounts collide. -/
theorem main_verifies_iff (loaded : sr25519.fromSeedSlice secret = some pair)
    (sent : main cb blake2s sr25519 secret draws = .ok call) :
    let signer : PublicKey := ⟨sr25519.publicKey pair⟩
    let alice : PublicKey := ⟨AccountKeyring.alice⟩
    call.origin = .signed (sr25519.publicKey pair) ∧
      ((draws.Verifies cb blake2s call.metadata signer ↔ signer = alice) ∨
        (signer ≠ alice ∧ Collision blake2s ((draws.rootHash cb blake2s signer).log ++
          (draws.rootHash cb blake2s alice).log))) := by
  intro signer alice
  obtain ⟨origin, yields⟩ := main_ok loaded sent
  have hash : call.metadata.hash = (draws.rootHash cb blake2s alice).value := yields.hash
  refine ⟨origin, ?_⟩
  by_cases same : signer = alice
  · rw [same]
    exact .inl ⟨fun _ => rfl, fun _ => draws.verifies_of_yields yields⟩
  · by_cases matched : (draws.rootHash cb blake2s signer).value =
        (draws.rootHash cb blake2s alice).value
    · exact .inr ⟨same, draws.rootHash_collides same matched⟩
    · refine .inl ⟨fun verifies => ?_, fun equal => absurd equal same⟩
      exact absurd (verifies.hash.symm.trans hash) matched

/-- Secret seeds and public keys of two development accounts. -/
def aliceSeed : Bytes :=
  [0xe5, 0xbe, 0x9a, 0x50, 0x92, 0xb8, 0x1b, 0xca, 0x64, 0xbe, 0x81, 0xd2,
    0x12, 0xe7, 0xf2, 0xf9, 0xeb, 0xa1, 0x83, 0xbb, 0x7a, 0x90, 0x95, 0x4f,
    0x7b, 0x76, 0x36, 0x1f, 0x6e, 0xdb, 0x5c, 0x0a]

def bobSeed : Bytes :=
  [0x39, 0x8f, 0x0c, 0x28, 0xf9, 0x88, 0x85, 0xe0, 0x46, 0x33, 0x3d, 0x4a,
    0x41, 0xc1, 0x9c, 0xee, 0x4c, 0x37, 0x36, 0x8a, 0x98, 0x32, 0xc6, 0x50,
    0x2f, 0x6c, 0xfd, 0x18, 0x2e, 0x2a, 0xef, 0x89]

def bob : ByteArr keySize :=
  ⟨[0x8e, 0xaf, 0x04, 0x15, 0x16, 0x87, 0x73, 0x63, 0x26, 0xc9, 0xfe, 0xa1,
    0x7e, 0x25, 0xfc, 0x52, 0x87, 0x61, 0x36, 0x93, 0xc9, 0x12, 0x90, 0x9c,
    0xb2, 0x26, 0xaa, 0x47, 0x94, 0xf2, 0x6a, 0x48], rfl⟩

def developmentKeys : Sr25519 where
  Pair := ByteArr keySize
  fromSeedSlice seed :=
    if seed = aliceSeed then some AccountKeyring.alice
    else if seed = bobSeed then some bob
    else none
  publicKey pair := pair

def Draws.sample : Draws where
  nonce := List.Vector.replicate nonceSize 2
  senderSk := ⟨List.Vector.replicate keySize 3⟩
  receiverSk := ⟨List.Vector.replicate keySize 6⟩
  secretNonce := List.Vector.replicate nonceSize 5
  brokerSk := ⟨List.Vector.replicate keySize 4⟩

theorem main_verifies_alice :
    ∃ call, main clearBox numeralDigest developmentKeys aliceSeed Draws.sample = .ok call ∧
      call.origin = .signed AccountKeyring.alice ∧
      Draws.sample.Verifies clearBox numeralDigest call.metadata ⟨AccountKeyring.alice⟩ := by
  have loaded : developmentKeys.fromSeedSlice aliceSeed = some AccountKeyring.alice := rfl
  have sent : main clearBox numeralDigest developmentKeys aliceSeed Draws.sample = .ok _ := rfl
  obtain ⟨origin, verifies | ⟨other, -⟩⟩ := main_verifies_iff loaded sent
  · exact ⟨_, sent, origin, verifies.mpr rfl⟩
  · exact absurd rfl other

/-- Bob signs, and the metadata says that it is from Alice. -/
theorem bob_sends_as_alice :
    ∃ call, main clearBox numeralDigest developmentKeys bobSeed Draws.sample = .ok call ∧
      call.origin = .signed bob ∧
      call.metadata.hash ≠ (Draws.sample.rootHash clearBox numeralDigest ⟨bob⟩).value ∧
      call.metadata.hash =
        (Draws.sample.rootHash clearBox numeralDigest ⟨AccountKeyring.alice⟩).value := by
  have loaded : developmentKeys.fromSeedSlice bobSeed = some bob := rfl
  have sent : main clearBox numeralDigest developmentKeys bobSeed Draws.sample = .ok _ := rfl
  obtain ⟨origin, yields⟩ := main_ok loaded sent
  have hash : _ = (Draws.sample.rootHash clearBox numeralDigest ⟨AccountKeyring.alice⟩).value :=
    yields.hash
  refine ⟨_, sent, origin, ?_, hash⟩
  rw [hash]
  decide +kernel

end Cli
end Nolik
