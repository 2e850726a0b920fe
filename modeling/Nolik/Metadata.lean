import Nolik.RootHash

/-! `new_encrypted` and `decrypt` of the metadata crate. The two draws from `OsRng` are
arguments. Encryption runs over every pair of parties; decryption tries every channel and skips
those it cannot open. -/
namespace Nolik
open ByteString Effects Sealing

/-- Encrypted user communication channel. -/
structure Channel where
  nonce : Bytes
  parties : List Bytes
  deriving DecidableEq

structure MessageMetadata where
  nonce : ByteArr nonceSize
  broker : ByteArr keySize
  hash : ByteArr keySize
  channels : List Channel
  deriving DecidableEq

variable {K : Type}

/-- The body of the loop over the parties. -/
def encryptChannel (cb : CryptoBox K) (parties : List PublicKey)
    (publicNonce secretNonce : SalsaNonce) (brokerSk : SecretKey) (partyPk : PublicKey) :
    Encrypting K Channel := do
  let nonce ← BytesCypher.encrypt cb secretNonce.toList publicNonce partyPk brokerSk
  let parties ← parties.mapM fun p => BytesCypher.encrypt cb p.asBytes secretNonce partyPk brokerSk
  pure { nonce, parties }

/-- `MessageMetadata::new_encrypted`; `secretNonce` and `brokerSk` are what `OsRng` gave. -/
def newEncrypted (cb : CryptoBox K) (blake2s : Bytes → ByteArr keySize) (origin : PublicKey)
    (publicNonce : SalsaNonce) (senderPk : PublicKey) (recipients : List PublicKey)
    (message : Message) (secretNonce : SalsaNonce) (brokerSk : SecretKey) :
    Encrypting K (MessageMetadata × SalsaNonce) := do
  let brokerPk := cb.publicKey brokerSk
  let parties := senderPk :: recipients
  let encryptedChannels ← parties.mapM fun partyPk =>
    encryptChannel cb parties publicNonce secretNonce brokerSk partyPk
  let publicNonceArr ← match tryInto nonceSize publicNonce.toList with
    | some arr => pure arr
    | none => throw (.unexpectedNonceType publicNonce)
  pure ({ nonce := publicNonceArr
          broker := brokerPk.bytes
          hash := (RootHashArgs.rootHash blake2s ⟨origin, publicNonce, senderPk, brokerPk,
            secretNonce, recipients, message⟩).value
          channels := encryptedChannels }, secretNonce)

/-- The body of the loop over the channels; `channels` is what was pushed so far. -/
def decryptChannel (cb : CryptoBox K) (publicNonce : SalsaNonce) (brokerPk : PublicKey)
    (receiverSk : SecretKey) (channels : List Channel) (channel : Channel) :
    Outcome CypherError (List Channel) :=
  match BytesCypher.decrypt cb channel.nonce publicNonce brokerPk receiverSk with
  | .ok nonce => do
      let secretNonce ← SalsaNonce.fromSlice nonce
      let parties ← Outcome.ofExcept (channel.parties.mapM fun p =>
        BytesCypher.decrypt cb p secretNonce brokerPk receiverSk)
      pure (channels ++ [{ nonce := secretNonce.toList, parties }])
  -- can't decrypt - not receiver's entry, try next one
  | .error _ => pure channels

def MessageMetadata.decrypt (cb : CryptoBox K) (self : MessageMetadata) (receiverSk : SecretKey) :
    Outcome CypherError MessageMetadata := do
  let publicNonce ← SalsaNonce.fromSlice self.nonce.toList
  let brokerPk : PublicKey := ⟨self.broker⟩
  let channels ← self.channels.foldlM (decryptChannel cb publicNonce brokerPk receiverSk) []
  pure { self with channels }

variable {cb : CryptoBox K} {publicNonce secretNonce : SalsaNonce}

theorem encryptChannel_ok_iff {parties : List PublicKey} {brokerSk : SecretKey}
    {partyPk : PublicKey} {channel : Channel} :
    (encryptChannel cb parties publicNonce secretNonce brokerSk partyPk).result = .ok channel ↔
      (BytesCypher.encrypt cb secretNonce.toList publicNonce partyPk brokerSk).result =
        .ok channel.nonce ∧
      List.Forall₂ (fun p c =>
        (BytesCypher.encrypt cb p.asBytes secretNonce partyPk brokerSk).result = .ok c)
        parties channel.parties := by
  obtain ⟨nonce, sealed⟩ := channel
  rw [← except_mapM_ok_iff, ← Traced.result_mapM]
  simp only [encryptChannel, Traced.bind_ok_iff, Traced.pure_ok_iff, Channel.mk.injEq]
  constructor
  · rintro ⟨_, nonce, _, sealed, rfl, rfl⟩
    exact ⟨nonce, sealed⟩
  · rintro ⟨nonce, sealed⟩
    exact ⟨_, nonce, _, sealed, rfl, rfl⟩

theorem encryptChannel_total (seals : cb.SealsAll) (parties : List PublicKey)
    (brokerSk : SecretKey) (partyPk : PublicKey) :
    ∃ channel, (encryptChannel cb parties publicNonce secretNonce brokerSk partyPk).result =
      .ok channel := by
  obtain ⟨nonce, first⟩ :=
    BytesCypher.encrypt_total seals secretNonce.toList publicNonce partyPk brokerSk
  obtain ⟨sealed, rest⟩ := except_mapM_total_iff.mpr fun (p : PublicKey) (_ : p ∈ parties) =>
    BytesCypher.encrypt_total seals p.asBytes secretNonce partyPk brokerSk
  exact ⟨⟨nonce, sealed⟩, encryptChannel_ok_iff.mpr ⟨first, except_mapM_ok_iff.mp rest⟩⟩

/-- What one visit of the loop pushes. -/
def openChannel (cb : CryptoBox K) (publicNonce : SalsaNonce) (brokerPk : PublicKey)
    (receiverSk : SecretKey) (channel : Channel) : Outcome CypherError (List Channel) :=
  decryptChannel cb publicNonce brokerPk receiverSk [] channel

theorem decryptChannel_appends (brokerPk : PublicKey) (receiverSk : SecretKey)
    (channels : List Channel) (channel : Channel) :
    decryptChannel cb publicNonce brokerPk receiverSk channels channel =
      (channels ++ ·) <$> openChannel cb publicNonce brokerPk receiverSk channel := by
  simp only [openChannel, decryptChannel]
  cases BytesCypher.decrypt cb channel.nonce publicNonce brokerPk receiverSk with
  | error e => simp
  | ok nonce =>
      simp only [map_bind]
      congr 1

theorem MessageMetadata.decrypt_eq (self : MessageMetadata) (receiverSk : SecretKey) :
    self.decrypt cb receiverSk = (fun channels => { self with channels }) <$>
      Outcome.collect (openChannel cb self.nonce ⟨self.broker⟩ receiverSk) self.channels := by
  rw [decrypt, SalsaNonce.fromSlice_toList, Outcome.ok_bind]
  dsimp only
  rw [Outcome.foldlM_eq_collect (decryptChannel_appends _ _)]
  cases Outcome.collect (openChannel cb self.nonce ⟨self.broker⟩ receiverSk) self.channels <;> rfl

theorem openChannel_foreign {brokerPk : PublicKey} {receiverSk : SecretKey} {channel : Channel}
    {e : CypherError}
    (closed : BytesCypher.decrypt cb channel.nonce publicNonce brokerPk receiverSk = .error e) :
    openChannel cb publicNonce brokerPk receiverSk channel = .ok [] := by
  simp only [openChannel, decryptChannel, closed, Outcome.pure_eq]

theorem openChannel_opened {brokerPk : PublicKey} {receiverSk : SecretKey} {channel : Channel}
    {parties : List Bytes}
    (nonce : BytesCypher.decrypt cb channel.nonce publicNonce brokerPk receiverSk =
      .ok secretNonce.toList)
    (opened : List.Forall₂ (fun c p =>
      BytesCypher.decrypt cb c secretNonce brokerPk receiverSk = .ok p) channel.parties parties) :
    openChannel cb publicNonce brokerPk receiverSk channel =
      .ok [⟨secretNonce.toList, parties⟩] := by
  simp only [openChannel, decryptChannel, nonce, SalsaNonce.fromSlice_toList, Outcome.ok_bind,
    except_mapM_ok_iff.mpr opened, Outcome.ofExcept_ok, Outcome.pure_eq, List.nil_append]

/-- The arguments of one `new_encrypted` call and its two random draws. -/
structure Draft where
  origin : PublicKey
  publicNonce : SalsaNonce
  senderPk : PublicKey
  recipients : List PublicKey
  message : Message
  secretNonce : SalsaNonce
  brokerSk : SecretKey

namespace Draft

def newEncrypted (cb : CryptoBox K) (blake2s : Bytes → ByteArr keySize) (d : Draft) :
    Encrypting K (MessageMetadata × SalsaNonce) :=
  Nolik.newEncrypted cb blake2s d.origin d.publicNonce d.senderPk d.recipients d.message
    d.secretNonce d.brokerSk

/-- The sender first, then the recipients as given. -/
def parties (d : Draft) : List PublicKey := d.senderPk :: d.recipients

def encryptChannel (cb : CryptoBox K) (d : Draft) (partyPk : PublicKey) : Encrypting K Channel :=
  Nolik.encryptChannel cb d.parties d.publicNonce d.secretNonce d.brokerSk partyPk

def rootHashArgs (cb : CryptoBox K) (d : Draft) (message : Message) : RootHashArgs :=
  ⟨d.origin, d.publicNonce, d.senderPk, cb.publicKey d.brokerSk, d.secretNonce, d.recipients,
    message⟩

/-- What a successful call returns. -/
structure Yields (cb : CryptoBox K) (blake2s : Bytes → ByteArr keySize) (d : Draft)
    (metadata : MessageMetadata) (secretNonce : SalsaNonce) : Prop where
  secretNonce : secretNonce = d.secretNonce
  nonce : metadata.nonce = d.publicNonce
  broker : metadata.broker = (cb.publicKey d.brokerSk).bytes
  hash : metadata.hash = ((d.rootHashArgs cb d.message).rootHash blake2s).value
  channels : List.Forall₂ (fun p channel => (d.encryptChannel cb p).result = .ok channel)
    d.parties metadata.channels

theorem newEncrypted_result (blake2s : Bytes → ByteArr keySize) (d : Draft) :
    (d.newEncrypted cb blake2s).result =
      d.parties.mapM (fun p => (d.encryptChannel cb p).result) >>= fun channels =>
        .ok (⟨d.publicNonce, (cb.publicKey d.brokerSk).bytes,
          ((d.rootHashArgs cb d.message).rootHash blake2s).value, channels⟩, d.secretNonce) := by
  simp only [newEncrypted, Nolik.newEncrypted, tryInto_toList, pure_bind]
  rw [Traced.result_bind, Traced.result_mapM]
  rfl

theorem encryptChannel_total (seals : cb.SealsAll) (d : Draft) (p : PublicKey) :
    ∃ channel, (d.encryptChannel cb p).result = .ok channel :=
  Nolik.encryptChannel_total seals d.parties d.brokerSk p

theorem newEncrypted_total (seals : cb.SealsAll) (blake2s : Bytes → ByteArr keySize) (d : Draft) :
    ∃ metadata, (d.newEncrypted cb blake2s).result = .ok (metadata, d.secretNonce) := by
  obtain ⟨channels, sealed⟩ := except_mapM_total_iff.mpr fun (p : PublicKey) (_ : p ∈ d.parties) =>
    d.encryptChannel_total seals p
  rw [newEncrypted_result, sealed]
  exact ⟨_, rfl⟩

theorem yields_of_ok {blake2s : Bytes → ByteArr keySize} {d : Draft} {metadata : MessageMetadata}
    (returned : (d.newEncrypted cb blake2s).result = .ok (metadata, secretNonce)) :
    d.Yields cb blake2s metadata secretNonce := by
  rw [newEncrypted_result] at returned
  cases sealed : d.parties.mapM (fun p => (d.encryptChannel cb p).result) with
  | error e => rw [sealed] at returned; cases returned
  | ok channels =>
      rw [sealed] at returned
      cases returned
      exact ⟨rfl, rfl, rfl, rfl, except_mapM_ok_iff.mp sealed⟩

/-- A draft to evaluate with. The keys are those of the box in clear, where the public
key repeats the bytes of the secret one; the broker's is 4. -/
def sample (senderSk : UInt8) (recipients : List UInt8) (message : Message) : Draft where
  origin := ⟨List.Vector.replicate keySize 1⟩
  publicNonce := List.Vector.replicate nonceSize 2
  senderPk := ⟨List.Vector.replicate keySize senderSk⟩
  recipients := recipients.map fun byte => ⟨List.Vector.replicate keySize byte⟩
  message := message
  secretNonce := List.Vector.replicate nonceSize 5
  brokerSk := ⟨List.Vector.replicate keySize 4⟩

end Draft
end Nolik
