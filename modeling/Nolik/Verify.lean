import Nolik.Parties

/-! What a reader rebuilds from an opened channel, and that the root hash over it is the one of
the metadata. No collision is involved. The reader and the sender hash the same strings. -/
namespace Nolik
open ByteString Effects Sealing

variable {K : Type} {cb : CryptoBox K} {blake2s : Bytes → ByteArr keySize}

/-- `<[u8; 32]>::try_from`, then `PublicKey::from`. -/
def PublicKey.tryFrom (bytes : Bytes) : Option PublicKey := (tryInto keySize bytes).map PublicKey.mk

@[simp] theorem PublicKey.tryFrom_asBytes (pk : PublicKey) : tryFrom pk.asBytes = some pk := by
  rw [tryFrom, asBytes, tryInto_toList]
  rfl

theorem PublicKey.mapM_tryFrom (pks : List PublicKey) :
    (pks.map PublicKey.asBytes).mapM PublicKey.tryFrom = some pks := by
  induction pks with
  | nil => rfl
  | cons pk pks ih =>
      rw [List.map_cons, List.mapM_cons, tryFrom_asBytes, ih]
      rfl

/-- The arguments of the root hash that are read off a channel. -/
structure Envelope where
  secretNonce : SalsaNonce
  senderPk : PublicKey
  recipients : List PublicKey

/-- The first party is the sender, the others are the recipients. -/
def Channel.envelope (channel : Channel) : Option Envelope := do
  let secretNonce ← tryInto nonceSize channel.nonce
  let parties ← channel.parties.mapM PublicKey.tryFrom
  match parties with
  | [] => none
  | senderPk :: recipients => some ⟨secretNonce, senderPk, recipients⟩

def MessageMetadata.recompute (blake2s : Bytes → ByteArr keySize) (self : MessageMetadata)
    (origin : PublicKey) (envelope : Envelope) (message : Message) : ByteArr keySize :=
  (RootHashArgs.rootHash blake2s ⟨origin, self.nonce, envelope.senderPk, ⟨self.broker⟩,
    envelope.secretNonce, envelope.recipients, message⟩).value

namespace Draft

theorem envelope_openedChannel (d : Draft) :
    d.openedChannel.envelope = some ⟨d.secretNonce, d.senderPk, d.recipients⟩ := by
  simp only [Channel.envelope, openedChannel, tryInto_toList, PublicKey.mapM_tryFrom]
  rfl

theorem recompute_yields {d : Draft} {metadata : MessageMetadata} {secretNonce : SalsaNonce}
    (yields : d.Yields cb blake2s metadata secretNonce) :
    metadata.recompute blake2s d.origin ⟨d.secretNonce, d.senderPk, d.recipients⟩ d.message =
      metadata.hash := by
  rw [yields.hash, MessageMetadata.recompute, yields.nonce, yields.broker]
  rfl

theorem party_verifies (lawful : cb.Lawful) {d : Draft} {sk : SecretKey}
    (separates : d.Separates cb sk) {metadata : MessageMetadata} {secretNonce : SalsaNonce}
    (yields : d.Yields cb blake2s metadata secretNonce) (party : cb.publicKey sk ∈ d.parties) :
    ∃ opened, metadata.decrypt cb sk = .ok opened ∧ opened.channels ≠ [] ∧
      ∀ channel ∈ opened.channels, ∃ envelope, channel.envelope = some envelope ∧
        envelope.secretNonce = secretNonce ∧ envelope.senderPk = d.senderPk ∧
        metadata.recompute blake2s d.origin envelope d.message = metadata.hash := by
  obtain ⟨opened, decrypted, nonempty, same⟩ := party_opens lawful separates yields party
  refine ⟨opened, decrypted, nonempty, fun channel member => ?_⟩
  rw [same channel member]
  exact ⟨_, d.envelope_openedChannel, yields.secretNonce.symm, rfl, recompute_yields yields⟩

/-- A party that can read the stored message in the light of an envelope reads and verifies it
in every channel it opens. -/
theorem party_reads (lawful : cb.Lawful) {d : Draft} {sk : SecretKey}
    (separates : d.Separates cb sk) {metadata : MessageMetadata} {secretNonce : SalsaNonce}
    (yields : d.Yields cb blake2s metadata secretNonce) (party : cb.publicKey sk ∈ d.parties)
    {stored : Message} {partner : Envelope → PublicKey}
    (reads : ∀ envelope : Envelope, envelope.secretNonce = secretNonce →
      envelope.senderPk = d.senderPk →
      Cypher.decrypt cb stored envelope.secretNonce (partner envelope) sk = .ok d.message) :
    ∃ opened, metadata.decrypt cb sk = .ok opened ∧ opened.channels ≠ [] ∧
      ∀ channel ∈ opened.channels, ∃ envelope found, channel.envelope = some envelope ∧
        Cypher.decrypt cb stored envelope.secretNonce (partner envelope) sk = .ok found ∧
        metadata.recompute blake2s d.origin envelope found = metadata.hash := by
  obtain ⟨opened, decrypted, nonempty, verified⟩ :=
    party_verifies lawful separates yields party
  refine ⟨opened, decrypted, nonempty, fun channel member => ?_⟩
  obtain ⟨envelope, read, nonce, first, hash⟩ := verified channel member
  exact ⟨envelope, d.message, read, reads envelope nonce first, hash⟩

end Draft

/-- The recipient and the sender verify what they decrypt, and every other recipient
verifies the message it is given, in each channel they open. -/
theorem parties_verify (lawful : cb.Lawful) {d : Draft} {metadata : MessageMetadata}
    {secretNonce : SalsaNonce}
    (returned : (d.newEncrypted cb blake2s).result = .ok (metadata, secretNonce))
    (separates : ∀ sk, cb.publicKey sk ∈ d.parties → d.Separates cb sk)
    {senderSk receiverSk : SecretKey} (sender : cb.publicKey senderSk = d.senderPk)
    (recipient : cb.publicKey receiverSk ∈ d.recipients) {stored : Message}
    (sealed : (Cypher.encrypt cb d.message secretNonce (cb.publicKey receiverSk) senderSk).result =
      .ok stored) :
    (∃ opened, metadata.decrypt cb receiverSk = .ok opened ∧ opened.channels ≠ [] ∧
      ∀ channel ∈ opened.channels, ∃ envelope found, channel.envelope = some envelope ∧
        Cypher.decrypt cb stored envelope.secretNonce envelope.senderPk receiverSk = .ok found ∧
        metadata.recompute blake2s d.origin envelope found = metadata.hash) ∧
    (∃ opened, metadata.decrypt cb senderSk = .ok opened ∧ opened.channels ≠ [] ∧
      ∀ channel ∈ opened.channels, ∃ envelope found, channel.envelope = some envelope ∧
        Cypher.decrypt cb stored envelope.secretNonce (cb.publicKey receiverSk) senderSk =
          .ok found ∧
        metadata.recompute blake2s d.origin envelope found = metadata.hash) ∧
    (∀ otherSk, cb.publicKey otherSk ∈ d.recipients →
      ∃ opened, metadata.decrypt cb otherSk = .ok opened ∧ opened.channels ≠ [] ∧
        ∀ channel ∈ opened.channels, ∃ envelope, channel.envelope = some envelope ∧
          metadata.recompute blake2s d.origin envelope d.message = metadata.hash) := by
  have yields := Draft.yields_of_ok returned
  have receiverReads := Draft.recipient_reads lawful sender sealed
  have senderReads := (Message.roundTrips lawful).decrypt_encrypt rfl sealed
  refine ⟨?_, ?_, fun otherSk other => ?_⟩
  · have party := List.mem_cons_of_mem d.senderPk recipient
    apply Draft.party_reads lawful (separates receiverSk party) yields party
    intro envelope nonce first
    rw [nonce, first]
    exact receiverReads
  · have party : cb.publicKey senderSk ∈ d.parties := by
      rw [sender]
      exact List.mem_cons_self
    apply Draft.party_reads lawful (separates senderSk party) yields party
    intro envelope nonce _
    rw [nonce]
    exact senderReads
  · have party := List.mem_cons_of_mem d.senderPk other
    obtain ⟨opened, decrypted, nonempty, verified⟩ :=
      Draft.party_verifies lawful (separates otherSk party) yields party
    refine ⟨opened, decrypted, nonempty, fun channel member => ?_⟩
    obtain ⟨envelope, read, -, -, hash⟩ := verified channel member
    exact ⟨envelope, read, hash⟩

theorem parties_verify_sample :
    let d := Draft.sample 3 [6, 9, 6] ⟨[⟨[7], [8], .file⟩]⟩
    let receiverSk : SecretKey := ⟨List.Vector.replicate keySize 6⟩
    ∃ metadata stored opened,
      (d.newEncrypted clearBox numeralDigest).result = .ok (metadata, d.secretNonce) ∧
      metadata.decrypt clearBox receiverSk = .ok opened ∧ opened.channels ≠ [] ∧
      ∀ channel ∈ opened.channels, ∃ envelope found, channel.envelope = some envelope ∧
        Cypher.decrypt clearBox (stored : Message) envelope.secretNonce envelope.senderPk
          receiverSk = .ok found ∧
        metadata.recompute numeralDigest d.origin envelope found = metadata.hash := by
  intro d receiverSk
  obtain ⟨metadata, returned⟩ := d.newEncrypted_total clearBox_sealsAll numeralDigest
  obtain ⟨stored, sealed⟩ := Message.encrypt_total clearBox_sealsAll d.message d.secretNonce
    (clearBox.publicKey receiverSk) ⟨List.Vector.replicate keySize 3⟩
  obtain ⟨⟨opened, verified⟩, -, -⟩ :=
    parties_verify clearBox_lawful returned
      (fun sk _ => Draft.separates_of_keyBound clearBox_keyBound d sk) rfl (by decide) sealed
  exact ⟨metadata, stored, opened, returned, verified⟩

end Nolik
