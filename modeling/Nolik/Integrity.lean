import Nolik.Metadata

/-! A receiver may find any value in storage. The fields that come out of a verified message are
those that were sent, up to a collision. The kinds are neither sealed nor hashed, and come out
as they were found. -/
namespace Nolik
open ByteString Digest Effects

variable {K : Type} {cb : CryptoBox K} {blake2s : Bytes → ByteArr keySize} {d : Draft}

namespace Draft

def hashedStrings (cb : CryptoBox K) (blake2s : Bytes → ByteArr keySize) (d : Draft)
    (found : Message) : List Bytes :=
  ((d.rootHashArgs cb found).rootHash blake2s).log ++
    ((d.rootHashArgs cb d.message).rootHash blake2s).log

/-- The hash covers the fields, whatever was done to them in storage. -/
theorem fields_of_verified {metadata : MessageMetadata} {secretNonce : SalsaNonce}
    (returned : (d.newEncrypted cb blake2s).result = .ok (metadata, secretNonce))
    {found : Message}
    (verified : ((d.rootHashArgs cb found).rootHash blake2s).value = metadata.hash)
    (binding : ¬ Collision blake2s (d.hashedStrings cb blake2s found)) :
    found.fields = d.message.fields := by
  rw [(yields_of_ok returned).hash] at verified
  have same : (d.rootHashArgs cb found).SameContent (d.rootHashArgs cb d.message) := by
    apply RootHashArgs.sameContent_of_injOn (injOn_of_not_collision binding) ?_ ?_ verified
    · exact fun s member => List.mem_append_left _ member
    · exact fun s member => List.mem_append_right _ member
  exact same.fields

end Draft

/-- The stored value with every entry declared to be of one kind. No key is needed. -/
def Message.relabel (kind : MessageType) (m : Message) : Message :=
  ⟨m.entries.map fun e => { e with kind }⟩

theorem Message.leaves_relabel (kind : MessageType) (m : Message) :
    (m.relabel kind).leaves = m.leaves := by
  simp only [leaves, relabel, List.flatMap_map]

theorem Message.decrypt_relabel {e m : Message} {nonce : SalsaNonce} {pk : PublicKey}
    {sk : SecretKey} (kind : MessageType) (opened : Cypher.decrypt cb e nonce pk sk = .ok m) :
    Cypher.decrypt cb (e.relabel kind) nonce pk sk = .ok (m.relabel kind) := by
  rw [Message.decrypt_ok_iff] at opened ⊢
  apply except_mapM_ok_iff.mpr
  rw [relabel, relabel, List.forall₂_map_left_iff, List.forall₂_map_right_iff]
  apply (except_mapM_ok_iff.mp opened).imp
  intro x y first
  obtain ⟨key, value, -⟩ := MessageEntry.decrypt_ok_iff.mp first
  exact MessageEntry.decrypt_ok_iff.mpr ⟨key, value, rfl⟩

theorem Draft.rootHash_relabel (d : Draft) (kind : MessageType) (m : Message) :
    (d.rootHashArgs cb (m.relabel kind)).rootHash blake2s =
      (d.rootHashArgs cb m).rootHash blake2s := by
  have leaves : (d.rootHashArgs cb (m.relabel kind)).message.leaves =
      (d.rootHashArgs cb m).message.leaves := m.leaves_relabel kind
  have root : (d.rootHashArgs cb (m.relabel kind)).root blake2s =
      (d.rootHashArgs cb m).root blake2s := by
    simp only [RootHashArgs.root, RootHashArgs.branches, leaves]
    rfl
  apply Logged.ext
  · rw [RootHashArgs.rootHash_value, RootHashArgs.rootHash_value, root]
  · rw [RootHashArgs.rootHash_log, RootHashArgs.rootHash_log, root, RootHashArgs.compute_log,
      RootHashArgs.compute_log, leaves]
    rfl

/-- Whoever holds the storage relabels a message, and the receiver accepts the result. -/
theorem relabelled_accepted {metadata : MessageMetadata} {secretNonce : SalsaNonce}
    (returned : (d.newEncrypted cb blake2s).result = .ok (metadata, secretNonce))
    {stored : Message} {receiverSk : SecretKey} (kind : MessageType)
    (opened : Cypher.decrypt cb stored secretNonce d.senderPk receiverSk = .ok d.message) :
    Cypher.decrypt cb (stored.relabel kind) secretNonce d.senderPk receiverSk =
        .ok (d.message.relabel kind) ∧
      ((d.rootHashArgs cb (d.message.relabel kind)).rootHash blake2s).value = metadata.hash := by
  refine ⟨Message.decrypt_relabel kind opened, ?_⟩
  rw [Draft.rootHash_relabel, (Draft.yields_of_ok returned).hash]

/-- A verified message is the one sent exactly when the stored value still has its kinds;
without a collision there is no third case. -/
theorem verified_message_iff {metadata : MessageMetadata} {secretNonce : SalsaNonce}
    (returned : (d.newEncrypted cb blake2s).result = .ok (metadata, secretNonce))
    {stored found : Message} {receiverSk : SecretKey}
    (opened : Cypher.decrypt cb stored secretNonce d.senderPk receiverSk = .ok found)
    (verified : ((d.rootHashArgs cb found).rootHash blake2s).value = metadata.hash) :
    (found = d.message ∨ Collision blake2s (d.hashedStrings cb blake2s found)) ↔
      (stored.kinds = d.message.kinds ∨
        Collision blake2s (d.hashedStrings cb blake2s found)) := by
  have kinds : found.kinds = stored.kinds := Message.decrypt_kinds opened
  by_cases collision : Collision blake2s (d.hashedStrings cb blake2s found)
  · simp only [collision, or_true]
  · simp only [collision, or_false]
    have fields := Draft.fields_of_verified returned verified collision
    constructor
    · intro sent
      rw [← kinds, sent]
    · intro kept
      exact Message.eq_of_fields_kinds fields (kinds.trans kept)

def Draft.note : Draft := .sample 3 [6] ⟨[⟨[7], [8], .rawData⟩]⟩

theorem Draft.note_stored : ∃ metadata stored,
    (note.newEncrypted clearBox numeralDigest).result = .ok (metadata, note.secretNonce) ∧
    (Cypher.encrypt clearBox note.message note.secretNonce ⟨List.Vector.replicate keySize 6⟩
      ⟨List.Vector.replicate keySize 3⟩).result = .ok stored ∧
    Cypher.decrypt clearBox stored note.secretNonce note.senderPk
      ⟨List.Vector.replicate keySize 6⟩ = .ok note.message := by
  obtain ⟨metadata, returned⟩ := note.newEncrypted_total clearBox_sealsAll numeralDigest
  obtain ⟨stored, sealed⟩ := Message.encrypt_total clearBox_sealsAll note.message
    note.secretNonce ⟨List.Vector.replicate keySize 6⟩ ⟨List.Vector.replicate keySize 3⟩
  have agreed : clearBox.new ⟨List.Vector.replicate keySize 6⟩ ⟨List.Vector.replicate keySize 3⟩ =
      clearBox.new note.senderPk ⟨List.Vector.replicate keySize 6⟩ := by decide
  exact ⟨metadata, stored, returned, sealed,
    (Message.roundTrips clearBox_lawful).decrypt_encrypt agreed sealed⟩

theorem verified_message_note : ∃ metadata stored,
    (Draft.note.newEncrypted clearBox numeralDigest).result =
      .ok (metadata, Draft.note.secretNonce) ∧
    ((Draft.note.message.relabel .file = Draft.note.message ∨
        Collision numeralDigest (Draft.note.hashedStrings clearBox numeralDigest
          (Draft.note.message.relabel .file))) ↔
      ((stored : Message).relabel .file).kinds = Draft.note.message.kinds ∨
        Collision numeralDigest (Draft.note.hashedStrings clearBox numeralDigest
          (Draft.note.message.relabel .file))) := by
  obtain ⟨metadata, stored, returned, -, opened⟩ := Draft.note_stored
  obtain ⟨relabelled, verified⟩ := relabelled_accepted returned .file opened
  exact ⟨metadata, stored, returned, verified_message_iff returned relabelled verified⟩

/-- Raw data relabelled as a file opens, verifies and is not what was sent. -/
theorem relabelled_message_verified : ∃ metadata stored found,
    (Draft.note.newEncrypted clearBox numeralDigest).result =
      .ok (metadata, Draft.note.secretNonce) ∧
    (Cypher.encrypt clearBox Draft.note.message Draft.note.secretNonce
      ⟨List.Vector.replicate keySize 6⟩ ⟨List.Vector.replicate keySize 3⟩).result = .ok stored ∧
    Cypher.decrypt clearBox (stored.relabel .file) Draft.note.secretNonce Draft.note.senderPk
      ⟨List.Vector.replicate keySize 6⟩ = .ok found ∧
    ((Draft.note.rootHashArgs clearBox found).rootHash numeralDigest).value = metadata.hash ∧
    found ≠ Draft.note.message ∧
    ¬ Collision numeralDigest (Draft.note.hashedStrings clearBox numeralDigest found) := by
  obtain ⟨metadata, stored, returned, sealed, opened⟩ := Draft.note_stored
  obtain ⟨relabelled, verified⟩ := relabelled_accepted returned .file opened
  refine ⟨metadata, stored, _, returned, sealed, relabelled, verified, ?_, ?_⟩
  · decide
  · decide +kernel

end Nolik
