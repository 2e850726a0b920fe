import Nolik.Parties
import Nolik.Retention

/-! The join of the client and the pallet. What `new_encrypted` and the message encryption
return is accepted, kept through any later traffic, and read back by the recipient and by the
sender. The chain is a single one. -/
namespace Nolik
open ByteString Effects KeyValue Sealing

variable {K : Type} {cb : CryptoBox K} {blake2s : Bytes → ByteArr keySize}

theorem BytesCypher.encrypt_ne_nil (nonempty : cb.SealsNonempty) {m c : Bytes} {nonce : SalsaNonce}
    {pk : PublicKey} {sk : SecretKey} (sealed : (encrypt cb m nonce pk sk).result = .ok c) :
    c ≠ [] :=
  nonempty (encrypt_ok_iff.mp sealed)

namespace Draft

theorem encryptChannel_wellFormed (nonempty : cb.SealsNonempty) {d : Draft} {p : PublicKey}
    {channel : Channel} (sealed : (d.encryptChannel cb p).result = .ok channel) :
    channel.nonce ≠ [] ∧ channel.parties.length = d.parties.length ∧
      ∀ part ∈ channel.parties, part ≠ [] := by
  obtain ⟨nonce, parties⟩ := encryptChannel_ok_iff.mp sealed
  refine ⟨BytesCypher.encrypt_ne_nil nonempty nonce, parties.length_eq.symm, ?_⟩
  exact forall_mem_of_forall₂ parties fun _ _ part => BytesCypher.encrypt_ne_nil nonempty part

/-- The pallet finds nothing wrong with what the client returns. -/
theorem checkMessage_yields (nonempty : cb.SealsNonempty) {d : Draft} {metadata : MessageMetadata}
    {secretNonce : SalsaNonce} (yields : d.Yields cb blake2s metadata secretNonce)
    {message : Bytes} (written : message ≠ []) : checkMessage message metadata = .ok () := by
  have size : metadata.channels.length = d.parties.length := yields.channels.length_eq.symm
  have ne_nil_of_length : ∀ {α : Type} {l : List α}, l.length = d.parties.length → l ≠ [] := by
    intro α l same empty
    rw [empty] at same
    cases same
  refine checkMessage_ok_iff.mpr ⟨written, ne_nil_of_length size, ?_⟩
  refine forall_mem_of_forall₂ yields.channels fun p channel sealed => ?_
  obtain ⟨nonce, parties, parts⟩ := encryptChannel_wellFormed nonempty sealed
  exact ⟨nonce, ne_nil_of_length parties, parties.trans size.symm, parts⟩

end Draft

variable {AccountId : Type}

/-- A message sent by a signed account is accepted in every state whose counter is not full.
After any later calls its bytes are still under the key of its event; the recipient finds
the nonce and the sender in the first channel it opens; recipient and sender read the message
back. -/
theorem message_delivered (lawful : cb.Lawful) (nonempty : cb.SealsNonempty)
    (encode : AccountId → Bytes) (env : Externalities)
    (room : env.chain.messageCounter.toNat < 2 ^ 128 - 1) (account : AccountId) {d : Draft}
    {metadata : MessageMetadata} {secretNonce : SalsaNonce}
    (returned : (d.newEncrypted cb blake2s).result = .ok (metadata, secretNonce))
    {senderSk receiverSk : SecretKey} (separates : d.Separates cb receiverSk)
    (sender : cb.publicKey senderSk = d.senderPk)
    (recipient : cb.publicKey receiverSk ∈ d.recipients) {stored : Message}
    (sealed : (Cypher.encrypt cb d.message secretNonce (cb.publicKey receiverSk) senderSk).result =
      .ok stored) {blob : Bytes} (encoded : stored.encode = some blob) :
    let call : Call AccountId := ⟨.signed account, metadata, blob⟩
    ∃ key, ((call.dispatch encode).run env).1 = .ok () ∧
      ((call.dispatch encode).run env).2.chain.events =
        env.chain.events ++ [.messageSent key metadata] ∧
      (∀ later, (stateAfter encode (call :: later) env).offchain key = some blob) ∧
      (∃ opened channel rest, metadata.decrypt cb receiverSk = .ok opened ∧
        opened.channels = channel :: rest ∧ channel.nonce = secretNonce.toList ∧
        channel.parties.head? = some d.senderPk.asBytes) ∧
      ∃ read, Message.decode blob = some (read, []) ∧
        Cypher.decrypt cb read secretNonce d.senderPk receiverSk = .ok d.message ∧
        Cypher.decrypt cb read secretNonce (cb.publicKey receiverSk) senderSk =
          .ok d.message := by
  intro call
  have yields := Draft.yields_of_ok returned
  have checked : checkMessage blob metadata = .ok () :=
    Draft.checkMessage_yields nonempty yields (Message.encode_ne_nil encoded)
  obtain ⟨p, admitted⟩ : ∃ p, admission env.chain.messageCounter.toNat call = some p := by
    refine ⟨⟨account, BitVec.ofNat 128 env.chain.messageCounter.toNat, metadata, blob⟩, ?_⟩
    exact admission_eq_some_iff.mpr ⟨by omega, checked, rfl, rfl, rfl, rfl⟩
  obtain ⟨-, -, -, -, metadata', message'⟩ := admission_eq_some_iff.mp admitted
  refine ⟨p.key encode, ?_, ?_, fun later => ?_, ?_, stored, Message.decode_encode encoded, ?_, ?_⟩
  · rw [dispatch_admitted encode admitted]
  · rw [dispatch_admitted encode admitted, metadata']
    rfl
  · rw [offchain_kept encode admitted later, message']
  · obtain ⟨opened, rest, decrypted, shown⟩ :=
      Draft.party_opens_first lawful separates yields (List.mem_cons_of_mem _ recipient)
    -- channels of other parties were skipped, so the first one is the recipient's own
    refine ⟨opened, d.openedChannel, rest, decrypted, shown, ?_, rfl⟩
    rw [yields.secretNonce]
    rfl
  · exact Draft.recipient_reads lawful sender sealed
  · exact (Message.roundTrips lawful).decrypt_encrypt rfl sealed

theorem message_delivered_sample :
    let d := Draft.sample 3 [6] ⟨[⟨[7], [8], .file⟩]⟩
    let account : ByteArr keySize := List.Vector.replicate keySize 1
    let receiverSk : SecretKey := ⟨List.Vector.replicate keySize 6⟩
    ∃ metadata blob key,
      (d.newEncrypted clearBox numeralDigest).result = .ok (metadata, d.secretNonce) ∧
      (∀ later, (stateAfter List.Vector.toList (⟨.signed account, metadata, blob⟩ :: later)
        .genesis).offchain key = some blob) ∧
      ∃ read, Message.decode blob = some (read, []) ∧
        Cypher.decrypt clearBox read d.secretNonce d.senderPk receiverSk = .ok d.message := by
  intro d account receiverSk
  obtain ⟨metadata, returned⟩ := d.newEncrypted_total clearBox_sealsAll numeralDigest
  have sealed : (Cypher.encrypt clearBox d.message d.secretNonce (clearBox.publicKey receiverSk)
      ⟨List.Vector.replicate keySize 3⟩).result =
        .ok ⟨[⟨List.replicate 32 9 ++ List.replicate 24 5 ++ [7],
          List.replicate 32 9 ++ List.replicate 24 5 ++ [8], .file⟩]⟩ := by
    decide +kernel
  obtain ⟨key, -, -, kept, -, read, decoded, opened, -⟩ :=
    message_delivered clearBox_lawful clearBox_sealsNonempty List.Vector.toList .genesis
      (by decide) account returned (Draft.separates_of_keyBound clearBox_keyBound d receiverSk)
      rfl (by decide) sealed rfl
  exact ⟨metadata, _, key, returned, kept, read, decoded, opened⟩

end Nolik
