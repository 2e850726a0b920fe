import Nolik.Forks
import Nolik.Runs
import Nolik.Verify

/-! Readers of one metadata, whoever wrote it, cannot verify different content. Metadata that
another account posts again does not verify against that account. Both hold up to a collision
between strings that were really hashed. -/
namespace Nolik
open ByteString Digest Effects Sealing Sequencing

variable {K : Type} {cb : CryptoBox K} {blake2s : Bytes → ByteArr keySize}

def MessageMetadata.hashed (self : MessageMetadata) (origin : PublicKey) (envelope : Envelope)
    (message : Message) : RootHashArgs :=
  ⟨origin, self.nonce, envelope.senderPk, ⟨self.broker⟩, envelope.secretNonce,
    envelope.recipients, message⟩

/-- A reader opens the metadata with its key, reads an envelope off one of its channels,
decrypts with some partner what it found in its store, and verifies the result. -/
structure Accepts (cb : CryptoBox K) (blake2s : Bytes → ByteArr keySize)
    (metadata : MessageMetadata) (origin : PublicKey) (sk : SecretKey) (stored : Message)
    (envelope : Envelope) (found : Message) : Prop where
  opened : ∃ opened, metadata.decrypt cb sk = .ok opened ∧
    ∃ channel ∈ opened.channels, channel.envelope = some envelope
  read : ∃ partner, Cypher.decrypt cb stored envelope.secretNonce partner sk = .ok found
  verified : metadata.recompute blake2s origin envelope found = metadata.hash

/-- Two readers of one metadata who verify what they read agree on the account, the secret
nonce, the sender, the recipients and the fields of the message. They agree on the whole
message where their stores agree on the kinds. Nothing is asked of the author of the
metadata or of the stores, and a disagreement exhibits a collision. -/
theorem readers_agree {metadata : MessageMetadata} {origin origin' : PublicKey}
    {sk sk' : SecretKey} {stored stored' found found' : Message} {envelope envelope' : Envelope}
    (one : Accepts cb blake2s metadata origin sk stored envelope found)
    (other : Accepts cb blake2s metadata origin' sk' stored' envelope' found') :
    (origin = origin' ∧ envelope = envelope' ∧ found.fields = found'.fields ∧
      (stored.kinds = stored'.kinds → found = found')) ∨
    Collision blake2s (((metadata.hashed origin envelope found).rootHash blake2s).log ++
      ((metadata.hashed origin' envelope' found').rootHash blake2s).log) := by
  by_cases collision : Collision blake2s
      (((metadata.hashed origin envelope found).rootHash blake2s).log ++
        ((metadata.hashed origin' envelope' found').rootHash blake2s).log)
  · exact .inr collision
  · have same : ((metadata.hashed origin envelope found).rootHash blake2s).value =
        ((metadata.hashed origin' envelope' found').rootHash blake2s).value :=
      one.verified.trans other.verified.symm
    have content := RootHashArgs.sameContent_of_not_collision collision same
    have fields : found.fields = found'.fields := content.fields
    refine .inl ⟨content.origin, ?_, fields, fun kinds => ?_⟩
    · cases envelope
      cases envelope'
      rw [Envelope.mk.injEq]
      exact ⟨content.secretNonce, content.senderPk, content.recipients⟩
    · obtain ⟨partner, read⟩ := one.read
      obtain ⟨partner', read'⟩ := other.read
      apply Message.eq_of_fields_kinds fields
      rw [Message.decrypt_kinds read, Message.decrypt_kinds read', kinds]

theorem Draft.party_accepts (lawful : cb.Lawful) {d : Draft} {sk : SecretKey}
    (separates : d.Separates cb sk) {metadata : MessageMetadata} {secretNonce : SalsaNonce}
    (yields : d.Yields cb blake2s metadata secretNonce) (party : cb.publicKey sk ∈ d.parties)
    {stored : Message} {partner : PublicKey}
    (reads : Cypher.decrypt cb stored d.secretNonce partner sk = .ok d.message) :
    Accepts cb blake2s metadata d.origin sk stored ⟨d.secretNonce, d.senderPk, d.recipients⟩
      d.message := by
  obtain ⟨opened, decrypted, nonempty, same⟩ := party_opens lawful separates yields party
  obtain ⟨channel, member⟩ := List.exists_mem_of_ne_nil _ nonempty
  refine ⟨⟨opened, decrypted, channel, member, ?_⟩, ⟨partner, reads⟩, recompute_yields yields⟩
  rw [same channel member]
  exact d.envelope_openedChannel

theorem readers_agree_sample :
    let d := Draft.sample 3 [6] ⟨[⟨[7], [8], .file⟩]⟩
    ∃ metadata senderSk receiverSk stored envelope envelope' found found',
      Accepts clearBox numeralDigest metadata d.origin senderSk stored envelope found ∧
      Accepts clearBox numeralDigest metadata d.origin receiverSk stored envelope' found' ∧
      ((envelope = envelope' ∧ found = found') ∨ Collision numeralDigest
        (((metadata.hashed d.origin envelope found).rootHash numeralDigest).log ++
          ((metadata.hashed d.origin envelope' found').rootHash numeralDigest).log)) := by
  intro d
  let senderSk : SecretKey := ⟨List.Vector.replicate keySize 3⟩
  let receiverSk : SecretKey := ⟨List.Vector.replicate keySize 6⟩
  let envelope : Envelope := ⟨d.secretNonce, d.senderPk, d.recipients⟩
  obtain ⟨metadata, returned⟩ := d.newEncrypted_total clearBox_sealsAll numeralDigest
  obtain ⟨stored, sealed⟩ := Message.encrypt_total clearBox_sealsAll d.message d.secretNonce
    (clearBox.publicKey receiverSk) senderSk
  have yields := Draft.yields_of_ok returned
  have separates := Draft.separates_of_keyBound clearBox_keyBound d
  have sender : Accepts clearBox numeralDigest metadata d.origin senderSk stored envelope
      d.message := by
    apply Draft.party_accepts clearBox_lawful (separates senderSk) yields (by decide)
    exact (Message.roundTrips clearBox_lawful).decrypt_encrypt rfl sealed
  have receiver : Accepts clearBox numeralDigest metadata d.origin receiverSk stored envelope
      d.message := by
    apply Draft.party_accepts clearBox_lawful (separates receiverSk) yields (by decide)
    exact Draft.recipient_reads clearBox_lawful rfl sealed
  refine ⟨metadata, senderSk, receiverSk, stored, _, _, _, _, sender, receiver, ?_⟩
  exact (readers_agree sender receiver).imp (fun same => ⟨same.2.1, same.2.2.2 rfl⟩) id

theorem posted_of_event {AccountId : Type} (encode : AccountId → Bytes)
    (calls : List (Call AccountId)) {e : Event}
    (emitted : e ∈ (stateAfter encode calls .genesis).chain.events) :
    ∃ p ∈ posts 0 calls, p.event encode = e := by
  rw [stateAfter_eq, events_publishAll] at emitted
  change e ∈ [] ++ (posts 0 calls).map (Post.event encode) at emitted
  rw [List.nil_append] at emitted
  exact List.mem_map.mp emitted

/-- Every party that takes the account for the origin verifies the message, in each channel it
opens, exactly when the metadata was made for that account, or a collision comes to light. -/
def Draft.SettlesOrigin (cb : CryptoBox K) (blake2s : Bytes → ByteArr keySize) (d : Draft)
    (metadata : MessageMetadata) (account : PublicKey) : Prop :=
  ∀ sk, cb.publicKey sk ∈ d.parties → ∃ opened, metadata.decrypt cb sk = .ok opened ∧
    opened.channels ≠ [] ∧ ∀ channel ∈ opened.channels, ∃ envelope,
      channel.envelope = some envelope ∧
      ((metadata.recompute blake2s account envelope d.message = metadata.hash ↔
          account = d.origin) ∨
        Collision blake2s
          (((metadata.hashed account envelope d.message).rootHash blake2s).log ++
            ((metadata.hashed d.origin envelope d.message).rootHash blake2s).log))

theorem Draft.settlesOrigin (lawful : cb.Lawful) {d : Draft}
    (separates : ∀ sk, cb.publicKey sk ∈ d.parties → d.Separates cb sk)
    {metadata : MessageMetadata} {secretNonce : SalsaNonce}
    (yields : d.Yields cb blake2s metadata secretNonce) (account : PublicKey) :
    d.SettlesOrigin cb blake2s metadata account := by
  intro sk party
  obtain ⟨opened, decrypted, nonempty, verified⟩ :=
    party_verifies lawful (separates sk party) yields party
  refine ⟨opened, decrypted, nonempty, fun channel member => ?_⟩
  obtain ⟨envelope, read, -, -, hash⟩ := verified channel member
  refine ⟨envelope, read, ?_⟩
  by_cases collision : Collision blake2s
      (((metadata.hashed account envelope d.message).rootHash blake2s).log ++
        ((metadata.hashed d.origin envelope d.message).rootHash blake2s).log)
  · exact .inr collision
  · refine .inl ⟨fun matched => ?_, fun own => ?_⟩
    · exact (RootHashArgs.sameContent_of_not_collision collision
        (matched.trans hash.symm)).origin
    · rw [own]
      exact hash

/-- Honest metadata on the board, in any run. The key of its event names the account whose
accepted call posted it, and every party finds out whether it was made for that account. So
metadata that another account posts again does not verify. -/
theorem replay_detected (lawful : cb.Lawful) {d : Draft} {metadata : MessageMetadata}
    {secretNonce : SalsaNonce}
    (returned : (d.newEncrypted cb blake2s).result = .ok (metadata, secretNonce))
    (separates : ∀ sk, cb.publicKey sk ∈ d.parties → d.Separates cb sk)
    (calls : List (Call (ByteArr keySize))) {key : Bytes}
    (emitted : .messageSent key metadata ∈
      (stateAfter List.Vector.toList calls .genesis).chain.events) :
    ∃ account : ByteArr keySize, (Event.messageSent key metadata).signer = account.toList ∧
      (∃ before c after, calls = before ++ c :: after ∧ c.origin = .signed account ∧
        c.metadata = metadata ∧
        ((c.dispatch List.Vector.toList).run
          (stateAfter List.Vector.toList before .genesis)).1 = .ok ()) ∧
      d.SettlesOrigin cb blake2s metadata ⟨account⟩ := by
  obtain ⟨p, posted, event⟩ := posted_of_event List.Vector.toList calls emitted
  have same : p.metadata = metadata := congrArg Event.metadata event
  have settles := Draft.settlesOrigin lawful separates (Draft.yields_of_ok returned) ⟨p.account⟩
  refine ⟨p.account, ?_, ?_, settles⟩
  · rw [← event]
    exact p.signer_event List.Vector.toList
  · obtain ⟨before, c, after, split, admitted⟩ := mem_sequence_iff.mp posted
    rw [← counter_of_genesis List.Vector.toList before] at admitted
    obtain ⟨-, -, origin, -, carried, -⟩ := admission_eq_some_iff.mp admitted
    refine ⟨before, c, after, split, origin, ?_, (dispatch_ok_iff _).mpr ⟨p, admitted⟩⟩
    rw [← carried, same]

theorem replay_detected_sample :
    let d := Draft.sample 3 [6] ⟨[⟨[7], [8], .file⟩]⟩
    let other : ByteArr keySize := List.Vector.replicate keySize 9
    ∃ metadata key, (d.newEncrypted clearBox numeralDigest).result =
        .ok (metadata, d.secretNonce) ∧
      .messageSent key metadata ∈ (stateAfter List.Vector.toList
        [⟨.signed other, metadata, [0]⟩] .genesis).chain.events ∧
      ∃ account : ByteArr keySize, (Event.messageSent key metadata).signer = account.toList ∧
        d.SettlesOrigin clearBox numeralDigest metadata ⟨account⟩ := by
  intro d other
  obtain ⟨metadata, returned⟩ := d.newEncrypted_total clearBox_sealsAll numeralDigest
  have checked : checkMessage [0] metadata = .ok () :=
    Draft.checkMessage_yields clearBox_sealsNonempty (Draft.yields_of_ok returned) (by decide)
  have admitted : admission Externalities.genesis.chain.messageCounter.toNat
      ⟨.signed other, metadata, [0]⟩ = some ⟨other, BitVec.ofNat 128 0, metadata, [0]⟩ :=
    admission_eq_some_iff.mpr ⟨by decide, checked, rfl, rfl, rfl, rfl⟩
  have emitted := event_kept List.Vector.toList admitted []
  obtain ⟨account, named, -, settles⟩ := replay_detected clearBox_lawful returned
    (fun sk _ => Draft.separates_of_keyBound clearBox_keyBound d sk) _ emitted
  exact ⟨metadata, _, returned, emitted, account, named, settles⟩

end Nolik
