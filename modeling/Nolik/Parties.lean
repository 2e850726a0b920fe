import Nolik.Metadata

/-! Decryption of honest metadata, for every secret key. A key opens exactly the channels sealed
under its box key with the broker, and each of them shows the same nonce and the same parties.
-/
namespace Nolik
open ByteString Effects Sealing

variable {K : Type} {cb : CryptoBox K} {blake2s : Bytes → ByteArr keySize}

theorem flatMap_ite_singleton {α β : Type} (p : α → Bool) (b : β) (l : List α) :
    l.flatMap (fun a => if p a then [b] else []) = List.replicate (l.countP p) b := by
  induction l with
  | nil => rfl
  | cons a l ih =>
      rw [List.flatMap_cons, ih, List.countP_cons]
      cases p a with
      | false => rfl
      | true => rfl

namespace Draft

def openedChannel (d : Draft) : Channel :=
  ⟨d.secretNonce.toList, d.parties.map PublicKey.asBytes⟩

theorem receiver_agrees (lawful : cb.Lawful) (d : Draft) (receiverSk : SecretKey) :
    cb.new (cb.publicKey d.brokerSk) receiverSk = cb.new (cb.publicKey receiverSk) d.brokerSk :=
  lawful.agree d.brokerSk receiverSk

/-- The nonces sealed for the other parties stay closed to the receiver. -/
def Separates (cb : CryptoBox K) (d : Draft) (receiverSk : SecretKey) : Prop :=
  ∀ p ∈ d.parties, cb.Confined (cb.new p d.brokerSk) d.publicNonce d.secretNonce.toList
    (cb.new (cb.publicKey receiverSk) d.brokerSk)

theorem separates_of_keyBound (bound : cb.KeyBound) (d : Draft) (receiverSk : SecretKey) :
    d.Separates cb receiverSk := fun _ _ => bound _ _ _ _

/-- What the sender stores for a recipient, the recipient reads with the sender's key. -/
theorem recipient_reads (lawful : cb.Lawful) {d : Draft} {senderSk receiverSk : SecretKey}
    {secretNonce : SalsaNonce} {stored : Message} (sender : cb.publicKey senderSk = d.senderPk)
    (sealed : (Cypher.encrypt cb d.message secretNonce (cb.publicKey receiverSk) senderSk).result =
      .ok stored) :
    Cypher.decrypt cb stored secretNonce d.senderPk receiverSk = .ok d.message := by
  have agreed : cb.new (cb.publicKey receiverSk) senderSk = cb.new d.senderPk receiverSk := by
    rw [← sender]
    exact lawful.agree receiverSk senderSk
  exact (Message.roundTrips lawful).decrypt_encrypt agreed sealed

variable {d : Draft} {p : PublicKey} {channel : Channel} {receiverSk : SecretKey}

theorem openChannel_own (lawful : cb.Lawful) (sealed : (d.encryptChannel cb p).result = .ok channel)
    (own : cb.new p d.brokerSk = cb.new (cb.publicKey receiverSk) d.brokerSk) :
    openChannel cb d.publicNonce (cb.publicKey d.brokerSk) receiverSk channel =
      .ok [d.openedChannel] := by
  obtain ⟨nonce, parties⟩ := encryptChannel_ok_iff.mp sealed
  have agreed : cb.new p d.brokerSk = cb.new (cb.publicKey d.brokerSk) receiverSk := by
    rw [own, receiver_agrees lawful]
  apply openChannel_opened (BytesCypher.decrypt_encrypt lawful agreed nonce)
  rw [List.forall₂_map_right_iff]
  exact (parties.imp fun q c sealed => BytesCypher.decrypt_encrypt lawful agreed sealed).flip

theorem openChannel_other (lawful : cb.Lawful) (separates : d.Separates cb receiverSk)
    (party : p ∈ d.parties) (sealed : (d.encryptChannel cb p).result = .ok channel)
    (other : cb.new p d.brokerSk ≠ cb.new (cb.publicKey receiverSk) d.brokerSk) :
    openChannel cb d.publicNonce (cb.publicKey d.brokerSk) receiverSk channel = .ok [] := by
  obtain ⟨nonce, -⟩ := encryptChannel_ok_iff.mp sealed
  have confined := separates p party
  rw [← receiver_agrees lawful] at confined
  have foreign : cb.new (cb.publicKey d.brokerSk) receiverSk ≠ cb.new p d.brokerSk := by
    rw [receiver_agrees lawful]
    exact other.symm
  obtain ⟨e, closed⟩ := BytesCypher.decrypt_foreign confined foreign nonce
  exact openChannel_foreign closed

/-- One opened channel for each occurrence of the receiver's box key among the parties. -/
theorem decrypt_yields [DecidableEq K] (lawful : cb.Lawful)
    (separates : d.Separates cb receiverSk) {metadata : MessageMetadata}
    {secretNonce : SalsaNonce} (yields : d.Yields cb blake2s metadata secretNonce) :
    metadata.decrypt cb receiverSk = .ok { metadata with
      channels := List.replicate (d.parties.countP fun p =>
        cb.new p d.brokerSk = cb.new (cb.publicKey receiverSk) d.brokerSk) d.openedChannel } := by
  have sealed := (List.forall₂_and_left _ _).mpr ⟨fun p party => party, yields.channels⟩
  have visited : List.Forall₂ (fun p channel =>
      openChannel cb metadata.nonce ⟨metadata.broker⟩ receiverSk channel =
        .ok (if cb.new p d.brokerSk = cb.new (cb.publicKey receiverSk) d.brokerSk
          then [d.openedChannel] else [])) d.parties metadata.channels := by
    rw [yields.nonce, yields.broker]
    refine sealed.imp fun p channel ⟨party, sealed⟩ => ?_
    by_cases own : cb.new p d.brokerSk = cb.new (cb.publicKey receiverSk) d.brokerSk
    · rw [if_pos own]
      exact openChannel_own lawful sealed own
    · rw [if_neg own]
      exact openChannel_other lawful separates party sealed own
  rw [MessageMetadata.decrypt_eq, Outcome.collect_of_forall₂ visited, Outcome.map_ok,
    ← flatMap_ite_singleton]
  simp only [decide_eq_true_eq]

/-- A party opens at least one channel, and sees the same in all of them. -/
theorem party_opens (lawful : cb.Lawful) (separates : d.Separates cb receiverSk)
    {metadata : MessageMetadata} {secretNonce : SalsaNonce}
    (yields : d.Yields cb blake2s metadata secretNonce)
    (party : cb.publicKey receiverSk ∈ d.parties) :
    ∃ opened, metadata.decrypt cb receiverSk = .ok opened ∧ opened.channels ≠ [] ∧
      ∀ channel ∈ opened.channels, channel = d.openedChannel := by
  classical
  refine ⟨_, decrypt_yields lawful separates yields, ?_, fun channel member => ?_⟩
  · rw [ne_eq, List.replicate_eq_nil_iff, List.countP_eq_zero]
    exact fun absent => absent _ party (decide_eq_true rfl)
  · exact List.eq_of_mem_replicate member

theorem party_opens_first (lawful : cb.Lawful) (separates : d.Separates cb receiverSk)
    {metadata : MessageMetadata} {secretNonce : SalsaNonce}
    (yields : d.Yields cb blake2s metadata secretNonce)
    (party : cb.publicKey receiverSk ∈ d.parties) :
    ∃ opened rest, metadata.decrypt cb receiverSk = .ok opened ∧
      opened.channels = d.openedChannel :: rest := by
  obtain ⟨opened, decrypted, nonempty, same⟩ := party_opens lawful separates yields party
  obtain ⟨channel, rest, shown⟩ := List.exists_cons_of_ne_nil nonempty
  have first : channel = d.openedChannel := by
    apply same
    rw [shown]
    exact List.mem_cons_self
  rw [first] at shown
  exact ⟨opened, rest, decrypted, shown⟩

end Draft

/-- Exactly the parties open the metadata, once for each time they are named, and all of
them see one nonce and one list of parties. Only the box keys of the named parties
with the broker have to differ from the receiver's. -/
theorem parties_open_metadata (lawful : cb.Lawful) {d : Draft} {metadata : MessageMetadata}
    {secretNonce : SalsaNonce}
    (returned : (d.newEncrypted cb blake2s).result = .ok (metadata, secretNonce))
    {receiverSk : SecretKey} (separates : d.Separates cb receiverSk)
    (distinct : ∀ p ∈ d.parties, p ≠ cb.publicKey receiverSk →
      cb.new p d.brokerSk ≠ cb.new (cb.publicKey receiverSk) d.brokerSk) :
    ∃ decrypted, metadata.decrypt cb receiverSk = .ok decrypted ∧
      decrypted.nonce = metadata.nonce ∧ decrypted.broker = metadata.broker ∧
      decrypted.hash = metadata.hash ∧
      decrypted.channels = List.replicate (d.parties.count (cb.publicKey receiverSk))
        ⟨secretNonce.toList, d.parties.map PublicKey.asBytes⟩ ∧
      (cb.publicKey receiverSk ∉ d.parties → decrypted.channels = []) ∧
      (cb.publicKey receiverSk ∈ d.parties → decrypted.channels ≠ []) := by
  classical
  have yields := Draft.yields_of_ok returned
  have occurrences : d.parties.countP (fun p =>
      cb.new p d.brokerSk = cb.new (cb.publicKey receiverSk) d.brokerSk) =
        d.parties.count (cb.publicKey receiverSk) := by
    apply List.countP_congr
    intro p member
    simp only [decide_eq_true_eq, beq_iff_eq]
    exact ⟨fun own => by_contra fun other => distinct p member other own, fun same => by rw [same]⟩
  refine ⟨_, Draft.decrypt_yields lawful separates yields, rfl, rfl, rfl, ?_, ?_, ?_⟩
  · rw [occurrences, yields.secretNonce]
    rfl
  · intro outsider
    rw [occurrences, List.count_eq_zero.mpr outsider]
    rfl
  · intro party
    have positive := List.count_pos_iff.mpr party
    rw [occurrences, ne_eq, List.replicate_eq_nil_iff]
    omega

theorem parties_open_metadata_sample :
    let d := Draft.sample 3 [6, 9, 6] ⟨[⟨[7], [8], .file⟩]⟩
    let receiverSk : SecretKey := ⟨List.Vector.replicate keySize 6⟩
    ∃ metadata decrypted,
      (d.newEncrypted clearBox numeralDigest).result = .ok (metadata, d.secretNonce) ∧
      metadata.decrypt clearBox receiverSk = .ok decrypted ∧
      decrypted.channels = List.replicate 2
        ⟨d.secretNonce.toList, d.parties.map PublicKey.asBytes⟩ := by
  intro d receiverSk
  obtain ⟨metadata, returned⟩ := d.newEncrypted_total clearBox_sealsAll numeralDigest
  obtain ⟨decrypted, opened, -, -, -, channels, -⟩ :=
    parties_open_metadata clearBox_lawful returned
      (Draft.separates_of_keyBound clearBox_keyBound d receiverSk) (by decide)
  exact ⟨metadata, decrypted, returned, opened, channels⟩

end Nolik
