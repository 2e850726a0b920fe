import Nolik.FrontEnds
import Nolik.Pallet

/-! The SCALE encodings of the call, of the event and of the off-chain value. What is read was
written by the encoder, and the types of the chain client are coded as those of the runtime. -/
namespace Nolik
open ByteString Effects Scale Sealing

def Channel.codec : Codec Channel :=
  (byte.vec.pair byte.vec.vec).iso (fun (nonce, parties) => { nonce, parties })
    (fun c => (c.nonce, c.parties)) (fun _ => rfl)

def MessageMetadata.codec : Codec MessageMetadata :=
  ((Codec.array nonceSize).pair ((Codec.array keySize).pair
    ((Codec.array keySize).pair Channel.codec.vec))).iso
    (fun (nonce, broker, hash, channels) => { nonce, broker, hash, channels })
    (fun m => (m.nonce, m.broker, m.hash, m.channels)) (fun _ => rfl)

/-- The arguments of `send_message`, the call with index 0. -/
structure SendMessage where
  metadata : MessageMetadata
  message : Bytes

def SendMessage.codec : Codec SendMessage :=
  ((MessageMetadata.codec.pair byte.vec).variant 0).iso
    (fun (metadata, message) => { metadata, message }) (fun c => (c.metadata, c.message))
    (fun _ => rfl)

/-- `MessageSent` is the first and only event. -/
def Event.codec : Codec Event :=
  ((byte.vec.pair MessageMetadata.codec).variant 0).iso
    (fun (key, metadata) => .messageSent key metadata)
    (fun | .messageSent key metadata => (key, metadata)) (fun (.messageSent _ _) => rfl)

def PolkadotChannel.codec : Codec PolkadotChannel :=
  (byte.vec.pair byte.vec.vec).iso (fun (nonce, parties) => { nonce, parties })
    (fun c => (c.nonce, c.parties)) (fun _ => rfl)

def PolkadotMessageMetadata.codec : Codec PolkadotMessageMetadata :=
  ((Codec.array nonceSize).pair ((Codec.array keySize).pair
    ((Codec.array keySize).pair PolkadotChannel.codec.vec))).iso
    (fun (nonce, broker, hash, channels) => { nonce, broker, hash, channels })
    (fun m => (m.nonce, m.broker, m.hash, m.channels)) (fun _ => rfl)

namespace PolkadotNolik

/-- `polkadot::tx().nolik().send_message(metadata, message)`. -/
structure SendMessage where
  metadata : PolkadotMessageMetadata
  message : Bytes

def SendMessage.codec : Codec SendMessage :=
  ((PolkadotMessageMetadata.codec.pair byte.vec).variant 0).iso
    (fun (metadata, message) => { metadata, message }) (fun c => (c.metadata, c.message))
    (fun _ => rfl)

/-- `polkadot::nolik::events::MessageSent`. -/
structure MessageSent where
  key : Bytes
  metadata : PolkadotMessageMetadata

def MessageSent.codec : Codec MessageSent :=
  ((byte.vec.pair PolkadotMessageMetadata.codec).variant 0).iso
    (fun (key, metadata) => { key, metadata }) (fun e => (e.key, e.metadata)) (fun _ => rfl)

end PolkadotNolik

theorem bytes_canonical : byte.vec.Canonical := Codec.vec_canonical byte_canonical

theorem Channel.codec_canonical : Channel.codec.Canonical :=
  Codec.iso_canonical (Codec.pair_canonical bytes_canonical (Codec.vec_canonical bytes_canonical))
    fun _ => rfl

theorem MessageMetadata.codec_canonical : MessageMetadata.codec.Canonical := by
  apply Codec.iso_canonical _ fun _ => rfl
  apply Codec.pair_canonical (Codec.array_canonical nonceSize)
  apply Codec.pair_canonical (Codec.array_canonical keySize)
  apply Codec.pair_canonical (Codec.array_canonical keySize)
  exact Codec.vec_canonical Channel.codec_canonical

theorem SendMessage.codec_canonical : SendMessage.codec.Canonical := by
  apply Codec.iso_canonical _ fun _ => rfl
  apply Codec.variant_canonical
  exact Codec.pair_canonical MessageMetadata.codec_canonical bytes_canonical

theorem Event.codec_canonical : Event.codec.Canonical := by
  apply Codec.iso_canonical _ fun _ => rfl
  apply Codec.variant_canonical
  exact Codec.pair_canonical bytes_canonical MessageMetadata.codec_canonical

theorem MessageType.codec_canonical : MessageType.codec.Canonical := by
  constructor
  intro bytes kind rest read
  simp only [codec] at read
  split at read
  · cases read
    exact ⟨[0], rfl, rfl⟩
  · cases read
    exact ⟨[1], rfl, rfl⟩
  · cases read

theorem MessageEntry.codec_canonical : MessageEntry.codec.Canonical := by
  apply Codec.iso_canonical _ fun _ => rfl
  apply Codec.pair_canonical bytes_canonical
  exact Codec.pair_canonical bytes_canonical MessageType.codec_canonical

theorem Message.codec_canonical : Message.codec.Canonical :=
  Codec.iso_canonical (Codec.vec_canonical MessageEntry.codec_canonical) fun _ => rfl

theorem PolkadotMessageMetadata.encode_fromMetadata (m : MessageMetadata) :
    codec.encode (fromMetadata m) = MessageMetadata.codec.encode m := by
  have alike : ∀ c : Channel, PolkadotChannel.codec.encode ⟨c.nonce, c.parties⟩ =
      Channel.codec.encode c := fun _ => rfl
  have channels : PolkadotChannel.codec.vec.encode (fromMetadata m).channels =
      Channel.codec.vec.encode m.channels := Codec.vec_encode_map alike m.channels
  simp only [codec, MessageMetadata.codec, Codec.iso, Codec.pair, channels]
  rfl

theorem PolkadotMessageMetadata.fromMetadata_decoded (self : PolkadotMessageMetadata) :
    fromMetadata self.decoded = self := by
  obtain ⟨nonce, broker, hash, channels⟩ := self
  have back : (channels.map fun c => (⟨c.nonce, c.parties⟩ : Channel)).map
      (fun c => (⟨c.nonce, c.parties⟩ : PolkadotChannel)) = channels := by
    rw [List.map_map]
    exact List.map_id channels
  simp only [decoded, fromMetadata, back]

theorem PolkadotNolik.SendMessage.encode_eq (call : PolkadotNolik.SendMessage) :
    codec.encode call =
      Nolik.SendMessage.codec.encode ⟨call.metadata.decoded, call.message⟩ := by
  have metadata := PolkadotMessageMetadata.encode_fromMetadata call.metadata.decoded
  rw [PolkadotMessageMetadata.fromMetadata_decoded] at metadata
  simp only [codec, Nolik.SendMessage.codec, Codec.iso, Codec.variant, Codec.pair, metadata]

theorem PolkadotNolik.MessageSent.encode_eq (key : Bytes) (metadata : MessageMetadata) :
    codec.encode ⟨key, PolkadotMessageMetadata.fromMetadata metadata⟩ =
      Event.codec.encode (.messageSent key metadata) := by
  simp only [codec, Event.codec, Codec.iso, Codec.variant, Codec.pair,
    PolkadotMessageMetadata.encode_fromMetadata]

/-- A call, an event or an off-chain value is read from exactly the strings that begin with
its encoding, so no string is read in two ways. The runtime reads the call that the client
built, and the client the event that the runtime deposited, whatever follows them. -/
theorem wire_exact :
    (∀ bytes message rest, Message.decode bytes = some (message, rest) ↔
      ∃ enc, message.encode = some enc ∧ bytes = enc ++ rest) ∧
    (∀ bytes call rest, SendMessage.codec.decode bytes = some (call, rest) ↔
      ∃ enc, SendMessage.codec.encode call = some enc ∧ bytes = enc ++ rest) ∧
    (∀ bytes event rest, Event.codec.decode bytes = some (event, rest) ↔
      ∃ enc, Event.codec.encode event = some enc ∧ bytes = enc ++ rest) ∧
    (∀ (call : PolkadotNolik.SendMessage) enc rest,
      PolkadotNolik.SendMessage.codec.encode call = some enc →
      SendMessage.codec.decode (enc ++ rest) =
        some (⟨call.metadata.decoded, call.message⟩, rest)) ∧
    (∀ key metadata enc rest, Event.codec.encode (.messageSent key metadata) = some enc →
      PolkadotNolik.MessageSent.codec.decode (enc ++ rest) =
        some (⟨key, PolkadotMessageMetadata.fromMetadata metadata⟩, rest)) := by
  refine ⟨fun _ _ _ => Codec.decode_eq_some_iff Message.codec_canonical,
    fun _ _ _ => Codec.decode_eq_some_iff SendMessage.codec_canonical,
    fun _ _ _ => Codec.decode_eq_some_iff Event.codec_canonical,
    fun call enc rest encoded => ?_, fun key metadata enc rest encoded => ?_⟩
  · rw [PolkadotNolik.SendMessage.encode_eq] at encoded
    exact SendMessage.codec.decode_encode rest encoded
  · rw [← PolkadotNolik.MessageSent.encode_eq] at encoded
    exact PolkadotNolik.MessageSent.codec.decode_encode rest encoded

/-- The runtime reads what the client sent, and leaves what follows. -/
theorem wire_exact_sample :
    let account : ByteArr keySize := List.Vector.replicate keySize 7
    let call : PolkadotNolik.SendMessage := ⟨.fromMetadata (Call.sample account []).metadata, [1]⟩
    ∃ enc, PolkadotNolik.SendMessage.codec.encode call = some enc ∧
      SendMessage.codec.decode (enc ++ [0xff]) =
        some (⟨call.metadata.decoded, call.message⟩, [0xff]) := by
  intro account call
  have encoded : PolkadotNolik.SendMessage.codec.encode call = some _ := rfl
  exact ⟨_, encoded, wire_exact.2.2.2.1 call _ [0xff] encoded⟩

theorem bytes_sized : byte.vec.Sized fun bytes => compactSize bytes.length + bytes.length := by
  constructor
  intro bytes enc h
  rw [(Codec.vec_sized byte_sized).length h, List.map_const', List.sum_replicate_nat, Nat.mul_one]

def Channel.size (c : Channel) : Nat :=
  compactSize c.nonce.length + c.nonce.length + (compactSize c.parties.length +
    (c.parties.map fun part => compactSize part.length + part.length).sum)

theorem Channel.codec_sized : Channel.codec.Sized Channel.size := by
  have fields := Codec.pair_sized bytes_sized (Codec.vec_sized bytes_sized)
  exact Codec.iso_sized fields

theorem MessageMetadata.codec_sized : MessageMetadata.codec.Sized fun m =>
    nonceSize + (keySize + (keySize +
      (compactSize m.channels.length + (m.channels.map Channel.size).sum))) := by
  have fields := Codec.pair_sized (Codec.array_sized nonceSize) (Codec.pair_sized
    (Codec.array_sized keySize) (Codec.pair_sized (Codec.array_sized keySize)
      (Codec.vec_sized Channel.codec_sized)))
  exact Codec.iso_sized fields

def MessageEntry.size (e : MessageEntry) : Nat :=
  compactSize e.key.length + e.key.length + (compactSize e.value.length + e.value.length + 1)

theorem MessageType.codec_sized : MessageType.codec.Sized fun _ => 1 := by
  constructor
  intro kind enc h
  cases kind <;> cases h <;> rfl

theorem Message.codec_sized : Message.codec.Sized fun m =>
    compactSize m.entries.length + (m.entries.map MessageEntry.size).sum := by
  have fields := Codec.pair_sized bytes_sized (Codec.pair_sized bytes_sized
    MessageType.codec_sized)
  have entry : MessageEntry.codec.Sized MessageEntry.size := Codec.iso_sized fields
  exact Codec.iso_sized (Codec.vec_sized entry)

theorem sum_map_of_forall {α : Type} {f : α → Nat} {l : List α} {n : Nat}
    (each : ∀ a ∈ l, f a = n) : (l.map f).sum = l.length * n := by
  rw [List.map_congr_left each, List.map_const', List.sum_replicate_nat]

section Honest
variable {K : Type} {cb : CryptoBox K} {blake2s : Bytes → ByteArr keySize} {overhead : Nat}

/-- What a sealed field of `n` bytes takes up. -/
def sealedSize (overhead n : Nat) : Nat := compactSize (n + overhead) + (n + overhead)

theorem BytesCypher.encrypt_length (expands : cb.Expands overhead) {m c : Bytes}
    {nonce : SalsaNonce} {pk : PublicKey} {sk : SecretKey}
    (sealed : (encrypt cb m nonce pk sk).result = .ok c) : c.length = m.length + overhead :=
  expands (encrypt_ok_iff.mp sealed)

theorem Draft.encryptChannel_size (expands : cb.Expands overhead) {d : Draft} {p : PublicKey}
    {channel : Channel} (sealed : (d.encryptChannel cb p).result = .ok channel) :
    channel.size = sealedSize overhead nonceSize + (compactSize d.parties.length +
      d.parties.length * sealedSize overhead keySize) := by
  obtain ⟨nonce, parties⟩ := encryptChannel_ok_iff.mp sealed
  have nonceLength := BytesCypher.encrypt_length expands nonce
  have partsLength : ∀ part ∈ channel.parties, part.length = keySize + overhead := by
    refine forall_mem_of_forall₂ parties fun q part sealedPart => ?_
    rw [BytesCypher.encrypt_length expands sealedPart, PublicKey.asBytes,
      List.Vector.toList_length]
  have parts : (channel.parties.map fun part => compactSize part.length + part.length).sum =
      channel.parties.length * sealedSize overhead keySize := by
    apply sum_map_of_forall
    intro part member
    rw [partsLength part member, sealedSize]
  rw [List.Vector.toList_length] at nonceLength
  rw [Channel.size, parts, ← parties.length_eq, nonceLength]
  rfl

theorem Message.encrypt_entries {m stored : Message} {nonce : SalsaNonce} {pk : PublicKey}
    {sk : SecretKey} (sealed : (Cypher.encrypt cb m nonce pk sk).result = .ok stored) :
    List.Forall₂ (fun x e => (Cypher.encrypt cb x nonce pk sk).result = .ok e) m.entries
      stored.entries := by
  rw [← except_mapM_ok_iff, ← Traced.result_mapM]
  exact Message.encrypt_ok_iff.mp sealed

/-- Only a field close to the limit of the encoder is pushed over it. -/
theorem Message.encode_encrypted_total (expands : cb.ExpandsAtMost overhead) {m stored : Message}
    {nonce : SalsaNonce} {pk : PublicKey} {sk : SecretKey}
    (sealed : (Cypher.encrypt cb m nonce pk sk).result = .ok stored)
    (entries : m.entries.length < 2 ^ 32)
    (short : ∀ e ∈ m.entries, e.key.length + overhead < 2 ^ 32 ∧
      e.value.length + overhead < 2 ^ 32) : ∃ blob, stored.encode = some blob := by
  have each := Message.encrypt_entries sealed
  rw [Message.encode_total_iff, ← each.length_eq]
  refine ⟨entries, forall_mem_of_forall₂ ((List.forall₂_and_left _ _).mpr ⟨short, each⟩) ?_⟩
  rintro x e ⟨⟨keyShort, valueShort⟩, sealedEntry⟩
  obtain ⟨key, value, -⟩ := MessageEntry.encrypt_ok_iff.mp sealedEntry
  have keyLength := expands (BytesCypher.encrypt_ok_iff.mp key)
  have valueLength := expands (BytesCypher.encrypt_ok_iff.mp value)
  exact ⟨keyLength.trans_lt keyShort, valueLength.trans_lt valueShort⟩

/-- The size of the metadata grows with the square of the number of parties, that of the
stored message by a fixed number of bytes for each field. The lengths of the fields of the
message alone decide on the latter. -/
theorem wire_sizes (expands : cb.Expands overhead) {d : Draft} {metadata : MessageMetadata}
    {secretNonce : SalsaNonce}
    (returned : (d.newEncrypted cb blake2s).result = .ok (metadata, secretNonce)) {pk : PublicKey}
    {sk : SecretKey} {stored : Message}
    (sealed : (Cypher.encrypt cb d.message secretNonce pk sk).result = .ok stored) :
    let parties := d.parties.length
    (∀ enc, MessageMetadata.codec.encode metadata = some enc →
      enc.length = nonceSize + 2 * keySize + compactSize parties + parties *
        (sealedSize overhead nonceSize + compactSize parties +
          parties * sealedSize overhead keySize)) ∧
    (∀ blob, stored.encode = some blob →
      blob.length = compactSize d.message.entries.length + (d.message.entries.map fun e =>
        sealedSize overhead e.key.length + sealedSize overhead e.value.length + 1).sum) := by
  intro parties
  have yields := Draft.yields_of_ok returned
  constructor
  · intro enc encoded
    have channels : (metadata.channels.map Channel.size).sum = metadata.channels.length *
        (sealedSize overhead nonceSize + (compactSize parties +
          parties * sealedSize overhead keySize)) := by
      apply sum_map_of_forall
      exact forall_mem_of_forall₂ yields.channels fun p channel sealedChannel =>
        Draft.encryptChannel_size expands sealedChannel
    rw [MessageMetadata.codec_sized.length encoded, channels, ← yields.channels.length_eq]
    change nonceSize + (keySize + (keySize + (compactSize parties + parties * _))) = _
    rw [Nat.add_assoc (sealedSize overhead nonceSize)]
    omega
  · intro blob encoded
    rw [Message.codec_sized.length encoded]
    have entries := Message.encrypt_entries sealed
    have sizes : stored.entries.map MessageEntry.size = d.message.entries.map fun e =>
        sealedSize overhead e.key.length + sealedSize overhead e.value.length + 1 := by
      refine map_eq_map_of_forall₂ entries fun x e sealedEntry => ?_
      obtain ⟨key, value, -⟩ := MessageEntry.encrypt_ok_iff.mp sealedEntry
      rw [MessageEntry.size, BytesCypher.encrypt_length expands key,
        BytesCypher.encrypt_length expands value, ← Nat.add_assoc]
      rfl
    rw [sizes, ← entries.length_eq]

/-- Two recipients and one entry. -/
theorem wire_sizes_sample :
    let d := Draft.sample 3 [6, 9] ⟨[⟨[7], [8, 8], .file⟩]⟩
    ∃ metadata stored, (d.newEncrypted clearBox numeralDigest).result =
        .ok (metadata, d.secretNonce) ∧
      (Cypher.encrypt clearBox d.message d.secretNonce ⟨List.Vector.replicate keySize 6⟩
        ⟨List.Vector.replicate keySize 3⟩).result = .ok stored ∧
      (∀ enc, MessageMetadata.codec.encode metadata = some enc → enc.length = 1148) ∧
      (∀ blob, stored.encode = some blob → blob.length = 119) := by
  intro d
  obtain ⟨metadata, returned⟩ := d.newEncrypted_total clearBox_sealsAll numeralDigest
  obtain ⟨stored, sealed⟩ := Message.encrypt_total clearBox_sealsAll d.message d.secretNonce
    ⟨List.Vector.replicate keySize 6⟩ ⟨List.Vector.replicate keySize 3⟩
  obtain ⟨sized, sized'⟩ := wire_sizes clearBox_expands returned sealed
  refine ⟨metadata, stored, returned, sealed, fun enc encoded => ?_, fun blob encoded => ?_⟩
  · exact (sized enc encoded).trans (by decide)
  · exact (sized' blob encoded).trans (by decide)

end Honest
end Nolik
