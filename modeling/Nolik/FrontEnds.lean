import Nolik.JsWasm

/-! JavaScript and the chain client keep metadata in types of their own. Both convert it to the
core type, decrypt there and convert back. An abort of the core is an abort of the front end. -/
namespace Nolik
open ByteString Effects Js

variable {K : Type}

structure PolkadotChannel where
  nonce : Bytes
  parties : List Bytes
  deriving DecidableEq

/-- The type generated from the metadata of the runtime. -/
structure PolkadotMessageMetadata where
  nonce : ByteArr nonceSize
  broker : ByteArr keySize
  hash : ByteArr keySize
  channels : List PolkadotChannel
  deriving DecidableEq

namespace PolkadotMessageMetadata

/-- `PolkadotMessageMetadata::from`. -/
def fromMetadata (metadata : MessageMetadata) : PolkadotMessageMetadata where
  nonce := metadata.nonce
  broker := metadata.broker
  hash := metadata.hash
  channels := metadata.channels.map fun c => { nonce := c.nonce, parties := c.parties }

def newEncrypted (cb : CryptoBox K) (blake2s : Bytes → ByteArr keySize) (origin : PublicKey)
    (publicNonce : SalsaNonce) (senderPk : PublicKey) (recipients : List PublicKey)
    (message : Message) (secretNonce : SalsaNonce) (brokerSk : SecretKey) :
    Encrypting K (PolkadotMessageMetadata × SalsaNonce) := do
  let (metadata, secretNonce) ← Nolik.newEncrypted cb blake2s origin publicNonce senderPk recipients
    message secretNonce brokerSk
  pure (fromMetadata metadata, secretNonce)

def decrypt (cb : CryptoBox K) (self : PolkadotMessageMetadata) (receiverSk : SecretKey) :
    Outcome CypherError PolkadotMessageMetadata := do
  let metadata : MessageMetadata := {
    nonce := self.nonce
    broker := self.broker
    hash := self.hash
    channels := self.channels.map fun c => { nonce := c.nonce, parties := c.parties } }
  let metadata ← metadata.decrypt cb receiverSk
  pure (fromMetadata metadata)

theorem newEncrypted_ok {cb : CryptoBox K} {blake2s : Bytes → ByteArr keySize}
    {origin : PublicKey} {publicNonce : SalsaNonce} {senderPk : PublicKey}
    {recipients : List PublicKey} {message : Message} {secretNonce secretNonce' : SalsaNonce}
    {brokerSk : SecretKey} {self : PolkadotMessageMetadata}
    (returned : (newEncrypted cb blake2s origin publicNonce senderPk recipients message secretNonce
      brokerSk).result = .ok (self, secretNonce')) :
    ∃ metadata, (Nolik.newEncrypted cb blake2s origin publicNonce senderPk recipients message
      secretNonce brokerSk).result = .ok (metadata, secretNonce') ∧
      self = fromMetadata metadata := by
  rw [newEncrypted, Traced.bind_ok_iff] at returned
  obtain ⟨⟨metadata, nonce⟩, inner, same⟩ := returned
  cases same
  exact ⟨metadata, inner, rfl⟩

/-- The runtime decodes what the generated type encodes; the two have the same fields. -/
def decoded (self : PolkadotMessageMetadata) : MessageMetadata where
  nonce := self.nonce
  broker := self.broker
  hash := self.hash
  channels := self.channels.map fun c => { nonce := c.nonce, parties := c.parties }

theorem decoded_fromMetadata (metadata : MessageMetadata) :
    (fromMetadata metadata).decoded = metadata := by
  have back : metadata.channels.map (fun c => (⟨c.nonce, c.parties⟩ : Channel)) =
      metadata.channels := List.map_id metadata.channels
  simp only [decoded, fromMetadata, List.map_map, Function.comp_def]
  rw [back]

theorem decrypt_fromMetadata (cb : CryptoBox K) (metadata : MessageMetadata)
    (receiverSk : SecretKey) :
    (fromMetadata metadata).decrypt cb receiverSk =
      fromMetadata <$> metadata.decrypt cb receiverSk := by
  change fromMetadata <$> (fromMetadata metadata).decoded.decrypt cb receiverSk = _
  rw [decoded_fromMetadata]

end PolkadotMessageMetadata

/-- Two channels that read the same. -/
def SameChannel (ch ch' : JsValue) : Prop :=
  ∃ map map' : JsMap, ch = .map map ∧ ch' = .map map' ∧
    map.get "nonce" = map'.get "nonce" ∧ map.get "parties" = map'.get "parties"

/-- Two maps that read the same at the keys of metadata. -/
structure SameMetadata (map map' : JsMap) : Prop where
  nonce : map.get "nonce" = map'.get "nonce"
  broker : map.get "broker" = map'.get "broker"
  hash : map.get "hash" = map'.get "hash"
  channels : ∃ chans chans', map.get "channels" = .array chans ∧
    map'.get "channels" = .array chans' ∧ List.Forall₂ SameChannel chans chans'

section Reads
variable (metadata : MessageMetadata)

@[simp] theorem metadataToJsMap_nonce :
    (metadataToJsMap metadata).get "nonce" = .uint8Array metadata.nonce.toList := rfl
@[simp] theorem metadataToJsMap_broker :
    (metadataToJsMap metadata).get "broker" = .uint8Array metadata.broker.toList := rfl
@[simp] theorem metadataToJsMap_hash :
    (metadataToJsMap metadata).get "hash" = .uint8Array metadata.hash.toList := rfl
@[simp] theorem metadataToJsMap_channels :
    (metadataToJsMap metadata).get "channels" = .array (metadata.channels.map channelToJs) := rfl

end Reads

theorem channelFromJs_channelToJs (channel : Channel) :
    channelFromJs (channelToJs channel) = .ok channel :=
  channelFromJs_ok_iff.mpr ⟨_, rfl, rfl, rfl⟩

/-- Only the four keys of metadata are read. -/
theorem jsMapToMetadata_of_agrees {map : JsMap} {metadata : MessageMetadata}
    (agrees : ∀ key ∈ ["nonce", "broker", "hash", "channels"],
      map.get key = (metadataToJsMap metadata).get key) :
    jsMapToMetadata map = .ok metadata := by
  simp only [List.forall_mem_cons, metadataToJsMap_nonce, metadataToJsMap_broker,
    metadataToJsMap_hash, metadataToJsMap_channels] at agrees
  obtain ⟨nonce, broker, hash, channels, -⟩ := agrees
  refine jsMapToMetadata_ok_iff.mpr ⟨⟨_, channels, ?_⟩, nonce, broker, hash⟩
  rw [List.forall₂_map_left_iff, List.forall₂_same]
  exact fun channel _ => channelFromJs_channelToJs channel

theorem sameChannel_of_read {ch : JsValue} {channel : Channel}
    (read : channelFromJs ch = .ok channel) : SameChannel ch (channelToJs channel) := by
  obtain ⟨map, rfl, nonce, parties⟩ := channelFromJs_ok_iff.mp read
  exact ⟨map, _, rfl, rfl, nonce, parties⟩

theorem sameMetadata_of_read {map : JsMap} {metadata : MessageMetadata}
    (read : jsMapToMetadata map = .ok metadata) : SameMetadata map (metadataToJsMap metadata) := by
  obtain ⟨⟨chans, found, related⟩, nonce, broker, hash⟩ := jsMapToMetadata_ok_iff.mp read
  refine ⟨nonce, broker, hash, chans, _, found, rfl, ?_⟩
  rw [List.forall₂_map_right_iff]
  exact related.imp fun ch channel => sameChannel_of_read

theorem decryptMetadata_metadataToJsMap (cb : CryptoBox K) (debug : DebugText)
    (metadata : MessageMetadata) (receiverSk : SecretKey) :
    decryptMetadata cb debug (metadataToJsMap metadata) receiverSk.bytes.toList =
      metadataToJsMap <$> (metadata.decrypt cb receiverSk).mapErr (CypherError.toJs debug) := by
  have read : jsMapToMetadata (metadataToJsMap metadata) = .ok metadata :=
    jsMapToMetadata_of_agrees fun key _ => rfl
  simp only [decryptMetadata, read, jsValueToArray_toList, Outcome.ofExcept_ok, Outcome.ok_bind]
  rfl

/-- Both front ends do what the core does. A JavaScript map is read as metadata only where
it says the same as the map of that metadata, whatever further keys it has. -/
theorem front_ends_simulate (cb : CryptoBox K) (debug : DebugText) (m : MessageMetadata)
    (sk : SecretKey) :
    (∀ map : JsMap, (∀ key ∈ ["nonce", "broker", "hash", "channels"],
        map.get key = (metadataToJsMap m).get key) → jsMapToMetadata map = .ok m) ∧
    (∀ map : JsMap, (∃ e, jsMapToMetadata map = .error e) ∨
      ∃ read, jsMapToMetadata map = .ok read ∧ SameMetadata map (metadataToJsMap read)) ∧
    (∀ decrypted, m.decrypt cb sk = .ok decrypted →
      decryptMetadata cb debug (metadataToJsMap m) sk.bytes.toList =
        .ok (metadataToJsMap decrypted)) ∧
    ((∃ e, decryptMetadata cb debug (metadataToJsMap m) sk.bytes.toList = .err e) ↔
      ∃ e, m.decrypt cb sk = .err e) ∧
    (PolkadotMessageMetadata.fromMetadata m).decrypt cb sk =
      PolkadotMessageMetadata.fromMetadata <$> m.decrypt cb sk := by
  refine ⟨fun map => jsMapToMetadata_of_agrees, fun map => ?_, fun decrypted returned => ?_, ?_,
    PolkadotMessageMetadata.decrypt_fromMetadata cb m sk⟩
  · cases read : jsMapToMetadata map with
    | error e => exact .inl ⟨e, rfl⟩
    | ok metadata => exact .inr ⟨metadata, rfl, sameMetadata_of_read read⟩
  · rw [decryptMetadata_metadataToJsMap, returned]
    rfl
  · rw [decryptMetadata_metadataToJsMap]
    cases m.decrypt cb sk with
    | ok decrypted => exact ⟨fun ⟨e, h⟩ => (by cases h), fun ⟨e, h⟩ => (by cases h)⟩
    | err e => exact ⟨fun _ => ⟨e, rfl⟩, fun _ => ⟨_, rfl⟩⟩
    | panic => exact ⟨fun ⟨e, h⟩ => (by cases h), fun ⟨e, h⟩ => (by cases h)⟩

/-- The map that `new_encrypted_metadata` returns is one with a further key. -/
theorem jsMapToMetadata_secret_nonce (m : MessageMetadata) (value : JsValue) :
    jsMapToMetadata ((metadataToJsMap m).set "secret_nonce" value) = .ok m := by
  apply jsMapToMetadata_of_agrees
  simp only [List.forall_mem_cons]
  refine ⟨?_, ?_, ?_, ?_, fun key member => (List.not_mem_nil member).elim⟩
  all_goals exact JsMap.get_set_ne _ _ (by decide)

end Nolik
