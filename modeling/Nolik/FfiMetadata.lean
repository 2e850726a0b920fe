import Nolik.Ffi
import Nolik.Parties

/-! The functions that make keys and nonces, and those that create and open metadata. What
`OsRng` gives is an argument. Opening may abort, as it does in the core. -/
namespace Nolik
open ByteString Effects Sealing JsonText Serde

variable {K : Type} (base64 : Base64.Engine)

namespace Ffi

def MetadataEncryptReturn.struct : ReturnStruct MetadataEncryptReturn where
  serialize := MetadataEncryptReturn.layout.serialize
  withError error := { (default : MetadataEncryptReturn) with error }

def MetadataDecryptReturn.struct : ReturnStruct MetadataDecryptReturn where
  serialize := MetadataDecryptReturn.layout.serialize
  withError error := { (default : MetadataDecryptReturn) with error }

def NonceWrap.struct : ReturnStruct NonceWrap where
  serialize := NonceWrap.layout.serialize
  withError error := { (default : NonceWrap) with error }

variable (cb : CryptoBox K) (debug : DebugText) (format : TextFormat)

/-- `nonce.to_vec().try_into().map_err(..)`. -/
def nonceArray (nonce : SalsaNonce) : Except String (ByteArr nonceSize) :=
  match tryInto nonceSize nonce.toList with
  | some arr => .ok arr
  | none => .error "nonce size is not valid"

def newEncryptedMetadata (blake2s : Bytes → ByteArr keySize) (secretNonce : SalsaNonce)
    (brokerSk : SecretKey) (input : Bytes) : Outcome Empty Bytes :=
  let input := ptrToBytes input
  unwrapOrReturn format MetadataEncryptReturn.struct
    (.ofExcept (format.fromSlice (MetadataEncryptParams.layout base64).deserialize input))
    fun { origin, publicNonce, senderPk, recipients, message } => do
      let recipients := recipients.map PublicKey.mk
      let publicNonce ← SalsaNonce.fromSlice publicNonce.toList
      unwrapOrReturn format MetadataEncryptReturn.struct (.ofExcept ((newEncrypted cb blake2s
          ⟨origin⟩ publicNonce ⟨senderPk⟩ recipients message secretNonce brokerSk).result.mapError
            (CypherError.display debug)))
        fun (metadata, secretNonce) =>
          unwrapOrReturn format MetadataEncryptReturn.struct (.ofExcept (nonceArray secretNonce))
            fun secretNonce =>
              let encrypted := { (default : MetadataEncryptReturn) with metadata, secretNonce }
              .ok (serializeAndAllocate format MetadataEncryptReturn.layout.serialize encrypted)

def decryptMetadata (input : Bytes) : Outcome Empty Bytes :=
  let input := ptrToBytes input
  unwrapOrReturn format MetadataDecryptReturn.struct
    (.ofExcept (format.fromSlice MetadataDecryptParams.layout.deserialize input))
    fun { metadata, receiverSk } =>
      let receiverSk : SecretKey := ⟨receiverSk⟩
      unwrapOrReturn format MetadataDecryptReturn.struct
        ((metadata.decrypt cb receiverSk).mapErr (CypherError.display debug)) fun metadata =>
          let decrypted := { (default : MetadataDecryptReturn) with metadata }
          .ok (serializeAndAllocate format MetadataDecryptReturn.layout.serialize decrypted)

def generateKeypair (secret : SecretKey) : Outcome Empty Bytes :=
  let pair : KeyPair := { publicKey := (cb.publicKey secret).bytes, secret := secret.bytes }
  .ok (serializeAndAllocate format KeyPair.layout.serialize pair)

def generateNonce (nonce : SalsaNonce) : Outcome Empty Bytes :=
  unwrapOrReturn format NonceWrap.struct (.ofExcept (nonceArray nonce)) fun data =>
    .ok (serializeAndAllocate format NonceWrap.layout.serialize
      { (default : NonceWrap) with data })

def readEncryptParams (request : Bytes) : Except String MetadataEncryptParams :=
  format.fromSlice (MetadataEncryptParams.layout base64).deserialize (ptrToBytes request)

def readDecryptParams (request : Bytes) : Except String MetadataDecryptParams :=
  format.fromSlice MetadataDecryptParams.layout.deserialize (ptrToBytes request)

def readEncryptReturn (reply : Bytes) : Except String MetadataEncryptReturn :=
  format.fromSlice MetadataEncryptReturn.layout.deserialize (ptrToBytes reply)

def readDecryptReturn (reply : Bytes) : Except String MetadataDecryptReturn :=
  format.fromSlice MetadataDecryptReturn.layout.deserialize (ptrToBytes reply)

/-- A request can be written, and however it is written, the reply reads as `reply`. -/
structure Answers (f : Bytes → Outcome Empty Bytes) (request reply : Json) : Prop where
  sendable : ∃ memory, format.read (ptrToBytes memory) = .ok request
  answered : ∀ memory, format.read (ptrToBytes memory) = .ok request →
    ∃ written, f memory = .ok written ∧ format.read (ptrToBytes written) = .ok reply

def encryptRequest (origin publicNonce senderPk : Json) (recipients : List Json)
    (message : Json) : Json :=
  .object [("origin", origin), ("public_nonce", publicNonce), ("sender_pk", senderPk),
    ("recipients", .array recipients), ("message", message)]

def decryptRequest (metadata receiverSk : Json) : Json :=
  .object [("metadata", metadata), ("receiver_sk", receiverSk)]

def field (name : String) : Json → Option Json
  | .object entries => entries.lookup name
  | _ => none

def item (i : Nat) : Json → Option Json
  | .array items => items[i]?
  | _ => none

/-- `metadata.channels[0].nonce` and `metadata.channels[0].parties[0]`. -/
def firstChannel (metadata : Json) : Option (Json × Json) := do
  let channels ← field "channels" metadata
  let channel ← item 0 channels
  let parties ← field "parties" channel
  some (← field "nonce" channel, ← item 0 parties)

end Ffi

section Documents
variable {base64}

theorem Channel.deserialize_serialize (channel : Channel) :
    layout.deserialize (layout.serialize channel) = .ok channel := by
  have bytes := deserializeVec_serializeVec deserializeU8_serializeU8
  apply Layout.deserialize_serialize
  intro i
  match i with
  | 0 => exact ⟨bytes⟩
  | 1 => exact ⟨deserializeVec_serializeVec bytes⟩

theorem MessageMetadata.deserialize_serialize (metadata : MessageMetadata) :
    layout.deserialize (layout.serialize metadata) = .ok metadata := by
  apply Layout.deserialize_serialize
  intro i
  match i with
  | 0 => exact ⟨deserializeArray_serializeArray⟩
  | 1 => exact ⟨deserializeArray_serializeArray⟩
  | 2 => exact ⟨deserializeArray_serializeArray⟩
  | 3 => exact ⟨deserializeVec_serializeVec Channel.deserialize_serialize⟩

theorem MetadataEncryptParams.deserialize_serialize (encoding : base64.Lawful)
    (params : MetadataEncryptParams) :
    (layout base64).deserialize ((layout base64).serialize params) = .ok params := by
  apply Layout.deserialize_serialize
  intro i
  match i with
  | 0 => exact ⟨deserializeArray_serializeArray⟩
  | 1 => exact ⟨deserializeArray_serializeArray⟩
  | 2 => exact ⟨deserializeArray_serializeArray⟩
  | 3 => exact ⟨deserializeVec_serializeVec deserializeArray_serializeArray⟩
  | 4 => exact ⟨Message.deserialize_serialize encoding⟩

theorem MetadataEncryptReturn.deserialize_serialize (ret : MetadataEncryptReturn) :
    layout.deserialize (layout.serialize ret) = .ok ret := by
  apply Layout.deserialize_serialize
  intro i
  match i with
  | 0 => exact ⟨MessageMetadata.deserialize_serialize⟩
  | 1 => exact ⟨deserializeArray_serializeArray⟩
  | 2 => exact ⟨fun _ => rfl⟩

theorem MetadataDecryptParams.deserialize_serialize (params : MetadataDecryptParams) :
    layout.deserialize (layout.serialize params) = .ok params := by
  apply Layout.deserialize_serialize
  intro i
  match i with
  | 0 => exact ⟨MessageMetadata.deserialize_serialize⟩
  | 1 => exact ⟨deserializeArray_serializeArray⟩

theorem MetadataDecryptReturn.deserialize_serialize (ret : MetadataDecryptReturn) :
    layout.deserialize (layout.serialize ret) = .ok ret := by
  apply Layout.deserialize_serialize
  intro i
  match i with
  | 0 => exact ⟨MessageMetadata.deserialize_serialize⟩
  | 1 => exact ⟨fun _ => rfl⟩

end Documents

theorem fits_bytes (bytes : Bytes) : (serializeVec serializeU8 bytes).Fits 2 := by
  have each : ∀ b, (serializeU8 b).Fits 1 := fun _ => trivial
  exact fits_serializeVec each bytes

theorem Channel.fits_serialize (channel : Channel) : (layout.serialize channel).Fits 4 := by
  apply fits_serializeStruct
  intro i
  match i with
  | 0 => exact (fits_bytes channel.nonce).mono (by decide)
  | 1 => exact fits_serializeVec fits_bytes channel.parties

theorem MessageMetadata.fits_serialize (metadata : MessageMetadata) :
    (layout.serialize metadata).Fits 6 := by
  apply fits_serializeStruct
  intro i
  match i with
  | 0 => exact fits_serializeArray metadata.nonce
  | 1 => exact fits_serializeArray metadata.broker
  | 2 => exact fits_serializeArray metadata.hash
  | 3 => exact fits_serializeVec Channel.fits_serialize metadata.channels

theorem MetadataEncryptParams.fits_serialize (params : MetadataEncryptParams) :
    ((layout base64).serialize params).Fits depthLimit := by
  apply fits_serializeStruct
  intro i
  match i with
  | 0 => exact fits_serializeArray params.origin
  | 1 => exact fits_serializeArray params.publicNonce
  | 2 => exact fits_serializeArray params.senderPk
  | 3 => exact fits_serializeVec (fun pk => fits_serializeArray pk) params.recipients
  | 4 => exact (Message.fits_serialize base64 params.message).mono (by decide)

theorem MetadataEncryptReturn.fits_serialize (ret : MetadataEncryptReturn) :
    (layout.serialize ret).Fits depthLimit := by
  apply fits_serializeStruct
  intro i
  match i with
  | 0 => exact (MessageMetadata.fits_serialize ret.metadata).mono (by decide)
  | 1 => exact fits_serializeArray ret.secretNonce
  | 2 => exact fits_string ret.error

theorem MetadataDecryptParams.fits_serialize (params : MetadataDecryptParams) :
    (layout.serialize params).Fits depthLimit := by
  apply fits_serializeStruct
  intro i
  match i with
  | 0 => exact (MessageMetadata.fits_serialize params.metadata).mono (by decide)
  | 1 => exact fits_serializeArray params.receiverSk

theorem MetadataDecryptReturn.fits_serialize (ret : MetadataDecryptReturn) :
    (layout.serialize ret).Fits depthLimit := by
  apply fits_serializeStruct
  intro i
  match i with
  | 0 => exact (MessageMetadata.fits_serialize ret.metadata).mono (by decide)
  | 1 => exact fits_string ret.error

theorem KeyPair.fits_serialize (pair : KeyPair) : (layout.serialize pair).Fits depthLimit := by
  apply fits_serializeStruct
  intro i
  match i with
  | 0 => exact fits_serializeArray pair.publicKey
  | 1 => exact fits_serializeArray pair.secret

theorem NonceWrap.fits_serialize (wrap : NonceWrap) :
    (layout.serialize wrap).Fits depthLimit := by
  apply fits_serializeStruct
  intro i
  match i with
  | 0 => exact fits_serializeArray wrap.data
  | 1 => exact fits_string wrap.error

/-- The call that the parameters describe. -/
def MetadataEncryptParams.draft (params : MetadataEncryptParams) (secretNonce : SalsaNonce)
    (brokerSk : SecretKey) : Draft where
  origin := ⟨params.origin⟩
  publicNonce := params.publicNonce
  senderPk := ⟨params.senderPk⟩
  recipients := params.recipients.map PublicKey.mk
  message := params.message
  secretNonce := secretNonce
  brokerSk := brokerSk

/-- The parameters that ask for a draft. -/
def Draft.params (d : Draft) : MetadataEncryptParams :=
  ⟨d.origin.bytes, d.publicNonce, d.senderPk.bytes, d.recipients.map PublicKey.bytes, d.message⟩

theorem Draft.draft_params (d : Draft) : d.params.draft d.secretNonce d.brokerSk = d := by
  have back : (d.recipients.map PublicKey.bytes).map PublicKey.mk = d.recipients := by
    rw [List.map_map]
    exact List.map_id d.recipients
  rw [params, MetadataEncryptParams.draft, back]

/-- The call of the core behind a request for new metadata. -/
def MetadataEncryptParams.perform (cb : CryptoBox K) (blake2s : Bytes → ByteArr keySize)
    (secretNonce : SalsaNonce) (brokerSk : SecretKey) (params : MetadataEncryptParams) :
    Outcome CypherError (MessageMetadata × SalsaNonce) :=
  .ofExcept ((params.draft secretNonce brokerSk).newEncrypted cb blake2s).result

def MetadataDecryptParams.perform (cb : CryptoBox K) (params : MetadataDecryptParams) :
    Outcome CypherError MessageMetadata :=
  params.metadata.decrypt cb ⟨params.receiverSk⟩

namespace Ffi
variable {base64} {cb : CryptoBox K} {debug : DebugText} {format : TextFormat}

theorem readEncryptReturn_serializeAndAllocate (text : format.Lawful)
    (ret : MetadataEncryptReturn) :
    readEncryptReturn format
      (serializeAndAllocate format MetadataEncryptReturn.layout.serialize ret) = .ok ret :=
  TextFormat.fromSlice_ok
    (read_serializeAndAllocate text (MetadataEncryptReturn.fits_serialize ret))
    (MetadataEncryptReturn.deserialize_serialize ret)

theorem readDecryptReturn_serializeAndAllocate (text : format.Lawful)
    (ret : MetadataDecryptReturn) :
    readDecryptReturn format
      (serializeAndAllocate format MetadataDecryptReturn.layout.serialize ret) = .ok ret :=
  TextFormat.fromSlice_ok
    (read_serializeAndAllocate text (MetadataDecryptReturn.fits_serialize ret))
    (MetadataDecryptReturn.deserialize_serialize ret)

theorem nonceArray_eq (nonce : SalsaNonce) : nonceArray nonce = .ok nonce := by
  rw [nonceArray, tryInto_toList]

section Encrypt
variable {blake2s : Bytes → ByteArr keySize} {secretNonce : SalsaNonce} {brokerSk : SecretKey}
  {request : Bytes} {params : MetadataEncryptParams}

theorem newEncryptedMetadata_unread {e : String}
    (unread : readEncryptParams base64 format request = .error e) :
    newEncryptedMetadata base64 cb debug format blake2s secretNonce brokerSk request =
      .ok (serializeAndAllocate format MetadataEncryptReturn.layout.serialize
        (MetadataEncryptReturn.struct.withError e)) := by
  unfold newEncryptedMetadata
  change unwrapOrReturn format _ (.ofExcept (readEncryptParams base64 format request)) _ = _
  rw [unread]
  rfl

theorem newEncryptedMetadata_parsed
    (parsed : readEncryptParams base64 format request = .ok params) :
    newEncryptedMetadata base64 cb debug format blake2s secretNonce brokerSk request =
      match ((params.draft secretNonce brokerSk).newEncrypted cb blake2s).result with
      | .ok (metadata, nonce) => .ok (serializeAndAllocate format
          MetadataEncryptReturn.layout.serialize ⟨metadata, nonce, ""⟩)
      | .error e => .ok (serializeAndAllocate format MetadataEncryptReturn.layout.serialize
          (MetadataEncryptReturn.struct.withError (e.display debug))) := by
  unfold newEncryptedMetadata
  change unwrapOrReturn format _ (.ofExcept (readEncryptParams base64 format request)) _ = _
  have core : (newEncrypted cb blake2s ⟨params.origin⟩ params.publicNonce ⟨params.senderPk⟩
      (params.recipients.map PublicKey.mk) params.message secretNonce brokerSk).result =
        ((params.draft secretNonce brokerSk).newEncrypted cb blake2s).result := rfl
  simp only [parsed, unwrapOrReturn, Outcome.ofExcept_ok, SalsaNonce.fromSlice_toList,
    Outcome.ok_bind, nonceArray_eq, core]
  cases ((params.draft secretNonce brokerSk).newEncrypted cb blake2s).result with
  | error e => rfl
  | ok result => rfl

end Encrypt

section Decrypt
variable {request : Bytes} {params : MetadataDecryptParams}

theorem decryptMetadata_unread {e : String} (unread : readDecryptParams format request = .error e) :
    decryptMetadata cb debug format request =
      .ok (serializeAndAllocate format MetadataDecryptReturn.layout.serialize
        (MetadataDecryptReturn.struct.withError e)) := by
  unfold decryptMetadata
  change unwrapOrReturn format _ (.ofExcept (readDecryptParams format request)) _ = _
  rw [unread]
  rfl

theorem decryptMetadata_parsed (parsed : readDecryptParams format request = .ok params) :
    decryptMetadata cb debug format request =
      match params.metadata.decrypt cb ⟨params.receiverSk⟩ with
      | .panic => .panic
      | .ok metadata => .ok (serializeAndAllocate format MetadataDecryptReturn.layout.serialize
          ⟨metadata, ""⟩)
      | .err e => .ok (serializeAndAllocate format MetadataDecryptReturn.layout.serialize
          (MetadataDecryptReturn.struct.withError (e.display debug))) := by
  unfold decryptMetadata
  change unwrapOrReturn format _ (.ofExcept (readDecryptParams format request)) _ = _
  simp only [parsed, unwrapOrReturn, Outcome.ofExcept_ok]
  cases params.metadata.decrypt cb ⟨params.receiverSk⟩ with
  | panic => rfl
  | ok metadata => rfl
  | err e => rfl

end Decrypt

theorem answers_onMessage (text : format.Lawful) (encoding : base64.Lawful)
    {action : MessageAction} {input : MessageInput} {message : Message}
    (done : action.perform cb input = .ok message) :
    Answers format (onMessage base64 cb debug format · action)
      (messageRequest ((Message.layout base64).serialize input.message)
        (serializeArray input.nonce) (keyField input.pk) (keyField input.sk))
      (.object [("message", (Message.layout base64).serialize message),
        ("error", .string "")]) := by
  refine ⟨exists_memory text (MessageInput.fits_serialize base64 input), fun memory read => ?_⟩
  exact ⟨_, onMessage_ok (readRequest_ok encoding read) done,
    read_serializeAndAllocate text (MessageReturn.fits_serialize base64 _)⟩

/-- Metadata is created for the draft of the request. -/
theorem answers_newEncryptedMetadata (text : format.Lawful) (encoding : base64.Lawful)
    {blake2s : Bytes → ByteArr keySize} {d : Draft} {metadata : MessageMetadata}
    (returned : (d.newEncrypted cb blake2s).result = .ok (metadata, d.secretNonce)) :
    Answers format
      (newEncryptedMetadata base64 cb debug format blake2s d.secretNonce d.brokerSk)
      (encryptRequest (keyField d.origin.bytes) (serializeArray d.publicNonce)
        (keyField d.senderPk.bytes) (d.recipients.map fun pk => keyField pk.bytes)
        ((Message.layout base64).serialize d.message))
      (.object [("metadata", MessageMetadata.layout.serialize metadata),
        ("secret_nonce", serializeArray d.secretNonce), ("error", .string "")]) := by
  have written : encryptRequest (keyField d.origin.bytes) (serializeArray d.publicNonce)
      (keyField d.senderPk.bytes) (d.recipients.map fun pk => keyField pk.bytes)
      ((Message.layout base64).serialize d.message) =
        (MetadataEncryptParams.layout base64).serialize d.params := by
    have fields : d.recipients.map (fun pk => keyField pk.bytes) =
        d.params.recipients.map serializeArray := by
      rw [Draft.params, List.map_map]
      rfl
    rw [fields]
    rfl
  rw [written]
  refine ⟨exists_memory text (MetadataEncryptParams.fits_serialize base64 d.params),
    fun memory read => ?_⟩
  have parsed : readEncryptParams base64 format memory = .ok d.params :=
    TextFormat.fromSlice_ok read (MetadataEncryptParams.deserialize_serialize encoding d.params)
  have done : newEncryptedMetadata base64 cb debug format blake2s d.secretNonce d.brokerSk memory =
      .ok (serializeAndAllocate format MetadataEncryptReturn.layout.serialize
        ⟨metadata, d.secretNonce, ""⟩) := by
    rw [newEncryptedMetadata_parsed parsed, d.draft_params, returned]
  exact ⟨_, done, read_serializeAndAllocate text (MetadataEncryptReturn.fits_serialize _)⟩

theorem answers_decryptMetadata (text : format.Lawful) {metadata opened : MessageMetadata}
    {receiverSk : SecretKey} (decrypted : metadata.decrypt cb receiverSk = .ok opened) :
    Answers format (decryptMetadata cb debug format)
      (decryptRequest (MessageMetadata.layout.serialize metadata) (keyField receiverSk.bytes))
      (.object [("metadata", MessageMetadata.layout.serialize opened),
        ("error", .string "")]) := by
  let params : MetadataDecryptParams := ⟨metadata, receiverSk.bytes⟩
  have fits := MetadataDecryptParams.fits_serialize params
  refine ⟨exists_memory text fits, fun memory read => ?_⟩
  have parsed : readDecryptParams format memory = .ok params :=
    TextFormat.fromSlice_ok read (MetadataDecryptParams.deserialize_serialize params)
  have core : params.metadata.decrypt cb ⟨params.receiverSk⟩ = .ok opened := decrypted
  have done : decryptMetadata cb debug format memory = .ok (serializeAndAllocate format
      MetadataDecryptReturn.layout.serialize ⟨opened, ""⟩) := by
    rw [decryptMetadata_parsed parsed, core]
  exact ⟨_, done, read_serializeAndAllocate text (MetadataDecryptReturn.fits_serialize _)⟩

/-- A party finds the nonce and the sender where the host looks for them. -/
theorem firstChannel_opened (lawful : cb.Lawful) {blake2s : Bytes → ByteArr keySize} {d : Draft}
    {receiverSk : SecretKey} (separates : d.Separates cb receiverSk) {metadata : MessageMetadata}
    {secretNonce : SalsaNonce} (yields : d.Yields cb blake2s metadata secretNonce)
    (party : cb.publicKey receiverSk ∈ d.parties) :
    ∃ opened, metadata.decrypt cb receiverSk = .ok opened ∧
      firstChannel (MessageMetadata.layout.serialize opened) =
        some (serializeArray d.secretNonce, keyField d.senderPk.bytes) := by
  obtain ⟨⟨nonce, broker, hash, channels⟩, rest, decrypted, shown⟩ :=
    Draft.party_opens_first lawful separates yields party
  change channels = d.openedChannel :: rest at shown
  subst shown
  exact ⟨_, decrypted, rfl⟩

/-- Keys and nonces come as the documents that requests are made of. A recipient that has the
metadata of the first reply and the sealed message of the second one reads the message, with
its own secret key and with what stands in the first channel it opens. -/
theorem host_session (lawful : cb.Lawful) (seals : cb.SealsAll) (text : format.Lawful)
    (encoding : base64.Lawful) (debug : DebugText) (blake2s : Bytes → ByteArr keySize) :
    (∀ secret, ∃ written, generateKeypair cb format secret = .ok written ∧
      format.read (ptrToBytes written) = .ok (.object
        [("public", keyField (cb.publicKey secret).bytes), ("secret", keyField secret.bytes)])) ∧
    (∀ nonce, ∃ written, generateNonce format nonce = .ok written ∧
      format.read (ptrToBytes written) = .ok (.object
        [("data", serializeArray nonce), ("error", .string "")])) ∧
    ∀ (d : Draft) (senderSk receiverSk : SecretKey), cb.publicKey senderSk = d.senderPk →
      cb.publicKey receiverSk ∈ d.recipients → d.Separates cb receiverSk →
      let message := (Message.layout base64).serialize d.message
      ∃ metadata sealed opened nonceField senderField,
        Answers format
          (newEncryptedMetadata base64 cb debug format blake2s d.secretNonce d.brokerSk)
          (encryptRequest (keyField d.origin.bytes) (serializeArray d.publicNonce)
            (keyField d.senderPk.bytes) (d.recipients.map fun pk => keyField pk.bytes) message)
          (.object [("metadata", metadata), ("secret_nonce", serializeArray d.secretNonce),
            ("error", .string "")]) ∧
        Answers format (encryptMessage base64 cb debug format)
          (messageRequest message (serializeArray d.secretNonce)
            (keyField (cb.publicKey receiverSk).bytes) (keyField senderSk.bytes))
          (.object [("message", sealed), ("error", .string "")]) ∧
        Answers format (decryptMetadata cb debug format)
          (decryptRequest metadata (keyField receiverSk.bytes))
          (.object [("metadata", opened), ("error", .string "")]) ∧
        firstChannel opened = some (nonceField, senderField) ∧
        Answers format (decryptMessage base64 cb debug format)
          (messageRequest sealed nonceField senderField (keyField receiverSk.bytes))
          (.object [("message", message), ("error", .string "")]) := by
  refine ⟨fun secret => ?_, fun nonce => ?_, ?_⟩
  · let pair : KeyPair := ⟨(cb.publicKey secret).bytes, secret.bytes⟩
    exact ⟨_, rfl, read_serializeAndAllocate text (KeyPair.fits_serialize pair)⟩
  · have done : generateNonce format nonce =
        .ok (serializeAndAllocate format NonceWrap.layout.serialize ⟨nonce, ""⟩) := by
      rw [generateNonce, nonceArray_eq]
      rfl
    exact ⟨_, done, read_serializeAndAllocate text (NonceWrap.fits_serialize ⟨nonce, ""⟩)⟩
  · intro d senderSk receiverSk sender recipient separates message
    obtain ⟨metadata, returned⟩ := d.newEncrypted_total seals blake2s
    obtain ⟨opened, decrypted, shown⟩ := firstChannel_opened lawful separates
      (Draft.yields_of_ok returned) (List.mem_cons_of_mem _ recipient)
    obtain ⟨stored, sealed⟩ := Message.encrypt_total seals d.message d.secretNonce
      (cb.publicKey receiverSk) senderSk
    have read := Draft.recipient_reads lawful sender sealed
    let input : MessageInput :=
      ⟨d.message, d.secretNonce, (cb.publicKey receiverSk).bytes, senderSk.bytes⟩
    let input' : MessageInput := ⟨stored, d.secretNonce, d.senderPk.bytes, receiverSk.bytes⟩
    have sent : MessageAction.encrypt.perform cb input = .ok stored := sealed
    have received : MessageAction.decrypt.perform cb input' = .ok d.message := read
    exact ⟨_, _, _, _, _, answers_newEncryptedMetadata text encoding returned,
      answers_onMessage text encoding sent, answers_decryptMetadata text decrypted, shown,
      answers_onMessage text encoding received⟩

/-- Two recipients; the second one reads. -/
theorem host_session_sample :
    let debug : DebugText := ⟨fun _ => "", fun _ => "", fun _ => ""⟩
    let d := Draft.sample 3 [9, 6] ⟨[⟨[7], [8, 0xff], .file⟩]⟩
    let receiverSk : SecretKey := ⟨List.Vector.replicate keySize 6⟩
    let message := (Message.layout Base64.standard).serialize d.message
    ∃ opened sealed nonceField senderField,
      firstChannel opened = some (nonceField, senderField) ∧
      Answers compactText (decryptMessage Base64.standard clearBox debug compactText)
        (messageRequest sealed nonceField senderField (keyField receiverSk.bytes))
        (.object [("message", message), ("error", .string "")]) := by
  intro debug d receiverSk message
  obtain ⟨-, -, session⟩ := host_session clearBox_lawful clearBox_sealsAll compactText_lawful
    Base64.standard_lawful debug numeralDigest
  obtain ⟨metadata, sealed, opened, nonceField, senderField, -, -, -, first, read⟩ :=
    session d ⟨List.Vector.replicate keySize 3⟩ receiverSk rfl (by decide)
      (Draft.separates_of_keyBound clearBox_keyBound d receiverSk)
  exact ⟨opened, sealed, nonceField, senderField, first, read⟩

/-- What a reply says about a request and the call it asks for. Its value is `fallback` beside
an error. -/
def Reported {P R : Type} (debug : DebugText) (parsed : Except String P)
    (core : P → Outcome CypherError R) (fallback : R) (error : String) (value : R) : Prop :=
  (error = "" ∧ ∃ params, parsed = .ok params ∧ core params = .ok value) ∨
  (error ≠ "" ∧ value = fallback ∧
    (parsed = .error error ∨
      ∃ params e, parsed = .ok params ∧ core params = .err e ∧ error = e.display debug))

section Reported
variable {P R : Type} {parsed : Except String P} {core : P → Outcome CypherError R}
  {fallback value : R} {params : P}

theorem reported_unread {e : String} (unread : parsed = .error e) (said : e ≠ "") :
    Reported debug parsed core fallback e fallback :=
  .inr ⟨said, rfl, .inl unread⟩

theorem reported_done (read : parsed = .ok params) (done : core params = .ok value) :
    Reported debug parsed core fallback "" value :=
  .inl ⟨rfl, params, read, done⟩

theorem reported_refused {e : CypherError} (read : parsed = .ok params)
    (refused : core params = .err e) :
    Reported debug parsed core fallback (e.display debug) fallback :=
  .inr ⟨CypherError.display_ne_empty debug e, rfl, .inr ⟨params, e, read, refused, rfl⟩⟩

end Reported

theorem newEncryptedMetadata_reports (text : format.Lawful) (blake2s : Bytes → ByteArr keySize)
    (secretNonce : SalsaNonce) (brokerSk : SecretKey) (request : Bytes) :
    ∃ reply ret,
      newEncryptedMetadata base64 cb debug format blake2s secretNonce brokerSk request =
        .ok reply ∧
      readEncryptReturn format reply = .ok ret ∧
      Reported debug (readEncryptParams base64 format request)
        (MetadataEncryptParams.perform cb blake2s secretNonce brokerSk)
        (default, List.Vector.replicate nonceSize 0) ret.error (ret.metadata, ret.secretNonce) := by
  cases parsed : readEncryptParams base64 format request with
  | error e =>
      have said : e ≠ "" := TextFormat.fromSlice_error text parsed
      exact ⟨_, _, newEncryptedMetadata_unread parsed,
        readEncryptReturn_serializeAndAllocate text _, reported_unread rfl said⟩
  | ok params =>
      have run := @newEncryptedMetadata_parsed K base64 cb debug format blake2s secretNonce
        brokerSk request params parsed
      cases core : ((params.draft secretNonce brokerSk).newEncrypted cb blake2s).result with
      | ok result =>
          rw [core] at run
          exact ⟨_, _, run, readEncryptReturn_serializeAndAllocate text _,
            reported_done rfl (congrArg Outcome.ofExcept core)⟩
      | error e =>
          rw [core] at run
          exact ⟨_, _, run, readEncryptReturn_serializeAndAllocate text _,
            reported_refused rfl (congrArg Outcome.ofExcept core)⟩

theorem decryptMetadata_panic_iff {request : Bytes} :
    decryptMetadata cb debug format request = .panic ↔
      ∃ params, readDecryptParams format request = .ok params ∧ params.perform cb = .panic := by
  cases parsed : readDecryptParams format request with
  | error e =>
      rw [decryptMetadata_unread parsed]
      exact ⟨fun h => (by cases h), fun ⟨params, same, _⟩ => (by cases same)⟩
  | ok params =>
      rw [decryptMetadata_parsed parsed]
      simp only [Except.ok.injEq, exists_eq_left', MetadataDecryptParams.perform]
      cases params.metadata.decrypt cb ⟨params.receiverSk⟩ with
      | panic => exact ⟨fun _ => rfl, fun _ => rfl⟩
      | ok metadata => exact ⟨fun h => (by cases h), fun h => (by cases h)⟩
      | err e => exact ⟨fun h => (by cases h), fun h => (by cases h)⟩

theorem decryptMetadata_reports (text : format.Lawful) {request : Bytes}
    (returns : decryptMetadata cb debug format request ≠ .panic) :
    ∃ reply ret, decryptMetadata cb debug format request = .ok reply ∧
      readDecryptReturn format reply = .ok ret ∧
      Reported debug (readDecryptParams format request) (MetadataDecryptParams.perform cb) default
        ret.error ret.metadata := by
  cases parsed : readDecryptParams format request with
  | error e =>
      have said : e ≠ "" := TextFormat.fromSlice_error text parsed
      exact ⟨_, _, decryptMetadata_unread parsed, readDecryptReturn_serializeAndAllocate text _,
        reported_unread rfl said⟩
  | ok params =>
      have run := @decryptMetadata_parsed K cb debug format request params parsed
      cases core : params.metadata.decrypt cb ⟨params.receiverSk⟩ with
      | panic =>
          rw [core] at run
          exact absurd run returns
      | ok metadata =>
          rw [core] at run
          exact ⟨_, _, run, readDecryptReturn_serializeAndAllocate text _, reported_done rfl core⟩
      | err e =>
          rw [core] at run
          exact ⟨_, _, run, readDecryptReturn_serializeAndAllocate text _,
            reported_refused rfl core⟩

/-- Whatever the request, a reply says what happened. The first function always replies, the
second one unless the core aborts on what it was given. -/
theorem metadata_reported (text : format.Lawful) (cb : CryptoBox K) (base64 : Base64.Engine)
    (debug : DebugText) (blake2s : Bytes → ByteArr keySize) (request : Bytes) :
    (∀ secretNonce brokerSk, ∃ reply ret,
      newEncryptedMetadata base64 cb debug format blake2s secretNonce brokerSk request =
        .ok reply ∧
      readEncryptReturn format reply = .ok ret ∧
      Reported debug (readEncryptParams base64 format request)
        (MetadataEncryptParams.perform cb blake2s secretNonce brokerSk)
        (default, List.Vector.replicate nonceSize 0) ret.error (ret.metadata, ret.secretNonce)) ∧
    (decryptMetadata cb debug format request = .panic ↔
      ∃ params, readDecryptParams format request = .ok params ∧ params.perform cb = .panic) ∧
    (decryptMetadata cb debug format request ≠ .panic → ∃ reply ret,
      decryptMetadata cb debug format request = .ok reply ∧
      readDecryptReturn format reply = .ok ret ∧
      Reported debug (readDecryptParams format request) (MetadataDecryptParams.perform cb) default
        ret.error ret.metadata) :=
  ⟨fun secretNonce brokerSk =>
    newEncryptedMetadata_reports text blake2s secretNonce brokerSk request,
    decryptMetadata_panic_iff, decryptMetadata_reports text⟩

/-- A channel that opens with a nonce of one byte ends the process of the host. -/
theorem metadata_reported_abort :
    let debug : DebugText := ⟨fun _ => "", fun _ => "", fun _ => ""⟩
    ∃ request, decryptMetadata clearBox debug compactText request = .panic := by
  intro debug
  let params : MetadataDecryptParams := {
    metadata := {
      nonce := List.Vector.replicate nonceSize 2
      broker := List.Vector.replicate keySize 4
      hash := List.Vector.replicate keySize 0
      channels := [⟨List.replicate 32 10 ++ List.replicate 24 2 ++ [1], [[0]]⟩] }
    receiverSk := List.Vector.replicate keySize 6 }
  obtain ⟨request, read⟩ :=
    exists_memory compactText_lawful (MetadataDecryptParams.fits_serialize params)
  have parsed : readDecryptParams compactText request = .ok params :=
    TextFormat.fromSlice_ok read (MetadataDecryptParams.deserialize_serialize params)
  have reported := metadata_reported compactText_lawful clearBox Base64.standard debug
    numeralDigest request
  exact ⟨request, reported.2.1.mpr ⟨params, parsed, rfl⟩⟩

end Ffi
end Nolik
