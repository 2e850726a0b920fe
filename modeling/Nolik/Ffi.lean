import Nolik.Library.Base64
import Nolik.Library.Serde
import Nolik.Metadata

/-! Requests and replies are C strings that hold JSON. A reply always comes back; its error is
empty or says what went wrong. `format` and `base64` are the crates behind the two encodings. -/
namespace Nolik
open ByteString Effects Sealing JsonText Serde

variable {K : Type} (base64 : Base64.Engine)

def asBase64 (key : Bytes) : Json := serializeString (base64.encode key)

def fromBase64 (doc : Json) : Except DeError Bytes := do
  let string ← deserializeString doc
  (base64.decode string).mapError .custom

def MessageType.serialize : MessageType → Json
  | rawData => .string "RawData"
  | file => .string "File"

def MessageType.deserialize : Json → Except DeError MessageType :=
  deserializeEnum [("RawData", rawData), ("File", file)]

def MessageEntry.layout : Layout 3 MessageEntry where
  fields
    | 0 => ⟨"key", Bytes, asBase64 base64, fromBase64 base64⟩
    | 1 => ⟨"value", Bytes, asBase64 base64, fromBase64 base64⟩
    | 2 => ⟨"kind", MessageType, MessageType.serialize, MessageType.deserialize⟩
  toRecord self
    | 0 => self.key
    | 1 => self.value
    | 2 => self.kind
  ofRecord x := { key := x 0, value := x 1, kind := x 2 }
  ofRecord_toRecord _ := rfl
  distinct := List.nodup_ofFn.mp (show ["key", "value", "kind"].Nodup by decide)

def Message.layout : Layout 1 Message where
  fields
    | 0 => ⟨"entries", List MessageEntry, serializeVec (MessageEntry.layout base64).serialize,
        deserializeVec (MessageEntry.layout base64).deserialize⟩
  toRecord self
    | 0 => self.entries
  ofRecord x := { entries := x 0 }
  ofRecord_toRecord _ := rfl
  distinct := List.nodup_ofFn.mp (show ["entries"].Nodup by decide)

instance : Inhabited Message := ⟨{ entries := [] }⟩

structure MessageInput where
  message : Message
  nonce : ByteArr nonceSize
  pk : ByteArr keySize
  sk : ByteArr keySize

structure MessageReturn where
  message : Message
  error : String

instance : Inhabited MessageReturn := ⟨{ message := default, error := "" }⟩

def MessageInput.layout : Layout 4 MessageInput where
  fields
    | 0 => ⟨"message", Message, (Message.layout base64).serialize,
        (Message.layout base64).deserialize⟩
    | 1 => ⟨"nonce", ByteArr nonceSize, serializeArray, deserializeArray nonceSize⟩
    | 2 => ⟨"pk", ByteArr keySize, serializeArray, deserializeArray keySize⟩
    | 3 => ⟨"sk", ByteArr keySize, serializeArray, deserializeArray keySize⟩
  toRecord self
    | 0 => self.message
    | 1 => self.nonce
    | 2 => self.pk
    | 3 => self.sk
  ofRecord x := { message := x 0, nonce := x 1, pk := x 2, sk := x 3 }
  ofRecord_toRecord _ := rfl
  distinct := List.nodup_ofFn.mp (show ["message", "nonce", "pk", "sk"].Nodup by decide)

def MessageReturn.layout : Layout 2 MessageReturn where
  fields
    | 0 => ⟨"message", Message, (Message.layout base64).serialize,
        (Message.layout base64).deserialize⟩
    | 1 => ⟨"error", String, serializeString, deserializeString⟩
  toRecord self
    | 0 => self.message
    | 1 => self.error
  ofRecord x := { message := x 0, error := x 1 }
  ofRecord_toRecord _ := rfl
  distinct := List.nodup_ofFn.mp (show ["message", "error"].Nodup by decide)

def Channel.layout : Layout 2 Channel where
  fields
    | 0 => ⟨"nonce", Bytes, serializeVec serializeU8, deserializeVec deserializeU8⟩
    | 1 => ⟨"parties", List Bytes, serializeVec (serializeVec serializeU8),
        deserializeVec (deserializeVec deserializeU8)⟩
  toRecord self
    | 0 => self.nonce
    | 1 => self.parties
  ofRecord x := { nonce := x 0, parties := x 1 }
  ofRecord_toRecord _ := rfl
  distinct := List.nodup_ofFn.mp (show ["nonce", "parties"].Nodup by decide)

def MessageMetadata.layout : Layout 4 MessageMetadata where
  fields
    | 0 => ⟨"nonce", ByteArr nonceSize, serializeArray, deserializeArray nonceSize⟩
    | 1 => ⟨"broker", ByteArr keySize, serializeArray, deserializeArray keySize⟩
    | 2 => ⟨"hash", ByteArr keySize, serializeArray, deserializeArray keySize⟩
    | 3 => ⟨"channels", List Channel, serializeVec Channel.layout.serialize,
        deserializeVec Channel.layout.deserialize⟩
  toRecord self
    | 0 => self.nonce
    | 1 => self.broker
    | 2 => self.hash
    | 3 => self.channels
  ofRecord x := { nonce := x 0, broker := x 1, hash := x 2, channels := x 3 }
  ofRecord_toRecord _ := rfl
  distinct := List.nodup_ofFn.mp (show ["nonce", "broker", "hash", "channels"].Nodup by decide)

instance : Inhabited MessageMetadata where
  default := {
    nonce := List.Vector.replicate nonceSize 0
    broker := List.Vector.replicate keySize 0
    hash := List.Vector.replicate keySize 0
    channels := [] }

structure MetadataEncryptParams where
  origin : ByteArr keySize
  publicNonce : ByteArr nonceSize
  senderPk : ByteArr keySize
  recipients : List (ByteArr keySize)
  message : Message

structure MetadataEncryptReturn where
  metadata : MessageMetadata
  secretNonce : ByteArr nonceSize
  error : String

structure MetadataDecryptParams where
  metadata : MessageMetadata
  receiverSk : ByteArr keySize

structure MetadataDecryptReturn where
  metadata : MessageMetadata
  error : String

structure KeyPair where
  publicKey : ByteArr keySize
  secret : ByteArr keySize

structure NonceWrap where
  data : ByteArr nonceSize
  error : String

instance : Inhabited MetadataEncryptReturn where
  default := { metadata := default, secretNonce := List.Vector.replicate nonceSize 0, error := "" }

instance : Inhabited MetadataDecryptReturn where
  default := { metadata := default, error := "" }

instance : Inhabited NonceWrap where
  default := { data := List.Vector.replicate nonceSize 0, error := "" }

def MetadataEncryptParams.layout : Layout 5 MetadataEncryptParams where
  fields
    | 0 => ⟨"origin", ByteArr keySize, serializeArray, deserializeArray keySize⟩
    | 1 => ⟨"public_nonce", ByteArr nonceSize, serializeArray, deserializeArray nonceSize⟩
    | 2 => ⟨"sender_pk", ByteArr keySize, serializeArray, deserializeArray keySize⟩
    | 3 => ⟨"recipients", List (ByteArr keySize), serializeVec serializeArray,
        deserializeVec (deserializeArray keySize)⟩
    | 4 => ⟨"message", Message, (Message.layout base64).serialize,
        (Message.layout base64).deserialize⟩
  toRecord self
    | 0 => self.origin
    | 1 => self.publicNonce
    | 2 => self.senderPk
    | 3 => self.recipients
    | 4 => self.message
  ofRecord x := {
    origin := x 0, publicNonce := x 1, senderPk := x 2, recipients := x 3, message := x 4 }
  ofRecord_toRecord _ := rfl
  distinct := List.nodup_ofFn.mp
    (show ["origin", "public_nonce", "sender_pk", "recipients", "message"].Nodup by decide)

def MetadataEncryptReturn.layout : Layout 3 MetadataEncryptReturn where
  fields
    | 0 => ⟨"metadata", MessageMetadata, MessageMetadata.layout.serialize,
        MessageMetadata.layout.deserialize⟩
    | 1 => ⟨"secret_nonce", ByteArr nonceSize, serializeArray, deserializeArray nonceSize⟩
    | 2 => ⟨"error", String, serializeString, deserializeString⟩
  toRecord self
    | 0 => self.metadata
    | 1 => self.secretNonce
    | 2 => self.error
  ofRecord x := { metadata := x 0, secretNonce := x 1, error := x 2 }
  ofRecord_toRecord _ := rfl
  distinct := List.nodup_ofFn.mp (show ["metadata", "secret_nonce", "error"].Nodup by decide)

def MetadataDecryptParams.layout : Layout 2 MetadataDecryptParams where
  fields
    | 0 => ⟨"metadata", MessageMetadata, MessageMetadata.layout.serialize,
        MessageMetadata.layout.deserialize⟩
    | 1 => ⟨"receiver_sk", ByteArr keySize, serializeArray, deserializeArray keySize⟩
  toRecord self
    | 0 => self.metadata
    | 1 => self.receiverSk
  ofRecord x := { metadata := x 0, receiverSk := x 1 }
  ofRecord_toRecord _ := rfl
  distinct := List.nodup_ofFn.mp (show ["metadata", "receiver_sk"].Nodup by decide)

def MetadataDecryptReturn.layout : Layout 2 MetadataDecryptReturn where
  fields
    | 0 => ⟨"metadata", MessageMetadata, MessageMetadata.layout.serialize,
        MessageMetadata.layout.deserialize⟩
    | 1 => ⟨"error", String, serializeString, deserializeString⟩
  toRecord self
    | 0 => self.metadata
    | 1 => self.error
  ofRecord x := { metadata := x 0, error := x 1 }
  ofRecord_toRecord _ := rfl
  distinct := List.nodup_ofFn.mp (show ["metadata", "error"].Nodup by decide)

def KeyPair.layout : Layout 2 KeyPair where
  fields
    | 0 => ⟨"public", ByteArr keySize, serializeArray, deserializeArray keySize⟩
    | 1 => ⟨"secret", ByteArr keySize, serializeArray, deserializeArray keySize⟩
  toRecord self
    | 0 => self.publicKey
    | 1 => self.secret
  ofRecord x := { publicKey := x 0, secret := x 1 }
  ofRecord_toRecord _ := rfl
  distinct := List.nodup_ofFn.mp (show ["public", "secret"].Nodup by decide)

def NonceWrap.layout : Layout 2 NonceWrap where
  fields
    | 0 => ⟨"data", ByteArr nonceSize, serializeArray, deserializeArray nonceSize⟩
    | 1 => ⟨"error", String, serializeString, deserializeString⟩
  toRecord self
    | 0 => self.data
    | 1 => self.error
  ofRecord x := { data := x 0, error := x 1 }
  ofRecord_toRecord _ := rfl
  distinct := List.nodup_ofFn.mp (show ["data", "error"].Nodup by decide)

namespace Ffi

/-- `CStr::from_ptr(input).to_bytes()`, on the memory from the pointer on. -/
def ptrToBytes (memory : Bytes) : Bytes := memory.takeWhile (· ≠ 0)

/-- `CString::from_vec_unchecked`. -/
def allocateString (s : Bytes) : Bytes := s ++ [0]

/-- What the two macros use of the struct that a function returns. -/
structure ReturnStruct (R : Type) where
  serialize : R → Json
  withError : String → R

def MessageReturn.struct : ReturnStruct MessageReturn where
  serialize := (MessageReturn.layout base64).serialize
  withError error := { (default : MessageReturn) with error }

variable (cb : CryptoBox K) (debug : DebugText) (format : TextFormat)

def serializeAndAllocate {R : Type} (serialize : R → Json) (ret : R) : Bytes :=
  let serialized := match format.toText (serialize ret) with
    | .ok text => text
    | .error e => utf8Bytes e
  allocateString serialized

/-- The rest of the function is an argument, since the macro returns from the function. -/
def unwrapOrReturn {α R : Type} (struct : ReturnStruct R) (e : Outcome String α)
    (rest : α → Outcome Empty Bytes) : Outcome Empty Bytes :=
  match e with
  | .ok x => rest x
  | .err err => .ok (serializeAndAllocate format struct.serialize (struct.withError err))
  -- the macro has the two cases of a result, an abort passes it by
  | .panic => .panic

def onMessage (input : Bytes) (action : MessageAction) : Outcome Empty Bytes :=
  let input := ptrToBytes input
  unwrapOrReturn format (MessageReturn.struct base64)
    (.ofExcept (format.fromSlice (MessageInput.layout base64).deserialize input))
    fun { message, nonce, pk, sk } => do
      let nonce ← SalsaNonce.fromSlice nonce.toList
      let pk : PublicKey := ⟨pk⟩
      let sk : SecretKey := ⟨sk⟩
      unwrapOrReturn format (MessageReturn.struct base64) (.ofExcept ((match action with
        | .encrypt => (Cypher.encrypt cb message nonce pk sk).result
        | .decrypt => Cypher.decrypt cb message nonce pk sk).mapError (CypherError.display debug)))
        fun message =>
          let ret : MessageReturn := { (default : MessageReturn) with message }
          .ok (serializeAndAllocate format (MessageReturn.layout base64).serialize ret)

def encryptMessage (input : Bytes) : Outcome Empty Bytes :=
  onMessage base64 cb debug format input .encrypt

def decryptMessage (input : Bytes) : Outcome Empty Bytes :=
  onMessage base64 cb debug format input .decrypt

def readRequest (request : Bytes) : Except String MessageInput :=
  format.fromSlice (MessageInput.layout base64).deserialize (ptrToBytes request)

def readReply (reply : Bytes) : Except String MessageReturn :=
  format.fromSlice (MessageReturn.layout base64).deserialize (ptrToBytes reply)

def messageRequest (message nonce pk sk : Json) : Json :=
  .object [("message", message), ("nonce", nonce), ("pk", pk), ("sk", sk)]

/-- The document of a public or a secret key. -/
def keyField (key : ByteArr keySize) : Json := serializeArray key

end Ffi

section Documents
variable {base64}

theorem fromBase64_asBase64 (encoding : base64.Lawful) (key : Bytes) :
    fromBase64 base64 (asBase64 base64 key) = .ok key := by
  change (base64.decode (base64.encode key)).mapError DeError.custom = .ok key
  rw [encoding.decode_encode]
  rfl

theorem MessageType.deserialize_serialize (kind : MessageType) :
    deserialize kind.serialize = .ok kind := by
  cases kind with
  | rawData => rfl
  | file => rfl

theorem MessageEntry.deserialize_serialize (encoding : base64.Lawful) (entry : MessageEntry) :
    (layout base64).deserialize ((layout base64).serialize entry) = .ok entry := by
  apply Layout.deserialize_serialize
  intro i
  match i with
  | 0 => exact ⟨fromBase64_asBase64 encoding⟩
  | 1 => exact ⟨fromBase64_asBase64 encoding⟩
  | 2 => exact ⟨MessageType.deserialize_serialize⟩

theorem Message.deserialize_serialize (encoding : base64.Lawful) (m : Message) :
    (layout base64).deserialize ((layout base64).serialize m) = .ok m := by
  apply Layout.deserialize_serialize
  intro i
  match i with
  | 0 => exact ⟨deserializeVec_serializeVec (MessageEntry.deserialize_serialize encoding)⟩

theorem MessageInput.deserialize_serialize (encoding : base64.Lawful) (input : MessageInput) :
    (layout base64).deserialize ((layout base64).serialize input) = .ok input := by
  apply Layout.deserialize_serialize
  intro i
  match i with
  | 0 => exact ⟨Message.deserialize_serialize encoding⟩
  | 1 => exact ⟨deserializeArray_serializeArray⟩
  | 2 => exact ⟨deserializeArray_serializeArray⟩
  | 3 => exact ⟨deserializeArray_serializeArray⟩

theorem MessageReturn.deserialize_serialize (encoding : base64.Lawful) (ret : MessageReturn) :
    (layout base64).deserialize ((layout base64).serialize ret) = .ok ret := by
  apply Layout.deserialize_serialize
  intro i
  match i with
  | 0 => exact ⟨Message.deserialize_serialize encoding⟩
  | 1 => exact ⟨fun _ => rfl⟩

end Documents

theorem MessageType.fits_serialize (kind : MessageType) : kind.serialize.Fits 1 := by
  cases kind with
  | rawData => exact fits_string "RawData"
  | file => exact fits_string "File"

theorem MessageEntry.fits_serialize (entry : MessageEntry) :
    ((layout base64).serialize entry).Fits 2 := by
  apply fits_serializeStruct
  intro i
  match i with
  | 0 => exact fits_string (base64.encode entry.key)
  | 1 => exact fits_string (base64.encode entry.value)
  | 2 => exact MessageType.fits_serialize entry.kind

theorem Message.fits_serialize (m : Message) : ((layout base64).serialize m).Fits 4 := by
  apply fits_serializeStruct
  intro i
  match i with
  | 0 => exact fits_serializeVec (MessageEntry.fits_serialize base64) m.entries

theorem MessageInput.fits_serialize (input : MessageInput) :
    ((layout base64).serialize input).Fits depthLimit := by
  apply fits_serializeStruct
  intro i
  match i with
  | 0 => exact (Message.fits_serialize base64 input.message).mono (by decide)
  | 1 => exact fits_serializeArray input.nonce
  | 2 => exact fits_serializeArray input.pk
  | 3 => exact fits_serializeArray input.sk

theorem MessageReturn.fits_serialize (ret : MessageReturn) :
    ((layout base64).serialize ret).Fits depthLimit := by
  apply fits_serializeStruct
  intro i
  match i with
  | 0 => exact (Message.fits_serialize base64 ret.message).mono (by decide)
  | 1 => exact fits_string ret.error

/-- The operation behind a request. -/
def MessageAction.perform (cb : CryptoBox K) (action : MessageAction) (input : MessageInput) :
    Except CypherError Message :=
  match action with
  | encrypt => (Cypher.encrypt cb input.message input.nonce ⟨input.pk⟩ ⟨input.sk⟩).result
  | decrypt => Cypher.decrypt cb input.message input.nonce ⟨input.pk⟩ ⟨input.sk⟩

namespace Ffi
variable {base64} {cb : CryptoBox K} {debug : DebugText} {format : TextFormat}

/-- What a reply should say about an outcome. -/
def replyOf : Except String Message → MessageReturn
  | .ok message => { message, error := "" }
  | .error error => { message := default, error }

theorem ptrToBytes_allocateString {s : Bytes} (whole : 0 ∉ s) :
    ptrToBytes (allocateString s) = s := by
  unfold ptrToBytes allocateString
  rw [List.takeWhile_append_of_pos]
  · exact List.append_nil s
  · intro b member
    rw [decide_eq_true_iff]
    rintro rfl
    exact whole member

/-- Every document that is not too deep can be handed over. -/
theorem exists_memory (text : format.Lawful) {doc : Json} (fits : doc.Fits depthLimit) :
    ∃ memory, format.read (ptrToBytes memory) = .ok doc := by
  obtain ⟨s, -, read, whole⟩ := text.read_toText fits
  refine ⟨allocateString s, ?_⟩
  rw [ptrToBytes_allocateString whole, read]

theorem readRequest_ok (encoding : base64.Lawful) {request : Bytes} {input : MessageInput}
    (read : format.read (ptrToBytes request) = .ok ((MessageInput.layout base64).serialize input)) :
    readRequest base64 format request = .ok input :=
  TextFormat.fromSlice_ok read (MessageInput.deserialize_serialize encoding input)

theorem read_serializeAndAllocate {R : Type} {serialize : R → Json} {ret : R}
    (text : format.Lawful) (fits : (serialize ret).Fits depthLimit) :
    format.read (ptrToBytes (serializeAndAllocate format serialize ret)) = .ok (serialize ret) := by
  obtain ⟨s, written, read, whole⟩ := text.read_toText fits
  simp only [serializeAndAllocate, written, ptrToBytes_allocateString whole, read]

theorem readReply_serializeAndAllocate (text : format.Lawful) (encoding : base64.Lawful)
    (ret : MessageReturn) :
    readReply base64 format
      (serializeAndAllocate format (MessageReturn.layout base64).serialize ret) = .ok ret :=
  TextFormat.fromSlice_ok
    (read_serializeAndAllocate text (MessageReturn.fits_serialize base64 ret))
    (MessageReturn.deserialize_serialize encoding ret)

/-- What a request comes to, with the text of the error. -/
def attempt (base64 : Base64.Engine) (cb : CryptoBox K) (debug : DebugText) (format : TextFormat)
    (request : Bytes) (action : MessageAction) : Except String Message := do
  let input ← readRequest base64 format request
  (action.perform cb input).mapError (CypherError.display debug)

theorem attempt_ok_iff {request : Bytes} {action : MessageAction} {message : Message} :
    attempt base64 cb debug format request action = .ok message ↔
      ∃ input, readRequest base64 format request = .ok input ∧
        action.perform cb input = .ok message := by
  simp only [attempt, except_bind_ok_iff, except_mapError_ok_iff]

theorem attempt_error (text : format.Lawful) {request : Bytes} {action : MessageAction}
    {error : String} (failed : attempt base64 cb debug format request action = .error error) :
    error ≠ "" := by
  rcases except_bind_error_iff.mp failed with unread | ⟨input, -, refused⟩
  · exact TextFormat.fromSlice_error text unread
  · obtain ⟨e, -, rfl⟩ := except_mapError_error_iff.mp refused
    exact CypherError.display_ne_empty debug e

/-- Both early returns and the normal one reply with what was attempted. -/
theorem onMessage_eq (request : Bytes) (action : MessageAction) :
    onMessage base64 cb debug format request action =
      .ok (serializeAndAllocate format (MessageReturn.layout base64).serialize
        (replyOf (attempt base64 cb debug format request action))) := by
  unfold onMessage attempt
  change unwrapOrReturn format _ (.ofExcept (readRequest base64 format request)) _ = _
  cases readRequest base64 format request with
  | error e => rfl
  | ok input =>
      simp only [unwrapOrReturn, Outcome.ofExcept_ok, SalsaNonce.fromSlice_toList, Outcome.ok_bind]
      cases action with
      | encrypt =>
          simp only [bind, Except.bind, MessageAction.perform]
          cases (Cypher.encrypt cb input.message input.nonce ⟨input.pk⟩ ⟨input.sk⟩).result with
          | error e => rfl
          | ok m => rfl
      | decrypt =>
          simp only [bind, Except.bind, MessageAction.perform]
          cases Cypher.decrypt cb input.message input.nonce ⟨input.pk⟩ ⟨input.sk⟩ with
          | error e => rfl
          | ok m => rfl

/-- One reply came back. Its error is empty exactly when the request parsed and the
operation succeeded, and next to an error stands the default message. -/
def Reports (base64 : Base64.Engine) (format : TextFormat) (cb : CryptoBox K) (request : Bytes)
    (action : MessageAction) (outcome : Outcome Empty Bytes) : Prop :=
  ∃ reply ret, outcome = .ok reply ∧ readReply base64 format reply = .ok ret ∧
    (ret.error = "" ↔ ∃ input message, readRequest base64 format request = .ok input ∧
      action.perform cb input = .ok message) ∧
    (ret.error ≠ "" → ret.message = default)

theorem onMessage_reports (text : format.Lawful) (encoding : base64.Lawful) (debug : DebugText)
    (request : Bytes) (action : MessageAction) :
    Reports base64 format cb request action
      (onMessage base64 cb debug format request action) := by
  refine ⟨_, _, onMessage_eq request action, readReply_serializeAndAllocate text encoding _, ?_⟩
  rw [exists_comm]
  simp only [← @attempt_ok_iff K base64 cb debug format request action]
  cases outcome : attempt base64 cb debug format request action with
  | error e =>
      have nonempty := attempt_error text outcome
      refine ⟨⟨fun empty => absurd empty nonempty, ?_⟩, fun _ => rfl⟩
      rintro ⟨message, same⟩
      cases same
  | ok message => exact ⟨⟨fun _ => ⟨message, rfl⟩, fun _ => rfl⟩, fun some => absurd rfl some⟩

theorem onMessage_ok {request : Bytes} {action : MessageAction} {input : MessageInput}
    {message : Message} (parsed : readRequest base64 format request = .ok input)
    (done : action.perform cb input = .ok message) :
    onMessage base64 cb debug format request action =
      .ok (serializeAndAllocate format (MessageReturn.layout base64).serialize
        { message, error := "" }) := by
  rw [onMessage_eq, attempt_ok_iff.mpr ⟨input, parsed, done⟩]
  rfl

/-- A message comes back through the two exported functions when the host copies the message
field of the first reply into its second request; and whatever the request, either function
reports what happened. -/
theorem messages_exchanged (lawful : cb.Lawful) (seals : cb.SealsAll) (text : format.Lawful)
    (encoding : base64.Lawful) (debug : DebugText) :
    (∀ (m : Message) (nonce : SalsaNonce) (a b : SecretKey),
      let input : MessageInput := ⟨m, nonce, (cb.publicKey b).bytes, a.bytes⟩
      (∃ request, readRequest base64 format request = .ok input) ∧
      ∀ request, readRequest base64 format request = .ok input →
        ∃ reply field, encryptMessage base64 cb debug format request = .ok reply ∧
          format.read (ptrToBytes reply) =
            .ok (.object [("message", field), ("error", .string "")]) ∧
          (∃ request', format.read (ptrToBytes request') =
            .ok (messageRequest field (serializeArray nonce) (keyField (cb.publicKey a).bytes)
              (keyField b.bytes))) ∧
          ∀ request', format.read (ptrToBytes request') =
              .ok (messageRequest field (serializeArray nonce) (keyField (cb.publicKey a).bytes)
                (keyField b.bytes)) →
            ∃ reply', decryptMessage base64 cb debug format request' = .ok reply' ∧
              readReply base64 format reply' = .ok { message := m, error := "" }) ∧
    ∀ request,
      Reports base64 format cb request .encrypt
        (encryptMessage base64 cb debug format request) ∧
      Reports base64 format cb request .decrypt
        (decryptMessage base64 cb debug format request) := by
  constructor
  · intro m nonce a b input
    constructor
    · obtain ⟨request, read⟩ :=
        exists_memory text (MessageInput.fits_serialize base64 input)
      exact ⟨request, readRequest_ok encoding read⟩
    · intro request parsed
      obtain ⟨e, sealed⟩ := Message.encrypt_total seals m nonce (cb.publicKey b) a
      have opened : Cypher.decrypt cb e nonce (cb.publicKey a) b = .ok m :=
        (Message.roundTrips lawful).decrypt_encrypt (lawful.agree b a) sealed
      let input' : MessageInput := ⟨e, nonce, (cb.publicKey a).bytes, b.bytes⟩
      have copied : messageRequest ((Message.layout base64).serialize e) (serializeArray nonce)
          (keyField (cb.publicKey a).bytes) (keyField b.bytes) =
            (MessageInput.layout base64).serialize input' := rfl
      refine ⟨_, (Message.layout base64).serialize e, onMessage_ok parsed sealed,
        read_serializeAndAllocate text (MessageReturn.fits_serialize base64 _), ?_⟩
      rw [copied]
      constructor
      · exact exists_memory text (MessageInput.fits_serialize base64 input')
      · intro request' read
        exact ⟨_, onMessage_ok (readRequest_ok encoding read) opened,
          readReply_serializeAndAllocate text encoding _⟩
  · intro request
    exact ⟨onMessage_reports text encoding debug request .encrypt,
      onMessage_reports text encoding debug request .decrypt⟩

theorem messages_exchanged_sample :
    let debug : DebugText := ⟨fun _ => "", fun _ => "", fun _ => ""⟩
    let m : Message := ⟨[⟨[7], [8, 0xff], .file⟩, ⟨[], [9], .rawData⟩]⟩
    let nonce : SalsaNonce := List.Vector.replicate nonceSize 5
    let a : SecretKey := ⟨List.Vector.replicate keySize 3⟩
    let b : SecretKey := ⟨List.Vector.replicate keySize 6⟩
    ∃ request reply field request' reply',
      encryptMessage Base64.standard clearBox debug compactText request = .ok reply ∧
      compactText.read (ptrToBytes reply) =
        .ok (.object [("message", field), ("error", .string "")]) ∧
      compactText.read (ptrToBytes request') =
        .ok (messageRequest field (serializeArray nonce) (keyField (clearBox.publicKey a).bytes)
          (keyField b.bytes)) ∧
      decryptMessage Base64.standard clearBox debug compactText request' = .ok reply' ∧
      readReply Base64.standard compactText reply' = .ok { message := m, error := "" } := by
  intro debug m nonce a b
  have exchanged := messages_exchanged clearBox_lawful clearBox_sealsAll compactText_lawful
    Base64.standard_lawful debug
  obtain ⟨⟨request, parsed⟩, replies⟩ := exchanged.1 m nonce a b
  obtain ⟨reply, field, sealed, shown, ⟨request', copied⟩, opens⟩ := replies request parsed
  obtain ⟨reply', opened, same⟩ := opens request' copied
  exact ⟨request, reply, field, request', reply', sealed, shown, copied, opened, same⟩

end Ffi
end Nolik
