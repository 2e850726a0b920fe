import Nolik.Delivery
import Nolik.FfiMemory
import Nolik.JsSession
import Nolik.Verify

/-! The library is used from Rust, through the types of the chain client, through JavaScript
values and through documents over the FFI. A client is what comes of its calls for its user, so
that every client compares with the library, and several of them can share a message. -/
namespace Nolik
open ByteString Effects Js JsonText Sealing Serde

variable {K : Type}

inductive Client where
  | library
  | chain
  | javaScript
  | ffi
  deriving DecidableEq

def errorText : JsValue → String
  | .error text => text
  | _ => ""

/-- The host writes a document, calls the function and reads the reply. -/
def exchange {R : Type} (format : TextFormat) (request : Json)
    (function : Bytes → Outcome Empty Bytes) (read : Bytes → Except String R) :
    Outcome String R := do
  let text ← .ofExcept (format.toText request)
  let reply ← (function (Ffi.allocateString text)).mapErr Empty.elim
  .ofExcept (read reply)

namespace Client
variable (crates : Ffi.Crates K)

/-- New metadata and its secret nonce, for the arguments and the draws of a draft. -/
def create : Client → Draft → Outcome String (MessageMetadata × SalsaNonce)
  | library, d => .ofExcept ((d.newEncrypted crates.cb crates.blake2s).result.mapError
      (CypherError.display crates.debug))
  | chain, d => do
      let (metadata, secretNonce) ← .ofExcept ((PolkadotMessageMetadata.newEncrypted crates.cb
        crates.blake2s d.origin d.publicNonce d.senderPk d.recipients d.message d.secretNonce
        d.brokerSk).result.mapError (CypherError.display crates.debug))
      pure (metadata.decoded, secretNonce)
  | javaScript, d => Outcome.mapErr errorText do
      let message ← .ofExcept (messageToJs d.message)
      let map ← newEncryptedMetadata crates.cb crates.debug crates.blake2s d.origin.asBytes
        d.publicNonce.toList d.senderPk.asBytes (d.recipients.map fun pk => .uint8Array pk.asBytes)
        message d.secretNonce d.brokerSk
      let metadata ← .ofExcept (jsMapToMetadata map)
      let secretNonce ← .ofExcept (map.get "secret_nonce").toUint8Array
      let secretNonce ← SalsaNonce.fromSlice secretNonce
      pure (metadata, secretNonce)
  | ffi, d => do
      let ret ← exchange crates.format
        ((MetadataEncryptParams.layout crates.base64).serialize d.params)
        (Ffi.newEncryptedMetadata crates.base64 crates.cb crates.debug crates.format crates.blake2s
          d.secretNonce d.brokerSk)
        (Ffi.readEncryptReturn crates.format)
      if ret.error ≠ "" then .err ret.error
      pure (ret.metadata, ret.secretNonce)

/-- The metadata with the channels that the secret key opens. -/
def openMetadata : Client → MessageMetadata → SecretKey → Outcome String MessageMetadata
  | library, metadata, sk =>
      (metadata.decrypt crates.cb sk).mapErr (CypherError.display crates.debug)
  | chain, metadata, sk => do
      let opened ← ((PolkadotMessageMetadata.fromMetadata metadata).decrypt crates.cb sk).mapErr
        (CypherError.display crates.debug)
      pure opened.decoded
  | javaScript, metadata, sk => Outcome.mapErr errorText do
      let map ← decryptMetadata crates.cb crates.debug (metadataToJsMap metadata) sk.bytes.toList
      .ofExcept (jsMapToMetadata map)
  | ffi, metadata, sk => do
      let params : MetadataDecryptParams := ⟨metadata, sk.bytes⟩
      let ret ← exchange crates.format (MetadataDecryptParams.layout.serialize params)
        (Ffi.decryptMetadata crates.cb crates.debug crates.format)
        (Ffi.readDecryptReturn crates.format)
      if ret.error ≠ "" then .err ret.error
      pure ret.metadata

/-- An encrypted or a decrypted message. The chain client uses the library for it. -/
def perform : Client → MessageAction → Message → SalsaNonce → PublicKey → SecretKey →
    Outcome String Message
  | library, action, m, nonce, pk, sk
  | chain, action, m, nonce, pk, sk =>
      .ofExcept ((action.perform crates.cb ⟨m, nonce, pk.bytes, sk.bytes⟩).mapError
        (CypherError.display crates.debug))
  | javaScript, action, m, nonce, pk, sk => Outcome.mapErr errorText do
      let message ← .ofExcept (messageToJs m)
      let map ← onMessage crates.cb crates.debug message nonce.toList pk.asBytes sk.bytes.toList
        action
      .ofExcept (messageFromJs map)
  | ffi, action, m, nonce, pk, sk => do
      let input : MessageInput := ⟨m, nonce, pk.bytes, sk.bytes⟩
      let ret ← exchange crates.format ((MessageInput.layout crates.base64).serialize input)
        (fun request => Ffi.onMessage crates.base64 crates.cb crates.debug crates.format request
          action)
        (Ffi.readReply crates.base64 crates.format)
      if ret.error ≠ "" then .err ret.error
      pure ret.message

/-- What a message is after it went through a client. JavaScript has no kinds. -/
def keeps : Client → Message → Message
  | javaScript, m => m.relabel .rawData
  | _, m => m

end Client

section Kinds
variable {cb : CryptoBox K} {nonce : SalsaNonce} {pk : PublicKey} {sk : SecretKey}
  (kind : MessageType)

theorem MessageEntry.encrypt_kind (x : MessageEntry) :
    Cypher.encrypt cb { x with kind } nonce pk sk =
      (fun e : MessageEntry => { e with kind }) <$> Cypher.encrypt cb x nonce pk sk := by
  simp only [Cypher.encrypt, map_bind, pure_bind, map_pure]

theorem MessageEntry.decrypt_kind (e : MessageEntry) :
    Cypher.decrypt cb { e with kind } nonce pk sk =
      (fun x : MessageEntry => { x with kind }) <$> Cypher.decrypt cb e nonce pk sk := by
  simp only [Cypher.decrypt, map_bind, pure_bind, map_pure]

theorem Message.encrypt_relabel (m : Message) :
    Cypher.encrypt cb (m.relabel kind) nonce pk sk =
      relabel kind <$> Cypher.encrypt cb m nonce pk sk := by
  have entries : Cypher.encrypt cb (m.relabel kind).entries nonce pk sk =
      List.map (fun e => { e with kind }) <$> Cypher.encrypt cb m.entries nonce pk sk :=
    mapM_map_of_comm (MessageEntry.encrypt_kind kind) m.entries
  change (Cypher.encrypt cb (m.relabel kind).entries nonce pk sk >>= fun es => pure ⟨es⟩) =
    relabel kind <$> (Cypher.encrypt cb m.entries nonce pk sk >>= fun es => pure ⟨es⟩)
  rw [entries]
  simp only [bind_map_left, map_bind, map_pure]
  rfl

theorem Message.decrypt_relabel_map (e : Message) :
    Cypher.decrypt cb (e.relabel kind) nonce pk sk =
      relabel kind <$> Cypher.decrypt cb e nonce pk sk := by
  have entries : Cypher.decrypt cb (e.relabel kind).entries nonce pk sk =
      List.map (fun x => { x with kind }) <$> Cypher.decrypt cb e.entries nonce pk sk :=
    mapM_map_of_comm (MessageEntry.decrypt_kind kind) e.entries
  change (Cypher.decrypt cb (e.relabel kind).entries nonce pk sk >>= fun xs => pure ⟨xs⟩) =
    relabel kind <$> (Cypher.decrypt cb e.entries nonce pk sk >>= fun xs => pure ⟨xs⟩)
  rw [entries]
  simp only [bind_map_left, map_bind, map_pure]
  rfl

theorem Message.relabel_relabel (m : Message) :
    (m.relabel kind).relabel kind = m.relabel kind := by
  simp only [relabel, List.map_map]
  rfl

end Kinds

section Exchange
variable {format : TextFormat}

/-- The function gets a memory that reads as the document. -/
theorem exchange_written (text : format.Lawful) {request : Json} (fits : request.Fits depthLimit) :
    ∃ memory, format.read (Ffi.ptrToBytes memory) = .ok request ∧
      ∀ {R : Type} (function : Bytes → Outcome Empty Bytes) (read : Bytes → Except String R),
        exchange format request function read =
          (do let reply ← (function memory).mapErr Empty.elim
              .ofExcept (read reply)) := by
  obtain ⟨s, written, read, whole⟩ := text.read_toText fits
  refine ⟨Ffi.allocateString s, ?_, fun function read => ?_⟩
  · rw [Ffi.ptrToBytes_allocateString whole, read]
  · simp only [exchange, written, Outcome.ofExcept_ok, Outcome.ok_bind]

end Exchange

namespace Client
variable {crates : Ffi.Crates K}

/-- The hash leaves the kinds out, and so does all of the metadata. -/
theorem newEncrypted_relabel {cb : CryptoBox K} {blake2s : Bytes → ByteArr keySize} (d : Draft)
    (kind : MessageType) :
    (({ d with message := d.message.relabel kind } : Draft).newEncrypted cb blake2s).result =
      (d.newEncrypted cb blake2s).result := by
  have root := @Draft.rootHash_relabel K cb blake2s d kind d.message
  rw [Draft.newEncrypted_result, Draft.newEncrypted_result, ← root]
  rfl

theorem create_chain (d : Draft) : chain.create crates d = library.create crates d := by
  have wrapped : (PolkadotMessageMetadata.newEncrypted crates.cb crates.blake2s d.origin
      d.publicNonce d.senderPk d.recipients d.message d.secretNonce d.brokerSk).result =
        (d.newEncrypted crates.cb crates.blake2s).result >>= fun returned =>
          .ok (PolkadotMessageMetadata.fromMetadata returned.1, returned.2) :=
    Traced.result_bind ..
  simp only [create, wrapped]
  cases (d.newEncrypted crates.cb crates.blake2s).result with
  | error e => rfl
  | ok returned =>
      simp only [bind, Except.bind, Except.mapError, Outcome.ofExcept,
        PolkadotMessageMetadata.decoded_fromMetadata]
      rfl

theorem create_javaScript (d : Draft) :
    javaScript.create crates d = library.create crates d := by
  obtain ⟨message, written⟩ : ∃ message, messageToJs d.message = .ok message := ⟨_, rfl⟩
  have core := @newEncrypted_relabel K crates.cb crates.blake2s d .rawData
  simp only [create, written, Outcome.ofExcept_ok, Outcome.ok_bind,
    Wasm.newEncryptedMetadata_draft, messageFromJs_messageToJs written, core]
  cases (d.newEncrypted crates.cb crates.blake2s).result with
  | error e => rfl
  | ok result =>
      obtain ⟨metadata, secretNonce⟩ := result
      simp only [Except.mapError, Outcome.ofExcept_ok, Outcome.ok_bind, Outcome.pure_eq,
        jsMapToMetadata_secret_nonce, JsMap.get_set_self, JsValue.toUint8Array,
        SalsaNonce.fromSlice_toList, Outcome.mapErr]

theorem create_ffi (text : crates.format.Lawful) (encoding : crates.base64.Lawful) (d : Draft) :
    ffi.create crates d = library.create crates d := by
  obtain ⟨memory, read, exchanged⟩ :=
    exchange_written text (MetadataEncryptParams.fits_serialize crates.base64 d.params)
  have parsed : Ffi.readEncryptParams crates.base64 crates.format memory = .ok d.params :=
    TextFormat.fromSlice_ok read (MetadataEncryptParams.deserialize_serialize encoding d.params)
  simp only [create, exchanged, Ffi.newEncryptedMetadata_parsed parsed, d.draft_params]
  cases (d.newEncrypted crates.cb crates.blake2s).result with
  | error e =>
      have said := CypherError.display_ne_empty crates.debug e
      simp only [Outcome.mapErr, Outcome.ok_bind, Ffi.readEncryptReturn_serializeAndAllocate text,
        Outcome.ofExcept_ok, Ffi.MetadataEncryptReturn.struct, ne_eq, said, not_false_eq_true,
        if_true, Outcome.err_bind]
      rfl
  | ok returned =>
      simp only [Outcome.mapErr, Outcome.ok_bind, Ffi.readEncryptReturn_serializeAndAllocate text,
        Outcome.ofExcept_ok, ne_eq, not_true_eq_false, if_false]
      rfl

theorem openMetadata_chain (metadata : MessageMetadata) (sk : SecretKey) :
    chain.openMetadata crates metadata sk = library.openMetadata crates metadata sk := by
  simp only [openMetadata, PolkadotMessageMetadata.decrypt_fromMetadata]
  cases metadata.decrypt crates.cb sk with
  | err e => rfl
  | panic => rfl
  | ok opened => exact congrArg Outcome.ok (PolkadotMessageMetadata.decoded_fromMetadata opened)

theorem openMetadata_javaScript (metadata : MessageMetadata) (sk : SecretKey) :
    javaScript.openMetadata crates metadata sk = library.openMetadata crates metadata sk := by
  have read : ∀ opened, jsMapToMetadata (metadataToJsMap opened) = .ok opened :=
    fun opened => jsMapToMetadata_of_agrees fun key _ => rfl
  simp only [openMetadata, decryptMetadata_metadataToJsMap]
  cases metadata.decrypt crates.cb sk with
  | err e => rfl
  | panic => rfl
  | ok opened => simp only [Outcome.mapErr, Outcome.map_ok, Outcome.ok_bind, read,
      Outcome.ofExcept_ok]

theorem openMetadata_ffi (text : crates.format.Lawful) (metadata : MessageMetadata)
    (sk : SecretKey) :
    ffi.openMetadata crates metadata sk = library.openMetadata crates metadata sk := by
  let params : MetadataDecryptParams := ⟨metadata, sk.bytes⟩
  obtain ⟨memory, read, exchanged⟩ :=
    exchange_written text (MetadataDecryptParams.fits_serialize params)
  have parsed : Ffi.readDecryptParams crates.format memory = .ok params :=
    TextFormat.fromSlice_ok read (MetadataDecryptParams.deserialize_serialize params)
  have core : params.metadata.decrypt crates.cb ⟨params.receiverSk⟩ =
    metadata.decrypt crates.cb sk := rfl
  simp only [openMetadata]
  rw [exchanged, Ffi.decryptMetadata_parsed parsed, core]
  cases metadata.decrypt crates.cb sk with
  | panic => rfl
  | err e =>
      have said := CypherError.display_ne_empty crates.debug e
      simp only [Outcome.mapErr, Outcome.ok_bind, Ffi.readDecryptReturn_serializeAndAllocate text,
        Outcome.ofExcept_ok, Ffi.MetadataDecryptReturn.struct, ne_eq, said, not_false_eq_true,
        if_true, Outcome.err_bind]
  | ok opened =>
      simp only [Outcome.mapErr, Outcome.ok_bind, Ffi.readDecryptReturn_serializeAndAllocate text,
        Outcome.ofExcept_ok, ne_eq, not_true_eq_false, if_false]
      rfl

theorem perform_relabel {cb : CryptoBox K} (kind : MessageType) (action : MessageAction)
    (m : Message) (nonce : SalsaNonce) (pk sk : ByteArr keySize) :
    action.perform cb ⟨m.relabel kind, nonce, pk, sk⟩ =
      Message.relabel kind <$> action.perform cb ⟨m, nonce, pk, sk⟩ := by
  cases action with
  | decrypt => exact Message.decrypt_relabel_map kind m
  | encrypt =>
      simp only [MessageAction.perform, Message.encrypt_relabel]
      rw [map_eq_pure_bind, Traced.result_bind]
      cases (Cypher.encrypt cb m nonce ⟨pk⟩ ⟨sk⟩).result with
      | error e => rfl
      | ok e => rfl

theorem perform_library {action : MessageAction} {m performed : Message} {nonce : SalsaNonce}
    {pk : PublicKey} {sk : SecretKey}
    (done : action.perform crates.cb ⟨m, nonce, pk.bytes, sk.bytes⟩ = .ok performed) :
    library.perform crates action m nonce pk sk = .ok performed := by
  rw [perform, done]
  rfl

theorem perform_javaScript (action : MessageAction) (m : Message) (nonce : SalsaNonce)
    (pk : PublicKey) (sk : SecretKey) :
    javaScript.perform crates action m nonce pk sk =
      Message.relabel .rawData <$> library.perform crates action m nonce pk sk := by
  obtain ⟨message, written⟩ : ∃ message, messageToJs m = .ok message := ⟨_, rfl⟩
  have ran : onMessage crates.cb crates.debug message nonce.toList pk.asBytes sk.bytes.toList
      action = (do
        let m ← .ofExcept ((action.perform crates.cb ⟨m.relabel .rawData, nonce, pk.bytes,
          sk.bytes⟩).mapError (CypherError.toJs crates.debug))
        .ofExcept (messageToJs m)) := by
    simp only [onMessage, messageFromJs_messageToJs written, Outcome.ofExcept_ok, Outcome.ok_bind,
      SalsaNonce.fromSlice_toList, PublicKey.asBytes, jsValueToArray_toList]
    cases action with
    | encrypt => rfl
    | decrypt => rfl
  simp only [perform, written, Outcome.ofExcept_ok, Outcome.ok_bind, ran, perform_relabel]
  cases action.perform crates.cb ⟨m, nonce, pk.bytes, sk.bytes⟩ with
  | error e => rfl
  | ok performed =>
      have back : messageFromJs (JsMap.new.set "entries"
          (.array ((performed.relabel .rawData).entries.map entryToJs))) =
            .ok (performed.relabel .rawData) := by
        rw [messageFromJs_messageToJs rfl, Message.relabel_relabel]
      simp only [Functor.map, Except.map, Except.mapError, Outcome.ofExcept_ok, messageToJs]
      change Outcome.mapErr errorText (.ofExcept (messageFromJs _)) = _
      rw [back]
      rfl

theorem perform_ffi (text : crates.format.Lawful) (encoding : crates.base64.Lawful)
    (action : MessageAction) (m : Message) (nonce : SalsaNonce) (pk : PublicKey)
    (sk : SecretKey) :
    ffi.perform crates action m nonce pk sk = library.perform crates action m nonce pk sk := by
  let input : MessageInput := ⟨m, nonce, pk.bytes, sk.bytes⟩
  obtain ⟨memory, read, exchanged⟩ :=
    exchange_written text (MessageInput.fits_serialize crates.base64 input)
  have attempted : Ffi.attempt crates.base64 crates.cb crates.debug crates.format memory action =
      (action.perform crates.cb input).mapError (CypherError.display crates.debug) := by
    rw [Ffi.attempt, Ffi.readRequest_ok encoding read]
    rfl
  simp only [perform]
  rw [exchanged, Ffi.onMessage_eq, attempted]
  simp only [Outcome.mapErr, Outcome.ok_bind,
    Ffi.readReply_serializeAndAllocate text encoding, Outcome.ofExcept_ok]
  change _ = Outcome.ofExcept ((action.perform crates.cb input).mapError _)
  cases action.perform crates.cb input with
  | error e =>
      have said := CypherError.display_ne_empty crates.debug e
      simp only [Except.mapError, Ffi.replyOf, ne_eq, said, not_false_eq_true, if_true,
        Outcome.err_bind, Outcome.ofExcept_error]
  | ok performed =>
      simp only [Except.mapError, Ffi.replyOf, ne_eq, not_true_eq_false, if_false]
      rfl

theorem create_eq (text : crates.format.Lawful) (encoding : crates.base64.Lawful)
    (client : Client) (d : Draft) : client.create crates d = library.create crates d := by
  cases client with
  | library => rfl
  | chain => exact create_chain d
  | javaScript => exact create_javaScript d
  | ffi => exact create_ffi text encoding d

theorem openMetadata_eq (text : crates.format.Lawful) (client : Client)
    (metadata : MessageMetadata) (sk : SecretKey) :
    client.openMetadata crates metadata sk = library.openMetadata crates metadata sk := by
  cases client with
  | library => rfl
  | chain => exact openMetadata_chain metadata sk
  | javaScript => exact openMetadata_javaScript metadata sk
  | ffi => exact openMetadata_ffi text metadata sk

theorem perform_eq (text : crates.format.Lawful) (encoding : crates.base64.Lawful)
    (client : Client) (action : MessageAction) (m : Message) (nonce : SalsaNonce)
    (pk : PublicKey) (sk : SecretKey) :
    client.perform crates action m nonce pk sk =
      client.keeps <$> library.perform crates action m nonce pk sk := by
  cases client with
  | library => exact (id_map' _).symm
  | chain => exact (id_map' _).symm
  | javaScript => exact perform_javaScript action m nonce pk sk
  | ffi =>
      rw [perform_ffi text encoding]
      exact (id_map' _).symm

theorem keeps_eq (client : Client) (m : Message) :
    client.keeps m = if client = javaScript then m.relabel .rawData else m := by
  cases client <;> rfl

/-- JavaScript on either side takes the kinds of a message, and nothing else does. -/
theorem keeps_keeps_eq_iff (sealer reader : Client) (m : Message) :
    reader.keeps (sealer.keeps m) = m ↔
      (sealer ≠ javaScript ∧ reader ≠ javaScript) ∨ ∀ e ∈ m.entries, e.kind = .rawData := by
  rw [← Message.relabel_eq_self_iff, keeps_eq, keeps_eq]
  by_cases sealed : sealer = javaScript
  · have through : (if reader = javaScript then (m.relabel .rawData).relabel .rawData
        else m.relabel .rawData) = m.relabel .rawData := by
      rw [Message.relabel_relabel, ite_self]
    rw [if_pos sealed, through]
    exact ⟨.inr, fun either => either.elim (fun plain => absurd sealed plain.1) id⟩
  · rw [if_neg sealed]
    by_cases opened : reader = javaScript
    · rw [if_pos opened]
      exact ⟨.inr, fun either => either.elim (fun plain => absurd opened plain.2) id⟩
    · rw [if_neg opened]
      exact ⟨fun _ => .inl ⟨sealed, opened⟩, fun _ => rfl⟩

theorem fields_keeps (client : Client) (m : Message) : (client.keeps m).fields = m.fields := by
  rw [keeps_eq]
  split
  · simp only [Message.fields, Message.relabel, List.map_map]
    rfl
  · rfl

/-- The hash is the same for what a client keeps. -/
theorem recompute_keeps {cb : CryptoBox K} {blake2s : Bytes → ByteArr keySize} {d : Draft}
    {metadata : MessageMetadata} {secretNonce : SalsaNonce}
    (yields : d.Yields cb blake2s metadata secretNonce) (client : Client) (m : Message) :
    metadata.recompute blake2s d.origin ⟨d.secretNonce, d.senderPk, d.recipients⟩
        (client.keeps m) =
      metadata.recompute blake2s d.origin ⟨d.secretNonce, d.senderPk, d.recipients⟩ m := by
  rw [keeps_eq]
  split
  · rw [MessageMetadata.recompute, MessageMetadata.recompute, yields.nonce, yields.broker]
    exact congrArg Logged.value (d.rootHash_relabel .rawData m)
  · rfl

theorem perform_keeps (client : Client) (action : MessageAction) (m : Message)
    (nonce : SalsaNonce) (pk : PublicKey) (sk : SecretKey) :
    library.perform crates action (client.keeps m) nonce pk sk =
      client.keeps <$> library.perform crates action m nonce pk sk := by
  cases client with
  | library => exact (id_map' _).symm
  | chain => exact (id_map' _).symm
  | ffi => exact (id_map' _).symm
  | javaScript =>
      simp only [perform, keeps, perform_relabel]
      cases action.perform crates.cb ⟨m, nonce, pk.bytes, sk.bytes⟩ with
      | error e => rfl
      | ok performed => rfl

end Client

/-- Whatever the arguments, a client gives what the library gives, its errors and aborts
included. Only the kinds of a message do not come through JavaScript. -/
theorem clients_simulate {crates : Ffi.Crates K} (text : crates.format.Lawful)
    (encoding : crates.base64.Lawful) (client : Client) :
    (∀ d, client.create crates d = Client.library.create crates d) ∧
    (∀ metadata sk, client.openMetadata crates metadata sk =
      Client.library.openMetadata crates metadata sk) ∧
    ∀ action m nonce pk sk, client.perform crates action m nonce pk sk =
      client.keeps <$> Client.library.perform crates action m nonce pk sk :=
  ⟨client.create_eq text encoding, client.openMetadata_eq text, client.perform_eq text encoding⟩

theorem clients_simulate_sample :
    let nonce : SalsaNonce := List.Vector.replicate nonceSize 5
    let receiver : PublicKey := ⟨List.Vector.replicate keySize 6⟩
    let sender : SecretKey := ⟨List.Vector.replicate keySize 3⟩
    let boxed (byte : UInt8) : Bytes := List.replicate 32 9 ++ List.replicate 24 5 ++ [byte]
    Client.javaScript.perform Ffi.Crates.sample .encrypt ⟨[⟨[7], [8], .file⟩]⟩ nonce receiver
      sender = .ok ⟨[⟨boxed 7, boxed 8, .rawData⟩]⟩ := by
  intro nonce receiver sender boxed
  obtain ⟨-, -, performs⟩ := @clients_simulate _ Ffi.Crates.sample compactText_lawful
    Base64.standard_lawful .javaScript
  rw [performs]
  decide +kernel

/-- One client makes the metadata and one encrypts the message; another one opens the metadata
of the event and yet another decrypts what it finds off chain. Any four do: the recipient
gets all keys and values, and verifies them, after any later calls. The kinds come along
unless JavaScript encrypts or decrypts. -/
theorem clients_interchange {AccountId : Type} {crates : Ffi.Crates K}
    (lawful : crates.cb.Lawful) (seals : crates.cb.SealsAll) (filled : crates.cb.SealsNonempty)
    (text : crates.format.Lawful) (encoding : crates.base64.Lawful)
    (author sealer opener reader : Client) {d : Draft} {senderSk receiverSk : SecretKey}
    (separates : d.Separates crates.cb receiverSk)
    (sender : crates.cb.publicKey senderSk = d.senderPk)
    (recipient : crates.cb.publicKey receiverSk ∈ d.recipients) (encode : AccountId → Bytes)
    (account : AccountId) {env : Externalities}
    (room : env.chain.messageCounter.toNat < 2 ^ 128 - 1) :
    ∃ metadata stored, author.create crates d = .ok (metadata, d.secretNonce) ∧
      sealer.perform crates .encrypt d.message d.secretNonce (crates.cb.publicKey receiverSk)
        senderSk = .ok stored ∧
      ∀ blob, stored.encode = some blob → ∀ later,
        let after := stateAfter encode (⟨.signed account, metadata, blob⟩ :: later) env
        ∃ key opened channel rest envelope fetched found,
          .messageSent key metadata ∈ after.chain.events ∧
          after.offchain key = some blob ∧
          opener.openMetadata crates metadata receiverSk = .ok opened ∧
          opened.channels = channel :: rest ∧ channel.envelope = some envelope ∧
          Message.decode blob = some (fetched, []) ∧
          reader.perform crates .decrypt fetched envelope.secretNonce envelope.senderPk
            receiverSk = .ok found ∧
          metadata.recompute crates.blake2s d.origin envelope found = metadata.hash ∧
          found.fields = d.message.fields ∧
          (found = d.message ↔ (sealer ≠ .javaScript ∧ reader ≠ .javaScript) ∨
            ∀ e ∈ d.message.entries, e.kind = .rawData) := by
  obtain ⟨metadata, returned⟩ := d.newEncrypted_total seals crates.blake2s
  have yields := Draft.yields_of_ok returned
  obtain ⟨e, sealed⟩ := Message.encrypt_total seals d.message d.secretNonce
    (crates.cb.publicKey receiverSk) senderSk
  have created : Client.library.create crates d = .ok (metadata, d.secretNonce) := by
    rw [Client.create, returned]
    rfl
  have performed : Client.library.perform crates .encrypt d.message d.secretNonce
      (crates.cb.publicKey receiverSk) senderSk = .ok e := Client.perform_library sealed
  have read : Client.library.perform crates .decrypt e d.secretNonce d.senderPk receiverSk =
      .ok d.message := Client.perform_library (Draft.recipient_reads lawful sender sealed)
  refine ⟨metadata, sealer.keeps e, (author.create_eq text encoding d).trans created, ?_, ?_⟩
  · rw [sealer.perform_eq text encoding, performed, Outcome.map_ok]
  · intro blob encoded later after
    have checked : checkMessage blob metadata = .ok () :=
      Draft.checkMessage_yields filled yields (Message.encode_ne_nil encoded)
    have admitted : admission env.chain.messageCounter.toNat
        (⟨.signed account, metadata, blob⟩ : Call AccountId) =
          some ⟨account, BitVec.ofNat 128 env.chain.messageCounter.toNat, metadata, blob⟩ :=
      admission_eq_some_iff.mpr ⟨by omega, checked, rfl, rfl, rfl, rfl⟩
    obtain ⟨opened, rest, decrypted, shown⟩ :=
      Draft.party_opens_first lawful separates yields (List.mem_cons_of_mem _ recipient)
    have opens : opener.openMetadata crates metadata receiverSk = .ok opened := by
      rw [opener.openMetadata_eq text, Client.openMetadata, decrypted]
      rfl
    have reads : reader.perform crates .decrypt (sealer.keeps e) d.secretNonce d.senderPk
        receiverSk = .ok (reader.keeps (sealer.keeps d.message)) := by
      rw [reader.perform_eq text encoding, sealer.perform_keeps, read, Outcome.map_ok,
        Outcome.map_ok]
    refine ⟨_, opened, _, rest, _, _, _, event_kept encode admitted later,
      offchain_kept encode admitted later, opens, shown, d.envelope_openedChannel,
      Message.decode_encode encoded, reads, ?_, ?_, sealer.keeps_keeps_eq_iff reader d.message⟩
    · rw [Client.recompute_keeps yields, Client.recompute_keeps yields,
        Draft.recompute_yields yields]
    · rw [reader.fields_keeps, sealer.fields_keeps]

/-- The metadata comes from an FFI host and a file through JavaScript, the recipient reads with
the library. It gets the bytes of the file, as raw data. -/
theorem clients_interchange_sample :
    let d := Draft.sample 3 [9, 6] ⟨[⟨[7], [8], .file⟩]⟩
    let account : ByteArr keySize := List.Vector.replicate keySize 1
    let senderSk : SecretKey := ⟨List.Vector.replicate keySize 3⟩
    let receiverSk : SecretKey := ⟨List.Vector.replicate keySize 6⟩
    ∃ metadata stored blob, Client.ffi.create Ffi.Crates.sample d = .ok (metadata, d.secretNonce) ∧
      Client.javaScript.perform Ffi.Crates.sample .encrypt d.message d.secretNonce
        (clearBox.publicKey receiverSk) senderSk = .ok stored ∧
      stored.encode = some blob ∧ ∀ later, ∃ key envelope fetched found,
        (stateAfter List.Vector.toList (⟨.signed account, metadata, blob⟩ :: later)
          .genesis).offchain key = some blob ∧
        Message.decode blob = some (fetched, []) ∧
        Client.library.perform Ffi.Crates.sample .decrypt fetched (Envelope.secretNonce envelope)
          envelope.senderPk receiverSk = .ok found ∧
        found.fields = d.message.fields ∧ found ≠ d.message := by
  intro d account senderSk receiverSk
  obtain ⟨metadata, stored, created, sealed, exchanged⟩ :=
    @clients_interchange _ _ Ffi.Crates.sample clearBox_lawful clearBox_sealsAll
      clearBox_sealsNonempty compactText_lawful Base64.standard_lawful .ffi .javaScript .chain
      .library d senderSk receiverSk (Draft.separates_of_keyBound clearBox_keyBound d receiverSk)
      rfl (by decide) List.Vector.toList account .genesis (by decide)
  have boxed : Client.javaScript.perform Ffi.Crates.sample .encrypt d.message d.secretNonce
      (clearBox.publicKey receiverSk) senderSk =
        .ok ⟨[⟨List.replicate 32 9 ++ List.replicate 24 5 ++ [7],
          List.replicate 32 9 ++ List.replicate 24 5 ++ [8], .rawData⟩]⟩ := by
    decide +kernel
  cases Outcome.ok.inj (boxed.symm.trans sealed)
  refine ⟨metadata, _, _, created, sealed, rfl, fun later => ?_⟩
  obtain ⟨key, -, -, -, envelope, fetched, found, -, kept, -, -, -, decoded, read, -, fields,
    same⟩ := exchanged _ rfl later
  refine ⟨key, envelope, fetched, found, kept, decoded, read, fields, fun whole => ?_⟩
  rcases same.mp whole with ⟨plain, -⟩ | raw
  · exact plain rfl
  · exact absurd (raw _ List.mem_cons_self) (by decide)

end Nolik
