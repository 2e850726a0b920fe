import Nolik.FrontEnds
import Nolik.JsArguments
import Nolik.JsMessages
import Nolik.Parties

/-! What the test page of the wasm package does, with any number of recipients. Keys and nonces
are drawn by the package, the message is a map of the page. -/
namespace Nolik
open ByteString Effects Js

variable {K : Type}

namespace Wasm

structure KeyPair where
  secretKey : SecretKey

/-- The getter `public`. -/
def KeyPair.publicArray (cb : CryptoBox K) (self : KeyPair) : Bytes :=
  (cb.publicKey self.secretKey).asBytes

/-- The getter `secret`. -/
def KeyPair.secretArray (self : KeyPair) : Bytes := self.secretKey.bytes.toList

def generateNonce (nonce : SalsaNonce) : Bytes := nonce.toList

/-- `decrypted_metadata.get('channels')[0]`. -/
def firstChannel (metadata : JsMap) : Except JsValue JsMap := do
  match ← (metadata.get "channels").toArray with
  | channel :: _ => channel.toMap
  | [] => JsValue.undefined.toMap

structure Setup where
  nonce : SalsaNonce
  sender : KeyPair
  recipients : List KeyPair
  signer : KeyPair
  secretNonce : SalsaNonce
  brokerSk : SecretKey

/-- The message that `receiver` ends up with, and whether the two secret nonces are the same. -/
def session (cb : CryptoBox K) (debug : DebugText) (blake2s : Bytes → ByteArr keySize)
    (setup : Setup) (receiver : KeyPair) (message : JsMap) : Outcome JsValue (JsMap × Bool) := do
  let nonce := generateNonce setup.nonce
  let sender := setup.sender
  let recipients := setup.recipients.map fun r => JsValue.uint8Array (r.publicArray cb)
  let encryptedMetadata ← newEncryptedMetadata cb debug blake2s (setup.signer.publicArray cb) nonce
    (sender.publicArray cb) recipients message setup.secretNonce setup.brokerSk
  let secretNonce ← .ofExcept (encryptedMetadata.get "secret_nonce").toUint8Array
  let encryptedMessage ← encryptMessage cb debug message secretNonce (receiver.publicArray cb)
    sender.secretArray
  let decryptedMetadata ← decryptMetadata cb debug encryptedMetadata receiver.secretArray
  let channel ← .ofExcept (firstChannel decryptedMetadata)
  let decryptedSecretNonce ← .ofExcept (channel.get "nonce").toUint8Array
  let same := decide (decryptedSecretNonce = secretNonce)
  let receiverMessage ← decryptMessage cb debug encryptedMessage secretNonce
    (sender.publicArray cb) receiver.secretArray
  pure (receiverMessage, same)

def Setup.draft (cb : CryptoBox K) (setup : Setup) (message : Message) : Draft where
  origin := cb.publicKey setup.signer.secretKey
  publicNonce := setup.nonce
  senderPk := cb.publicKey setup.sender.secretKey
  recipients := setup.recipients.map fun r => cb.publicKey r.secretKey
  message := message
  secretNonce := setup.secretNonce
  brokerSk := setup.brokerSk

variable {cb : CryptoBox K} {debug : DebugText} {blake2s : Bytes → ByteArr keySize}
  {setup : Setup} {receiver : KeyPair} {message : JsMap}

theorem recipients_read (recipients : List PublicKey) :
    (recipients.map fun pk => JsValue.uint8Array pk.asBytes).mapM recipientFromJs =
      .ok recipients := by
  rw [except_mapM_ok_iff, List.forall₂_map_left_iff, List.forall₂_same]
  intro pk _
  simp only [recipientFromJs, JsValue.toUint8Array, PublicKey.asBytes, bind, Except.bind,
    jsValueToArray_toList]
  rfl

/-- With keys and nonces of their sizes, the message is read and the core decides. -/
theorem newEncryptedMetadata_draft (d : Draft) :
    newEncryptedMetadata cb debug blake2s d.origin.asBytes d.publicNonce.toList d.senderPk.asBytes
        (d.recipients.map fun pk => .uint8Array pk.asBytes) message d.secretNonce d.brokerSk =
      (do let message ← .ofExcept (messageFromJs message)
          let (metadata, secretNonce) ← .ofExcept ((({ d with message } : Draft).newEncrypted cb
            blake2s).result.mapError (CypherError.toJs debug))
          pure ((metadataToJsMap metadata).set "secret_nonce"
            (.uint8Array secretNonce.toList))) := by
  rw [newEncryptedMetadata, recipients_read]
  simp only [PublicKey.asBytes, jsValueToArray_toList, SalsaNonce.fromSlice_toList,
    Outcome.ofExcept_ok, Outcome.ok_bind]
  rfl

theorem newEncryptedMetadata_session (m : Message) :
    newEncryptedMetadata cb debug blake2s (setup.signer.publicArray cb)
        (generateNonce setup.nonce) (setup.sender.publicArray cb)
        (setup.recipients.map fun r => JsValue.uint8Array (r.publicArray cb)) message
        setup.secretNonce setup.brokerSk =
      newEncryptedMetadata cb debug blake2s (setup.draft cb m).origin.asBytes
        (setup.draft cb m).publicNonce.toList (setup.draft cb m).senderPk.asBytes
        ((setup.draft cb m).recipients.map fun pk => .uint8Array pk.asBytes) message
        (setup.draft cb m).secretNonce (setup.draft cb m).brokerSk := by
  have recipients : (setup.draft cb m).recipients.map (fun pk => JsValue.uint8Array pk.asBytes) =
      setup.recipients.map fun r => JsValue.uint8Array (r.publicArray cb) := List.map_map
  rw [recipients]
  rfl

/-- The metadata of the core, with the secret nonce under a key of its own. -/
theorem newEncryptedMetadata_read {m : Message} (read : messageFromJs message = .ok m)
    {metadata : MessageMetadata} (returned : ((setup.draft cb m).newEncrypted cb blake2s).result =
      .ok (metadata, setup.secretNonce)) :
    newEncryptedMetadata cb debug blake2s (setup.signer.publicArray cb)
        (generateNonce setup.nonce) (setup.sender.publicArray cb)
        (setup.recipients.map fun r => JsValue.uint8Array (r.publicArray cb)) message
        setup.secretNonce setup.brokerSk =
      .ok ((metadataToJsMap metadata).set "secret_nonce"
        (.uint8Array setup.secretNonce.toList)) := by
  have core : (({ setup.draft cb m with message := m } : Draft).newEncrypted cb blake2s).result =
      .ok (metadata, setup.secretNonce) := returned
  rw [newEncryptedMetadata_session m, newEncryptedMetadata_draft, read]
  simp only [Outcome.ofExcept_ok, Outcome.ok_bind, core, Except.mapError, Outcome.pure_eq]

theorem newEncryptedMetadata_unread {e : JsValue} (unread : messageFromJs message = .error e) :
    newEncryptedMetadata cb debug blake2s (setup.signer.publicArray cb)
        (generateNonce setup.nonce) (setup.sender.publicArray cb)
        (setup.recipients.map fun r => JsValue.uint8Array (r.publicArray cb)) message
        setup.secretNonce setup.brokerSk = .err e := by
  rw [newEncryptedMetadata_session ⟨[]⟩, newEncryptedMetadata_draft, unread,
    Outcome.ofExcept_error, Outcome.err_bind]

theorem decryptMetadata_session {metadata opened : MessageMetadata} {value : JsValue}
    (decrypted : metadata.decrypt cb receiver.secretKey = .ok opened) :
    decryptMetadata cb debug ((metadataToJsMap metadata).set "secret_nonce" value)
      receiver.secretArray = .ok (metadataToJsMap opened) := by
  simp only [decryptMetadata, jsMapToMetadata_secret_nonce, KeyPair.secretArray,
    jsValueToArray_toList, Outcome.ofExcept_ok, Outcome.ok_bind]
  change (Outcome.mapErr _ (metadata.decrypt cb receiver.secretKey) >>= _) = _
  rw [decrypted]
  rfl

theorem firstChannel_metadataToJsMap {metadata : MessageMetadata} {channel : Channel}
    {rest : List Channel} (shown : metadata.channels = channel :: rest) :
    ∃ map, firstChannel (metadataToJsMap metadata) = .ok map ∧
      map.get "nonce" = .uint8Array channel.nonce := by
  have first : firstChannel (metadataToJsMap metadata) = (channelToJs channel).toMap := by
    simp only [firstChannel, metadataToJsMap_channels, JsValue.toArray, shown, List.map_cons, bind,
      Except.bind]
  rw [first]
  exact ⟨_, rfl, rfl⟩

theorem relabel_of_read {m : Message} (read : messageFromJs message = .ok m) :
    m.relabel .rawData = m := by
  obtain ⟨es, -, related⟩ := messageFromJs_ok_iff.mp read
  rw [Message.relabel_eq_self_iff]
  exact forall_mem_of_forall₂ related fun e entry read => (entryFromJs_ok_iff.mp read).2

theorem session_passes (lawful : cb.Lawful) (seals : cb.SealsAll)
    (recipient : receiver ∈ setup.recipients) {m : Message}
    (separates : (setup.draft cb m).Separates cb receiver.secretKey)
    (read : messageFromJs message = .ok m) :
    ∃ received, session cb debug blake2s setup receiver message = .ok (received, true) ∧
      messageFromJs received = .ok m := by
  have party : cb.publicKey receiver.secretKey ∈ (setup.draft cb m).parties :=
    List.mem_cons_of_mem _ (List.mem_map_of_mem recipient)
  obtain ⟨metadata, returned⟩ := (setup.draft cb m).newEncrypted_total seals blake2s
  obtain ⟨opened, rest, decrypted, shown⟩ :=
    Draft.party_opens_first lawful separates (Draft.yields_of_ok returned) party
  obtain ⟨map, first, nonce⟩ := firstChannel_metadataToJsMap shown
  have found : (setup.draft cb m).openedChannel.nonce = setup.secretNonce.toList := rfl
  obtain ⟨e, sealed⟩ := Message.encrypt_total seals m setup.secretNonce
    (cb.publicKey receiver.secretKey) setup.sender.secretKey
  have read' : Cypher.decrypt cb (e.relabel .rawData) setup.secretNonce
      (cb.publicKey setup.sender.secretKey) receiver.secretKey = .ok m := by
    rw [← relabel_of_read read]
    apply Message.decrypt_relabel
    exact (Message.roundTrips lawful).decrypt_encrypt (lawful.agree _ _) sealed
  obtain ⟨stored, written⟩ : ∃ stored, messageToJs e = .ok stored := ⟨_, rfl⟩
  have encrypted : encryptMessage cb debug message setup.secretNonce.toList
      (receiver.publicArray cb) setup.sender.secretArray = .ofExcept (messageToJs e) :=
    encryptMessage_ok read sealed
  have received : decryptMessage cb debug stored setup.secretNonce.toList
      (setup.sender.publicArray cb) receiver.secretArray = .ofExcept (messageToJs m) :=
    decryptMessage_ok (messageFromJs_messageToJs written) read'
  refine ⟨_, ?_, (messageFromJs_messageToJs rfl).trans (congrArg _ (relabel_of_read read))⟩
  rw [session]
  simp only [newEncryptedMetadata_read read returned, Outcome.ok_bind, JsMap.get_set_self,
    JsValue.toUint8Array, Outcome.ofExcept_ok, decryptMetadata_session decrypted, first, nonce,
    found, decide_true, Outcome.pure_eq, encrypted, written, received]
  rfl

/-- A session goes through exactly for a map that is a message. The receiver's nonce is then
the sender's, and its message has the same entries. -/
theorem session_iff (lawful : cb.Lawful) (seals : cb.SealsAll) (debug : DebugText)
    (blake2s : Bytes → ByteArr keySize) (setup : Setup) {receiver : KeyPair}
    (recipient : receiver ∈ setup.recipients)
    (separates : ∀ m, (setup.draft cb m).Separates cb receiver.secretKey) (message : JsMap) :
    (∀ m, messageFromJs message = .ok m → ∃ received,
      session cb debug blake2s setup receiver message = .ok (received, true) ∧
      messageFromJs received = .ok m) ∧
    ((∃ e, session cb debug blake2s setup receiver message = .err e) ↔
      ¬ MessageShaped message) := by
  refine ⟨fun m => session_passes lawful seals recipient (separates m), ?_, ?_⟩
  · rintro ⟨e, thrown⟩ shaped
    obtain ⟨m, read⟩ := messageFromJs_total_iff.mpr shaped
    obtain ⟨received, passed, -⟩ := @session_passes K cb debug blake2s setup receiver message
      lawful seals recipient m (separates m) read
    rw [passed] at thrown
    cases thrown
  · intro unshaped
    cases read : messageFromJs message with
    | ok m => exact absurd (messageFromJs_total_iff.mp ⟨m, read⟩) unshaped
    | error e =>
        refine ⟨e, ?_⟩
        rw [session]
        simp only [newEncryptedMetadata_unread read, Outcome.err_bind]

theorem session_iff_sample :
    let debug : DebugText := ⟨fun _ => "", fun _ => "", fun _ => ""⟩
    let key (byte : UInt8) : KeyPair := ⟨⟨List.Vector.replicate keySize byte⟩⟩
    let setup : Setup := {
      nonce := List.Vector.replicate nonceSize 2
      sender := key 3
      recipients := [key 9, key 6]
      signer := key 1
      secretNonce := List.Vector.replicate nonceSize 5
      brokerSk := ⟨List.Vector.replicate keySize 4⟩ }
    let m : Message := ⟨[⟨[7], [8, 0xff], .rawData⟩]⟩
    ∃ message received, messageFromJs message = .ok m ∧
      session clearBox debug numeralDigest setup (key 6) message = .ok (received, true) ∧
      messageFromJs received = .ok m := by
  intro debug key setup m
  obtain ⟨message, written⟩ : ∃ message, messageToJs m = .ok message := ⟨_, rfl⟩
  have read : messageFromJs message = .ok m := messageFromJs_messageToJs written
  have recipient : key 6 ∈ setup.recipients := List.mem_cons_of_mem _ List.mem_cons_self
  have passes := (session_iff clearBox_lawful clearBox_sealsAll debug numeralDigest setup recipient
    (fun m => Draft.separates_of_keyBound clearBox_keyBound _ _) message).1
  obtain ⟨received, passed, same⟩ := passes m read
  exact ⟨message, received, read, passed, same⟩

end Wasm
end Nolik
