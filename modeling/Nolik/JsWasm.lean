import Nolik.Library.Js
import Nolik.Metadata

/-! The functions exported to JavaScript and the conversions behind them. An exported function
returns, throws a value or traps. -/
namespace Nolik
open ByteString Effects Js

variable {K : Type}

def jsValueToArray (n : Nat) (value : JsValue) : Except JsValue (ByteArr n) := do
  let value ← value.toUint8Array
  match tryInto n value with
  | some value => pure value
  | none => throw (.error ("wrong size of array " ++ toString n))

def channelToJs (ch : Channel) : JsValue :=
  let channel := JsMap.new
  let channel := channel.set "nonce" (.uint8Array ch.nonce)
  let channel := channel.set "parties" (.array (ch.parties.map .uint8Array))
  .map channel

def metadataToJsMap (metadata : MessageMetadata) : JsMap :=
  let map := JsMap.new
  let map := map.set "nonce" (.uint8Array metadata.nonce.toList)
  let map := map.set "broker" (.uint8Array metadata.broker.toList)
  let map := map.set "hash" (.uint8Array metadata.hash.toList)
  map.set "channels" (.array (metadata.channels.map channelToJs))

def channelFromJs (ch : JsValue) : Except JsValue Channel := do
  let ch ← ch.toMap
  let nonce ← (ch.get "nonce").toUint8Array
  let parts ← (ch.get "parties").toArray
  let parties ← parts.mapM JsValue.toUint8Array
  pure { nonce, parties }

def jsMapToMetadata (map : JsMap) : Except JsValue MessageMetadata := do
  let chans ← (map.get "channels").toArray
  let channels ← chans.mapM channelFromJs
  let nonce ← jsValueToArray nonceSize (map.get "nonce")
  let broker ← jsValueToArray keySize (map.get "broker")
  let hash ← jsValueToArray keySize (map.get "hash")
  pure { nonce, broker, hash, channels }

def entryFromJs (e : JsValue) : Except JsValue MessageEntry := do
  let e ← e.toMap
  let key ← (e.get "key").toUint8Array
  let value ← (e.get "value").toUint8Array
  pure { key, value, kind := .rawData }

def messageFromJs (map : JsMap) : Except JsValue Message := do
  let es ← (map.get "entries").toArray
  let entries ← es.mapM entryFromJs
  pure { entries }

def entryToJs (entry : MessageEntry) : JsValue :=
  let e := JsMap.new
  let e := e.set "key" (.uint8Array entry.key)
  let e := e.set "value" (.uint8Array entry.value)
  .map e

def messageToJs (message : Message) : Except JsValue JsMap :=
  .ok (JsMap.new.set "entries" (.array (message.entries.map entryToJs)))

def recipientFromJs (recipient : JsValue) : Except JsValue PublicKey := do
  let pk ← recipient.toUint8Array
  let pk ← jsValueToArray keySize (.uint8Array pk)
  pure ⟨pk⟩

section Exports
variable (cb : CryptoBox K) (debug : DebugText)

/-- `JsError::new(&format!("{}", e))`. -/
def CypherError.toJs (e : CypherError) : JsValue := .error (e.display debug)

/-- `new_encrypted_metadata`; the last two arguments are what `OsRng` gave. -/
def newEncryptedMetadata (blake2s : Bytes → ByteArr keySize) (origin publicNonce senderPk : Bytes)
    (recipients : List JsValue) (message : JsMap) (secretNonce : SalsaNonce)
    (brokerSk : SecretKey) : Outcome JsValue JsMap := do
  let reps ← .ofExcept (recipients.mapM recipientFromJs)
  let origin ← .ofExcept (jsValueToArray keySize (.uint8Array origin))
  let publicNonce ← SalsaNonce.fromSlice publicNonce
  let senderPk ← .ofExcept (jsValueToArray keySize (.uint8Array senderPk))
  let message ← .ofExcept (messageFromJs message)
  let (metadata, secretNonce) ← .ofExcept ((newEncrypted cb blake2s ⟨origin⟩ publicNonce ⟨senderPk⟩
    reps message secretNonce brokerSk).result.mapError (CypherError.toJs debug))
  pure ((metadataToJsMap metadata).set "secret_nonce" (.uint8Array secretNonce.toList))

def decryptMetadata (metadata : JsMap) (secretKey : Bytes) : Outcome JsValue JsMap := do
  let metadata ← .ofExcept (jsMapToMetadata metadata)
  let secretKey ← .ofExcept (jsValueToArray keySize (.uint8Array secretKey))
  let metadata ← (metadata.decrypt cb ⟨secretKey⟩).mapErr (CypherError.toJs debug)
  pure (metadataToJsMap metadata)

def onMessage (message : JsMap) (nonce pk sk : Bytes) (doWhat : MessageAction) :
    Outcome JsValue JsMap := do
  let m ← .ofExcept (messageFromJs message)
  let nonce ← SalsaNonce.fromSlice nonce
  let pk ← .ofExcept (jsValueToArray keySize (.uint8Array pk))
  let sk ← .ofExcept (jsValueToArray keySize (.uint8Array sk))
  let m ← .ofExcept (match doWhat with
    | .encrypt =>
        (Cypher.encrypt cb m nonce ⟨pk⟩ ⟨sk⟩).result.mapError (CypherError.toJs debug)
    | .decrypt => (Cypher.decrypt cb m nonce ⟨pk⟩ ⟨sk⟩).mapError (CypherError.toJs debug))
  .ofExcept (messageToJs m)

def encryptMessage (message : JsMap) (secretNonce receiverPk senderSk : Bytes) :
    Outcome JsValue JsMap :=
  onMessage cb debug message secretNonce receiverPk senderSk .encrypt

def decryptMessage (message : JsMap) (secretNonce senderPk receiverSk : Bytes) :
    Outcome JsValue JsMap :=
  onMessage cb debug message secretNonce senderPk receiverSk .decrypt

end Exports

@[simp] theorem jsValueToArray_toList {n : Nat} (a : ByteArr n) :
    jsValueToArray n (.uint8Array a.toList) = .ok a := by
  simp only [jsValueToArray, JsValue.toUint8Array, bind, Except.bind, tryInto_toList]
  rfl

theorem jsValueToArray_ok_iff {n : Nat} {value : JsValue} {a : ByteArr n} :
    jsValueToArray n value = .ok a ↔ value = .uint8Array a.toList := by
  constructor
  · intro read
    cases value with
    | uint8Array bytes =>
        simp only [jsValueToArray, JsValue.toUint8Array, bind, Except.bind] at read
        cases found : tryInto n bytes with
        | none => simp only [found, reduceCtorEq, throw, throwThe, MonadExceptOf.throw] at read
        | some b =>
            rw [found] at read
            cases read
            rw [tryInto_eq_some.mp found]
    | undefined => cases read
    | array items => cases read
    | map get => cases read
    | error message => cases read
    | other id => cases read
  · rintro rfl
    exact jsValueToArray_toList a

theorem channelFromJs_ok_iff {ch : JsValue} {channel : Channel} :
    channelFromJs ch = .ok channel ↔ ∃ map : JsMap, ch = .map map ∧
      map.get "nonce" = .uint8Array channel.nonce ∧
      map.get "parties" = .array (channel.parties.map .uint8Array) := by
  obtain ⟨nonce, parties⟩ := channel
  have each : ∀ (parts : List JsValue) (parties : List Bytes),
      parts.mapM JsValue.toUint8Array = .ok parties ↔ parts = parties.map .uint8Array := by
    intro parts parties
    simp only [except_mapM_ok_iff, JsValue.toUint8Array_ok_iff]
    rw [← List.forall₂_eq_eq_eq, List.forall₂_map_right_iff]
  simp only [channelFromJs, except_bind_ok_iff, JsValue.toMap_ok_iff, JsValue.toUint8Array_ok_iff,
    JsValue.toArray_ok_iff, each, except_pure_ok_iff, Channel.mk.injEq]
  refine exists_congr fun map => and_congr_right fun _ => ?_
  constructor
  · rintro ⟨_, nonce, _, parties, _, rfl, rfl, rfl⟩
    exact ⟨nonce, parties⟩
  · rintro ⟨nonce, parties⟩
    exact ⟨_, nonce, _, parties, _, rfl, rfl, rfl⟩

theorem jsMapToMetadata_ok_iff {map : JsMap} {metadata : MessageMetadata} :
    jsMapToMetadata map = .ok metadata ↔
      (∃ chans, map.get "channels" = .array chans ∧
        List.Forall₂ (fun ch channel => channelFromJs ch = .ok channel) chans metadata.channels) ∧
      map.get "nonce" = .uint8Array metadata.nonce.toList ∧
      map.get "broker" = .uint8Array metadata.broker.toList ∧
      map.get "hash" = .uint8Array metadata.hash.toList := by
  obtain ⟨nonce, broker, hash, channels⟩ := metadata
  simp only [jsMapToMetadata, except_bind_ok_iff, JsValue.toArray_ok_iff, except_mapM_ok_iff,
    jsValueToArray_ok_iff, except_pure_ok_iff, MessageMetadata.mk.injEq]
  constructor
  · rintro ⟨chans, found, _, related, _, nonce, _, broker, _, hash, rfl, rfl, rfl, rfl⟩
    exact ⟨⟨chans, found, related⟩, nonce, broker, hash⟩
  · rintro ⟨⟨chans, found, related⟩, nonce, broker, hash⟩
    exact ⟨chans, found, _, related, _, nonce, _, broker, _, hash, rfl, rfl, rfl, rfl⟩

theorem entryFromJs_ok_iff {e : JsValue} {entry : MessageEntry} :
    entryFromJs e = .ok entry ↔ (∃ map : JsMap, e = .map map ∧
      map.get "key" = .uint8Array entry.key ∧ map.get "value" = .uint8Array entry.value) ∧
      entry.kind = .rawData := by
  obtain ⟨key, value, kind⟩ := entry
  simp only [entryFromJs, except_bind_ok_iff, JsValue.toMap_ok_iff, JsValue.toUint8Array_ok_iff,
    except_pure_ok_iff, MessageEntry.mk.injEq]
  constructor
  · rintro ⟨map, shape, _, key, _, value, rfl, rfl, rfl⟩
    exact ⟨⟨map, shape, key, value⟩, rfl⟩
  · rintro ⟨⟨map, shape, key, value⟩, rfl⟩
    exact ⟨map, shape, _, key, _, value, rfl, rfl, rfl⟩

theorem messageFromJs_ok_iff {map : JsMap} {message : Message} :
    messageFromJs map = .ok message ↔ ∃ es, map.get "entries" = .array es ∧
      List.Forall₂ (fun e entry => entryFromJs e = .ok entry) es message.entries := by
  obtain ⟨entries⟩ := message
  simp only [messageFromJs, except_bind_ok_iff, JsValue.toArray_ok_iff, except_mapM_ok_iff,
    except_pure_ok_iff, Message.mk.injEq]
  refine exists_congr fun es => and_congr_right fun _ => ?_
  constructor
  · rintro ⟨_, related, rfl⟩
    exact related
  · exact fun related => ⟨_, related, rfl⟩

end Nolik
