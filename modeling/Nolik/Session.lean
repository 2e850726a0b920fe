import Nolik.Cli
import Nolik.Delivery
import Nolik.Library.Hex
import Nolik.Wire
import Mathlib.Data.List.TakeWhile

/-! A session of the command line client, from the text of the key file to the checks on the
finalized extrinsic. The chain and the off-chain store of the node stand in between, with any
later traffic on one chain. Output and the transport are left out. -/
namespace Nolik
open ByteString Effects KeyValue Sealing

namespace Cli

inductive ClientError where
  | text (message : String)
  | cypher (e : CypherError)
  | dispatch (e : DispatchError)
  | codec
  deriving DecidableEq

/-- The characters with the property `White_Space`. -/
def isWhitespace (c : Char) : Bool :=
  let n := c.toNat
  (9 ≤ n && n ≤ 13) || n = 0x20 || n = 0x85 || n = 0xa0 || n = 0x1680 ||
    (0x2000 ≤ n && n ≤ 0x200a) || n = 0x2028 || n = 0x2029 || n = 0x202f || n = 0x205f ||
    n = 0x3000

def trim (text : List Char) : List Char :=
  ((text.dropWhile isWhitespace).reverse.dropWhile isWhitespace).reverse

theorem isWhitespace_digitChar (n : Nat) (small : n < 16) :
    isWhitespace (Hex.digitChar n) = false := by
  have every : ∀ n : Fin 16, isWhitespace (Hex.digitChar n) = false := by decide
  exact every ⟨n, small⟩

theorem dropWhile_black {text : List Char} (black : ∀ c ∈ text, isWhitespace c = false) :
    text.dropWhile isWhitespace = text := by
  rw [List.dropWhile_eq_self_iff]
  intro nonempty
  rw [black _ (List.getElem_mem nonempty)]
  exact Bool.false_ne_true

/-- White space around the text of the key does no harm. -/
theorem trim_encode (bytes : Bytes) {before after : List Char}
    (left : ∀ c ∈ before, isWhitespace c = true) (right : ∀ c ∈ after, isWhitespace c = true) :
    trim (before ++ (Hex.encode bytes ++ after)) = Hex.encode bytes := by
  have black : ∀ c ∈ Hex.encode bytes, isWhitespace c = false :=
    Hex.forall_mem_encode isWhitespace_digitChar bytes
  have ends : ∀ c ∈ after.reverse, isWhitespace c = true :=
    fun c member => right c (List.mem_reverse.mp member)
  rw [trim, List.dropWhile_append_of_pos left, List.dropWhile_append, dropWhile_black black]
  cases empty : (Hex.encode bytes).isEmpty with
  | true =>
      rw [List.isEmpty_iff] at empty
      rw [if_pos rfl, List.dropWhile_eq_nil_iff.mpr right, empty]
      rfl
  | false =>
      rw [if_neg Bool.false_ne_true, List.reverse_append, List.dropWhile_append_of_pos ends,
        dropWhile_black (fun c member => black c (List.mem_reverse.mp member)),
        List.reverse_reverse]

def toHex (bytes : Bytes) : List Char := '0' :: 'x' :: Hex.encode bytes

def getOffchainStorage (request : List Char → Option Bytes) (key : Bytes) : Option Bytes :=
  request (toHex key)

/-- `offchain_localStorageGet` of the node. -/
def localStorageGet (store : Store Bytes Bytes) : List Char → Option Bytes
  | '0' :: 'x' :: key => (Hex.decode key).bind store
  | _ => none

theorem getOffchainStorage_localStorageGet (store : Store Bytes Bytes) (key : Bytes) :
    getOffchainStorage (localStorageGet store) key = store key := by
  rw [getOffchainStorage, toHex, localStorageGet, Hex.decode_encode, Option.bind_some]

section Session
variable {K : Type} (cb : CryptoBox K)

/-- What the client checks. `secretNonce` is the one that `new_encrypted` returned. -/
def receive (draws : Draws) (secretNonce : SalsaNonce) (events : List Event)
    (request : List Char → Option Bytes) : Outcome ClientError Unit := do
  let transferEvent := events.head?
  match transferEvent with
  | some (.messageSent key metadata) => do
      let decryptedMetadata ← ((PolkadotMessageMetadata.fromMetadata metadata).decrypt cb
        draws.receiverSk).mapErr .cypher
      let channel ← match decryptedMetadata.channels.head? with
        | some channel => pure channel
        | none => .panic
      let decryptedSecretNonce ← SalsaNonce.fromSlice channel.nonce
      if decryptedSecretNonce ≠ secretNonce then .panic
      let receiverData ← match getOffchainStorage request key with
        | some data => pure data
        | none => .err (.text "No off-chain data found")
      let (receiverMessage, _) ← match Message.decode receiverData with
        | some decoded => pure decoded
        | none => .err .codec
      let receiverMessage ← (Outcome.ofExcept (Cypher.decrypt cb receiverMessage secretNonce
        (cb.publicKey draws.senderSk) draws.receiverSk)).mapErr .cypher
      if message ≠ receiverMessage then .panic
  | none => pure ()

/-- The extrinsic runs in a block on `env`, and `later` follows until the client asks.
`hexError` is the text of the hex crate for what it refuses. -/
def session (blake2s : Bytes → ByteArr keySize) (sr25519 : Sr25519)
    (hexError : List Char → String) (text : List Char) (draws : Draws) (env : Externalities)
    (later : List (Call AccountId32)) : Outcome ClientError Unit := do
  let secret ← match Hex.decode (trim text) with
    | some secret => pure secret
    | none => .err (.text ("Could't decode secret from hex: " ++ hexError (trim text)))
  let call ← (main cb blake2s sr25519 secret draws).mapErr .cypher
  let (result, env') := (call.dispatch List.Vector.toList).run env
  let events := env'.chain.events.drop env.chain.events.length
  let request := localStorageGet (stateAfter List.Vector.toList later env').offchain
  match result with
  | .error e => .err (.dispatch e)
  | .ok () => receive cb draws draws.secretNonce events request

end Session

section Outcome
variable {K : Type} {cb : CryptoBox K} {blake2s : Bytes → ByteArr keySize} {sr25519 : Sr25519}
  {draws : Draws} {secret : Bytes} {pair : sr25519.Pair}

theorem main_sends (seals : cb.SealsAll) {overhead : Nat} (expands : cb.ExpandsAtMost overhead)
    (small : overhead < 2 ^ 31) (blake2s : Bytes → ByteArr keySize) (draws : Draws)
    (loaded : sr25519.fromSeedSlice secret = some pair) :
    ∃ metadata stored blob,
      (draws.draft cb ⟨AccountKeyring.alice⟩).Yields cb blake2s metadata draws.secretNonce ∧
      (Cypher.encrypt cb message draws.secretNonce (cb.publicKey draws.receiverSk)
        draws.senderSk).result = .ok stored ∧
      stored.encode = some blob ∧
      main cb blake2s sr25519 secret draws =
        .ok ⟨.signed (sr25519.publicKey pair), metadata, blob⟩ := by
  obtain ⟨metadata, returned⟩ :=
    (draws.draft cb ⟨AccountKeyring.alice⟩).newEncrypted_total seals blake2s
  obtain ⟨stored, sealed⟩ := Message.encrypt_total seals message draws.secretNonce
    (cb.publicKey draws.receiverSk) draws.senderSk
  obtain ⟨blob, encoded⟩ : ∃ blob, stored.encode = some blob := by
    refine Message.encode_encrypted_total expands sealed (by decide) ?_
    refine List.forall_mem_singleton.mpr ?_
    simp only [List.length_cons, List.length_nil]
    omega
  refine ⟨metadata, stored, blob, Draft.yields_of_ok returned, sealed, encoded, ?_⟩
  have wrapped : (PolkadotMessageMetadata.newEncrypted cb blake2s ⟨AccountKeyring.alice⟩
      draws.nonce (cb.publicKey draws.senderSk) [cb.publicKey draws.receiverSk] message
      draws.secretNonce draws.brokerSk).result =
        .ok (PolkadotMessageMetadata.fromMetadata metadata, draws.secretNonce) :=
    Traced.bind_ok_iff.mpr ⟨_, returned, rfl⟩
  simp only [main, loaded, Outcome.pure_eq, Outcome.ok_bind, wrapped, Outcome.ofExcept_ok, sealed,
    encoded, PolkadotMessageMetadata.decoded_fromMetadata]

theorem dispatch_checked (account : AccountId32) {metadata : MessageMetadata} {blob : Bytes}
    (checked : checkMessage blob metadata = .ok ()) (env : Externalities)
    (later : List (Call AccountId32)) :
    let run := ((⟨.signed account, metadata, blob⟩ : Call AccountId32).dispatch
      List.Vector.toList).run env
    (env.chain.messageCounter.toNat < 2 ^ 128 - 1 ∧ ∃ env' key, run = (.ok (), env') ∧
      env'.chain.events = env.chain.events ++ [.messageSent key metadata] ∧
      (stateAfter List.Vector.toList later env').offchain key = some blob) ∨
    (¬ env.chain.messageCounter.toNat < 2 ^ 128 - 1 ∧
      run = (.error (.module .messageCounterOverflow), env)) := by
  intro run
  by_cases room : env.chain.messageCounter.toNat < 2 ^ 128 - 1
  · obtain ⟨p, admitted⟩ : ∃ p, admission env.chain.messageCounter.toNat
        (⟨.signed account, metadata, blob⟩ : Call AccountId32) = some p :=
      ⟨⟨account, BitVec.ofNat 128 env.chain.messageCounter.toNat, metadata, blob⟩,
        admission_eq_some_iff.mpr ⟨by omega, checked, rfl, rfl, rfl, rfl⟩⟩
    obtain ⟨-, -, -, -, metadata', message'⟩ := admission_eq_some_iff.mp admitted
    have accepted := dispatch_admitted List.Vector.toList admitted
    have kept := offchain_kept List.Vector.toList admitted later
    rw [stateAfter_cons, accepted] at kept
    refine .inl ⟨room, _, p.key List.Vector.toList, accepted, ?_,
      kept.trans (congrArg some message')⟩
    rw [metadata']
    rfl
  · have bound := env.chain.messageCounter.isLt
    have full : env.chain.messageCounter.uaddOverflow 1 = true := by
      rw [uaddOverflow_one_iff]
      omega
    have closed := sendMessage_run List.Vector.toList (.signed account) metadata blob env
    rw [checked] at closed
    exact .inr ⟨room, closed.trans (if_pos full)⟩

theorem receive_passes (lawful : cb.Lawful)
    (separates : (draws.draft cb ⟨AccountKeyring.alice⟩).Separates cb draws.receiverSk)
    {metadata : MessageMetadata}
    (yields : (draws.draft cb ⟨AccountKeyring.alice⟩).Yields cb blake2s metadata draws.secretNonce)
    {stored : Message} (sealed : (Cypher.encrypt cb message draws.secretNonce
      (cb.publicKey draws.receiverSk) draws.senderSk).result = .ok stored)
    {blob : Bytes} (encoded : stored.encode = some blob) {key : Bytes} {store : Store Bytes Bytes}
    (kept : store key = some blob) :
    receive cb draws draws.secretNonce [.messageSent key metadata] (localStorageGet store) =
      .ok () := by
  have recipient : cb.publicKey draws.receiverSk ∈
      (draws.draft cb ⟨AccountKeyring.alice⟩).parties :=
    List.mem_cons_of_mem _ List.mem_cons_self
  obtain ⟨opened, rest, decrypted, shown⟩ :=
    Draft.party_opens_first lawful separates yields recipient
  have wrapped : ((PolkadotMessageMetadata.fromMetadata metadata).decrypt cb draws.receiverSk) =
      .ok (PolkadotMessageMetadata.fromMetadata opened) := by
    rw [PolkadotMessageMetadata.decrypt_fromMetadata, decrypted]
    rfl
  have read : Cypher.decrypt cb stored draws.secretNonce (cb.publicKey draws.senderSk)
      draws.receiverSk = .ok message :=
    @Draft.recipient_reads K cb lawful (draws.draft cb ⟨AccountKeyring.alice⟩) draws.senderSk
      draws.receiverSk draws.secretNonce stored rfl sealed
  obtain ⟨parties, head⟩ : ∃ parties,
      (PolkadotMessageMetadata.fromMetadata opened).channels.head? =
        some ⟨draws.secretNonce.toList, parties⟩ := by
    rw [PolkadotMessageMetadata.fromMetadata, shown]
    exact ⟨_, rfl⟩
  simp only [receive, List.head?_cons, wrapped, Outcome.mapErr, Outcome.ok_bind, head,
    Outcome.pure_eq, SalsaNonce.fromSlice_toList, getOffchainStorage_localStorageGet, kept,
    Message.decode_encode encoded, read, Outcome.ofExcept_ok, ne_eq, not_true_eq_false, if_false]

/-- How a session ends, whoever signs, and whatever is sent before the client asks. -/
theorem session_ends (lawful : cb.Lawful) (seals : cb.SealsAll) (filled : cb.SealsNonempty)
    {overhead : Nat} (expands : cb.ExpandsAtMost overhead) (small : overhead < 2 ^ 31)
    (blake2s : Bytes → ByteArr keySize) (sr25519 : Sr25519) (hexError : List Char → String)
    (text : List Char) (draws : Draws)
    (separates : (draws.draft cb ⟨AccountKeyring.alice⟩).Separates cb draws.receiverSk)
    (env : Externalities) (later : List (Call AccountId32)) :
    session cb blake2s sr25519 hexError text draws env later =
      match Hex.decode (trim text) with
      | none => .err (.text ("Could't decode secret from hex: " ++ hexError (trim text)))
      | some secret =>
          match sr25519.fromSeedSlice secret with
          | none => .panic
          | some _ =>
              if env.chain.messageCounter.toNat < 2 ^ 128 - 1 then .ok ()
              else .err (.dispatch (.module .messageCounterOverflow)) := by
  unfold session
  cases Hex.decode (trim text) with
  | none => rfl
  | some secret =>
      simp only [Outcome.pure_eq, Outcome.ok_bind]
      cases loaded : sr25519.fromSeedSlice secret with
      | none =>
          simp only [main, loaded, Outcome.panic_bind]
          rfl
      | some pair =>
          obtain ⟨metadata, stored, blob, yields, sealed, encoded, sent⟩ :=
            main_sends seals expands small blake2s draws loaded
          have checked := Draft.checkMessage_yields filled yields (Message.encode_ne_nil encoded)
          simp only [sent, Outcome.mapErr, Outcome.ok_bind]
          rcases dispatch_checked (sr25519.publicKey pair) checked env later with
            ⟨room, env', key, accepted, events, kept⟩ | ⟨full, refused⟩
          · rw [if_pos room, accepted]
            change receive cb draws draws.secretNonce (env'.chain.events.drop _) _ = .ok ()
            rw [events, List.drop_left]
            exact receive_passes lawful separates yields sealed encoded kept
          · rw [if_neg full, refused]

end Outcome

/-- Alice's key file ends in a line break, and Bob sends before she looks. The box has keys and
an overhead of the sizes of `SalsaBox`. -/
theorem session_ends_alice :
    session shortBox numeralDigest developmentKeys (fun _ => "") (Hex.encode aliceSeed ++ ['\n'])
      Draws.sample .genesis [Call.sample bob [9]] = .ok () := by
  have read : Hex.decode (trim (Hex.encode aliceSeed ++ ['\n'])) = some aliceSeed := by
    have trimmed := @trim_encode aliceSeed [] ['\n']
      (fun c member => (List.not_mem_nil member).elim) (List.forall_mem_singleton.mpr rfl)
    rw [List.nil_append] at trimmed
    rw [trimmed, Hex.decode_encode]
  have separates : (Draws.sample.draft shortBox ⟨AccountKeyring.alice⟩).Separates shortBox
      Draws.sample.receiverSk := by
    intro p party
    rcases List.mem_cons.mp party with rfl | recipient
    · exact shortBox_confined (by decide) _ _
    · rw [List.mem_singleton.mp recipient]
      exact fun other => absurd rfl other
  have ended := session_ends shortBox_lawful shortBox_sealsAll shortBox_sealsNonempty
    shortBox_expands.atMost (by decide) numeralDigest developmentKeys (fun _ => "")
    (Hex.encode aliceSeed ++ ['\n']) Draws.sample separates .genesis [Call.sample bob [9]]
  rw [read] at ended
  exact ended

end Cli
end Nolik
