import Nolik.JsWasm

/-! Which calls of the exported functions trap. Keys, recipients and messages are checked; a
nonce is not, so a call traps as soon as it reads a nonce of a wrong length. -/
namespace Nolik
open ByteString Effects Js

variable {K : Type}

/-- The shape that `message_from_js` reads. -/
def MessageShaped (map : JsMap) : Prop :=
  ∃ es, map.get "entries" = .array es ∧ ∀ e ∈ es, ∃ (entry : JsMap) (key value : Bytes),
    e = .map entry ∧ entry.get "key" = .uint8Array key ∧ entry.get "value" = .uint8Array value

def IsRecipient (recipient : JsValue) : Prop :=
  ∃ bytes, recipient = .uint8Array bytes ∧ bytes.length = keySize

/-- The call returns or throws, and throws on malformed arguments. -/
def Rejects {α : Type} (malformed : Prop) (call : Outcome JsValue α) : Prop :=
  call ≠ .panic ∧ (malformed → ∃ e, call = .err e)

theorem rejects_iff {α : Type} {malformed aborting : Prop} {call : Outcome JsValue α}
    (aborts : call = .panic ↔ aborting) (accepts : ∀ r, call = .ok r → ¬ malformed) :
    Rejects malformed call ↔ ¬ aborting := by
  rw [← aborts]
  refine ⟨And.left, fun returns => ⟨returns, fun isMalformed => ?_⟩⟩
  cases result : call with
  | ok r => exact absurd isMalformed (accepts r result)
  | err e => exact ⟨e, rfl⟩
  | panic => exact absurd result returns

theorem messageFromJs_total_iff {map : JsMap} :
    (∃ m, messageFromJs map = .ok m) ↔ MessageShaped map := by
  have entry : ∀ e, (∃ entry, entryFromJs e = .ok entry) ↔
      ∃ (entry : JsMap) (key value : Bytes), e = .map entry ∧
        entry.get "key" = .uint8Array key ∧ entry.get "value" = .uint8Array value := by
    intro e
    simp only [entryFromJs_ok_iff]
    constructor
    · rintro ⟨entry, ⟨map, shape, key, value⟩, -⟩
      exact ⟨map, entry.key, entry.value, shape, key, value⟩
    · rintro ⟨map, key, value, shape, hasKey, hasValue⟩
      exact ⟨⟨key, value, .rawData⟩, ⟨map, shape, hasKey, hasValue⟩, rfl⟩
  simp only [MessageShaped, ← entry, ← except_mapM_total_iff]
  constructor
  · rintro ⟨m, read⟩
    obtain ⟨es, found, related⟩ := messageFromJs_ok_iff.mp read
    exact ⟨es, found, m.entries, except_mapM_ok_iff.mpr related⟩
  · rintro ⟨es, found, entries, read⟩
    exact ⟨⟨entries⟩, messageFromJs_ok_iff.mpr ⟨es, found, except_mapM_ok_iff.mp read⟩⟩

theorem jsValueToArray_total_iff {n : Nat} {bytes : Bytes} :
    (∃ a, jsValueToArray n (.uint8Array bytes) = .ok a) ↔ bytes.length = n := by
  simp only [jsValueToArray_ok_iff, JsValue.uint8Array.injEq]
  constructor
  · rintro ⟨a, rfl⟩
    exact a.toList_length
  · exact fun size => ⟨⟨bytes, size⟩, rfl⟩

theorem recipientFromJs_total_iff {recipient : JsValue} :
    (∃ pk, recipientFromJs recipient = .ok pk) ↔ IsRecipient recipient := by
  simp only [recipientFromJs, except_bind_ok_iff, JsValue.toUint8Array_ok_iff, except_pure_ok_iff,
    IsRecipient, ← jsValueToArray_total_iff]
  constructor
  · rintro ⟨pk, bytes, shape, a, read, -⟩
    exact ⟨bytes, shape, a, read⟩
  · rintro ⟨bytes, shape, a, read⟩
    exact ⟨⟨a⟩, bytes, shape, a, read, rfl⟩

section Calls
variable {cb : CryptoBox K} {debug : DebugText}

theorem onMessage_panic_iff {message : JsMap} {nonce pk sk : Bytes} {doWhat : MessageAction} :
    onMessage cb debug message nonce pk sk doWhat = .panic ↔
      MessageShaped message ∧ nonce.length ≠ nonceSize := by
  simp only [onMessage, Outcome.bind_panic_iff, Outcome.ofExcept_ok_iff, Outcome.ofExcept_ne_panic,
    SalsaNonce.fromSlice_panic_iff, ← messageFromJs_total_iff, false_or, and_false, exists_false,
    or_false]
  exact ⟨fun ⟨m, read, wrong⟩ => ⟨⟨m, read⟩, wrong⟩, fun ⟨⟨m, read⟩, wrong⟩ => ⟨m, read, wrong⟩⟩

theorem onMessage_ok {message result : JsMap} {nonce pk sk : Bytes} {doWhat : MessageAction}
    (returned : onMessage cb debug message nonce pk sk doWhat = .ok result) :
    MessageShaped message ∧ nonce.length = nonceSize ∧ pk.length = keySize ∧
      sk.length = keySize := by
  simp only [onMessage, Outcome.bind_ok_iff, Outcome.ofExcept_ok_iff,
    SalsaNonce.fromSlice_ok_iff] at returned
  obtain ⟨m, message, n, nonce, p, pk, s, sk, -⟩ := returned
  refine ⟨messageFromJs_total_iff.mp ⟨m, message⟩, ?_, jsValueToArray_total_iff.mp ⟨p, pk⟩,
    jsValueToArray_total_iff.mp ⟨s, sk⟩⟩
  rw [nonce, List.Vector.toList_length]

theorem newEncryptedMetadata_panic_iff {blake2s : Bytes → ByteArr keySize}
    {origin publicNonce senderPk : Bytes} {recipients : List JsValue} {message : JsMap}
    {secretNonce : SalsaNonce} {brokerSk : SecretKey} :
    newEncryptedMetadata cb debug blake2s origin publicNonce senderPk recipients message
        secretNonce brokerSk = .panic ↔
      (∀ r ∈ recipients, IsRecipient r) ∧ origin.length = keySize ∧
        publicNonce.length ≠ nonceSize := by
  simp only [newEncryptedMetadata, Outcome.bind_panic_iff, Outcome.ofExcept_ok_iff,
    Outcome.ofExcept_ne_panic, SalsaNonce.fromSlice_panic_iff, Outcome.pure_eq, reduceCtorEq,
    ← recipientFromJs_total_iff, ← except_mapM_total_iff, ← jsValueToArray_total_iff, false_or,
    and_false, exists_false, or_false]
  constructor
  · rintro ⟨reps, recipients, a, origin, wrong⟩
    exact ⟨⟨reps, recipients⟩, ⟨a, origin⟩, wrong⟩
  · rintro ⟨⟨reps, recipients⟩, ⟨a, origin⟩, wrong⟩
    exact ⟨reps, recipients, a, origin, wrong⟩

theorem newEncryptedMetadata_ok {blake2s : Bytes → ByteArr keySize}
    {origin publicNonce senderPk : Bytes} {recipients : List JsValue} {message result : JsMap}
    {secretNonce : SalsaNonce} {brokerSk : SecretKey}
    (returned : newEncryptedMetadata cb debug blake2s origin publicNonce senderPk recipients message
      secretNonce brokerSk = .ok result) :
    (∀ r ∈ recipients, IsRecipient r) ∧ origin.length = keySize ∧
      publicNonce.length = nonceSize ∧ senderPk.length = keySize ∧ MessageShaped message := by
  simp only [newEncryptedMetadata, Outcome.bind_ok_iff, Outcome.ofExcept_ok_iff,
    SalsaNonce.fromSlice_ok_iff] at returned
  obtain ⟨reps, recipients, o, origin, n, nonce, s, senderPk, m, message, -⟩ := returned
  refine ⟨fun r member => ?_, jsValueToArray_total_iff.mp ⟨o, origin⟩, ?_,
    jsValueToArray_total_iff.mp ⟨s, senderPk⟩, messageFromJs_total_iff.mp ⟨m, message⟩⟩
  · exact recipientFromJs_total_iff.mp (except_mapM_total_iff.mp ⟨reps, recipients⟩ r member)
  · rw [nonce, List.Vector.toList_length]

end Calls

/-- The exported functions reject malformed arguments exactly where the nonce has 24 bytes, or
where an argument that is read before it is refused. -/
theorem js_rejects_iff (cb : CryptoBox K) (debug : DebugText) (blake2s : Bytes → ByteArr keySize) :
    (∀ message nonce pk sk,
      Rejects (nonce.length ≠ nonceSize ∨ pk.length ≠ keySize ∨ sk.length ≠ keySize ∨
          ¬ MessageShaped message) (encryptMessage cb debug message nonce pk sk) ↔
        nonce.length = nonceSize ∨ ¬ MessageShaped message) ∧
    (∀ message nonce pk sk,
      Rejects (nonce.length ≠ nonceSize ∨ pk.length ≠ keySize ∨ sk.length ≠ keySize ∨
          ¬ MessageShaped message) (decryptMessage cb debug message nonce pk sk) ↔
        nonce.length = nonceSize ∨ ¬ MessageShaped message) ∧
    (∀ origin publicNonce senderPk recipients message secretNonce brokerSk,
      Rejects (publicNonce.length ≠ nonceSize ∨ origin.length ≠ keySize ∨
          senderPk.length ≠ keySize ∨ (∃ r ∈ recipients, ¬ IsRecipient r) ∨
          ¬ MessageShaped message)
        (newEncryptedMetadata cb debug blake2s origin publicNonce senderPk recipients message
          secretNonce brokerSk) ↔
        publicNonce.length = nonceSize ∨ (∃ r ∈ recipients, ¬ IsRecipient r) ∨
          origin.length ≠ keySize) := by
  have either : ∀ message nonce pk sk doWhat,
      Rejects (nonce.length ≠ nonceSize ∨ pk.length ≠ keySize ∨ sk.length ≠ keySize ∨
          ¬ MessageShaped message) (onMessage cb debug message nonce pk sk doWhat) ↔
        nonce.length = nonceSize ∨ ¬ MessageShaped message := by
    intro message nonce pk sk doWhat
    rw [rejects_iff onMessage_panic_iff]
    · tauto
    · intro result returned
      obtain ⟨shaped, fits, receiver, sender⟩ := onMessage_ok returned
      simp only [shaped, fits, receiver, sender, ne_eq, not_true_eq_false, or_self,
        not_false_eq_true]
  refine ⟨fun message nonce pk sk => either message nonce pk sk .encrypt,
    fun message nonce pk sk => either message nonce pk sk .decrypt, ?_⟩
  intro origin publicNonce senderPk recipients message secretNonce brokerSk
  rw [rejects_iff newEncryptedMetadata_panic_iff]
  · have refused : (∃ r ∈ recipients, ¬ IsRecipient r) ↔ ¬ ∀ r ∈ recipients, IsRecipient r := by
      push Not
      rfl
    rw [refused]
    tauto
  · intro result returned
    obtain ⟨all, fromOrigin, fits, sender, shaped⟩ := newEncryptedMetadata_ok returned
    have noneRefused : ¬ ∃ r ∈ recipients, ¬ IsRecipient r :=
      fun ⟨r, member, refused⟩ => refused (all r member)
    simp only [noneRefused, fromOrigin, fits, sender, shaped, ne_eq, not_true_eq_false, or_self,
      not_false_eq_true]

/-- An empty message under an empty nonce. -/
theorem empty_nonce_traps :
    encryptMessage clearBox ⟨fun _ => "", fun _ => "", fun _ => ""⟩
        (JsMap.new.set "entries" (.array [])) [] (List.replicate keySize 6)
        (List.replicate keySize 3) = .panic :=
  rfl

end Nolik
