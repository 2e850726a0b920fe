import Nolik.Integrity
import Nolik.JsWasm

/-! A JavaScript message has keys and values and no kinds. What comes back from it is the
message with every entry declared raw data. -/
namespace Nolik
open ByteString Effects Js Sealing

variable {K : Type} {cb : CryptoBox K}

theorem entryFromJs_entryToJs (entry : MessageEntry) :
    entryFromJs (entryToJs entry) = .ok { entry with kind := .rawData } := by
  rw [entryFromJs_ok_iff]
  refine ⟨⟨_, rfl, ?_, ?_⟩, rfl⟩
  · rw [JsMap.get_set_ne _ _ (by decide), JsMap.get_set_self]
  · rw [JsMap.get_set_self]

/-- The kinds are lost, and nothing else. -/
theorem messageFromJs_messageToJs {m : Message} {map : JsMap} (written : messageToJs m = .ok map) :
    messageFromJs map = .ok (m.relabel .rawData) := by
  cases written
  rw [messageFromJs_ok_iff]
  refine ⟨_, JsMap.get_set_self _ _ _, ?_⟩
  rw [Message.relabel, List.forall₂_map_left_iff, List.forall₂_map_right_iff, List.forall₂_same]
  exact fun entry _ => entryFromJs_entryToJs entry

theorem Message.relabel_eq_self_iff {m : Message} {kind : MessageType} :
    m.relabel kind = m ↔ ∀ e ∈ m.entries, e.kind = kind := by
  obtain ⟨entries⟩ := m
  rw [relabel, Message.mk.injEq]
  conv_lhs => rhs; rw [← List.map_id entries]
  rw [List.map_inj_left]
  refine forall₂_congr fun e _ => ?_
  constructor
  · exact fun same => (congrArg MessageEntry.kind same).symm
  · rintro rfl
    rfl

section Exported
variable {debug : DebugText} {map : JsMap} {m e : Message} {nonce : SalsaNonce} {pk : PublicKey}
  {sk : SecretKey}

theorem encryptMessage_ok (read : messageFromJs map = .ok m)
    (sealed : (Cypher.encrypt cb m nonce pk sk).result = .ok e) :
    encryptMessage cb debug map nonce.toList pk.asBytes sk.bytes.toList =
      .ofExcept (messageToJs e) := by
  simp only [encryptMessage, onMessage, read, SalsaNonce.fromSlice_toList, PublicKey.asBytes,
    jsValueToArray_toList, Outcome.ofExcept_ok, Outcome.ok_bind, sealed, Except.mapError]

theorem decryptMessage_ok (read : messageFromJs map = .ok e)
    (opened : Cypher.decrypt cb e nonce pk sk = .ok m) :
    decryptMessage cb debug map nonce.toList pk.asBytes sk.bytes.toList =
      .ofExcept (messageToJs m) := by
  simp only [decryptMessage, onMessage, read, SalsaNonce.fromSlice_toList, PublicKey.asBytes,
    jsValueToArray_toList, Outcome.ofExcept_ok, Outcome.ok_bind, opened, Except.mapError]

end Exported

/-- A message comes back as it was, straight or through the two exported functions, exactly
when all its entries are raw data. -/
theorem js_boundary_iff (lawful : cb.Lawful) (seals : cb.SealsAll) (debug : DebugText)
    (m : Message) (nonce : SalsaNonce) (a b : SecretKey) :
    (∃ map sealed opened, messageToJs m = .ok map ∧ messageFromJs map = .ok m ∧
      encryptMessage cb debug map nonce.toList (cb.publicKey b).asBytes a.bytes.toList =
        .ok sealed ∧
      decryptMessage cb debug sealed nonce.toList (cb.publicKey a).asBytes b.bytes.toList =
        .ok opened ∧
      messageFromJs opened = .ok m) ↔
    ∀ e ∈ m.entries, e.kind = .rawData := by
  rw [← Message.relabel_eq_self_iff]
  constructor
  · rintro ⟨map, sealed, opened, written, read, -⟩
    rw [messageFromJs_messageToJs written] at read
    exact Except.ok.inj read
  · intro same
    obtain ⟨e, encrypted⟩ := Message.encrypt_total seals m nonce (cb.publicKey b) a
    have decrypted : Cypher.decrypt cb (e.relabel .rawData) nonce (cb.publicKey a) b = .ok m := by
      rw [← same]
      apply Message.decrypt_relabel
      exact (Message.roundTrips lawful).decrypt_encrypt (lawful.agree b a) encrypted
    have read : ∀ {map}, messageToJs m = .ok map → messageFromJs map = .ok m := by
      intro map written
      rw [messageFromJs_messageToJs written, same]
    exact ⟨_, _, _, rfl, read rfl, encryptMessage_ok (read rfl) encrypted,
      decryptMessage_ok (messageFromJs_messageToJs rfl) decrypted, read rfl⟩

theorem js_boundary_rawData :
    let m : Message := ⟨[⟨[7], [8], .rawData⟩, ⟨[], [9], .rawData⟩]⟩
    ∃ map sealed opened, messageToJs m = .ok map ∧ messageFromJs map = .ok m ∧
      encryptMessage clearBox ⟨fun _ => "", fun _ => "", fun _ => ""⟩ map
        (List.replicate nonceSize 5) (List.replicate keySize 6) (List.replicate keySize 3) =
          .ok sealed ∧
      decryptMessage clearBox ⟨fun _ => "", fun _ => "", fun _ => ""⟩ sealed
        (List.replicate nonceSize 5) (List.replicate keySize 3) (List.replicate keySize 6) =
          .ok opened ∧
      messageFromJs opened = .ok m :=
  (js_boundary_iff clearBox_lawful clearBox_sealsAll _ _ (List.Vector.replicate nonceSize 5)
    ⟨List.Vector.replicate keySize 3⟩ ⟨List.Vector.replicate keySize 6⟩).mpr (by decide)

/-- A file that only crosses the boundary comes back as raw data. -/
theorem file_becomes_rawData :
    ∃ map, messageToJs ⟨[⟨[7], [8], .file⟩]⟩ = .ok map ∧
      messageFromJs map = .ok ⟨[⟨[7], [8], .rawData⟩]⟩ ∧
      messageFromJs map ≠ .ok ⟨[⟨[7], [8], .file⟩]⟩ := by
  have written : messageToJs ⟨[⟨[7], [8], .file⟩]⟩ = .ok _ := rfl
  have read := messageFromJs_messageToJs written
  refine ⟨_, written, read, fun same => ?_⟩
  rw [read] at same
  exact absurd (Except.ok.inj same) (by decide)

end Nolik
