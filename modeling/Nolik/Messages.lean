import Nolik.Cypher
import Nolik.Library.Scale

/-! The message format, its derived `Cypher` implementations and its SCALE encoding. The kind of
an entry passes through encryption in clear. -/
namespace Nolik
open ByteString Effects Sealing

inductive MessageType where
  | rawData
  | file
  deriving DecidableEq, Repr, Inhabited

structure MessageEntry where
  key : Bytes
  value : Bytes
  kind : MessageType
  deriving DecidableEq

structure Message where
  entries : List MessageEntry
  deriving DecidableEq

inductive MessageAction where
  | encrypt
  | decrypt
  deriving DecidableEq

variable {K : Type}

instance (cb : CryptoBox K) : Cypher cb MessageType where
  encrypt self _ _ _ := pure self
  decrypt self _ _ _ := pure self

instance (cb : CryptoBox K) : Cypher cb MessageEntry where
  encrypt self nonce pk sk := do
    let key ← BytesCypher.encrypt cb self.key nonce pk sk
    let value ← BytesCypher.encrypt cb self.value nonce pk sk
    let kind ← Cypher.encrypt cb self.kind nonce pk sk
    pure { key, value, kind }
  decrypt self nonce pk sk := do
    let key ← BytesCypher.decrypt cb self.key nonce pk sk
    let value ← BytesCypher.decrypt cb self.value nonce pk sk
    let kind ← Cypher.decrypt cb self.kind nonce pk sk
    pure { key, value, kind }

instance (cb : CryptoBox K) : Cypher cb Message where
  encrypt self nonce pk sk := do
    let entries ← Cypher.encrypt cb self.entries nonce pk sk
    pure { entries }
  decrypt self nonce pk sk := do
    let entries ← Cypher.decrypt cb self.entries nonce pk sk
    pure { entries }

variable {cb : CryptoBox K} {nonce : SalsaNonce} {pk : PublicKey} {sk : SecretKey}

theorem MessageEntry.encrypt_ok_iff {x e : MessageEntry} :
    (Cypher.encrypt cb x nonce pk sk).result = .ok e ↔
      (BytesCypher.encrypt cb x.key nonce pk sk).result = .ok e.key ∧
      (BytesCypher.encrypt cb x.value nonce pk sk).result = .ok e.value ∧ x.kind = e.kind := by
  obtain ⟨key, value, kind⟩ := e
  simp only [Cypher.encrypt, Traced.bind_ok_iff, Traced.pure_ok_iff, MessageEntry.mk.injEq]
  constructor
  · rintro ⟨_, key, _, value, _, kind, rfl, rfl, rfl⟩
    exact ⟨key, value, kind⟩
  · rintro ⟨key, value, kind⟩
    exact ⟨_, key, _, value, _, kind, rfl, rfl, rfl⟩

theorem MessageEntry.decrypt_ok_iff {e x : MessageEntry} :
    Cypher.decrypt cb e nonce pk sk = .ok x ↔
      BytesCypher.decrypt cb e.key nonce pk sk = .ok x.key ∧
      BytesCypher.decrypt cb e.value nonce pk sk = .ok x.value ∧ e.kind = x.kind := by
  obtain ⟨key, value, kind⟩ := x
  simp only [Cypher.decrypt, except_bind_ok_iff, except_pure_ok_iff, MessageEntry.mk.injEq]
  constructor
  · rintro ⟨_, key, _, value, _, kind, rfl, rfl, rfl⟩
    exact ⟨key, value, kind⟩
  · rintro ⟨key, value, kind⟩
    exact ⟨_, key, _, value, _, kind, rfl, rfl, rfl⟩

theorem Message.encrypt_ok_iff {m e : Message} :
    (Cypher.encrypt cb m nonce pk sk).result = .ok e ↔
      (Cypher.encrypt cb m.entries nonce pk sk).result = .ok e.entries := by
  obtain ⟨entries⟩ := e
  change (Cypher.encrypt cb m.entries nonce pk sk >>= fun es => pure (Message.mk es)).result = _ ↔ _
  simp only [Traced.bind_ok_iff, Traced.pure_ok_iff, Message.mk.injEq, exists_eq_right]

theorem Message.decrypt_ok_iff {e m : Message} :
    Cypher.decrypt cb e nonce pk sk = .ok m ↔
      Cypher.decrypt cb e.entries nonce pk sk = .ok m.entries := by
  obtain ⟨entries⟩ := m
  change (Cypher.decrypt cb e.entries nonce pk sk >>= fun es => pure (Message.mk es)) = _ ↔ _
  simp only [except_bind_ok_iff, except_pure_ok_iff, Message.mk.injEq, exists_eq_right]

theorem MessageEntry.roundTrips (lawful : cb.Lawful) : RoundTrips cb MessageEntry := by
  constructor
  intro x e nonce pk pk' sk sk' agreed sealed
  obtain ⟨key, value, kind⟩ := MessageEntry.encrypt_ok_iff.mp sealed
  exact MessageEntry.decrypt_ok_iff.mpr
    ⟨BytesCypher.decrypt_encrypt lawful agreed key,
      BytesCypher.decrypt_encrypt lawful agreed value, kind.symm⟩

theorem Message.roundTrips (lawful : cb.Lawful) : RoundTrips cb Message := by
  constructor
  intro m e nonce pk pk' sk sk' agreed sealed
  rw [Message.encrypt_ok_iff] at sealed
  have entries := (MessageEntry.roundTrips lawful).vec
  exact Message.decrypt_ok_iff.mpr (entries.decrypt_encrypt agreed sealed)

def Message.kinds (m : Message) : List MessageType := m.entries.map MessageEntry.kind

/-- Whoever holds the encrypted message chooses the kinds that come out. -/
theorem Message.decrypt_kinds {e m : Message} (opened : Cypher.decrypt cb e nonce pk sk = .ok m) :
    m.kinds = e.kinds := by
  have related := except_mapM_ok_iff.mp (Message.decrypt_ok_iff.mp opened)
  have same : List.Forall₂ (· = ·) e.kinds m.kinds := by
    rw [kinds, kinds, List.forall₂_map_left_iff, List.forall₂_map_right_iff]
    exact related.imp fun e x first => (MessageEntry.decrypt_ok_iff.mp first).2.2
  rw [List.forall₂_eq_eq_eq] at same
  exact same.symm

/-- The byte fields of a message, in the order they are encrypted. -/
def Message.leaves (m : Message) : List Bytes := m.entries.flatMap fun e => [e.key, e.value]

/-- What an entry carries besides its kind. -/
def Message.fields (m : Message) : List (Bytes × Bytes) := m.entries.map fun e => (e.key, e.value)

/-- Two leaves make an entry, so the leaves know where every entry ends. -/
theorem Message.fields_eq_of_leaves {m m' : Message} (same : m.leaves = m'.leaves) :
    m.fields = m'.fields := by
  obtain ⟨entries⟩ := m
  obtain ⟨entries'⟩ := m'
  simp only [leaves, fields] at same ⊢
  induction entries generalizing entries' with
  | nil =>
      cases entries' with
      | nil => rfl
      | cons e es => cases same
  | cons e es ih =>
      cases entries' with
      | nil => cases same
      | cons e' es' =>
          simp only [List.flatMap_cons, List.cons_append, List.nil_append, List.cons.injEq] at same
          simp only [List.map_cons, same.1, same.2.1, ih es' same.2.2]

theorem Message.eq_of_fields_kinds {m m' : Message} (fields : m.fields = m'.fields)
    (kinds : m.kinds = m'.kinds) : m = m' := by
  obtain ⟨entries⟩ := m
  obtain ⟨entries'⟩ := m'
  simp only [Message.fields, Message.kinds] at fields kinds
  congr 1
  induction entries generalizing entries' with
  | nil => exact (List.map_eq_nil_iff.mp fields.symm).symm
  | cons e es ih =>
      cases entries' with
      | nil => cases fields
      | cons e' es' =>
          simp only [List.map_cons, List.cons.injEq, Prod.mk.injEq] at fields kinds
          obtain ⟨⟨key, value⟩, otherFields⟩ := fields
          obtain ⟨kind, otherKinds⟩ := kinds
          have head : e = e' := by
            cases e; cases e'
            simp only at key value kind
            rw [key, value, kind]
          rw [head, ih es' otherFields otherKinds]

theorem MessageEntry.encrypt_total (seals : cb.SealsAll) (x : MessageEntry) (nonce : SalsaNonce)
    (pk : PublicKey) (sk : SecretKey) :
    ∃ e, (Cypher.encrypt cb x nonce pk sk).result = .ok e := by
  obtain ⟨key, hkey⟩ := BytesCypher.encrypt_total seals x.key nonce pk sk
  obtain ⟨value, hvalue⟩ := BytesCypher.encrypt_total seals x.value nonce pk sk
  exact ⟨⟨key, value, x.kind⟩, MessageEntry.encrypt_ok_iff.mpr ⟨hkey, hvalue, rfl⟩⟩

theorem Message.encrypt_total (seals : cb.SealsAll) (m : Message) (nonce : SalsaNonce)
    (pk : PublicKey) (sk : SecretKey) :
    ∃ e, (Cypher.encrypt cb m nonce pk sk).result = .ok e := by
  have each : ∀ x ∈ m.entries, ∃ e, (Cypher.encrypt cb x nonce pk sk).result = .ok e :=
    fun x _ => MessageEntry.encrypt_total seals x nonce pk sk
  obtain ⟨entries, sealed⟩ := except_mapM_total_iff.mpr each
  refine ⟨⟨entries⟩, Message.encrypt_ok_iff.mpr ?_⟩
  exact (Traced.result_mapM _ _).trans sealed

theorem MessageEntry.trace_encrypt (seals : cb.SealsAll) (x : MessageEntry) :
    (Cypher.encrypt cb x nonce pk sk).trace =
      [x.key, x.value].map (SealCall.mk (cb.new pk sk) nonce) := by
  obtain ⟨key, hkey⟩ := BytesCypher.encrypt_total seals x.key nonce pk sk
  obtain ⟨value, hvalue⟩ := BytesCypher.encrypt_total seals x.value nonce pk sk
  simp only [Cypher.encrypt]
  rw [Traced.trace_bind_ok hkey, Traced.trace_bind_ok hvalue]
  rfl

theorem Message.trace_encrypt (seals : cb.SealsAll) (m : Message) :
    (Cypher.encrypt cb m nonce pk sk).trace =
      m.leaves.map (SealCall.mk (cb.new pk sk) nonce) := by
  change (Cypher.encrypt cb m.entries nonce pk sk >>= fun es => pure (Message.mk es)).trace = _
  rw [Traced.trace_bind_pure]
  change (m.entries.mapM fun x => Cypher.encrypt cb x nonce pk sk).trace = _
  rw [Traced.trace_mapM_ok _ _ (fun x _ => MessageEntry.encrypt_total seals x nonce pk sk)]
  simp only [MessageEntry.trace_encrypt seals, Message.leaves, List.map_flatMap]

/-- The variant index, as `derive(Encode, Decode)` numbers an enum. -/
def MessageType.codec : Scale.Codec MessageType where
  encode
    | .rawData => some [0]
    | .file => some [1]
  decode
    | 0 :: rest => some (.rawData, rest)
    | 1 :: rest => some (.file, rest)
    | _ => none
  decode_encode := by
    intro kind bytes rest h
    cases kind <;> cases h <;> rfl

def MessageEntry.codec : Scale.Codec MessageEntry :=
  (Scale.byte.vec.pair (Scale.byte.vec.pair MessageType.codec)).iso
    (fun (key, value, kind) => { key, value, kind }) (fun e => (e.key, e.value, e.kind))
    (fun _ => rfl)

def Message.codec : Scale.Codec Message :=
  MessageEntry.codec.vec.iso Message.mk Message.entries (fun _ => rfl)

/-- `Message::encode`; `none` is the encoder's abort on a collection above `u32::MAX`. -/
def Message.encode (m : Message) : Option Bytes := Message.codec.encode m

/-- `Message::decode` of a slice, with what it leaves unread. -/
def Message.decode (bytes : Bytes) : Option (Message × Bytes) := Message.codec.decode bytes

theorem Message.decode_encode {m : Message} {bytes : Bytes} (h : m.encode = some bytes) :
    Message.decode bytes = some (m, []) := by
  have read := Message.codec.decode_encode [] h
  rwa [List.append_nil] at read

/-- Only a collection above `u32::MAX` has no encoding. -/
theorem Message.encode_total_iff {m : Message} :
    (∃ bytes, m.encode = some bytes) ↔ m.entries.length < 2 ^ 32 ∧
      ∀ e ∈ m.entries, e.key.length < 2 ^ 32 ∧ e.value.length < 2 ^ 32 := by
  have bytes : ∀ data : Bytes, (∃ bytes, Scale.byte.vec.encode data = some bytes) ↔
      data.length < 2 ^ 32 := by
    intro data
    rw [Scale.Codec.vec_encode_total_iff]
    exact ⟨And.left, fun size => ⟨size, fun b _ => ⟨[b], rfl⟩⟩⟩
  have kinds : ∀ kind, ∃ bytes, MessageType.codec.encode kind = some bytes := by
    intro kind
    cases kind <;> exact ⟨_, rfl⟩
  have entry : ∀ e : MessageEntry, (∃ bytes, MessageEntry.codec.encode e = some bytes) ↔
      e.key.length < 2 ^ 32 ∧ e.value.length < 2 ^ 32 := by
    intro e
    simp only [MessageEntry.codec, Scale.Codec.iso, Scale.Codec.pair_encode_total_iff, bytes, kinds,
      and_true]
  simp only [← entry]
  exact Scale.Codec.vec_encode_total_iff MessageEntry.codec

theorem Message.encode_ne_nil {m : Message} {bytes : Bytes} (h : m.encode = some bytes) :
    bytes ≠ [] := Scale.Codec.vec_encode_ne_nil MessageEntry.codec h

end Nolik
