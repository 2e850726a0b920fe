import Nolik.Library.Record
import Nolik.Messages

/-! The types that `derive(Cypher)` and `Vec` build over byte vectors and message types, as
codes, with the generated functions by recursion on the code. The names of the fields play no
part in them. Rust has byte vectors only as fields; the codes allow them anywhere. -/
namespace Nolik
open ByteString Effects Sealing

/-- A type under the `Cypher` trait. -/
inductive Ty where
  | bytes
  | messageType
  | vec (item : Ty)
  | struct {n : Nat} (field : Fin n → Ty)

/-- The values of a type. The fields of a struct are in declaration order. -/
def Ty.Val : Ty → Type
  | bytes => Bytes
  | messageType => MessageType
  | vec item => List item.Val
  | struct field => ∀ i, (field i).Val

variable {K : Type} (cb : CryptoBox K)

namespace Ty

def encrypt : (t : Ty) → t.Val → SalsaNonce → PublicKey → SecretKey → Encrypting K t.Val
  | bytes, self, nonce, pk, sk => BytesCypher.encrypt cb self nonce pk sk
  | messageType, self, nonce, pk, sk => @Cypher.encrypt K cb MessageType _ self nonce pk sk
  | vec item, self, nonce, pk, sk => List.mapM (fun x => item.encrypt x nonce pk sk) self
  | struct field, self, nonce, pk, sk =>
      collectFields fun i => (field i).encrypt (self i) nonce pk sk

def decrypt : (t : Ty) → t.Val → SalsaNonce → PublicKey → SecretKey → Except CypherError t.Val
  | bytes, self, nonce, pk, sk => BytesCypher.decrypt cb self nonce pk sk
  | messageType, self, nonce, pk, sk => @Cypher.decrypt K cb MessageType _ self nonce pk sk
  | vec item, self, nonce, pk, sk => List.mapM (fun x => item.decrypt x nonce pk sk) self
  | struct field, self, nonce, pk, sk =>
      collectFields fun i => (field i).decrypt (self i) nonce pk sk

/-- Equal up to the contents of the byte vectors. -/
def SameShape : (t : Ty) → t.Val → t.Val → Prop
  | bytes, _, _ => True
  | messageType, x, y => x = y
  | vec item, x, y => List.Forall₂ item.SameShape x y
  | struct field, x, y => ∀ i, (field i).SameShape (x i) (y i)

/-- The byte vectors of a value, in the order they are encrypted. -/
def leaves : (t : Ty) → t.Val → List Bytes
  | bytes, x => [x]
  | messageType, _ => []
  | vec item, x => List.flatMap item.leaves x
  | @struct n field, x => (List.finRange n).flatMap fun i => (field i).leaves (x i)

variable {cb} {nonce : SalsaNonce} {pk : PublicKey} {sk : SecretKey}

theorem encrypt_vec_ok_iff {item : Ty} {xs es : List item.Val} :
    ((vec item).encrypt cb xs nonce pk sk).result = .ok es ↔
      List.Forall₂ (fun x e => (item.encrypt cb x nonce pk sk).result = .ok e) xs es := by
  rw [← except_mapM_ok_iff, ← Traced.result_mapM]
  rfl

theorem decrypt_vec_ok_iff {item : Ty} {es xs : List item.Val} :
    (vec item).decrypt cb es nonce pk sk = .ok xs ↔
      List.Forall₂ (fun e x => item.decrypt cb e nonce pk sk = .ok x) es xs := by
  rw [← except_mapM_ok_iff]
  rfl

theorem encrypt_struct_ok_iff {n : Nat} {field : Fin n → Ty} {x e : ∀ i, (field i).Val} :
    ((struct field).encrypt cb x nonce pk sk).result = .ok e ↔
      ∀ i, ((field i).encrypt cb (x i) nonce pk sk).result = .ok (e i) := by
  rw [← except_collectFields_ok_iff, ← Traced.result_collectFields]
  rfl

theorem decrypt_struct_ok_iff {n : Nat} {field : Fin n → Ty} {e x : ∀ i, (field i).Val} :
    (struct field).decrypt cb e nonce pk sk = .ok x ↔
      ∀ i, (field i).decrypt cb (e i) nonce pk sk = .ok (x i) := by
  rw [← except_collectFields_ok_iff]
  rfl

theorem encrypt_total (seals : cb.SealsAll) (t : Ty) (x : t.Val) (nonce : SalsaNonce)
    (pk : PublicKey) (sk : SecretKey) : ∃ e, (t.encrypt cb x nonce pk sk).result = .ok e := by
  induction t with
  | bytes => exact BytesCypher.encrypt_total seals x nonce pk sk
  | messageType => exact ⟨x, rfl⟩
  | vec item ih =>
      change List item.Val at x
      obtain ⟨es, sealed⟩ := except_mapM_total_iff.mpr fun y (_ : y ∈ x) => ih y
      exact ⟨es, encrypt_vec_ok_iff.mpr (except_mapM_ok_iff.mp sealed)⟩
  | struct field ih =>
      choose e sealed using fun i => ih i (x i)
      exact ⟨e, encrypt_struct_ok_iff.mpr sealed⟩

theorem sameShape_encrypt {t : Ty} {x e : t.Val}
    (sealed : (t.encrypt cb x nonce pk sk).result = .ok e) : t.SameShape x e := by
  induction t with
  | bytes => trivial
  | messageType => exact Except.ok.inj sealed
  | vec item ih => exact (encrypt_vec_ok_iff.mp sealed).imp fun y f first => ih first
  | struct field ih => exact fun i => ih i (encrypt_struct_ok_iff.mp sealed i)

theorem decrypt_encrypt (lawful : cb.Lawful) {t : Ty} {x e : t.Val} {pk' : PublicKey}
    {sk' : SecretKey} (agreed : cb.new pk sk = cb.new pk' sk')
    (sealed : (t.encrypt cb x nonce pk sk).result = .ok e) :
    t.decrypt cb e nonce pk' sk' = .ok x := by
  induction t with
  | bytes => exact BytesCypher.decrypt_encrypt lawful agreed sealed
  | messageType => exact congrArg Except.ok (Except.ok.inj sealed).symm
  | vec item ih =>
      apply decrypt_vec_ok_iff.mpr
      exact ((encrypt_vec_ok_iff.mp sealed).imp fun y f first => ih first).flip
  | struct field ih =>
      exact decrypt_struct_ok_iff.mpr fun i => ih i (encrypt_struct_ok_iff.mp sealed i)

/-- The first byte vector on the way refuses to open, and no other is looked at. -/
theorem decrypt_other (keyBound : cb.KeyBound) (nonceBound : cb.NonceBound) {t : Ty}
    {x e : t.Val} {nonce' : SalsaNonce} {pk' : PublicKey} {sk' : SecretKey}
    (other : nonce' ≠ nonce ∨ cb.new pk' sk' ≠ cb.new pk sk)
    (sealed : (t.encrypt cb x nonce pk sk).result = .ok e) (some : t.leaves x ≠ []) :
    ∃ err, t.decrypt cb e nonce' pk' sk' = .error err := by
  induction t with
  | bytes => exact BytesCypher.decrypt_other keyBound nonceBound other sealed
  | messageType => exact absurd rfl some
  | vec item ih =>
      obtain ⟨leaf, member⟩ := List.exists_mem_of_ne_nil _ some
      obtain ⟨y, member, within⟩ := List.mem_flatMap.mp member
      obtain ⟨f, found, first⟩ := exists_mem_of_forall₂ (encrypt_vec_ok_iff.mp sealed) member
      exact except_mapM_error found (ih first (List.ne_nil_of_mem within))
  | struct field ih =>
      obtain ⟨leaf, member⟩ := List.exists_mem_of_ne_nil _ some
      obtain ⟨i, -, within⟩ := List.mem_flatMap.mp member
      have part := encrypt_struct_ok_iff.mp sealed i
      exact except_collectFields_error (ih i part (List.ne_nil_of_mem within))

end Ty

/-- Whatever `derive(Cypher)` and `Vec` build keeps the law of the byte vectors. Encryption
between two key pairs gives a value of the same shape, which the other side decrypts to the
original; with a byte vector in it, it decrypts under no other nonce and no other box key. -/
theorem cypher_law {cb : CryptoBox K} (lawful : cb.Lawful) (seals : cb.SealsAll)
    (keyBound : cb.KeyBound) (nonceBound : cb.NonceBound) (t : Ty) (x : t.Val)
    (nonce : SalsaNonce) (a b : SecretKey) :
    ∃ e, (t.encrypt cb x nonce (cb.publicKey b) a).result = .ok e ∧ t.SameShape x e ∧
      t.decrypt cb e nonce (cb.publicKey a) b = .ok x ∧
      (t.leaves x ≠ [] → ∀ nonce' pk sk,
        (nonce' ≠ nonce ∨ cb.new pk sk ≠ cb.new (cb.publicKey b) a) →
        ∃ err, t.decrypt cb e nonce' pk sk = .error err) := by
  obtain ⟨e, sealed⟩ := t.encrypt_total seals x nonce (cb.publicKey b) a
  refine ⟨e, sealed, Ty.sameShape_encrypt sealed, ?_, fun some nonce' pk sk other => ?_⟩
  · exact Ty.decrypt_encrypt lawful (lawful.agree b a) sealed
  · exact Ty.decrypt_other keyBound nonceBound other sealed some

/-- A vector of structs, each of a struct with two byte vectors and a message type. -/
theorem cypher_law_nested :
    let inner : Ty := @Ty.struct 3 fun
      | 0 => .bytes
      | 1 => .bytes
      | 2 => .messageType
    let outer : Ty := .vec (@Ty.struct 2 fun
      | 0 => inner
      | 1 => .messageType)
    let entry : inner.Val := fun
      | 0 => [7]
      | 1 => []
      | 2 => MessageType.file
    let x : outer.Val := [fun
      | 0 => entry
      | 1 => MessageType.rawData]
    let a : SecretKey := ⟨List.Vector.replicate keySize 3⟩
    let b : SecretKey := ⟨List.Vector.replicate keySize 6⟩
    let nonce : SalsaNonce := List.Vector.replicate nonceSize 5
    ∃ e, (outer.encrypt clearBox x nonce (clearBox.publicKey b) a).result = .ok e ∧
      outer.decrypt clearBox e nonce (clearBox.publicKey a) b = .ok x ∧
      ∃ err, outer.decrypt clearBox e (List.Vector.replicate nonceSize 8) (clearBox.publicKey a)
        b = .error err := by
  intro inner outer entry x a b nonce
  obtain ⟨e, sealed, -, opened, refused⟩ :=
    cypher_law clearBox_lawful clearBox_sealsAll clearBox_keyBound clearBox_nonceBound outer x
      nonce a b
  have some : outer.leaves x ≠ [] := by
    have shown : outer.leaves x = [[7], []] := by rfl
    rw [shown]
    exact List.cons_ne_nil _ _
  exact ⟨e, sealed, opened, refused some _ _ _ (.inl (by decide))⟩

namespace Ty

def messageEntry : Ty := @struct 3 fun
  | 0 => bytes
  | 1 => bytes
  | 2 => messageType

def message : Ty := @struct 1 fun
  | 0 => vec messageEntry

end Ty

def MessageEntry.toVal (e : MessageEntry) : Ty.messageEntry.Val := fun
  | 0 => e.key
  | 1 => e.value
  | 2 => e.kind

def Message.toVal (m : Message) : Ty.message.Val := fun
  | 0 => m.entries.map MessageEntry.toVal

section Instances
variable {cb : CryptoBox K} {nonce : SalsaNonce} {pk : PublicKey} {sk : SecretKey}

theorem MessageEntry.toVal_mk (key value : Bytes) (kind : MessageType) :
    (Fin.cons key (Fin.cons value (Fin.cons kind fun i => i.elim0)) : Ty.messageEntry.Val) =
      MessageEntry.toVal ⟨key, value, kind⟩ := by
  funext i
  match i with
  | 0 => rfl
  | 1 => rfl
  | 2 => rfl

theorem Message.toVal_mk (entries : List MessageEntry) :
    (Fin.cons (entries.map MessageEntry.toVal) fun i => i.elim0 : Ty.message.Val) =
      Message.toVal ⟨entries⟩ := by
  funext i
  match i with
  | 0 => rfl

/-- The instance written out for an entry is the one generated for its type. -/
theorem MessageEntry.encrypt_toVal (x : MessageEntry) :
    Ty.messageEntry.encrypt cb x.toVal nonce pk sk =
      MessageEntry.toVal <$> Cypher.encrypt cb x nonce pk sk := by
  change collectFields (fun i => _) = _
  simp only [collectFields, Cypher.encrypt, bind_assoc, pure_bind, map_bind, map_pure,
    ← MessageEntry.toVal_mk]
  rfl

theorem MessageEntry.decrypt_toVal (x : MessageEntry) :
    Ty.messageEntry.decrypt cb x.toVal nonce pk sk =
      MessageEntry.toVal <$> Cypher.decrypt cb x nonce pk sk := by
  change collectFields (fun i => _) = _
  simp only [collectFields, Cypher.decrypt, bind_assoc, pure_bind, map_bind, map_pure,
    ← MessageEntry.toVal_mk]
  rfl

theorem Message.encrypt_toVal (m : Message) :
    Ty.message.encrypt cb m.toVal nonce pk sk =
      Message.toVal <$> Cypher.encrypt cb m nonce pk sk := by
  have entries : List.mapM (fun v => Ty.messageEntry.encrypt cb v nonce pk sk)
      (m.entries.map MessageEntry.toVal) =
        List.map MessageEntry.toVal <$> Cypher.encrypt cb m.entries nonce pk sk := by
    rw [List.mapM_map]
    exact (congrArg (fun f => List.mapM f m.entries) (funext MessageEntry.encrypt_toVal)).trans
      (mapM_map_comm _ _ _)
  change (List.mapM (fun v => Ty.messageEntry.encrypt cb v nonce pk sk)
    (m.entries.map MessageEntry.toVal) >>= fun es => _) = _
  rw [entries]
  change _ = Message.toVal <$> (Cypher.encrypt cb m.entries nonce pk sk >>= fun es => pure ⟨es⟩)
  simp only [bind_map_left, map_bind, map_pure, ← Message.toVal_mk]
  rfl

theorem Message.decrypt_toVal (m : Message) :
    Ty.message.decrypt cb m.toVal nonce pk sk =
      Message.toVal <$> Cypher.decrypt cb m nonce pk sk := by
  have entries : List.mapM (fun v => Ty.messageEntry.decrypt cb v nonce pk sk)
      (m.entries.map MessageEntry.toVal) =
        List.map MessageEntry.toVal <$> Cypher.decrypt cb m.entries nonce pk sk := by
    rw [List.mapM_map]
    exact (congrArg (fun f => List.mapM f m.entries) (funext MessageEntry.decrypt_toVal)).trans
      (mapM_map_comm _ _ _)
  change (List.mapM (fun v => Ty.messageEntry.decrypt cb v nonce pk sk)
    (m.entries.map MessageEntry.toVal) >>= fun es => _) = _
  rw [entries]
  change _ = Message.toVal <$> (Cypher.decrypt cb m.entries nonce pk sk >>= fun es => pure ⟨es⟩)
  simp only [bind_map_left, map_bind, map_pure, ← Message.toVal_mk]
  rfl

end Instances
end Nolik
