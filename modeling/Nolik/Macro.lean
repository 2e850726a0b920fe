import Nolik.Derive
import Nolik.Library.EarlyReturn

/-! `derive(Cypher)` from the parsed declaration to the generated `impl`, and what the generated
functions do when they are run. The method that a field's type has is the one Rust resolves:
that of the byte slice for `Vec<u8>`, that of the trait for any other type. -/
namespace Nolik
open ByteString Effects EarlyReturn

/-- `syn::Type`, as far as it decides on the methods of a field. -/
inductive TypeExpr where
  | bytes
  | path (name : Ident)
  | vec (item : TypeExpr)

structure NamedField where
  ident : Ident
  ty : TypeExpr

inductive Fields where
  | named (fields : List NamedField)
  | unnamed (fields : List TypeExpr)
  | unit

inductive Data where
  | struct (fields : Fields)
  | enum (variants : List (Ident × Fields))
  | union (fields : List NamedField)

structure TypeParam where
  ident : Ident
  bounds : List Ident

inductive GenericParam where
  | lifetime (name : Ident)
  | type (param : TypeParam)
  | const (name : Ident)

/-- The predicates of the where clause are kept as they are. -/
structure Generics where
  params : List GenericParam
  whereClause : List String

structure DeriveInput where
  ident : Ident
  generics : Generics
  data : Data

inductive Direction where
  | encrypt
  | decrypt

/-- `impl<..> Cypher for Name<..> where ..`, with the bodies of its two functions. -/
structure CypherImpl where
  generics : Generics
  selfTy : Ident × List Ident
  encrypt : Body
  decrypt : Body

/-- Add a bound `T: Cypher` to every type parameter T. -/
def addTraitBounds (generics : Generics) : Generics :=
  { generics with
    params := generics.params.map fun
      | .type param => .type { param with bounds := param.bounds ++ ["Cypher"] }
      | param => param }

def GenericParam.ident : GenericParam → Ident
  | lifetime name => name
  | type param => param.ident
  | const name => name

def Direction.method : Direction → Ident
  | encrypt => "encrypt"
  | decrypt => "decrypt"

/-- `#name: self.#name.encrypt(nonce, pk, sk)?`, or the same with `decrypt`. -/
def cypherField (direction : Direction) (f : NamedField) : Ident × Expr :=
  (f.ident, .try (.methodCall (.field (.var "self") f.ident) direction.method
    ["nonce", "pk", "sk"]))

/-- `panic` is `unimplemented!()`. -/
def cypherFields (data : Data) (direction : Direction) : Outcome Empty Body :=
  match data with
  | .struct fields => match fields with
    | .named fields => .ok ⟨fields.map (cypherField direction)⟩
    | _ => .panic
  | .enum _ => .panic
  | .union _ => .panic

def implDeriveCypher (input : DeriveInput) : Outcome Empty CypherImpl := do
  let generics := addTraitBounds input.generics
  let encrypted ← cypherFields input.data .encrypt
  let decrypted ← cypherFields input.data .decrypt
  pure {
    generics := generics
    selfTy := (input.ident, generics.params.map GenericParam.ident)
    encrypt := encrypted
    decrypt := decrypted }

/-- The trait is implemented by message types, by vectors over it, and by structs whose
fields have its methods. `Vec<u8>` has the methods of the byte slice only. -/
def Ty.implements : Ty → Bool
  | bytes => false
  | messageType => true
  | vec item => item.implements
  | @struct n field => (List.finRange n).all fun i => match field i with
    | bytes => true
    | _ => (field i).implements

def Ty.hasMethods : Ty → Bool
  | bytes => true
  | t => t.implements

namespace TypeExpr

/-- The type behind the expression, given those behind the names. -/
def resolve (types : Ident → Option Ty) : TypeExpr → Option Ty
  | bytes => some .bytes
  | path name => types name
  | vec item => (item.resolve types).map .vec

/-- What the compiler knows, given the names known to implement the trait. -/
def implements (known : Ident → Bool) : TypeExpr → Bool
  | bytes => false
  | path name => known name
  | vec item => item.implements known

def hasMethods (known : Ident → Bool) : TypeExpr → Bool
  | bytes => true
  | t => t.implements known

end TypeExpr

def GenericParam.typeParam : GenericParam → Option TypeParam
  | type param => some param
  | _ => none

/-- A type parameter implements what it is bounded by, and hides the names in scope. -/
def Generics.known (generics : Generics) (inScope : Ident → Bool) (name : Ident) : Bool :=
  match (generics.params.filterMap GenericParam.typeParam).find? fun p => p.ident = name with
  | some param => param.bounds.contains "Cypher"
  | none => inScope name

/-- The types put in for the names implement the trait where the compiler relies on it. -/
def Respects (known : Ident → Bool) (types : Ident → Option Ty) : Prop :=
  ∀ name, known name → ∃ t, types name = some t ∧ t.implements

abbrev Value := Σ t : Ty, t.Val

inductive Argument where
  | nonce (nonce : SalsaNonce)
  | pk (pk : PublicKey)
  | sk (sk : SecretKey)

variable {K : Type}

def silently {α : Type} (r : Except CypherError α) : Encrypting K α := ExceptT.mk (pure r)

def Ty.perform (cb : CryptoBox K) (direction : Direction) (t : Ty) (x : t.Val)
    (nonce : SalsaNonce) (pk : PublicKey) (sk : SecretKey) : Encrypting K t.Val :=
  match direction with
  | .encrypt => t.encrypt cb x nonce pk sk
  | .decrypt => silently (t.decrypt cb x nonce pk sk)

def Value.methods (cb : CryptoBox K) :
    Methods Value Argument (Sealing.SealCall SalsaNonce K) CypherError
  | ⟨t, v⟩, method, [.nonce nonce, .pk pk, .sk sk] =>
    if t.hasMethods then
      match method with
      | "encrypt" => some (Sigma.mk t <$> t.perform cb .encrypt v nonce pk sk)
      | "decrypt" => some (Sigma.mk t <$> t.perform cb .decrypt v nonce pk sk)
      | _ => none
    else none
  | _, _, _ => none

def bodyEnv (self : List (Ident × Value)) (nonce : SalsaNonce) (pk : PublicKey)
    (sk : SecretKey) : Env Value Argument CypherError
  | "self" => some (.record self)
  | "nonce" => some (.argument (.nonce nonce))
  | "pk" => some (.argument (.pk pk))
  | "sk" => some (.argument (.sk sk))
  | _ => none

def CypherImpl.call (cb : CryptoBox K) (impl : CypherImpl) (direction : Direction)
    (self : List (Ident × Value)) (nonce : SalsaNonce) (pk : PublicKey) (sk : SecretKey) :
    Option (Encrypting K (List (Ident × Value))) :=
  let body := match direction with
    | .encrypt => impl.encrypt
    | .decrypt => impl.decrypt
  body.call (Value.methods cb) (bodyEnv self nonce pk sk)

def structRecord (fields : List NamedField) {types : Fin fields.length → Ty}
    (x : (Ty.struct types).Val) : List (Ident × Value) :=
  List.ofFn fun i => ((fields.get i).ident, ⟨types i, x i⟩)

section Meaning
variable {cb : CryptoBox K} {nonce : SalsaNonce} {pk : PublicKey} {sk : SecretKey}

theorem silently_collectFields {n : Nat} {P : Fin n → Type} (f : ∀ i, Except CypherError (P i)) :
    (silently (collectFields f) : Encrypting K _) = collectFields fun i => silently (f i) := by
  induction n with
  | zero => rfl
  | succ n ih =>
      rw [collectFields, collectFields, ← ih]
      cases f 0 with
      | error e => rfl
      | ok first =>
          cases collectFields fun i => f i.succ with
          | error e => rfl
          | ok others => rfl

theorem Ty.perform_struct (direction : Direction) {n : Nat} (field : Fin n → Ty)
    (x : (struct field).Val) :
    (struct field).perform cb direction x nonce pk sk =
      collectFields fun i => (field i).perform cb direction (x i) nonce pk sk := by
  cases direction with
  | encrypt => rfl
  | decrypt => exact silently_collectFields _

theorem methods_perform (direction : Direction) {t : Ty} (has : t.hasMethods) (x : t.Val) :
    Value.methods cb ⟨t, x⟩ direction.method [.nonce nonce, .pk pk, .sk sk] =
      some (Sigma.mk t <$> t.perform cb direction x nonce pk sk) := by
  cases direction with
  | encrypt => exact if_pos has
  | decrypt => exact if_pos has

theorem lookup_of_nodup {l : List (Ident × Value)} {name : Ident} {v : Value}
    (distinct : (l.map Prod.fst).Nodup) (member : (name, v) ∈ l) : l.lookup name = some v := by
  induction l with
  | nil => cases member
  | cons p l ih =>
      obtain ⟨fresh, distinct⟩ := List.nodup_cons.mp distinct
      rcases List.mem_cons.mp member with rfl | later
      · exact List.lookup_cons_self
      · have other : name ≠ p.1 := by
          intro same
          exact fresh (List.mem_map.mpr ⟨_, later, same⟩)
        rw [List.lookup_cons, beq_eq_false_iff_ne.mpr other]
        exact ih distinct later

theorem evalField_cypherField (direction : Direction) {f : NamedField} {t : Ty} {x : t.Val}
    {self : List (Ident × Value)} (found : self.lookup f.ident = some ⟨t, x⟩)
    (has : t.hasMethods) :
    evalField (Value.methods cb) (bodyEnv self nonce pk sk) (cypherField direction f) =
      returning ((fun v => (f.ident, (⟨t, v⟩ : Value))) <$>
        t.perform cb direction x nonce pk sk) := by
  have receiver : eval (Value.methods cb) (bodyEnv self nonce pk sk)
      (.field (.var "self") f.ident) = pure (.value ⟨t, x⟩) := by
    simp only [eval, bodyEnv, pure_bind, found]
  have called : eval (Value.methods cb) (bodyEnv self nonce pk sk)
      (.methodCall (.field (.var "self") f.ident) direction.method ["nonce", "pk", "sk"]) =
        keeping (Sigma.mk t <$> t.perform cb direction x nonce pk sk) := by
    rw [eval, receiver, pure_bind]
    have args : ["nonce", "pk", "sk"].mapM (evalArg (bodyEnv self nonce pk sk)) =
        some [.nonce nonce, .pk pk, .sk sk] := rfl
    simp only [args, Option.bind_some, methods_perform direction has]
  rw [evalField, cypherField, eval_try called]
  simp only [returning_map]
  simp only [map_eq_pure_bind, bind_assoc, pure_bind]

theorem map_fst_structRecord (fields : List NamedField) {types : Fin fields.length → Ty}
    (x : (Ty.struct types).Val) :
    (structRecord fields x).map Prod.fst = fields.map NamedField.ident := by
  apply List.ext_getElem
  · simp only [structRecord, List.length_map, List.length_ofFn]
  · intro i inRecord inFields
    simp only [structRecord, List.getElem_map, List.getElem_ofFn, List.get_eq_getElem]

/-- A body with one line for each field treats the whole struct. -/
theorem call_structRecord (direction : Direction) {fields : List NamedField}
    (distinct : (fields.map NamedField.ident).Nodup) {types : Fin fields.length → Ty}
    (has : ∀ i, (types i).hasMethods) (x : (Ty.struct types).Val) :
    (Body.mk (fields.map (cypherField direction))).call (Value.methods cb)
        (bodyEnv (structRecord fields x) nonce pk sk) =
      some (structRecord fields <$>
        (Ty.struct types).perform cb direction x nonce pk sk) := by
  have found : ∀ i, (structRecord fields x).lookup (fields.get i).ident =
      some ⟨types i, x i⟩ := by
    intro i
    apply lookup_of_nodup
    · rw [map_fst_structRecord]
      exact distinct
    · exact List.mem_ofFn.mpr ⟨i, rfl⟩
  have made : (Body.mk (fields.map (cypherField direction))).call (Value.methods cb)
      (bodyEnv (structRecord fields x) nonce pk sk) = some ((List.ofFn fun i =>
        (fun v => ((fields.get i).ident, (⟨types i, v⟩ : Value))) <$>
          (types i).perform cb direction (x i) nonce pk sk).mapM id) := by
    apply Body.call_eq
    rw [List.forall₂_iff_get]
    refine ⟨by simp only [List.length_map, List.length_ofFn], fun i inLines _ => ?_⟩
    simp only [List.get_eq_getElem, List.getElem_map, List.getElem_ofFn]
    have inside : i < fields.length := by simpa only [List.length_map] using inLines
    exact evalField_cypherField direction (found ⟨i, inside⟩) (has ⟨i, inside⟩)
  rw [made, mapM_ofFn_map, Ty.perform_struct]
  rfl

end Meaning

theorem Ty.hasMethods_of_implements {t : Ty} (implementing : t.implements) : t.hasMethods := by
  cases t with
  | bytes => rfl
  | messageType => rfl
  | vec item => exact implementing
  | struct field => exact implementing

section Resolution
variable {known : Ident → Bool} {types : Ident → Option Ty}

theorem TypeExpr.resolve_implements (respects : Respects known types) {ty : TypeExpr}
    (checked : ty.implements known) : ∃ t, ty.resolve types = some t ∧ t.implements := by
  induction ty with
  | bytes => cases checked
  | path name => exact respects name checked
  | vec item ih =>
      obtain ⟨t, resolved, implementing⟩ := ih checked
      exact ⟨.vec t, by rw [resolve, resolved, Option.map_some], implementing⟩

/-- What the compiler accepts has the methods, whatever is put in for the names. -/
theorem TypeExpr.resolve_hasMethods (respects : Respects known types) {ty : TypeExpr}
    (checked : ty.hasMethods known) : ∃ t, ty.resolve types = some t ∧ t.hasMethods := by
  cases ty with
  | bytes => exact ⟨.bytes, rfl, rfl⟩
  | path name =>
      obtain ⟨t, resolved, implementing⟩ := resolve_implements respects checked
      exact ⟨t, resolved, Ty.hasMethods_of_implements implementing⟩
  | vec item =>
      obtain ⟨t, resolved, implementing⟩ := resolve_implements respects checked
      exact ⟨t, resolved, Ty.hasMethods_of_implements implementing⟩

end Resolution

theorem addTraitBounds_bounds {generics : Generics} {param : TypeParam}
    (member : .type param ∈ (addTraitBounds generics).params) : "Cypher" ∈ param.bounds := by
  obtain ⟨given, -, same⟩ := List.mem_map.mp member
  cases given with
  | lifetime name => cases same
  | const name => cases same
  | type given =>
      cases same
      exact List.mem_append_right _ List.mem_cons_self

theorem known_addTraitBounds {generics : Generics} {param : TypeParam}
    (member : .type param ∈ generics.params) (inScope : Ident → Bool) :
    (addTraitBounds generics).known inScope param.ident := by
  rw [Generics.known]
  cases search : ((addTraitBounds generics).params.filterMap GenericParam.typeParam).find?
      fun p => p.ident = param.ident with
  | none =>
      have bounded : .type { param with bounds := param.bounds ++ ["Cypher"] } ∈
          (addTraitBounds generics).params := List.mem_map.mpr ⟨_, member, rfl⟩
      have listed : ({ param with bounds := param.bounds ++ ["Cypher"] } : TypeParam) ∈
          (addTraitBounds generics).params.filterMap GenericParam.typeParam :=
        List.mem_filterMap.mpr ⟨_, bounded, rfl⟩
      have absent := List.find?_eq_none.mp search _ listed
      exact absurd (decide_eq_true rfl) absent
  | some found =>
      obtain ⟨generic, inParams, same⟩ := List.mem_filterMap.mp (List.mem_of_find?_eq_some search)
      cases generic with
      | lifetime name => cases same
      | const name => cases same
      | type p =>
          cases same
          exact List.contains_iff_mem.mpr (addTraitBounds_bounds inParams)

/-- Both functions of the `impl` treat a struct value field by field, in the order of the
declaration, each field with the method of its own type, up to the first error. -/
def CypherImpl.Means (cb : CryptoBox K) (impl : CypherImpl) (fields : List NamedField)
    (types : Fin fields.length → Ty) : Prop :=
  ∀ direction x nonce pk sk,
    impl.call cb direction (structRecord fields x) nonce pk sk =
      some (structRecord fields <$> (Ty.struct types).perform cb direction x nonce pk sk)

theorem implDeriveCypher_named {input : DeriveInput} {fields : List NamedField}
    (declared : input.data = .struct (.named fields)) :
    implDeriveCypher input = .ok {
      generics := addTraitBounds input.generics
      selfTy := (input.ident, (addTraitBounds input.generics).params.map GenericParam.ident)
      encrypt := ⟨fields.map (cypherField .encrypt)⟩
      decrypt := ⟨fields.map (cypherField .decrypt)⟩ } := by
  simp only [implDeriveCypher, declared, cypherFields, Outcome.ok_bind, Outcome.pure_eq]

theorem implDeriveCypher_panic_iff (input : DeriveInput) :
    implDeriveCypher input = .panic ↔ ∀ fields, input.data ≠ .struct (.named fields) := by
  constructor
  · intro aborted fields declared
    rw [implDeriveCypher_named declared] at aborted
    cases aborted
  · intro other
    rw [implDeriveCypher]
    cases shape : input.data with
    | enum variants => rfl
    | union fields => rfl
    | struct fields =>
        cases fields with
        | named fields => exact absurd shape (other fields)
        | unnamed types => rfl
        | unit => rfl

/-- The macro aborts on everything but a struct with named fields. For such a struct the
bounds it adds are enough: wherever every field is `Vec<u8>`, or nests `Vec` around type
parameters and types that implement the trait, the generated functions run for all types
put in for the parameters, and treat the fields in order by the methods of their types. -/
theorem implDeriveCypher_preserves (cb : CryptoBox K) (input : DeriveInput) :
    (implDeriveCypher input = .panic ↔ ∀ fields, input.data ≠ .struct (.named fields)) ∧
    ∀ fields, input.data = .struct (.named fields) →
      (fields.map NamedField.ident).Nodup →
      ∃ impl, implDeriveCypher input = .ok impl ∧
        impl.generics.whereClause = input.generics.whereClause ∧
        (∀ param, .type param ∈ input.generics.params → ∀ inScope,
          impl.generics.known inScope param.ident) ∧
        ∀ inScope types, (∀ f ∈ fields, f.ty.hasMethods (impl.generics.known inScope)) →
          Respects (impl.generics.known inScope) types →
          ∃ fieldTypes : Fin fields.length → Ty,
            (∀ i, (fields.get i).ty.resolve types = some (fieldTypes i)) ∧
            impl.Means cb fields fieldTypes := by
  refine ⟨implDeriveCypher_panic_iff input, fun fields declared distinct => ?_⟩
  refine ⟨_, implDeriveCypher_named declared, rfl,
    fun param member inScope => known_addTraitBounds member inScope,
    fun inScope types checked respects => ?_⟩
  have each : ∀ i, ∃ t, (fields.get i).ty.resolve types = some t ∧ t.hasMethods :=
    fun i => TypeExpr.resolve_hasMethods respects (checked _ (List.get_mem fields i))
  choose fieldTypes resolved has using each
  refine ⟨fieldTypes, resolved, fun direction x nonce pk sk => ?_⟩
  cases direction with
  | encrypt => exact call_structRecord .encrypt distinct has x
  | decrypt => exact call_structRecord .decrypt distinct has x

/-- `struct Wrapper<T> { inner: T, items: Vec<T>, data: Vec<u8> }`. -/
def DeriveInput.sample : DeriveInput where
  ident := "Wrapper"
  generics := ⟨[.type ⟨"T", []⟩], []⟩
  data := .struct (.named [⟨"inner", .path "T"⟩, ⟨"items", .vec (.path "T")⟩, ⟨"data", .bytes⟩])

theorem implDeriveCypher_preserves_sample :
    ∃ impl, implDeriveCypher DeriveInput.sample = .ok impl ∧
      ∃ fieldTypes, impl.Means clearBox
        [⟨"inner", .path "T"⟩, ⟨"items", .vec (.path "T")⟩, ⟨"data", .bytes⟩] fieldTypes := by
  obtain ⟨impl, generated, -, -, preserved⟩ :=
    (implDeriveCypher_preserves clearBox DeriveInput.sample).2 _ rfl (by decide)
  cases generated
  have respects : Respects ((addTraitBounds DeriveInput.sample.generics).known fun _ => false)
      fun _ => some (.vec .messageType) := fun name _ => ⟨_, rfl, rfl⟩
  obtain ⟨fieldTypes, -, means⟩ := preserved (fun _ => false) _ (by decide) respects
  exact ⟨_, rfl, fieldTypes, means⟩

/-- The declarations of `MessageEntry` and `Message`. -/
def MessageEntry.declaration : DeriveInput where
  ident := "MessageEntry"
  generics := ⟨[], []⟩
  data := .struct (.named [⟨"key", .bytes⟩, ⟨"value", .bytes⟩, ⟨"kind", .path "MessageType"⟩])

def Message.declaration : DeriveInput where
  ident := "Message"
  generics := ⟨[], []⟩
  data := .struct (.named [⟨"entries", .vec (.path "MessageEntry")⟩])

def MessageEntry.record (e : MessageEntry) : List (Ident × Value) :=
  [("key", ⟨.bytes, e.key⟩), ("value", ⟨.bytes, e.value⟩), ("kind", ⟨.messageType, e.kind⟩)]

def Message.record (m : Message) : List (Ident × Value) :=
  [("entries", ⟨.vec .messageEntry, m.entries.map MessageEntry.toVal⟩)]

/-- The two functions of the `impl` are those of the instance. -/
def CypherImpl.Implements {α : Type} (cb : CryptoBox K) [Cypher cb α] (impl : CypherImpl)
    (record : α → List (Ident × Value)) : Prop :=
  ∀ (x : α) nonce pk sk,
    impl.call cb .encrypt (record x) nonce pk sk =
      some (record <$> Cypher.encrypt cb x nonce pk sk) ∧
    impl.call cb .decrypt (record x) nonce pk sk =
      some (record <$> silently (Cypher.decrypt cb x nonce pk sk))

theorem silently_map {α β : Type} (f : α → β) (r : Except CypherError α) :
    (silently (f <$> r) : Encrypting K β) = f <$> silently r := by
  cases r with
  | error e => rfl
  | ok a => rfl

/-- An `impl` generated for a declaration is the instance of a type whose values are the
struct values of that declaration. -/
theorem implements_of_perform {α : Type} {cb : CryptoBox K} [Cypher cb α] (input : DeriveInput)
    {impl : CypherImpl} {fields : List NamedField} (declared : input.data = .struct (.named fields))
    (distinct : (fields.map NamedField.ident).Nodup)
    (generated : implDeriveCypher input = .ok impl) {types : Fin fields.length → Ty}
    (has : ∀ i, (types i).hasMethods) (toVal : α → (Ty.struct types).Val)
    (encrypt : ∀ x nonce pk sk, (Ty.struct types).encrypt cb (toVal x) nonce pk sk =
      toVal <$> Cypher.encrypt cb x nonce pk sk)
    (decrypt : ∀ x nonce pk sk, (Ty.struct types).decrypt cb (toVal x) nonce pk sk =
      toVal <$> Cypher.decrypt cb x nonce pk sk) :
    impl.Implements cb fun x : α => structRecord fields (toVal x) := by
  rw [implDeriveCypher_named declared] at generated
  cases generated
  intro x nonce pk sk
  constructor
  · apply (call_structRecord .encrypt distinct has (toVal x)).trans
    rw [Ty.perform, encrypt, Functor.map_map]
  · apply (call_structRecord .decrypt distinct has (toVal x)).trans
    rw [Ty.perform, decrypt, silently_map, Functor.map_map]

/-- What the macro generates for the two message types is what the protocol runs. -/
theorem derived_message_types : ∃ entryImpl messageImpl,
    implDeriveCypher MessageEntry.declaration = .ok entryImpl ∧
    implDeriveCypher Message.declaration = .ok messageImpl ∧
    ∀ {K : Type} (cb : CryptoBox K), entryImpl.Implements cb MessageEntry.record ∧
      messageImpl.Implements cb Message.record := by
  refine ⟨_, _, implDeriveCypher_named rfl, implDeriveCypher_named rfl, fun cb => ⟨?_, ?_⟩⟩
  · exact implements_of_perform MessageEntry.declaration rfl (by decide) rfl
      (by decide) MessageEntry.toVal (fun x _ _ _ => x.encrypt_toVal)
      (fun x _ _ _ => x.decrypt_toVal)
  · exact implements_of_perform Message.declaration rfl (by decide) rfl
      (by decide) Message.toVal (fun m _ _ _ => m.encrypt_toVal)
      (fun m _ _ _ => m.decrypt_toVal)

end Nolik
