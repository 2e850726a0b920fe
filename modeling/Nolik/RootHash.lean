import Nolik.Library.Collision
import Nolik.Messages

/-! `compute_root_hash` with the log of the strings it hashes. `blake2s` is any function from
strings to 32 bytes. Binding is proved up to a collision between strings that are really hashed
in the two computations. -/
namespace Nolik
open ByteString Effects Digest

/-- The digest of a string, and the string on the log. -/
abbrev Hashing (α : Type) := Logged Bytes α

/-- An unfinished `blake2::Blake2s256`, as the bytes it was fed. -/
structure Blake2s256 where
  fed : Bytes

namespace Blake2s256

def new : Blake2s256 := ⟨[]⟩

def update (h : Blake2s256) (data : Bytes) : Blake2s256 := ⟨h.fed ++ data⟩

def finalize (blake2s : Bytes → ByteArr keySize) (h : Blake2s256) : Hashing (ByteArr keySize) :=
  Logged.call h.fed (blake2s h.fed)

@[simp] theorem fed_new : new.fed = [] := rfl
@[simp] theorem fed_update (h : Blake2s256) (data : Bytes) :
    (h.update data).fed = h.fed ++ data := rfl

theorem fed_foldl_update {α : Type} (data : α → Bytes) (l : List α) (h : Blake2s256) :
    (l.foldl (fun h a => h.update (data a)) h).fed = h.fed ++ l.flatMap data := by
  induction l generalizing h with
  | nil => exact (List.append_nil h.fed).symm
  | cons a l ih => rw [List.foldl_cons, ih, fed_update, List.flatMap_cons, List.append_assoc]

end Blake2s256

def hashWithNonce (blake2s : Bytes → ByteArr keySize) (data : Bytes) (nonce : SalsaNonce) :
    Hashing (ByteArr keySize) :=
  ((Blake2s256.new.update data).update nonce.toList).finalize blake2s

/-- The loop over the recipients, closed by the secret nonce. -/
def hashRecipients (blake2s : Bytes → ByteArr keySize) (secretNonce : SalsaNonce)
    (recipients : List PublicKey) : Hashing Blake2s256 := do
  let recipientsHash ← recipients.foldlM (fun (hash : Blake2s256) recipient => do
    let recipientPkHash ← hashWithNonce blake2s recipient.asBytes secretNonce
    pure (hash.update recipientPkHash.toList)) Blake2s256.new
  pure (recipientsHash.update secretNonce.toList)

/-- The loop over the entries, closed by the secret nonce. The source matches the
kind of an entry by `kind: _`. -/
def hashEntries (blake2s : Bytes → ByteArr keySize) (secretNonce : SalsaNonce)
    (entries : List MessageEntry) : Hashing Blake2s256 := do
  let entriesHash ← entries.foldlM (fun (hash : Blake2s256) entry => do
    let keyHash ← hashWithNonce blake2s entry.key secretNonce
    let valueHash ← hashWithNonce blake2s entry.value secretNonce
    pure ((hash.update keyHash.toList).update valueHash.toList)) Blake2s256.new
  pure (entriesHash.update secretNonce.toList)

/-- Create a root hash of all metadata and message entries. -/
def computeRootHash (blake2s : Bytes → ByteArr keySize) (origin : PublicKey)
    (publicNonce : SalsaNonce) (senderPk brokerPk : PublicKey) (secretNonce : SalsaNonce)
    (recipients : List PublicKey) (message : Message) : Hashing Blake2s256 := do
  let originHash ← hashWithNonce blake2s origin.asBytes secretNonce
  let publicNonceHash ← hashWithNonce blake2s publicNonce.toList secretNonce
  let secretNonceHash ← hashWithNonce blake2s secretNonce.toList secretNonce
  let brokerPkHash ← hashWithNonce blake2s brokerPk.asBytes secretNonce
  let senderPkHash ← hashWithNonce blake2s senderPk.asBytes secretNonce
  let recipientsHash ← hashRecipients blake2s secretNonce recipients
  let entriesHash ← hashEntries blake2s secretNonce message.entries
  let hash := Blake2s256.new.update originHash.toList
  let hash := hash.update publicNonceHash.toList
  let hash := hash.update secretNonceHash.toList
  let hash := hash.update brokerPkHash.toList
  let hash := hash.update senderPkHash.toList
  let hash := hash.update (← recipientsHash.finalize blake2s).toList
  let hash := hash.update (← entriesHash.finalize blake2s).toList
  pure hash

/-- Every leaf is hashed together with the secret nonce. -/
def salted (nonce : SalsaNonce) (data : Bytes) : Bytes := data ++ nonce.toList

/-- The digests of a list of salted leaves, followed by the secret nonce. -/
def chained (blake2s : Bytes → ByteArr keySize) (nonce : SalsaNonce) (leaves : List Bytes) :
    Bytes :=
  ((leaves.map (salted nonce)).map blake2s).flatMap List.Vector.toList ++ nonce.toList

section Spec
variable (blake2s : Bytes → ByteArr keySize) (nonce : SalsaNonce)

@[simp] theorem hashWithNonce_value (data : Bytes) :
    (hashWithNonce blake2s data nonce).value = blake2s (salted nonce data) := rfl

@[simp] theorem hashWithNonce_log (data : Bytes) :
    (hashWithNonce blake2s data nonce).log = [salted nonce data] := rfl

theorem hashRecipients_fed (recipients : List PublicKey) :
    (hashRecipients blake2s nonce recipients).value.fed =
      chained blake2s nonce (recipients.map PublicKey.asBytes) := by
  simp only [hashRecipients, Logged.value_bind, Logged.value_foldlM, Logged.value_pure,
    hashWithNonce_value, Blake2s256.fed_update]
  rw [Blake2s256.fed_foldl_update (fun r : PublicKey => (blake2s (salted nonce r.asBytes)).toList)]
  simp only [chained, List.map_map, List.flatMap_map, Function.comp_apply, Blake2s256.fed_new,
    List.nil_append]

theorem hashRecipients_log (recipients : List PublicKey) :
    (hashRecipients blake2s nonce recipients).log =
      (recipients.map PublicKey.asBytes).map (salted nonce) := by
  simp only [hashRecipients, Logged.log_bind, Logged.log_pure, List.append_nil]
  rw [Logged.log_foldlM (fun r : PublicKey => [salted nonce r.asBytes]) (fun _ _ => rfl),
    List.map_map, List.map_eq_flatMap]
  rfl

theorem hashEntries_fed (message : Message) :
    (hashEntries blake2s nonce message.entries).value.fed =
      chained blake2s nonce message.leaves := by
  simp only [hashEntries, Logged.value_bind, Logged.value_foldlM, Logged.value_pure,
    hashWithNonce_value, Blake2s256.fed_update]
  have twice : ∀ (h : Blake2s256) (x y : Bytes), (h.update x).update y = h.update (x ++ y) :=
    fun h x y => congrArg Blake2s256.mk (List.append_assoc _ _ _)
  simp only [twice]
  rw [Blake2s256.fed_foldl_update (fun e : MessageEntry =>
    (blake2s (salted nonce e.key)).toList ++ (blake2s (salted nonce e.value)).toList)]
  simp only [chained, Message.leaves, List.map_flatMap, List.flatMap_assoc, Blake2s256.fed_new,
    List.nil_append, List.map_cons, List.map_nil, List.flatMap_cons, List.flatMap_nil,
    List.append_nil]

theorem hashEntries_log (message : Message) :
    (hashEntries blake2s nonce message.entries).log = message.leaves.map (salted nonce) := by
  simp only [hashEntries, Logged.log_bind, Logged.log_pure, List.append_nil]
  rw [Logged.log_foldlM (fun e : MessageEntry => [salted nonce e.key, salted nonce e.value])
    (fun _ _ => rfl), Message.leaves, List.map_flatMap]
  rfl

end Spec

/-- The arguments of one root hash computation. -/
structure RootHashArgs where
  origin : PublicKey
  publicNonce : SalsaNonce
  senderPk : PublicKey
  brokerPk : PublicKey
  secretNonce : SalsaNonce
  recipients : List PublicKey
  message : Message

namespace RootHashArgs

def compute (blake2s : Bytes → ByteArr keySize) (a : RootHashArgs) : Hashing Blake2s256 :=
  computeRootHash blake2s a.origin a.publicNonce a.senderPk a.brokerPk a.secretNonce a.recipients
    a.message

/-- `compute_root_hash(..).finalize()`. -/
def rootHash (blake2s : Bytes → ByteArr keySize) (a : RootHashArgs) :
    Hashing (ByteArr keySize) := do
  let hash ← a.compute blake2s
  hash.finalize blake2s

def headLeaves (a : RootHashArgs) : List Bytes :=
  [a.origin.asBytes, a.publicNonce.toList, a.secretNonce.toList, a.brokerPk.asBytes,
    a.senderPk.asBytes]

def recipientLeaves (a : RootHashArgs) : List Bytes := a.recipients.map PublicKey.asBytes

/-- The seven strings whose digests make up the root. -/
def branches (blake2s : Bytes → ByteArr keySize) (a : RootHashArgs) : List Bytes :=
  a.headLeaves.map (salted a.secretNonce) ++
    [chained blake2s a.secretNonce a.recipientLeaves,
      chained blake2s a.secretNonce a.message.leaves]

/-- The last string hashed. -/
def root (blake2s : Bytes → ByteArr keySize) (a : RootHashArgs) : Bytes :=
  ((a.branches blake2s).map blake2s).flatMap List.Vector.toList

variable (blake2s : Bytes → ByteArr keySize) (a : RootHashArgs)

theorem compute_fed : (a.compute blake2s).value.fed = a.root blake2s := by
  simp only [compute, computeRootHash, Logged.value_bind, Logged.value_pure, hashWithNonce_value,
    Blake2s256.finalize, Logged.value_call, hashRecipients_fed, hashEntries_fed,
    Blake2s256.fed_update, Blake2s256.fed_new, List.nil_append]
  simp only [root, branches, headLeaves, recipientLeaves, List.map_cons, List.map_nil,
    List.cons_append, List.nil_append, List.flatMap_cons, List.flatMap_nil, List.append_nil,
    List.append_assoc]

theorem compute_log : (a.compute blake2s).log =
    (a.headLeaves ++ a.recipientLeaves ++ a.message.leaves).map (salted a.secretNonce) ++
      [chained blake2s a.secretNonce a.recipientLeaves,
        chained blake2s a.secretNonce a.message.leaves] := by
  simp only [compute, computeRootHash, Logged.log_bind, Logged.log_pure, hashWithNonce_log,
    hashRecipients_log, hashEntries_log, Blake2s256.finalize, Logged.log_call, hashRecipients_fed,
    hashEntries_fed]
  simp only [headLeaves, recipientLeaves, List.map_append, List.map_cons, List.cons_append,
    List.nil_append, List.append_assoc]

theorem rootHash_value : (a.rootHash blake2s).value = blake2s (a.root blake2s) := by
  rw [← compute_fed]
  rfl

theorem rootHash_log :
    (a.rootHash blake2s).log = (a.compute blake2s).log ++ [a.root blake2s] := by
  rw [← compute_fed]
  rfl

theorem root_mem_log : a.root blake2s ∈ (a.rootHash blake2s).log := by
  rw [rootHash_log]
  exact List.mem_append_right _ List.mem_cons_self

theorem salted_mem_log {leaf : Bytes}
    (member : leaf ∈ a.headLeaves ++ a.recipientLeaves ++ a.message.leaves) :
    salted a.secretNonce leaf ∈ (a.rootHash blake2s).log := by
  rw [rootHash_log, compute_log]
  exact List.mem_append_left _ (List.mem_append_left _ (List.mem_map_of_mem member))

theorem branches_mem_log {string : Bytes} (member : string ∈ a.branches blake2s) :
    string ∈ (a.rootHash blake2s).log := by
  rcases List.mem_append.mp member with head | last
  · obtain ⟨leaf, inHead, rfl⟩ := List.mem_map.mp head
    apply a.salted_mem_log blake2s
    exact List.mem_append_left _ (List.mem_append_left _ inHead)
  · rw [rootHash_log, compute_log]
    exact List.mem_append_left _ (List.mem_append_right _ last)

/-- Agreement on everything but the kinds of the entries. -/
structure SameContent (a b : RootHashArgs) : Prop where
  origin : a.origin = b.origin
  publicNonce : a.publicNonce = b.publicNonce
  senderPk : a.senderPk = b.senderPk
  brokerPk : a.brokerPk = b.brokerPk
  secretNonce : a.secretNonce = b.secretNonce
  recipients : a.recipients = b.recipients
  fields : a.message.fields = b.message.fields

end RootHashArgs

section Binding
variable {blake2s : Bytes → ByteArr keySize} {known : Set Bytes}

/-- A chained list is read back from its hash input, its length included. -/
theorem chained_inj (binding : Set.InjOn blake2s known) {n n' : SalsaNonce} {xs ys : List Bytes}
    (hx : ∀ x ∈ xs, salted n x ∈ known) (hy : ∀ y ∈ ys, salted n' y ∈ known)
    (same : chained blake2s n xs = chained blake2s n' ys) : xs = ys := by
  obtain ⟨digests, rfl⟩ := append_array_inj same
  have salts : xs.map (salted n) = ys.map (salted n) := by
    apply map_eq_of_injOn binding (List.forall_mem_map.mpr hx) (List.forall_mem_map.mpr hy)
    exact flatMap_blocks_inj (by decide) digests
  have salted_injective : Function.Injective (salted n) :=
    fun x y equal => (append_array_inj equal).1
  exact List.map_injective_iff.mpr salted_injective salts

/-- Where the digest is injective on the strings hashed by both computations, equal
root hashes come from equal content. -/
theorem RootHashArgs.sameContent_of_injOn (binding : Set.InjOn blake2s known) {a b : RootHashArgs}
    (ha : ∀ s ∈ (a.rootHash blake2s).log, s ∈ known)
    (hb : ∀ s ∈ (b.rootHash blake2s).log, s ∈ known)
    (same : (a.rootHash blake2s).value = (b.rootHash blake2s).value) : a.SameContent b := by
  have roots : a.root blake2s = b.root blake2s := by
    apply binding (ha _ (a.root_mem_log blake2s)) (hb _ (b.root_mem_log blake2s))
    rw [← a.rootHash_value blake2s, ← b.rootHash_value blake2s, same]
  have branches : a.branches blake2s = b.branches blake2s := by
    apply map_eq_of_injOn binding (fun s member => ha s (a.branches_mem_log blake2s member))
      (fun s member => hb s (b.branches_mem_log blake2s member))
    exact flatMap_blocks_inj (by decide) roots
  simp only [RootHashArgs.branches, headLeaves, List.map_cons, List.map_nil, List.cons_append,
    List.nil_append, List.cons.injEq, and_true] at branches
  obtain ⟨origin, publicNonce, secretNonce, brokerPk, senderPk, recipients, entries⟩ := branches
  have recipientLeaves : a.recipientLeaves = b.recipientLeaves :=
    chained_inj binding
      (fun leaf member => ha _ (a.salted_mem_log blake2s
        (List.mem_append_left _ (List.mem_append_right _ member))))
      (fun leaf member => hb _ (b.salted_mem_log blake2s
        (List.mem_append_left _ (List.mem_append_right _ member)))) recipients
  have leaves : a.message.leaves = b.message.leaves :=
    chained_inj binding
      (fun leaf member => ha _ (a.salted_mem_log blake2s (List.mem_append_right _ member)))
      (fun leaf member => hb _ (b.salted_mem_log blake2s (List.mem_append_right _ member))) entries
  exact {
    origin := PublicKey.asBytes_injective (append_array_inj origin).1
    publicNonce := List.Vector.toList_injective (append_array_inj publicNonce).1
    senderPk := PublicKey.asBytes_injective (append_array_inj senderPk).1
    brokerPk := PublicKey.asBytes_injective (append_array_inj brokerPk).1
    secretNonce := (append_array_inj secretNonce).2
    recipients := List.map_injective_iff.mpr PublicKey.asBytes_injective recipientLeaves
    fields := Message.fields_eq_of_leaves leaves }

theorem RootHashArgs.sameContent_of_not_collision {a b : RootHashArgs}
    (free : ¬ Collision blake2s ((a.rootHash blake2s).log ++ (b.rootHash blake2s).log))
    (same : (a.rootHash blake2s).value = (b.rootHash blake2s).value) : a.SameContent b := by
  apply sameContent_of_injOn (injOn_of_not_collision free) _ _ same
  · exact fun s member => List.mem_append_left _ member
  · exact fun s member => List.mem_append_right _ member

/-- Equal root hashes come from equal origins, nonces, keys, recipients and entries, or
two different strings hashed on the way have one digest. The kinds of the entries are
not part of the content. -/
theorem rootHash_binding (blake2s : Bytes → ByteArr keySize) (a b : RootHashArgs)
    (same : (a.rootHash blake2s).value = (b.rootHash blake2s).value) :
    a.SameContent b ∨
      Collision blake2s ((a.rootHash blake2s).log ++ (b.rootHash blake2s).log) := by
  by_cases collision : Collision blake2s ((a.rootHash blake2s).log ++ (b.rootHash blake2s).log)
  · exact .inr collision
  · refine .inl (RootHashArgs.sameContent_of_injOn (injOn_of_not_collision collision) ?_ ?_ same)
    · exact fun s member => List.mem_append_left _ member
    · exact fun s member => List.mem_append_right _ member

/-- A digest to evaluate with: the string as a numeral in base 257, cut to 32 bytes. -/
def numeralDigest (s : Bytes) : ByteArr keySize :=
  ⟨leBytes keySize (s.foldl (fun n b => n * 257 + b.toNat + 1) 0), leBytes_length _ _⟩

/-- One recipient, one entry of the given kind. -/
def RootHashArgs.sample (kind : MessageType) : RootHashArgs where
  origin := ⟨List.Vector.replicate keySize 1⟩
  publicNonce := List.Vector.replicate nonceSize 2
  senderPk := ⟨List.Vector.replicate keySize 3⟩
  brokerPk := ⟨List.Vector.replicate keySize 4⟩
  secretNonce := List.Vector.replicate nonceSize 5
  recipients := [⟨List.Vector.replicate keySize 6⟩]
  message := ⟨[⟨[7], [8], kind⟩]⟩

theorem rootHash_binding_sample :
    (RootHashArgs.sample .rawData).SameContent (RootHashArgs.sample .file) ∨
      Collision numeralDigest (((RootHashArgs.sample .rawData).rootHash numeralDigest).log ++
        ((RootHashArgs.sample .file).rootHash numeralDigest).log) :=
  rootHash_binding numeralDigest (.sample .rawData) (.sample .file) rfl

end Binding
end Nolik
