import Nolik.Metadata

/-! The encryptions behind one metadata and behind one message, as box key, nonce and plaintext,
and exactly when no box key and nonce serve two plaintexts. Nothing is claimed here about what
an eavesdropper learns from a reused nonce. -/
namespace Nolik
open ByteString Effects Sealing

variable {K : Type} {cb : CryptoBox K} {blake2s : Bytes → ByteArr keySize}

namespace Draft

/-- The encryptions for one party. The secret nonce is sealed first, then every party
key under that same secret nonce. -/
def partyCalls (cb : CryptoBox K) (d : Draft) (partyPk : PublicKey) :
    List (SealCall SalsaNonce K) :=
  ⟨cb.new partyPk d.brokerSk, d.publicNonce, d.secretNonce.toList⟩ ::
    d.parties.map fun p => ⟨cb.new partyPk d.brokerSk, d.secretNonce, p.asBytes⟩

theorem trace_encryptChannel (seals : cb.SealsAll) (d : Draft) (partyPk : PublicKey) :
    (d.encryptChannel cb partyPk).trace = d.partyCalls cb partyPk := by
  obtain ⟨nonce, first⟩ :=
    BytesCypher.encrypt_total seals d.secretNonce.toList d.publicNonce partyPk d.brokerSk
  have rest : (d.parties.mapM fun p =>
      BytesCypher.encrypt cb p.asBytes d.secretNonce partyPk d.brokerSk).trace =
        d.parties.map fun p => ⟨cb.new partyPk d.brokerSk, d.secretNonce, p.asBytes⟩ := by
    rw [Traced.trace_mapM_ok _ _ fun p _ => BytesCypher.encrypt_total seals p.asBytes _ _ _,
      List.map_eq_flatMap]
    rfl
  rw [encryptChannel, Nolik.encryptChannel, Traced.trace_bind_ok first, Traced.trace_bind_pure,
    rest]
  rfl

theorem trace_newEncrypted (seals : cb.SealsAll) (blake2s : Bytes → ByteArr keySize) (d : Draft) :
    (d.newEncrypted cb blake2s).trace = d.parties.flatMap (d.partyCalls cb) := by
  have channels : (d.parties.mapM fun p => d.encryptChannel cb p).trace =
      d.parties.flatMap (d.partyCalls cb) := by
    rw [Traced.trace_mapM_ok _ _ fun p _ => encryptChannel_total seals d p]
    simp only [trace_encryptChannel seals]
  rw [← channels]
  simp only [newEncrypted, Nolik.newEncrypted, tryInto_toList, pure_bind]
  exact Traced.trace_bind_pure _ _

theorem mem_trace_newEncrypted (seals : cb.SealsAll) (blake2s : Bytes → ByteArr keySize)
    {d : Draft} {c : SealCall SalsaNonce K} :
    c ∈ (d.newEncrypted cb blake2s).trace ↔ ∃ p ∈ d.parties,
      c = ⟨cb.new p d.brokerSk, d.publicNonce, d.secretNonce.toList⟩ ∨
      ∃ q ∈ d.parties, c = ⟨cb.new p d.brokerSk, d.secretNonce, q.asBytes⟩ := by
  simp only [trace_newEncrypted seals, partyCalls, List.mem_flatMap, List.mem_cons, List.mem_map,
    eq_comm]

theorem nonce_ne_key (nonce : SalsaNonce) (pk : PublicKey) : nonce.toList ≠ pk.asBytes := by
  intro same
  have size : nonceSize = keySize := by
    simpa only [PublicKey.asBytes, List.Vector.toList_length] using congrArg List.length same
  cases size

end Draft

/-- The secret nonce seals one key for each party, so the nonces of a metadata are used
once only if the sender writes to nobody else, and draws a secret nonce other than the
public one. -/
theorem newEncrypted_nonceRespecting_iff (seals : cb.SealsAll)
    (blake2s : Bytes → ByteArr keySize) (d : Draft) :
    NonceRespecting (d.newEncrypted cb blake2s).trace ↔
      (∀ r ∈ d.recipients, r = d.senderPk) ∧ d.publicNonce ≠ d.secretNonce := by
  have sender : d.senderPk ∈ d.parties := List.mem_cons_self
  have sealed : ∀ q ∈ d.parties, (⟨cb.new d.senderPk d.brokerSk, d.secretNonce, q.asBytes⟩ :
      SealCall SalsaNonce K) ∈ (d.newEncrypted cb blake2s).trace :=
    fun q member =>
      (Draft.mem_trace_newEncrypted seals blake2s).mpr ⟨_, sender, .inr ⟨q, member, rfl⟩⟩
  rw [nonceRespecting_iff]
  constructor
  · intro respecting
    refine ⟨fun r member => ?_, fun reused => ?_⟩
    · apply PublicKey.asBytes_injective
      exact respecting _ (sealed r (List.mem_cons_of_mem _ member)) _ (sealed _ sender) rfl rfl
    -- one nonce would seal the secret nonce itself and the longer sender key
    · have opening := (Draft.mem_trace_newEncrypted seals blake2s).mpr
        ⟨_, sender, .inl rfl⟩
      exact Draft.nonce_ne_key _ _ (respecting _ opening _ (sealed _ sender) rfl reused)
  · rintro ⟨alone, fresh⟩
    have only : ∀ p ∈ d.parties, p = d.senderPk := List.forall_mem_cons.mpr ⟨rfl, alone⟩
    intro c hc c' hc' _ nonce
    obtain ⟨p, _, opens⟩ := (Draft.mem_trace_newEncrypted seals blake2s).mp hc
    obtain ⟨p', _, opens'⟩ := (Draft.mem_trace_newEncrypted seals blake2s).mp hc'
    rcases opens with rfl | ⟨q, hq, rfl⟩
    · rcases opens' with rfl | ⟨q', _, rfl⟩
      · rfl
      · exact absurd nonce fresh
    · rcases opens' with rfl | ⟨q', hq', rfl⟩
      · exact absurd nonce.symm fresh
      · simp only [only q hq, only q' hq']

theorem newEncrypted_nonceRespecting_self :
    NonceRespecting ((Draft.sample 3 [3] ⟨[]⟩).newEncrypted clearBox numeralDigest).trace :=
  (newEncrypted_nonceRespecting_iff clearBox_sealsAll numeralDigest (.sample 3 [3] ⟨[]⟩)).mpr
    (by decide)

/-- One recipient other than the sender is enough to reuse a nonce. -/
theorem newEncrypted_reuses_nonce :
    ¬ NonceRespecting ((Draft.sample 3 [6] ⟨[]⟩).newEncrypted clearBox numeralDigest).trace := by
  decide +kernel

/-- All fields of a message are sealed under one box key and one nonce. -/
theorem encrypt_nonceRespecting_iff (seals : cb.SealsAll) (m : Message) (nonce : SalsaNonce)
    (pk : PublicKey) (sk : SecretKey) :
    NonceRespecting (Cypher.encrypt cb m nonce pk sk).trace ↔
      ∀ x ∈ m.leaves, ∀ y ∈ m.leaves, x = y := by
  rw [Message.trace_encrypt seals]
  exact nonceRespecting_constant_iff _ _ _

theorem encrypt_nonceRespecting_repeated :
    NonceRespecting (Cypher.encrypt clearBox (⟨[⟨[7], [7], .rawData⟩]⟩ : Message)
      (List.Vector.replicate nonceSize 5) ⟨List.Vector.replicate keySize 6⟩
      ⟨List.Vector.replicate keySize 3⟩).trace :=
  (encrypt_nonceRespecting_iff clearBox_sealsAll _ _ _ _).mpr (by decide)

theorem encrypt_reuses_nonce :
    ¬ NonceRespecting (Cypher.encrypt clearBox (⟨[⟨[7], [8], .rawData⟩]⟩ : Message)
      (List.Vector.replicate nonceSize 5) ⟨List.Vector.replicate keySize 6⟩
      ⟨List.Vector.replicate keySize 3⟩).trace := by
  decide +kernel

end Nolik
