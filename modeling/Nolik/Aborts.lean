import Nolik.Pallet

/-! `MessageMetadata::decrypt` aborts where a channel opens with a nonce of a wrong length. Any
author can seal such a nonce, and the pallet cannot see it. -/
namespace Nolik
open ByteString Effects Sealing

variable {K : Type}

section Channels
variable (cb : CryptoBox K) (publicNonce : SalsaNonce) (brokerPk : PublicKey)
  (receiverSk : SecretKey) (channel : Channel)

def NonceFits : Prop :=
  ∀ nonce, BytesCypher.decrypt cb channel.nonce publicNonce brokerPk receiverSk = .ok nonce →
    nonce.length = nonceSize

/-- A channel that opens opens fully, so the loop reaches the next one. -/
def Passes : Prop :=
  ∀ nonce, BytesCypher.decrypt cb channel.nonce publicNonce brokerPk receiverSk = .ok nonce →
    ∃ secretNonce : SalsaNonce, secretNonce.toList = nonce ∧ ∀ p ∈ channel.parties,
      ∃ plain, BytesCypher.decrypt cb p secretNonce brokerPk receiverSk = .ok plain

variable {cb publicNonce brokerPk receiverSk channel}

theorem openChannel_panic_iff :
    openChannel cb publicNonce brokerPk receiverSk channel = .panic ↔
      ¬ NonceFits cb publicNonce brokerPk receiverSk channel := by
  unfold openChannel decryptChannel NonceFits
  cases BytesCypher.decrypt cb channel.nonce publicNonce brokerPk receiverSk with
  | error e => simp
  | ok nonce =>
      have unfit : (¬ ∀ shown, (.ok nonce : Except CypherError Bytes) = .ok shown →
          shown.length = nonceSize) ↔ tryInto nonceSize nonce = none := by
        rw [tryInto_eq_none]
        simp only [Except.ok.injEq, forall_eq', ne_eq]
      rw [unfit]
      -- the parties can only add an error, never an abort
      simp only [SalsaNonce.fromSlice]
      cases tryInto nonceSize nonce with
      | none => simp
      | some secretNonce =>
          simp only [Outcome.ok_bind]
          cases channel.parties.mapM fun p =>
              BytesCypher.decrypt cb p secretNonce brokerPk receiverSk with
          | error e => simp
          | ok parties => simp

theorem openChannel_ok_iff :
    (∃ opened, openChannel cb publicNonce brokerPk receiverSk channel = .ok opened) ↔
      Passes cb publicNonce brokerPk receiverSk channel := by
  constructor
  · rintro ⟨opened, passed⟩ nonce shown
    simp only [openChannel, decryptChannel, shown, SalsaNonce.fromSlice] at passed
    cases read : tryInto nonceSize nonce with
    | none => simp [read] at passed
    | some secretNonce =>
        simp only [read, Outcome.ok_bind] at passed
        refine ⟨secretNonce, (tryInto_eq_some.mp read).symm, fun p member => ?_⟩
        cases every : channel.parties.mapM fun p =>
            BytesCypher.decrypt cb p secretNonce brokerPk receiverSk with
        | error e => simp [every] at passed
        | ok parties =>
            exact except_mapM_total_iff.mp ⟨parties, every⟩ p member
  · intro passes
    cases shown : BytesCypher.decrypt cb channel.nonce publicNonce brokerPk receiverSk with
    | error e => exact ⟨[], openChannel_foreign shown⟩
    | ok nonce =>
        obtain ⟨secretNonce, rfl, each⟩ := passes nonce shown
        obtain ⟨parties, every⟩ := except_mapM_total_iff.mpr each
        exact ⟨_, openChannel_opened shown (except_mapM_ok_iff.mp every)⟩

end Channels

theorem decrypt_panic_iff {cb : CryptoBox K} {metadata : MessageMetadata} {receiverSk : SecretKey} :
    metadata.decrypt cb receiverSk = .panic ↔
      ∃ before channel after, metadata.channels = before ++ channel :: after ∧
        (∀ c ∈ before, Passes cb metadata.nonce ⟨metadata.broker⟩ receiverSk c) ∧
        ¬ NonceFits cb metadata.nonce ⟨metadata.broker⟩ receiverSk channel := by
  simp only [← openChannel_ok_iff, ← openChannel_panic_iff, ← Outcome.collect_panic_iff]
  rw [MessageMetadata.decrypt_eq]
  cases Outcome.collect (openChannel cb metadata.nonce ⟨metadata.broker⟩ receiverSk)
      metadata.channels with
  | ok channels => simp
  | err e => exact ⟨fun h => (by cases h), fun h => (by cases h)⟩
  | panic => exact ⟨fun _ => rfl, fun _ => rfl⟩

/-- Decryption returns exactly when no channel it reaches opens with a nonce of a wrong
length. -/
theorem decrypt_returns_iff (cb : CryptoBox K) (metadata : MessageMetadata)
    (receiverSk : SecretKey) :
    metadata.decrypt cb receiverSk ≠ .panic ↔
      ∀ before channel after, metadata.channels = before ++ channel :: after →
        (∀ c ∈ before, Passes cb metadata.nonce ⟨metadata.broker⟩ receiverSk c) →
        NonceFits cb metadata.nonce ⟨metadata.broker⟩ receiverSk channel := by
  rw [ne_eq, decrypt_panic_iff]
  push Not
  rfl

/-- An author seals one byte as the nonce of a channel. The pallet accepts the metadata, and
its receiver aborts. -/
theorem short_nonce_aborts :
    let receiverSk : SecretKey := ⟨List.Vector.replicate keySize 6⟩
    let brokerSk : SecretKey := ⟨List.Vector.replicate keySize 4⟩
    let publicNonce : SalsaNonce := List.Vector.replicate nonceSize 2
    ∃ nonce, (BytesCypher.encrypt clearBox [1] publicNonce (clearBox.publicKey receiverSk)
        brokerSk).result = .ok nonce ∧
      ∃ metadata : MessageMetadata, metadata.nonce = publicNonce ∧
        metadata.broker = (clearBox.publicKey brokerSk).bytes ∧
        metadata.channels = [⟨nonce, [[0]]⟩] ∧ checkMessage [0] metadata = .ok () ∧
        metadata.decrypt clearBox receiverSk = .panic := by
  intro receiverSk brokerSk publicNonce
  refine ⟨_, rfl, ⟨publicNonce, (clearBox.publicKey brokerSk).bytes, List.Vector.replicate _ 0, _⟩,
    rfl, rfl, rfl, ?_, ?_⟩
  · rfl
  · rfl

end Nolik
