import Nolik.Delivery

/-! `send_message` on every input, as an ordered decision with one state after each verdict, and
the proof that the client library only builds calls it accepts. The SCALE encoder itself refuses
a message with a collection above `u32::MAX`. -/
namespace Nolik
open ByteString Effects KeyValue Sealing

/-- The square shape. Every channel names as many parties as there are channels. -/
structure MessageMetadata.WellFormed (metadata : MessageMetadata) : Prop where
  channels : metadata.channels ≠ []
  nonce : ∀ channel ∈ metadata.channels, channel.nonce ≠ []
  square : ∀ channel ∈ metadata.channels, channel.parties.length = metadata.channels.length
  parts : ∀ channel ∈ metadata.channels, ∀ part ∈ channel.parties, part ≠ []

theorem checkMessage_accepts_iff {message : Bytes} {metadata : MessageMetadata} :
    checkMessage message metadata = .ok () ↔ message ≠ [] ∧ metadata.WellFormed := by
  rw [checkMessage_ok_iff]
  constructor
  · rintro ⟨written, channels, each⟩
    exact ⟨written, channels, fun c member => (each c member).1,
      fun c member => (each c member).2.2.1, fun c member => (each c member).2.2.2⟩
  · rintro ⟨written, wellFormed⟩
    refine ⟨written, wellFormed.channels, fun c member => ?_⟩
    have square := wellFormed.square c member
    refine ⟨wellFormed.nonce c member, ?_, square, wellFormed.parts c member⟩
    -- the size is that of a list which is not empty
    rw [← List.length_pos_iff, square, List.length_pos_iff]
    exact wellFormed.channels

theorem checkMessage_written {message : Bytes} (written : message ≠ [])
    (metadata : MessageMetadata) :
    checkMessage message metadata = .ok () ∨
      checkMessage message metadata = .error (.module .metadataMalformed) := by
  have filled : message.isEmpty = false := by
    rw [Bool.eq_false_iff, ne_eq, List.isEmpty_iff]
    exact written
  unfold checkMessage
  rw [filled]
  cases metadata.channels.isEmpty with
  | true => exact .inr rfl
  | false =>
      apply except_forM_or_error
      intro channel _
      cases channel.nonce.isEmpty || channel.parties.isEmpty ||
          channel.parties.length != metadata.channels.length with
      | true => exact .inr rfl
      | false =>
          apply except_forM_or_error
          intro part _
          cases part.isEmpty with
          | true => exact .inr rfl
          | false => exact .inl rfl

theorem checkMessage_malformed {message : Bytes} {metadata : MessageMetadata}
    (written : message ≠ []) (malformed : ¬ metadata.WellFormed) :
    checkMessage message metadata = .error (.module .metadataMalformed) := by
  refine (checkMessage_written written metadata).resolve_left fun accepted => ?_
  exact malformed (checkMessage_accepts_iff.mp accepted).2

variable {AccountId : Type}

theorem sendMessage_accepted (encode : AccountId → Bytes) (account : AccountId)
    {metadata : MessageMetadata} {message : Bytes}
    (checked : checkMessage message metadata = .ok ()) {env : Externalities}
    (room : env.chain.messageCounter.toNat < 2 ^ 128 - 1) :
    (sendMessage encode (.signed account) metadata message).run.run env =
      (.ok (), env.publish (derivedKey encode account env.chain.messageCounter) message
        metadata) := by
  have free : ¬ env.chain.messageCounter.uaddOverflow 1 = true := by
    rw [uaddOverflow_one_iff]
    exact Nat.ne_of_lt room
  have run := sendMessage_run encode (.signed account) metadata message env
  rw [checked] at run
  exact run.trans (if_neg free)

/-- Every call meets one of five verdicts, and only the last one writes. -/
theorem sendMessage_cases (encode : AccountId → Bytes) (origin : RuntimeOrigin AccountId)
    (metadata : MessageMetadata) (message : Bytes) (env : Externalities) :
    let run := (sendMessage encode origin metadata message).run.run env
    ((∀ account, origin ≠ .signed account) ∧ run = (.error .badOrigin, env)) ∨
    ∃ account, origin = .signed account ∧
      ((message = [] ∧ run = (.error (.module .messageMalformed), env)) ∨
      (message ≠ [] ∧ ¬ metadata.WellFormed ∧
        run = (.error (.module .metadataMalformed), env)) ∨
      (message ≠ [] ∧ metadata.WellFormed ∧ env.chain.messageCounter.toNat = 2 ^ 128 - 1 ∧
        run = (.error (.module .messageCounterOverflow), env)) ∨
      (message ≠ [] ∧ metadata.WellFormed ∧ env.chain.messageCounter.toNat < 2 ^ 128 - 1 ∧
        run = (.ok (), env.publish (derivedKey encode account env.chain.messageCounter) message
          metadata))) := by
  intro run
  have closed := sendMessage_run encode origin metadata message env
  cases origin with
  | root => exact .inl ⟨fun account same => (by cases same), closed⟩
  | none => exact .inl ⟨fun account same => (by cases same), closed⟩
  | signed account =>
      refine .inr ⟨account, rfl, ?_⟩
      by_cases written : message = []
      · subst written
        exact .inl ⟨rfl, closed⟩
      refine .inr ?_
      by_cases wellFormed : metadata.WellFormed
      · have checked := checkMessage_accepts_iff.mpr ⟨written, wellFormed⟩
        refine .inr ?_
        by_cases full : env.chain.messageCounter.toNat = 2 ^ 128 - 1
        · rw [checked] at closed
          exact .inl ⟨written, wellFormed, full,
            closed.trans (if_pos ((uaddOverflow_one_iff _).mpr full))⟩
        · have room : env.chain.messageCounter.toNat < 2 ^ 128 - 1 := by
            have bound := env.chain.messageCounter.isLt
            omega
          exact .inr ⟨written, wellFormed, room, sendMessage_accepted encode account checked room⟩
      · rw [checkMessage_malformed written wellFormed] at closed
        exact .inl ⟨written, wellFormed, closed⟩

theorem overflowingAdd_one {counter : BitVec 128} (room : counter.toNat < 2 ^ 128 - 1) :
    (overflowingAdd counter 1).2 = false ∧
      (overflowingAdd counter 1).1.toNat = counter.toNat + 1 ∧
      ((overflowingAdd counter 1).1 - 1).toNat = (overflowingAdd counter 1).1.toNat - 1 := by
  have sum : (overflowingAdd counter 1).1.toNat = counter.toNat + 1 := by
    change (counter + 1#128).toNat = _
    rw [BitVec.toNat_add, BitVec.toNat_ofNat]
    omega
  refine ⟨?_, sum, ?_⟩
  · rw [← Bool.not_eq_true]
    intro full
    rw [overflowingAdd, uaddOverflow_one_iff] at full
    omega
  · rw [sum]
    change (counter + 1 - 1).toNat = _
    rw [BitVec.add_sub_cancel]
    rfl

/-- The verdict on a call is decided by its first objection, a refused call leaves the storage
as it was, and an accepted one makes each of its three writes once, without wrapping. -/
theorem sendMessage_decides (encode : AccountId → Bytes) (origin : RuntimeOrigin AccountId)
    (metadata : MessageMetadata) (message : Bytes) (env : Externalities) :
    let run := (sendMessage encode origin metadata message).run.run env
    let counter := env.chain.messageCounter
    let signed := ∃ account, origin = .signed account
    (run.1 = .ok () ↔
      signed ∧ message ≠ [] ∧ metadata.WellFormed ∧ counter.toNat < 2 ^ 128 - 1) ∧
    (run.1 = .error .badOrigin ↔ ¬ signed) ∧
    (run.1 = .error (.module .messageMalformed) ↔ signed ∧ message = []) ∧
    (run.1 = .error (.module .metadataMalformed) ↔
      signed ∧ message ≠ [] ∧ ¬ metadata.WellFormed) ∧
    (run.1 = .error (.module .messageCounterOverflow) ↔
      signed ∧ message ≠ [] ∧ metadata.WellFormed ∧ counter.toNat = 2 ^ 128 - 1) ∧
    (run.1 ≠ .ok () → run.2 = env) ∧
    (run.1 = .ok () →
      run.2.chain.messageCounter.toNat = counter.toNat + 1 ∧
      (∃ account key, origin = .signed account ∧ key = derivedKey encode account counter ∧
        run.2.offchain key = some message ∧
        (∀ other, other ≠ key → run.2.offchain other = env.offchain other) ∧
        run.2.chain.events = env.chain.events ++ [.messageSent key metadata]) ∧
      (overflowingAdd counter 1).2 = false ∧
      (overflowingAdd counter 1).1.toNat = counter.toNat + 1 ∧
      ((overflowingAdd counter 1).1 - 1).toNat = (overflowingAdd counter 1).1.toNat - 1) := by
  intro run counter signed
  have verdict : _ ∨ _ := sendMessage_cases encode origin metadata message env
  rcases verdict with ⟨unsigned, done⟩ | ⟨account, rfl, empty | malformed | full | accepted⟩
  · have notSigned : ¬ signed := fun ⟨account, same⟩ => unsigned account same
    simp [run, done, notSigned]
  · obtain ⟨empty, done⟩ := empty
    simp [run, done, signed, empty]
  · obtain ⟨written, malformed, done⟩ := malformed
    simp [run, done, signed, written, malformed]
  · obtain ⟨written, wellFormed, full, done⟩ := full
    simp [run, done, signed, written, wellFormed, counter, full]
  · obtain ⟨written, wellFormed, room, done⟩ := accepted
    have notFull : env.chain.messageCounter.toNat ≠ 2 ^ 128 - 1 := Nat.ne_of_lt room
    have verdict : run.1 = .ok () := by simp only [run, done]
    refine ⟨?_, ?_, ?_, ?_, ?_, fun refused => absurd verdict refused, fun _ => ?_⟩
    · exact ⟨fun _ => ⟨⟨account, rfl⟩, written, wellFormed, room⟩, fun _ => verdict⟩
    · simp [verdict, signed]
    · simp [verdict, written]
    · simp [verdict, wellFormed]
    · rw [verdict]
      exact ⟨fun impossible => (by cases impossible), fun full => absurd full.2.2.2 notFull⟩
    · simp only [run, done]
      obtain ⟨flag, sum, difference⟩ := overflowingAdd_one room
      refine ⟨sum, ⟨account, _, rfl, rfl, ?_, fun other absent => ?_, rfl⟩, flag, sum, difference⟩
      · exact Function.update_self _ _ _
      · exact Function.update_of_ne absent _ _

/-- The pallet accepts whatever the client library builds, in every state whose counter is
not full. Nothing is asked of the account, of the arguments of `new_encrypted`, of what it
draws at random or of the keys the message is encrypted under. -/
theorem client_accepted {K : Type} {cb : CryptoBox K} (seals : cb.SealsAll)
    (nonempty : cb.SealsNonempty) (blake2s : Bytes → ByteArr keySize)
    (encode : AccountId → Bytes) (env : Externalities)
    (room : env.chain.messageCounter.toNat < 2 ^ 128 - 1) (account : AccountId) (d : Draft)
    (pk : PublicKey) (sk : SecretKey) :
    ∃ metadata stored, (d.newEncrypted cb blake2s).result = .ok (metadata, d.secretNonce) ∧
      (Cypher.encrypt cb d.message d.secretNonce pk sk).result = .ok stored ∧
      ((∃ blob, stored.encode = some blob) ↔ stored.entries.length < 2 ^ 32 ∧
        ∀ e ∈ stored.entries, e.key.length < 2 ^ 32 ∧ e.value.length < 2 ^ 32) ∧
      ∀ blob, stored.encode = some blob →
        ((sendMessage encode (.signed account) metadata blob).run.run env).1 = .ok () := by
  obtain ⟨metadata, returned⟩ := d.newEncrypted_total seals blake2s
  obtain ⟨stored, sealed⟩ := Message.encrypt_total seals d.message d.secretNonce pk sk
  refine ⟨metadata, stored, returned, sealed, Message.encode_total_iff, fun blob encoded => ?_⟩
  have checked : checkMessage blob metadata = .ok () :=
    Draft.checkMessage_yields nonempty (Draft.yields_of_ok returned)
      (Message.encode_ne_nil encoded)
  rw [sendMessage_accepted encode account checked room]

theorem client_accepted_sample :
    let d := Draft.sample 3 [6, 9, 6] ⟨[⟨[7], [8], .file⟩]⟩
    let account : ByteArr keySize := List.Vector.replicate keySize 1
    let env := stateAfter List.Vector.toList [Call.sample account [9]] .genesis
    env.chain.messageCounter = 1 ∧
    ∃ metadata blob, (d.newEncrypted clearBox numeralDigest).result =
        .ok (metadata, d.secretNonce) ∧
      ((sendMessage List.Vector.toList (.signed account) metadata blob).run.run env).1 =
        .ok () := by
  intro d account env
  have counter : env.chain.messageCounter = 1 := rfl
  have room : env.chain.messageCounter.toNat < 2 ^ 128 - 1 := by
    rw [counter]
    decide
  obtain ⟨metadata, stored, returned, sealed, -, accepted⟩ :=
    client_accepted clearBox_sealsAll clearBox_sealsNonempty numeralDigest List.Vector.toList
      env room account d ⟨List.Vector.replicate keySize 6⟩ ⟨List.Vector.replicate keySize 3⟩
  have boxed : (Cypher.encrypt clearBox d.message d.secretNonce
      ⟨List.Vector.replicate keySize 6⟩ ⟨List.Vector.replicate keySize 3⟩).result =
        .ok ⟨[⟨List.replicate 32 9 ++ List.replicate 24 5 ++ [7],
          List.replicate 32 9 ++ List.replicate 24 5 ++ [8], .file⟩]⟩ := by
    decide +kernel
  cases Except.ok.inj (boxed.symm.trans sealed)
  exact ⟨counter, metadata, _, returned, accepted _ rfl⟩

end Nolik
