import Nolik.Aborts
import Nolik.Verify

/-! What `MessageMetadata::decrypt` returns for channels nobody vouches for. A channel whose
nonce does not open is skipped; one that opens and then fails at a party ends the whole
function. Opened parties are passed on with whatever length they have. -/
namespace Nolik
open ByteString Effects Sealing

variable {K : Type}

section Channels
variable (cb : CryptoBox K) (publicNonce : SalsaNonce) (brokerPk : PublicKey)
  (receiverSk : SecretKey) (channel : Channel)

/-- The nonce opens, and so do all parties under it. -/
def FullyOpens : Prop :=
  ∃ secretNonce : SalsaNonce,
    BytesCypher.decrypt cb channel.nonce publicNonce brokerPk receiverSk =
      .ok secretNonce.toList ∧
    ∀ p ∈ channel.parties, ∃ plain, BytesCypher.decrypt cb p secretNonce brokerPk receiverSk =
      .ok plain

def HalfOpens : Prop :=
  ∃ secretNonce : SalsaNonce,
    BytesCypher.decrypt cb channel.nonce publicNonce brokerPk receiverSk =
      .ok secretNonce.toList ∧
    ∃ p ∈ channel.parties, ∃ e, BytesCypher.decrypt cb p secretNonce brokerPk receiverSk =
      .error e

variable {cb publicNonce brokerPk receiverSk channel} in
theorem not_halfOpens_of_closed {e : CypherError}
    (closed : BytesCypher.decrypt cb channel.nonce publicNonce brokerPk receiverSk = .error e) :
    ¬ HalfOpens cb publicNonce brokerPk receiverSk channel := by
  rintro ⟨secretNonce, opened, -⟩
  rw [closed] at opened
  cases opened

variable {cb publicNonce brokerPk receiverSk channel} in
theorem FullyOpens.not_halfOpens (full : FullyOpens cb publicNonce brokerPk receiverSk channel) :
    ¬ HalfOpens cb publicNonce brokerPk receiverSk channel := by
  obtain ⟨secretNonce, opened, each⟩ := full
  rintro ⟨secretNonce', opened', p, member, e, refused⟩
  rw [opened] at opened'
  cases List.Vector.toList_injective (Except.ok.inj opened')
  obtain ⟨plain, passed⟩ := each p member
  rw [refused] at passed
  cases passed

/-- The channel as its receiver should see it: opened entirely, or not at all. -/
def fullOpening : Option Channel :=
  match BytesCypher.decrypt cb channel.nonce publicNonce brokerPk receiverSk with
  | .error _ => none
  | .ok nonce =>
      match tryInto nonceSize nonce with
      | none => none
      | some secretNonce =>
          match channel.parties.mapM fun p =>
              BytesCypher.decrypt cb p secretNonce brokerPk receiverSk with
          | .error _ => none
          | .ok parties => some ⟨secretNonce.toList, parties⟩

variable {cb publicNonce brokerPk receiverSk channel}

theorem fullOpening_of_closed {e : CypherError}
    (closed : BytesCypher.decrypt cb channel.nonce publicNonce brokerPk receiverSk = .error e) :
    fullOpening cb publicNonce brokerPk receiverSk channel = none := by
  simp only [fullOpening, closed]

theorem fullOpening_of_opened {secretNonce : SalsaNonce}
    (opened : BytesCypher.decrypt cb channel.nonce publicNonce brokerPk receiverSk =
      .ok secretNonce.toList) :
    fullOpening cb publicNonce brokerPk receiverSk channel =
      match channel.parties.mapM fun p =>
          BytesCypher.decrypt cb p secretNonce brokerPk receiverSk with
      | .error _ => none
      | .ok parties => some ⟨secretNonce.toList, parties⟩ := by
  simp only [fullOpening, opened, tryInto_toList]

theorem openChannel_of_opened {secretNonce : SalsaNonce}
    (opened : BytesCypher.decrypt cb channel.nonce publicNonce brokerPk receiverSk =
      .ok secretNonce.toList) :
    openChannel cb publicNonce brokerPk receiverSk channel =
      match channel.parties.mapM fun p =>
          BytesCypher.decrypt cb p secretNonce brokerPk receiverSk with
      | .error e => .err e
      | .ok parties => .ok [⟨secretNonce.toList, parties⟩] := by
  simp only [openChannel, decryptChannel, opened, SalsaNonce.fromSlice_toList, Outcome.ok_bind]
  cases channel.parties.mapM fun p =>
      BytesCypher.decrypt cb p secretNonce brokerPk receiverSk with
  | error e => rfl
  | ok parties => rfl

theorem NonceFits.closed_or_opened (fits : NonceFits cb publicNonce brokerPk receiverSk channel) :
    (∃ e, BytesCypher.decrypt cb channel.nonce publicNonce brokerPk receiverSk = .error e) ∨
      ∃ secretNonce : SalsaNonce,
        BytesCypher.decrypt cb channel.nonce publicNonce brokerPk receiverSk =
          .ok secretNonce.toList := by
  cases shown : BytesCypher.decrypt cb channel.nonce publicNonce brokerPk receiverSk with
  | error e => exact .inl ⟨e, rfl⟩
  | ok nonce => exact .inr ⟨⟨nonce, fits nonce shown⟩, rfl⟩

theorem openChannel_good_or_error (fits : NonceFits cb publicNonce brokerPk receiverSk channel) :
    (¬ HalfOpens cb publicNonce brokerPk receiverSk channel ∧
      openChannel cb publicNonce brokerPk receiverSk channel =
        .ok (fullOpening cb publicNonce brokerPk receiverSk channel).toList) ∨
    (HalfOpens cb publicNonce brokerPk receiverSk channel ∧
      openChannel cb publicNonce brokerPk receiverSk channel =
        .err (.decryptionFailed brokerPk)) := by
  rcases fits.closed_or_opened with ⟨e, closed⟩ | ⟨secretNonce, opened⟩
  · refine .inl ⟨not_halfOpens_of_closed closed, ?_⟩
    rw [openChannel_foreign closed, fullOpening_of_closed closed]
    rfl
  · rw [openChannel_of_opened opened, fullOpening_of_opened opened]
    have uniform := except_mapM_or_error fun p (_ : p ∈ channel.parties) =>
      BytesCypher.decrypt_ok_or_failed cb p secretNonce brokerPk receiverSk
    rcases uniform with ⟨parties, every⟩ | ⟨⟨p, member, refused⟩, stopped⟩
    · have full : FullyOpens cb publicNonce brokerPk receiverSk channel :=
        ⟨secretNonce, opened, except_mapM_total_iff.mp ⟨parties, every⟩⟩
      exact .inl ⟨full.not_halfOpens, by rw [every]; rfl⟩
    · exact .inr ⟨⟨secretNonce, opened, p, member, _, refused⟩, by rw [stopped]⟩

theorem fullOpening_eq_some_iff {seen : Channel} :
    fullOpening cb publicNonce brokerPk receiverSk channel = some seen ↔
      ∃ secretNonce : SalsaNonce, seen.nonce = secretNonce.toList ∧
        BytesCypher.decrypt cb channel.nonce publicNonce brokerPk receiverSk =
          .ok secretNonce.toList ∧
        (channel.parties.mapM fun p =>
          BytesCypher.decrypt cb p secretNonce brokerPk receiverSk) = .ok seen.parties := by
  constructor
  · intro opening
    unfold fullOpening at opening
    split at opening
    · cases opening
    · next nonce shown =>
        split at opening
        · cases opening
        · next secretNonce read =>
            split at opening
            · cases opening
            · next parties every =>
                cases opening
                rw [tryInto_eq_some] at read
                subst read
                exact ⟨secretNonce, rfl, shown, every⟩
  · rintro ⟨secretNonce, nonce, opened, every⟩
    rw [fullOpening_of_opened opened, every]
    cases seen
    cases nonce
    rfl

/-- Short of half opening, a channel that shows its nonce is seen in full. -/
theorem fullOpening_of_not_halfOpens
    (whole : ¬ HalfOpens cb publicNonce brokerPk receiverSk channel) {secretNonce : SalsaNonce}
    (opened : BytesCypher.decrypt cb channel.nonce publicNonce brokerPk receiverSk =
      .ok secretNonce.toList) :
    ∃ parties, fullOpening cb publicNonce brokerPk receiverSk channel =
        some ⟨secretNonce.toList, parties⟩ ∧
      (channel.parties.mapM fun p =>
        BytesCypher.decrypt cb p secretNonce brokerPk receiverSk) = .ok parties := by
  have each : ∀ p ∈ channel.parties, ∃ plain,
      BytesCypher.decrypt cb p secretNonce brokerPk receiverSk = .ok plain := by
    intro p member
    cases part : BytesCypher.decrypt cb p secretNonce brokerPk receiverSk with
    | ok plain => exact ⟨plain, rfl⟩
    | error e => exact absurd ⟨secretNonce, opened, p, member, e, part⟩ whole
  obtain ⟨parties, every⟩ := except_mapM_total_iff.mpr each
  exact ⟨parties, (fullOpening_of_opened opened).trans (by rw [every]), every⟩

theorem fullOpening_eq_none_iff :
    fullOpening cb publicNonce brokerPk receiverSk channel = none ↔
      ¬ FullyOpens cb publicNonce brokerPk receiverSk channel := by
  rw [← not_iff_not, not_not, ← ne_eq, Option.ne_none_iff_exists']
  simp only [fullOpening_eq_some_iff]
  constructor
  · rintro ⟨seen, secretNonce, -, opened, every⟩
    exact ⟨secretNonce, opened, except_mapM_total_iff.mp ⟨seen.parties, every⟩⟩
  · rintro ⟨secretNonce, opened, each⟩
    obtain ⟨parties, every⟩ := except_mapM_total_iff.mpr each
    exact ⟨⟨secretNonce.toList, parties⟩, secretNonce, rfl, opened, every⟩

end Channels

namespace MessageMetadata
variable (cb : CryptoBox K) (self : MessageMetadata) (receiverSk : SecretKey)

abbrev NonceFits (channel : Channel) : Prop :=
  Nolik.NonceFits cb self.nonce ⟨self.broker⟩ receiverSk channel

abbrev FullyOpens (channel : Channel) : Prop :=
  Nolik.FullyOpens cb self.nonce ⟨self.broker⟩ receiverSk channel

abbrev HalfOpens (channel : Channel) : Prop :=
  Nolik.HalfOpens cb self.nonce ⟨self.broker⟩ receiverSk channel

/-- The channels that open entirely, in their order; nothing else changed. -/
def fullOpenings : MessageMetadata :=
  let visible := fullOpening cb self.nonce ⟨self.broker⟩ receiverSk
  { self with channels := self.channels.filterMap visible }

variable {cb self receiverSk}

theorem decrypt_good_or_error (fits : ∀ c ∈ self.channels, self.NonceFits cb receiverSk c) :
    ((∀ c ∈ self.channels, ¬ self.HalfOpens cb receiverSk c) ∧
      self.decrypt cb receiverSk = .ok (self.fullOpenings cb receiverSk)) ∨
    ((∃ c ∈ self.channels, self.HalfOpens cb receiverSk c) ∧
      self.decrypt cb receiverSk = .err (.decryptionFailed ⟨self.broker⟩)) := by
  rw [decrypt_eq]
  rcases Outcome.collect_good_or_error fun c member =>
      openChannel_good_or_error (fits c member) with ⟨good, collected⟩ | ⟨bad, stopped⟩
  · exact .inl ⟨good, by rw [collected]; rfl⟩
  · exact .inr ⟨bad, by rw [stopped]; rfl⟩

/-- A decryption that returns has met no half open channel, and no nonce of a wrong length. -/
theorem good_of_decrypt {decrypted : MessageMetadata}
    (returned : self.decrypt cb receiverSk = .ok decrypted) :
    (∀ c ∈ self.channels, ¬ self.HalfOpens cb receiverSk c) ∧
      decrypted = self.fullOpenings cb receiverSk := by
  have fits : ∀ c ∈ self.channels, self.NonceFits cb receiverSk c := by
    rw [decrypt_eq] at returned
    cases collected : Outcome.collect (openChannel cb self.nonce ⟨self.broker⟩ receiverSk)
        self.channels with
    | err e => rw [collected] at returned; cases returned
    | panic => rw [collected] at returned; cases returned
    | ok channels =>
        intro c member
        obtain ⟨seen, visited⟩ := Outcome.collect_ok_visited collected c member
        by_contra unfit
        rw [openChannel_panic_iff.mpr unfit] at visited
        cases visited
  rcases decrypt_good_or_error fits with ⟨good, decrypted⟩ | ⟨-, stopped⟩
  · rw [decrypted] at returned
    exact ⟨good, (Outcome.ok.inj returned).symm⟩
  · rw [stopped] at returned
    cases returned

/-- A channel that does not open entirely, in a place between others. -/
theorem decrypt_cut_iff {before after : List Channel} {channel : Channel}
    (fits : ∀ c ∈ before ++ channel :: after, self.NonceFits cb receiverSk c)
    (partly : ¬ self.FullyOpens cb receiverSk channel) :
    ({ self with channels := before ++ channel :: after }.decrypt cb receiverSk =
        { self with channels := before ++ after }.decrypt cb receiverSk ↔
      ¬ self.HalfOpens cb receiverSk channel ∨
        ∃ c ∈ before ++ after, self.HalfOpens cb receiverSk c) := by
  have others : ∀ c ∈ before ++ after, c ∈ before ++ channel :: after := by
    simp only [List.mem_append, List.mem_cons]
    tauto
  have same : { self with channels := before ++ channel :: after }.fullOpenings cb receiverSk =
      { self with channels := before ++ after }.fullOpenings cb receiverSk := by
    simp only [fullOpenings, List.filterMap_append,
      List.filterMap_cons_none (fullOpening_eq_none_iff.mpr partly)]
  have whole := @decrypt_good_or_error K cb { self with channels := before ++ channel :: after }
    receiverSk fits
  have cut := @decrypt_good_or_error K cb { self with channels := before ++ after } receiverSk
    fun c member => fits c (others c member)
  rcases cut with ⟨good, cut⟩ | ⟨⟨c, member, half⟩, cut⟩
  · rcases whole with ⟨allGood, whole⟩ | ⟨⟨c, member, half⟩, whole⟩
    · rw [whole, cut, same]
      exact ⟨fun _ => .inl (allGood channel (List.mem_append_right _ List.mem_cons_self)),
        fun _ => rfl⟩
    · rw [whole, cut]
      refine ⟨fun h => (by cases h), fun unspoilt => ?_⟩
      exfalso
      -- the half open channel is either the one put in or one of the others
      rcases List.mem_append.mp member with first | rest
      · exact good c (List.mem_append_left _ first) half
      · rcases List.mem_cons.mp rest with rfl | last
        · rcases unspoilt with closed | ⟨c', member', half'⟩
          · exact closed half
          · exact good c' member' half'
        · exact good c (List.mem_append_right _ last) half
  · rcases whole with ⟨allGood, whole⟩ | ⟨-, whole⟩
    · exact absurd half (allGood c (others c member))
    · rw [whole, cut]
      exact ⟨fun _ => .inr ⟨c, member, half⟩, fun _ => rfl⟩

end MessageMetadata

namespace Crafted

/-- In the box in clear the public key repeats the bytes of the secret one. -/
def receiverSk : SecretKey := ⟨List.Vector.replicate keySize 6⟩
def brokerSk : SecretKey := ⟨List.Vector.replicate keySize 4⟩
def publicNonce : SalsaNonce := List.Vector.replicate nonceSize 2
def secretNonce : SalsaNonce := List.Vector.replicate nonceSize 5

def boxed (nonce : SalsaNonce) (plain : Bytes) : Bytes :=
  (clearBox.new (clearBox.publicKey receiverSk) brokerSk).toList ++ nonce.toList ++ plain

def channel (parties : List Bytes) : Channel := ⟨boxed publicNonce secretNonce.toList, parties⟩

def honest : Channel :=
  channel [boxed secretNonce (List.replicate keySize 3),
    boxed secretNonce (List.replicate keySize 6)]

def metadata (channels : List Channel) : MessageMetadata where
  nonce := publicNonce
  broker := (clearBox.publicKey brokerSk).bytes
  hash := List.Vector.replicate keySize 0
  channels := channels

theorem boxed_encrypts (nonce : SalsaNonce) (plain : Bytes) :
    (BytesCypher.encrypt clearBox plain nonce (clearBox.publicKey receiverSk) brokerSk).result =
      .ok (boxed nonce plain) := rfl

theorem channel_opens (parties : List Bytes) :
    BytesCypher.decrypt clearBox (channel parties).nonce publicNonce
      (clearBox.publicKey brokerSk) receiverSk = .ok secretNonce.toList :=
  BytesCypher.decrypt_encrypt clearBox_lawful (clearBox_lawful.agree receiverSk brokerSk)
    (boxed_encrypts publicNonce secretNonce.toList)

theorem channel_fits (parties : List Bytes) :
    Nolik.NonceFits clearBox publicNonce (clearBox.publicKey brokerSk) receiverSk
      (channel parties) := by
  intro nonce shown
  rw [channel_opens] at shown
  cases shown
  exact secretNonce.toList_length

theorem honest_parties : ∀ part ∈ honest.parties, ∀ plain, BytesCypher.decrypt clearBox part
    secretNonce (clearBox.publicKey brokerSk) receiverSk = .ok plain → plain.length = keySize := by
  have every : (honest.parties.mapM fun part => BytesCypher.decrypt clearBox part secretNonce
      (clearBox.publicKey brokerSk) receiverSk) =
        .ok [List.replicate keySize 3, List.replicate keySize 6] := by
    decide +kernel
  exact (except_mapM_forall_iff every).mp (by decide)

theorem honest_opens : FullyOpens clearBox publicNonce (clearBox.publicKey brokerSk) receiverSk
    honest := by
  by_contra closed
  have none := fullOpening_eq_none_iff.mpr closed
  revert none
  decide +kernel

end Crafted

/-- With nonces of 24 bytes, decryption returns exactly the channels that open entirely, and
does so undisturbed by the others, if and only if no channel opens and then fails at one
of its parties. A further channel that does not open entirely leaves the result alone if
it does not open by its nonce either, or if the result is spoilt already. -/
theorem decrypt_skips_iff (cb : CryptoBox K) (metadata : MessageMetadata)
    (receiverSk : SecretKey)
    (fits : ∀ channel ∈ metadata.channels, metadata.NonceFits cb receiverSk channel) :
    (((∃ decrypted, metadata.decrypt cb receiverSk = .ok decrypted ∧
        decrypted.nonce = metadata.nonce ∧ decrypted.broker = metadata.broker ∧
        decrypted.hash = metadata.hash ∧ decrypted.channels = metadata.channels.filterMap
          (fullOpening cb metadata.nonce ⟨metadata.broker⟩ receiverSk)) ∧
      ∀ before channel after, metadata.channels = before ++ channel :: after →
        ¬ metadata.FullyOpens cb receiverSk channel →
        { metadata with channels := before ++ after }.decrypt cb receiverSk =
          metadata.decrypt cb receiverSk) ↔
      ∀ channel ∈ metadata.channels, ¬ metadata.HalfOpens cb receiverSk channel) ∧
    ∀ before channel after, metadata.channels = before ++ after →
      metadata.NonceFits cb receiverSk channel → ¬ metadata.FullyOpens cb receiverSk channel →
      ({ metadata with channels := before ++ channel :: after }.decrypt cb receiverSk =
          metadata.decrypt cb receiverSk ↔
        ¬ metadata.HalfOpens cb receiverSk channel ∨
          ∃ c ∈ metadata.channels, metadata.HalfOpens cb receiverSk c) := by
  obtain ⟨nonce, broker, hash, channels⟩ := metadata
  constructor
  · rcases MessageMetadata.decrypt_good_or_error fits with ⟨good, decrypted⟩ | ⟨bad, stopped⟩
    · refine ⟨fun _ => good, fun _ => ⟨⟨_, decrypted, rfl, rfl, rfl, rfl⟩, ?_⟩⟩
      rintro before channel after rfl partly
      have closed := good channel (List.mem_append_right _ List.mem_cons_self)
      exact ((MessageMetadata.decrypt_cut_iff fits partly).mpr (.inl closed)).symm
    · constructor
      · rintro ⟨⟨decrypted, returned, -⟩, -⟩
        rw [stopped] at returned
        cases returned
      · intro good
        obtain ⟨channel, member, half⟩ := bad
        exact absurd half (good channel member)
  · rintro before channel after rfl fitting partly
    refine MessageMetadata.decrypt_cut_iff (fun c member => ?_) partly
    rcases List.mem_append.mp member with first | rest
    · exact fits c (List.mem_append_left _ first)
    · rcases List.mem_cons.mp rest with rfl | last
      · exact fitting
      · exact fits c (List.mem_append_right _ last)

/-- A channel of someone else between two of the receiver's. -/
theorem decrypt_skips_foreign :
    ∃ decrypted, (Crafted.metadata [Crafted.honest, ⟨[1], [[2]]⟩, Crafted.honest]).decrypt clearBox
        Crafted.receiverSk = .ok decrypted ∧
      decrypted.channels = List.replicate 2 ⟨Crafted.secretNonce.toList,
        [List.replicate keySize 3, List.replicate keySize 6]⟩ := by
  have closed : BytesCypher.decrypt clearBox [1] Crafted.publicNonce
      (clearBox.publicKey Crafted.brokerSk) Crafted.receiverSk =
        .error (.decryptionFailed (clearBox.publicKey Crafted.brokerSk)) := by
    decide +kernel
  have fits : ∀ channel ∈ [Crafted.honest, ⟨[1], [[2]]⟩, Crafted.honest],
      NonceFits clearBox Crafted.publicNonce (clearBox.publicKey Crafted.brokerSk)
        Crafted.receiverSk channel := by
    simp only [List.forall_mem_cons]
    refine ⟨Crafted.channel_fits _, ?_, Crafted.channel_fits _, ?_⟩
    · intro nonce shown
      rw [closed] at shown
      cases shown
    · exact fun channel member => (List.not_mem_nil member).elim
  have whole : ∀ channel ∈ [Crafted.honest, ⟨[1], [[2]]⟩, Crafted.honest],
      ¬ HalfOpens clearBox Crafted.publicNonce (clearBox.publicKey Crafted.brokerSk)
        Crafted.receiverSk channel := by
    simp only [List.forall_mem_cons]
    refine ⟨Crafted.honest_opens.not_halfOpens, not_halfOpens_of_closed closed,
      Crafted.honest_opens.not_halfOpens, ?_⟩
    exact fun channel member => (List.not_mem_nil member).elim
  obtain ⟨⟨decrypted, returned, -, -, -, channels⟩, -⟩ :=
    (decrypt_skips_iff clearBox (Crafted.metadata _) Crafted.receiverSk fits).1.mpr whole
  exact ⟨decrypted, returned, channels.trans (by decide +kernel)⟩

/-- One party that does not open costs the receiver the honest channel before it. -/
theorem half_open_channel_spoils :
    let bad : Channel := Crafted.channel [[0], [0]]
    let metadata := Crafted.metadata [Crafted.honest, bad]
    checkMessage [0] metadata = .ok () ∧
      (∀ channel ∈ metadata.channels, metadata.NonceFits clearBox Crafted.receiverSk channel) ∧
      ¬ metadata.FullyOpens clearBox Crafted.receiverSk bad ∧
      metadata.decrypt clearBox Crafted.receiverSk = .err (.decryptionFailed ⟨metadata.broker⟩) ∧
      (Crafted.metadata [Crafted.honest]).decrypt clearBox Crafted.receiverSk =
        .ok { metadata with channels := [⟨Crafted.secretNonce.toList,
          [List.replicate keySize 3, List.replicate keySize 6]⟩] } := by
  intro bad metadata
  refine ⟨by decide +kernel, ?_, ?_, by decide +kernel, by decide +kernel⟩
  · simp only [metadata, Crafted.metadata, List.forall_mem_cons]
    refine ⟨Crafted.channel_fits _, Crafted.channel_fits _, ?_⟩
    exact fun channel member => (List.not_mem_nil member).elim
  · exact fullOpening_eq_none_iff.mp (by decide +kernel)

/-- A channel from which the sender and the recipients can be rebuilt. -/
structure Channel.Readable (size : Nat) (channel : Channel) : Prop where
  nonce : channel.nonce.length = nonceSize
  parties : channel.parties.length = size
  keys : ∀ party ∈ channel.parties, party.length = keySize

theorem PublicKey.mapM_tryFrom_of_length {parties : List Bytes}
    (keys : ∀ party ∈ parties, party.length = keySize) :
    ∃ pks : List PublicKey, parties = pks.map PublicKey.asBytes := by
  induction parties with
  | nil => exact ⟨[], rfl⟩
  | cons party parties ih =>
      obtain ⟨first, rest⟩ := List.forall_mem_cons.mp keys
      obtain ⟨pks, rfl⟩ := ih rest
      exact ⟨⟨⟨party, first⟩⟩ :: pks, rfl⟩

theorem Channel.Readable.envelope {size : Nat} {channel : Channel} (positive : 0 < size)
    (readable : channel.Readable size) : ∃ envelope, channel.envelope = some envelope := by
  obtain ⟨nonce, parties⟩ := channel
  obtain ⟨fit, count, keys⟩ := readable
  obtain ⟨pks, rfl⟩ := PublicKey.mapM_tryFrom_of_length keys
  cases pks with
  | nil =>
      cases count
      cases positive
  | cons senderPk recipients =>
      obtain ⟨secretNonce, rfl⟩ : ∃ secretNonce : SalsaNonce, nonce = secretNonce.toList :=
        ⟨⟨nonce, fit⟩, rfl⟩
      refine ⟨⟨secretNonce, senderPk, recipients⟩, ?_⟩
      rw [Channel.envelope, tryInto_toList, PublicKey.mapM_tryFrom]
      rfl

/-- Metadata that the pallet accepts decrypts to readable channels exactly when the parties of
the channels that open were sealed from 32 bytes each. The nonce and the number of parties
are never in question. -/
theorem decrypt_readable_iff (cb : CryptoBox K) {message : Bytes}
    {metadata decrypted : MessageMetadata} {receiverSk : SecretKey}
    (accepted : checkMessage message metadata = .ok ())
    (returned : metadata.decrypt cb receiverSk = .ok decrypted) :
    (∀ channel ∈ decrypted.channels, channel.Readable metadata.channels.length ∧
        ∃ envelope, channel.envelope = some envelope) ↔
      ∀ channel ∈ metadata.channels, ∀ secretNonce : SalsaNonce,
        BytesCypher.decrypt cb channel.nonce metadata.nonce ⟨metadata.broker⟩ receiverSk =
          .ok secretNonce.toList →
        ∀ part ∈ channel.parties, ∀ plain,
          BytesCypher.decrypt cb part secretNonce ⟨metadata.broker⟩ receiverSk = .ok plain →
          plain.length = keySize := by
  obtain ⟨-, channels, each⟩ := checkMessage_ok_iff.mp accepted
  obtain ⟨whole, rfl⟩ := MessageMetadata.good_of_decrypt returned
  constructor
  · intro readable channel member secretNonce opened
    obtain ⟨parties, seen, every⟩ := fullOpening_of_not_halfOpens (whole channel member) opened
    have shown := (readable _ (List.mem_filterMap.mpr ⟨channel, member, seen⟩)).1
    exact (except_mapM_forall_iff every).mp shown.keys
  · intro sealed seen member
    obtain ⟨channel, member, opening⟩ := List.mem_filterMap.mp member
    obtain ⟨secretNonce, nonce, opened, every⟩ := fullOpening_eq_some_iff.mp opening
    have readable : seen.Readable metadata.channels.length := {
      nonce := by rw [nonce, List.Vector.toList_length]
      parties := by
        rw [← (each channel member).2.2.1]
        exact (except_mapM_ok_iff.mp every).length_eq.symm
      keys := (except_mapM_forall_iff every).mpr (sealed channel member secretNonce opened) }
    exact ⟨readable, readable.envelope (List.length_pos_iff.mpr channels)⟩

/-- The honest channel twice, so that the shape is square. -/
theorem decrypt_readable_sample :
    let metadata := Crafted.metadata [Crafted.honest, Crafted.honest]
    ∃ decrypted, metadata.decrypt clearBox Crafted.receiverSk = .ok decrypted ∧
      ∀ channel ∈ decrypted.channels, channel.Readable 2 ∧
        ∃ envelope, channel.envelope = some envelope := by
  intro metadata
  have returned : metadata.decrypt clearBox Crafted.receiverSk = .ok { metadata with
      channels := List.replicate 2 ⟨Crafted.secretNonce.toList,
        [List.replicate keySize 3, List.replicate keySize 6]⟩ } := by
    decide +kernel
  have accepted : checkMessage [0] metadata = .ok () := by decide +kernel
  refine ⟨_, returned, (decrypt_readable_iff clearBox accepted returned).mpr ?_⟩
  intro channel member secretNonce opened
  have only : channel = Crafted.honest := by
    simpa only [metadata, Crafted.metadata, List.mem_cons, List.not_mem_nil, or_false,
      or_self] using member
  subst only
  rw [show Crafted.honest.nonce = (Crafted.channel []).nonce from rfl] at opened
  cases List.Vector.toList_injective (Except.ok.inj ((Crafted.channel_opens []).symm.trans opened))
  exact Crafted.honest_parties

/-- An author seals one byte in the place of a key. -/
theorem short_party_returned :
    let metadata := Crafted.metadata [Crafted.channel [Crafted.boxed Crafted.secretNonce [7]]]
    checkMessage [0] metadata = .ok () ∧
      metadata.decrypt clearBox Crafted.receiverSk =
        .ok { metadata with channels := [⟨Crafted.secretNonce.toList, [[7]]⟩] } ∧
      ¬ Channel.Readable 1 ⟨Crafted.secretNonce.toList, [[7]]⟩ ∧
      Channel.envelope ⟨Crafted.secretNonce.toList, [[7]]⟩ = none := by
  intro metadata
  refine ⟨by decide +kernel, by decide +kernel, fun readable => ?_, by decide +kernel⟩
  cases readable.keys [7] List.mem_cons_self

end Nolik
