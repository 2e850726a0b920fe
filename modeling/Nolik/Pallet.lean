import Nolik.Metadata

/-! `send_message` on the storage it touches. `encode` is the SCALE encoding of an account.
Putting a value off chain is a plain put; the counter and the events are chain state, the
off-chain store is not. -/
namespace Nolik
open ByteString Effects KeyValue

/-- `RawOrigin` of the system pallet. -/
inductive RuntimeOrigin (AccountId : Type) where
  | root
  | signed (account : AccountId)
  | none
  deriving DecidableEq

inductive Error where
  | messageCounterOverflow
  | messageMalformed
  | metadataMalformed
  deriving DecidableEq, Repr

inductive DispatchError where
  | badOrigin
  | module (error : Error)
  deriving DecidableEq, Repr

inductive Event where
  | messageSent (key : Bytes) (metadata : MessageMetadata)
  deriving DecidableEq

def Event.key : Event → Bytes
  | messageSent key _ => key

structure ChainState where
  messageCounter : BitVec 128
  events : List Event
  deriving DecidableEq

structure Externalities where
  chain : ChainState
  offchain : Store Bytes Bytes

/-- Storage writes made before an error stay made. -/
abbrev Dispatch (α : Type) := ExceptT DispatchError (StateM Externalities) α

variable {AccountId : Type}

def ensureSigned : RuntimeOrigin AccountId → Except DispatchError AccountId
  | .signed account => .ok account
  | _ => .error .badOrigin

/-- Check message format is valid. -/
def checkMessage (message : Bytes) (metadata : MessageMetadata) : Except DispatchError Unit := do
  if message.isEmpty then
    throw (.module .messageMalformed)
  if metadata.channels.isEmpty then
    throw (.module .metadataMalformed)
  metadata.channels.forM fun channel => do
    if channel.nonce.isEmpty || channel.parties.isEmpty ||
        channel.parties.length != metadata.channels.length then
      throw (.module .metadataMalformed)
    channel.parties.forM fun part => do
      if part.isEmpty then
        throw (.module .metadataMalformed)

def overflowingAdd (a b : BitVec 128) : BitVec 128 × Bool := (a + b, a.uaddOverflow b)

structure MessageKey (AccountId : Type) where
  account : AccountId
  counter : BitVec 128

def MessageKey.encode (encode : AccountId → Bytes) (k : MessageKey AccountId) : Bytes :=
  encode k.account ++ leBytes 16 k.counter.toNat

/-- Combines a user account with a message counter to make it unique. -/
def derivedKey (encode : AccountId → Bytes) (account : AccountId) (counter : BitVec 128) : Bytes :=
  MessageKey.encode encode ⟨account, counter⟩

def offchainIndexSet (key value : Bytes) : Dispatch Unit :=
  modify fun env => { env with offchain := env.offchain.put (key, value) }

def MessageCounter.get : Dispatch (BitVec 128) := do
  return (← MonadState.get).chain.messageCounter

def MessageCounter.put (counter : BitVec 128) : Dispatch Unit :=
  modify fun env => { env with chain := { env.chain with messageCounter := counter } }

def depositEvent (event : Event) : Dispatch Unit :=
  modify fun env => { env with chain := { env.chain with events := env.chain.events ++ [event] } }

/-- Puts the message to off-chain storage and emits an event with the key and the metadata. -/
def sendMessage (encode : AccountId → Bytes) (origin : RuntimeOrigin AccountId)
    (metadata : MessageMetadata) (message : Bytes) : Dispatch Unit := do
  let account ← MonadExcept.ofExcept (ensureSigned origin)
  MonadExcept.ofExcept (checkMessage message metadata)
  let counter ← MessageCounter.get
  let (counter, overflowed) := overflowingAdd counter 1
  if overflowed then
    throw (.module .messageCounterOverflow)
  let key := derivedKey encode account (counter - 1)
  -- save message to offchain storage
  offchainIndexSet key message
  -- update the message counter
  MessageCounter.put counter
  -- emit an event
  depositEvent (.messageSent key metadata)

/-- The counter is the last 16 bytes of a key, whatever the account. -/
theorem MessageKey.encode_split {encode : AccountId → Bytes} {k k' : MessageKey AccountId}
    (same : k.encode encode = k'.encode encode) :
    encode k.account = encode k'.account ∧ k.counter = k'.counter := by
  obtain ⟨account, counter⟩ := List.append_inj' same (by simp only [leBytes_length])
  refine ⟨account, BitVec.eq_of_toNat_eq ?_⟩
  exact leBytes_injective k.counter.isLt k'.counter.isLt counter

/-- The account first, then 16 bytes of the counter, the lowest one first. -/
theorem derivedKey_layout (encode : AccountId → Bytes) (account : AccountId)
    (counter : BitVec 128) : ∃ suffix : Bytes, suffix.length = 16 ∧
      derivedKey encode account counter = encode account ++ suffix ∧
      ∀ i < 16, suffix[i]? = some (UInt8.ofNat (counter.toNat / 256 ^ i % 256)) :=
  ⟨leBytes 16 counter.toNat, leBytes_length _ _, rfl, fun _ => leBytes_getElem? counter.toNat⟩

/-- The counter is cut off from the end, so an encoding of accounts that is injective is
enough. It may have any lengths, and one account may encode to the beginning of another. -/
theorem derivedKey_eq_iff (encode : AccountId → Bytes) (injective : Function.Injective encode)
    (a b : AccountId) (c d : BitVec 128) :
    (derivedKey encode a c = derivedKey encode b d ↔ a = b ∧ c = d) ∧
      ∃ suffix : Bytes, suffix.length = 16 ∧ derivedKey encode a c = encode a ++ suffix ∧
        ∀ i < 16, suffix[i]? = some (UInt8.ofNat (c.toNat / 256 ^ i % 256)) := by
  refine ⟨⟨fun same => ?_, ?_⟩, derivedKey_layout encode a c⟩
  · obtain ⟨account, counter⟩ := MessageKey.encode_split same
    exact ⟨injective account, counter⟩
  · rintro ⟨rfl, rfl⟩
    rfl

theorem derivedKey_eq_iff_raw :
    derivedKey (fun account : Bytes => account) [7] (BitVec.allOnes 128) ≠
      derivedKey (fun account => account) [7, 0xff] 0 := by
  intro same
  obtain ⟨account, -⟩ :=
    (derivedKey_eq_iff _ (fun _ _ same => same) [7] [7, 0xff] (BitVec.allOnes 128) 0).1.mp same
  cases account

def Externalities.publish (env : Externalities) (key message : Bytes)
    (metadata : MessageMetadata) : Externalities where
  chain := ⟨env.chain.messageCounter + 1, env.chain.events ++ [.messageSent key metadata]⟩
  offchain := env.offchain.put (key, message)

theorem sendMessage_run (encode : AccountId → Bytes) (origin : RuntimeOrigin AccountId)
    (metadata : MessageMetadata) (message : Bytes) (env : Externalities) :
    (sendMessage encode origin metadata message).run.run env =
      match ensureSigned origin, checkMessage message metadata with
      | .error e, _ => (.error e, env)
      | .ok _, .error e => (.error e, env)
      | .ok account, .ok () =>
          if env.chain.messageCounter.uaddOverflow 1 then
            (.error (.module .messageCounterOverflow), env)
          else
            (.ok (), env.publish (derivedKey encode account env.chain.messageCounter) message
              metadata) := by
  simp only [sendMessage, overflowingAdd, BitVec.add_sub_cancel]
  cases ensureSigned origin with
  | error e => rfl
  | ok account =>
      cases checkMessage message metadata with
      | error e => rfl
      | ok checked =>
          change StateT.run (ExceptT.run
              (if env.chain.messageCounter.uaddOverflow 1 then _ else _)) env =
            if env.chain.messageCounter.uaddOverflow 1 then _ else _
          split
          · rfl
          · rfl

/-- The counter has no successor. -/
theorem uaddOverflow_one_iff (counter : BitVec 128) :
    counter.uaddOverflow 1 = true ↔ counter.toNat = 2 ^ 128 - 1 := by
  have bound := counter.isLt
  have one : (1 : BitVec 128).toNat = 1 := rfl
  simp only [BitVec.uaddOverflow, one, ge_iff_le, decide_eq_true_eq]
  omega

theorem checkMessage_ok_iff {message : Bytes} {metadata : MessageMetadata} :
    checkMessage message metadata = .ok () ↔ message ≠ [] ∧ metadata.channels ≠ [] ∧
      ∀ channel ∈ metadata.channels, channel.nonce ≠ [] ∧ channel.parties ≠ [] ∧
        channel.parties.length = metadata.channels.length ∧
        ∀ part ∈ channel.parties, part ≠ [] := by
  simp only [checkMessage, except_guard_ok_iff, except_forM_ok_iff, except_last_guard_ok_iff,
    List.isEmpty_iff, Bool.or_eq_true, bne_iff_ne, not_or, not_not, and_assoc, ne_eq]

structure Call (AccountId : Type) where
  origin : RuntimeOrigin AccountId
  metadata : MessageMetadata
  message : Bytes
  deriving DecidableEq

def Call.dispatch (encode : AccountId → Bytes) (c : Call AccountId) :
    StateM Externalities (Except DispatchError Unit) :=
  (sendMessage encode c.origin c.metadata c.message).run

def execute (encode : AccountId → Bytes) (calls : List (Call AccountId)) :
    StateM Externalities (List (Except DispatchError Unit)) :=
  calls.mapM (Call.dispatch encode)

/-- A well formed call to evaluate with. Its metadata names one channel with one party. -/
def Call.sample (account : AccountId) (message : Bytes) : Call AccountId where
  origin := .signed account
  metadata := {
    nonce := List.Vector.replicate nonceSize 2
    broker := List.Vector.replicate keySize 4
    hash := List.Vector.replicate keySize 0
    channels := [⟨[1], [[2]]⟩] }
  message := message

def ChainState.genesis : ChainState := ⟨0, []⟩

def Externalities.genesis : Externalities := ⟨.genesis, Store.empty⟩

theorem execute_cons (encode : AccountId → Bytes) (c : Call AccountId)
    (calls : List (Call AccountId)) (env : Externalities) :
    (execute encode (c :: calls)).run env =
      let first := (c.dispatch encode).run env
      let rest := (execute encode calls).run first.2
      (first.1 :: rest.1, rest.2) := by
  rw [execute, List.mapM_cons]
  rfl

def stateAfter (encode : AccountId → Bytes) (calls : List (Call AccountId)) (env : Externalities) :
    Externalities := ((execute encode calls).run env).2

end Nolik
