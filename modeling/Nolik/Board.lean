import Nolik.Library.Sequencer
import Nolik.Pallet

/-! What the pallet is for. A board numbers the calls it admits and keeps one post for each.
Every run of the pallet publishes the posts of the board, in order and under keys that never
repeat. The off-chain store is one chain's here. -/
namespace Nolik
open ByteString Effects KeyValue Sequencing

/-- An admitted call with the counter it was given. -/
structure Post (AccountId : Type) where
  account : AccountId
  counter : BitVec 128
  metadata : MessageMetadata
  message : Bytes
  deriving DecidableEq

variable {AccountId : Type}

namespace Post
variable (encode : AccountId → Bytes) (p : Post AccountId)

def key : Bytes := derivedKey encode p.account p.counter
def event : Event := .messageSent (p.key encode) p.metadata
def put : Bytes × Bytes := (p.key encode, p.message)

end Post

/-- A board admits signed, well formed calls until the counter is full. -/
def admission (n : Nat) (c : Call AccountId) : Option (Post AccountId) :=
  match ensureSigned c.origin with
  | .error _ => none
  | .ok account =>
      if checkMessage c.message c.metadata = .ok () ∧ n + 1 < 2 ^ 128 then
        some ⟨account, BitVec.ofNat 128 n, c.metadata, c.message⟩
      else none

abbrev posts (n : Nat) (calls : List (Call AccountId)) : List (Post AccountId) :=
  sequence admission n calls

theorem posts_refused {n : Nat} {c : Call AccountId} (refused : admission n c = none)
    (calls : List (Call AccountId)) : posts n (c :: calls) = posts n calls :=
  sequence_cons_none refused calls

theorem posts_admitted {n : Nat} {c : Call AccountId} {p : Post AccountId}
    (admitted : admission n c = some p) (calls : List (Call AccountId)) :
    posts n (c :: calls) = p :: posts (n + 1) calls :=
  sequence_cons_some admitted calls

theorem admission_eq_some_iff {n : Nat} {c : Call AccountId} {p : Post AccountId} :
    admission n c = some p ↔ n + 1 < 2 ^ 128 ∧ checkMessage c.message c.metadata = .ok () ∧
      c.origin = .signed p.account ∧ p.counter = BitVec.ofNat 128 n ∧
      p.metadata = c.metadata ∧ p.message = c.message := by
  obtain ⟨account, counter, metadata, message⟩ := p
  obtain ⟨origin, metadata', message'⟩ := c
  cases origin with
  | root => simp [admission, ensureSigned]
  | none => simp [admission, ensureSigned]
  | signed account' =>
      simp only [admission, ensureSigned]
      split_ifs with admissible
      · simp only [Option.some.injEq, Post.mk.injEq, admissible, true_and,
          RuntimeOrigin.signed.injEq]
        constructor
        · rintro ⟨rfl, rfl, rfl, rfl⟩
          exact ⟨rfl, rfl, rfl, rfl⟩
        · rintro ⟨rfl, rfl, rfl, rfl⟩
          exact ⟨rfl, rfl, rfl, rfl⟩
      · simp only [false_iff]
        rintro ⟨room, checked, -⟩
        exact admissible ⟨checked, room⟩

theorem admission_numbers : Numbers (@admission AccountId) (fun p => p.counter.toNat) := by
  intro n c p admitted
  obtain ⟨room, -, -, counter, -⟩ := admission_eq_some_iff.mp admitted
  simp only [counter, BitVec.toNat_ofNat]
  omega

/-- Distinct numbers keep keys apart for any account encoding. -/
theorem keys_nodup (encode : AccountId → Bytes) (n : Nat) (calls : List (Call AccountId)) :
    ((posts n calls).map (Post.key encode)).Nodup := by
  apply nodup_map_sequence admission_numbers
  intro p q same
  exact congrArg BitVec.toNat (MessageKey.encode_split same).2

section Dispatch
variable (encode : AccountId → Bytes) {c : Call AccountId} {env : Externalities}

theorem dispatch_admitted {p : Post AccountId}
    (admitted : admission env.chain.messageCounter.toNat c = some p) :
    (c.dispatch encode).run env = (.ok (), env.publish (p.key encode) p.message p.metadata) := by
  obtain ⟨room, checked, origin, counter, metadata, message⟩ := admission_eq_some_iff.mp admitted
  have free : ¬ env.chain.messageCounter.uaddOverflow 1 = true := by
    rw [uaddOverflow_one_iff]
    omega
  have found : p.counter = env.chain.messageCounter := by
    rw [counter, BitVec.ofNat_toNat, BitVec.setWidth_eq]
  have run := sendMessage_run encode c.origin c.metadata c.message env
  simp only [origin, ensureSigned, checked, if_neg free] at run
  rw [Call.dispatch, origin, Post.key, found, metadata, message]
  exact run

theorem dispatch_refused (refused : admission env.chain.messageCounter.toNat c = none) :
    ∃ e, (c.dispatch encode).run env = (.error e, env) := by
  have run := sendMessage_run encode c.origin c.metadata c.message env
  cases signed : ensureSigned c.origin with
  | error e =>
      rw [signed] at run
      exact ⟨e, run⟩
  | ok account =>
      cases checked : checkMessage c.message c.metadata with
      | error e =>
          rw [signed, checked] at run
          exact ⟨e, run⟩
      | ok u =>
          rw [signed, checked] at run
          by_cases full : env.chain.messageCounter.uaddOverflow 1 = true
          · exact ⟨_, run.trans (if_pos full)⟩
          · rw [uaddOverflow_one_iff] at full
            have bound := env.chain.messageCounter.isLt
            have room : env.chain.messageCounter.toNat + 1 < 2 ^ 128 := by omega
            simp only [admission, signed, checked, room, and_self, if_true, reduceCtorEq] at refused

/-- The pallet accepts what the board admits. -/
theorem dispatch_ok_iff :
    ((c.dispatch encode).run env).1 = .ok () ↔
      ∃ p, admission env.chain.messageCounter.toNat c = some p := by
  cases decision : admission env.chain.messageCounter.toNat c with
  | none =>
      obtain ⟨e, run⟩ := dispatch_refused encode decision
      simp [run]
  | some p =>
      simp [dispatch_admitted encode decision]

end Dispatch

def Externalities.publishAll (encode : AccountId → Bytes) (env : Externalities)
    (ps : List (Post AccountId)) : Externalities :=
  ps.foldl (fun env p => env.publish (p.key encode) p.message p.metadata) env

section Run
variable (encode : AccountId → Bytes)

@[simp] theorem stateAfter_nil (env : Externalities) : stateAfter encode [] env = env := rfl

theorem stateAfter_cons (c : Call AccountId) (calls : List (Call AccountId))
    (env : Externalities) :
    stateAfter encode (c :: calls) env =
      stateAfter encode calls ((c.dispatch encode).run env).2 := by
  rw [stateAfter, execute_cons]
  rfl

theorem stateAfter_append (first second : List (Call AccountId)) (env : Externalities) :
    stateAfter encode (first ++ second) env =
      stateAfter encode second (stateAfter encode first env) := by
  induction first generalizing env with
  | nil => rfl
  | cons c first ih => rw [List.cons_append, stateAfter_cons, stateAfter_cons, ih]

/-- A call moves the counter by one or not at all, and never past its range. -/
theorem messageCounter_publish {c : Call AccountId} {env : Externalities} {p : Post AccountId}
    (admitted : admission env.chain.messageCounter.toNat c = some p) (key message : Bytes)
    (metadata : MessageMetadata) :
    (env.publish key message metadata).chain.messageCounter.toNat =
      env.chain.messageCounter.toNat + 1 := by
  have room := (admission_eq_some_iff.mp admitted).1
  change (env.chain.messageCounter + 1#128).toNat = _
  rw [BitVec.toNat_add, BitVec.toNat_ofNat]
  omega

/-- A run of the pallet publishes the posts of the board. -/
theorem stateAfter_eq (calls : List (Call AccountId)) (env : Externalities) :
    stateAfter encode calls env =
      env.publishAll encode (posts env.chain.messageCounter.toNat calls) := by
  induction calls generalizing env with
  | nil => rfl
  | cons c calls ih =>
      rw [stateAfter_cons]
      cases decision : admission env.chain.messageCounter.toNat c with
      | none =>
          obtain ⟨e, run⟩ := dispatch_refused encode decision
          rw [run, ih, posts_refused decision]
      | some p =>
          -- pallet and board go on with the same next number
          rw [dispatch_admitted encode decision, ih, messageCounter_publish decision,
            posts_admitted decision]
          rfl

theorem messageCounter_stateAfter (calls : List (Call AccountId)) (env : Externalities) :
    (stateAfter encode calls env).chain.messageCounter.toNat =
      env.chain.messageCounter.toNat +
        (posts env.chain.messageCounter.toNat calls).length := by
  induction calls generalizing env with
  | nil => rfl
  | cons c calls ih =>
      rw [stateAfter_cons]
      cases decision : admission env.chain.messageCounter.toNat c with
      | none =>
          obtain ⟨e, run⟩ := dispatch_refused encode decision
          rw [run, ih, posts_refused decision]
      | some p =>
          rw [dispatch_admitted encode decision, ih, messageCounter_publish decision,
            posts_admitted decision, List.length_cons]
          omega

theorem accepted_execute (calls : List (Call AccountId)) (env : Externalities) :
    ((execute encode calls).run env).1.countP Except.isOk =
      (posts env.chain.messageCounter.toNat calls).length := by
  induction calls generalizing env with
  | nil => rfl
  | cons c calls ih =>
      rw [execute_cons]
      cases decision : admission env.chain.messageCounter.toNat c with
      | none =>
          obtain ⟨e, run⟩ := dispatch_refused encode decision
          simp only [run, posts_refused decision]
          rw [List.countP_cons_of_neg Bool.false_ne_true, ih]
      | some p =>
          simp only [dispatch_admitted encode decision, posts_admitted decision]
          rw [List.countP_cons_of_pos rfl, ih, messageCounter_publish decision, List.length_cons]

@[simp] theorem events_publishAll (env : Externalities) (ps : List (Post AccountId)) :
    (env.publishAll encode ps).chain.events = env.chain.events ++ ps.map (Post.event encode) := by
  induction ps generalizing env with
  | nil => exact (List.append_nil _).symm
  | cons p ps ih =>
      rw [Externalities.publishAll, List.foldl_cons]
      exact (ih _).trans (List.append_assoc _ _ _)

@[simp] theorem offchain_publishAll (env : Externalities) (ps : List (Post AccountId)) :
    (env.publishAll encode ps).offchain = env.offchain.putAll (ps.map (Post.put encode)) := by
  induction ps generalizing env with
  | nil => rfl
  | cons p ps ih =>
      rw [Externalities.publishAll, List.foldl_cons]
      exact ih _

end Run
end Nolik
