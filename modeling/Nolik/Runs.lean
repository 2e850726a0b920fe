import Nolik.Acceptance

/-! What a run does, from the calls alone. A call is judged by its own shape and by how many
well formed calls came before it, so the order of the calls matters only at the end of the
counter. Every event names its signer and its number in its key. -/
namespace Nolik
open ByteString Effects KeyValue Sequencing

variable {AccountId : Type}

/-- What a call comes to while there are numbers left. -/
def Call.verdict (c : Call AccountId) : Except DispatchError Unit := do
  let _ ← ensureSigned c.origin
  checkMessage c.message c.metadata

def Call.eligible (c : Call AccountId) : Bool := c.verdict.isOk

def ChainState.room (chain : ChainState) : Nat := 2 ^ 128 - 1 - chain.messageCounter.toNat

theorem Call.eligible_iff {c : Call AccountId} :
    c.eligible ↔ (∃ account, c.origin = .signed account) ∧
      checkMessage c.message c.metadata = .ok () := by
  rw [eligible, verdict]
  cases origin : c.origin with
  | root => exact ⟨fun h => (by cases h), fun ⟨⟨_, h⟩, _⟩ => (by cases h)⟩
  | none => exact ⟨fun h => (by cases h), fun ⟨⟨_, h⟩, _⟩ => (by cases h)⟩
  | signed account =>
      cases checked : checkMessage c.message c.metadata with
      | error e => exact ⟨fun h => (by cases h), fun ⟨_, h⟩ => (by cases h)⟩
      | ok u => exact ⟨fun _ => ⟨⟨account, rfl⟩, rfl⟩, fun _ => rfl⟩

def Call.post (c : Call AccountId) (number : Nat) : Option (Post AccountId) :=
  match ensureSigned c.origin with
  | .ok account => some ⟨account, BitVec.ofNat 128 number, c.metadata, c.message⟩
  | .error _ => none

theorem admission_eq (n : Nat) (c : Call AccountId) :
    admission n c = if c.eligible ∧ n + 1 < 2 ^ 128 then c.post n else none := by
  cases origin : c.origin with
  | root => simp [admission, Call.post, origin, ensureSigned]
  | none => simp [admission, Call.post, origin, ensureSigned]
  | signed account =>
      have eligible : c.eligible ↔ checkMessage c.message c.metadata = .ok () := by
        simp [Call.eligible_iff, origin]
      simp only [admission, Call.post, origin, ensureSigned, eligible]

theorem Call.post_of_eligible {c : Call AccountId} (eligible : c.eligible) (number : Nat) :
    ∃ account, c.origin = .signed account ∧
      c.post number = some ⟨account, BitVec.ofNat 128 number, c.metadata, c.message⟩ := by
  obtain ⟨⟨account, origin⟩, -⟩ := Call.eligible_iff.mp eligible
  exact ⟨account, origin, by rw [post, origin]; rfl⟩

section Step
variable (encode : AccountId → Bytes) (c : Call AccountId) (env : Externalities)

/-- Without room, an eligible call meets the overflow, and any other call its own error. -/
theorem dispatch_verdict : ((c.dispatch encode).run env).1 =
    if c.eligible ∧ env.chain.room = 0 then .error (.module .messageCounterOverflow)
    else c.verdict := by
  have run := sendMessage_run encode c.origin c.metadata c.message env
  have bound := env.chain.messageCounter.isLt
  have noRoom : env.chain.room = 0 ↔ env.chain.messageCounter.uaddOverflow 1 = true := by
    rw [uaddOverflow_one_iff, ChainState.room]
    omega
  rw [Call.dispatch, run]
  simp only [noRoom, Call.eligible, Call.verdict]
  cases ensureSigned c.origin with
  | error e => rfl
  | ok account =>
      cases checkMessage c.message c.metadata with
      | error e => rfl
      | ok u =>
          by_cases overflows : env.chain.messageCounter.uaddOverflow 1 = true
          · simp only [overflows, if_true]
            rfl
          · simp only [overflows]
            rfl

/-- A call takes one number exactly when it is eligible and one is left. -/
theorem room_dispatch : ((c.dispatch encode).run env).2.chain.room =
    env.chain.room - if c.eligible then 1 else 0 := by
  have bound := env.chain.messageCounter.isLt
  cases decision : admission env.chain.messageCounter.toNat c with
  | none =>
      obtain ⟨e, run⟩ := dispatch_refused encode decision
      rw [run]
      change env.chain.room = _
      rw [admission_eq] at decision
      by_cases eligible : c.eligible
      · have full : ¬ env.chain.messageCounter.toNat + 1 < 2 ^ 128 := by
          intro room
          obtain ⟨account, -, made⟩ := Call.post_of_eligible eligible env.chain.messageCounter.toNat
          rw [if_pos ⟨eligible, room⟩, made] at decision
          cases decision
        rw [if_pos eligible, ChainState.room]
        omega
      · rw [if_neg eligible, Nat.sub_zero]
  | some p =>
      have eligible : c.eligible := by
        obtain ⟨-, checked, origin, -⟩ := admission_eq_some_iff.mp decision
        exact Call.eligible_iff.mpr ⟨⟨_, origin⟩, checked⟩
      rw [dispatch_admitted encode decision, if_pos eligible, ChainState.room, ChainState.room]
      rw [messageCounter_publish decision]
      omega

end Step

section Run
variable (encode : AccountId → Bytes)

/-- The results of a run, as the calls before each one leave room for it. -/
theorem execute_results (calls : List (Call AccountId)) (env : Externalities) {i : Nat}
    {c : Call AccountId} (here : calls[i]? = some c) :
    ((execute encode calls).run env).1[i]? = some
      (if c.eligible ∧ env.chain.room ≤ (calls.take i).countP Call.eligible
        then .error (.module .messageCounterOverflow) else c.verdict) := by
  induction calls generalizing env i with
  | nil => cases here
  | cons first calls ih =>
      rw [execute_cons]
      cases i with
      | zero =>
          cases here
          simp only [List.getElem?_cons_zero, List.take_zero, List.countP_nil, Nat.le_zero,
            dispatch_verdict]
      | succ i =>
          have left : ∀ taken room before : Nat,
              (room - taken ≤ before) = (room ≤ before + taken) :=
            fun taken room before => propext Nat.sub_le_iff_le_add
          rw [List.getElem?_cons_succ] at here ⊢
          simp only [ih _ here, List.take_succ_cons, List.countP_cons, room_dispatch, left]

theorem execute_verdicts (calls : List (Call AccountId)) (env : Externalities)
    (room : calls.countP Call.eligible ≤ env.chain.room) :
    ((execute encode calls).run env).1 = calls.map Call.verdict := by
  induction calls generalizing env with
  | nil => rfl
  | cons c calls ih =>
      rw [List.countP_cons] at room
      have left : ¬ (c.eligible ∧ env.chain.room = 0) := by
        rintro ⟨eligible, full⟩
        rw [if_pos eligible] at room
        omega
      have later : calls.countP Call.eligible ≤ ((c.dispatch encode).run env).2.chain.room := by
        rw [room_dispatch]
        omega
      rw [execute_cons, List.map_cons]
      simp only [dispatch_verdict, if_neg left, ih _ later]

/-- The eligible calls there is room for, with the numbers they take. -/
def numbered (n : Nat) (calls : List (Call AccountId)) : List (Call AccountId × Nat) :=
  ((calls.filter Call.eligible).take (2 ^ 128 - 1 - n)).zipIdx n

theorem posts_eq (n : Nat) (calls : List (Call AccountId)) :
    posts n calls = (numbered n calls).filterMap fun p => p.1.post p.2 := by
  rw [numbered]
  induction calls generalizing n with
  | nil =>
      rw [List.filter_nil, List.take_nil]
      rfl
  | cons c calls ih =>
      cases eligible : c.eligible with
      | false =>
          have refused : admission n c = none := by simp [admission_eq, eligible]
          rw [posts_refused refused, ih, List.filter_cons_of_neg (by simp [eligible])]
      | true =>
          have decision := admission_eq n c
          rw [List.filter_cons_of_pos eligible]
          by_cases room : n + 1 < 2 ^ 128
          · obtain ⟨account, -, made⟩ := Call.post_of_eligible eligible n
            have left : 2 ^ 128 - 1 - n = (2 ^ 128 - 1 - (n + 1)) + 1 := by omega
            rw [if_pos ⟨eligible, room⟩, made] at decision
            rw [posts_admitted decision, ih, left, List.take_succ_cons, List.zipIdx_cons]
            simp only [List.filterMap_cons, made]
          · have full : 2 ^ 128 - 1 - n = 0 := by omega
            rw [if_neg fun both => room both.2] at decision
            rw [posts_refused decision, ih, full, List.take_zero, List.take_zero]

theorem posts_length (n : Nat) (calls : List (Call AccountId)) :
    (posts n calls).length = min (2 ^ 128 - 1 - n) (calls.countP Call.eligible) := by
  induction calls generalizing n with
  | nil => exact (Nat.min_zero _).symm
  | cons c calls ih =>
      have decision := admission_eq n c
      cases eligible : c.eligible with
      | false =>
          rw [if_neg fun both => by simp [eligible] at both] at decision
          rw [posts_refused decision, ih, List.countP_cons_of_neg (by simp [eligible])]
      | true =>
          rw [List.countP_cons_of_pos eligible]
          by_cases room : n + 1 < 2 ^ 128
          · obtain ⟨account, -, made⟩ := Call.post_of_eligible eligible n
            rw [if_pos ⟨eligible, room⟩, made] at decision
            rw [posts_admitted decision, List.length_cons, ih]
            omega
          · rw [if_neg fun both => room both.2] at decision
            rw [posts_refused decision, ih]
            omega

/-- A run from any state. The first eligible calls take the numbers that are left, in
order; each later one meets the overflow, and every other call meets its own error. The
counter, the events and the off-chain store follow from the admitted calls alone. -/
theorem run_closed_form (calls : List (Call AccountId)) (env : Externalities) :
    let n := env.chain.messageCounter.toNat
    let after := stateAfter encode calls env
    let admitted := (numbered n calls).filterMap fun p => p.1.post p.2
    (∀ i c, calls[i]? = some c → ((execute encode calls).run env).1[i]? = some
      (if c.eligible ∧ 2 ^ 128 - 1 - n ≤ (calls.take i).countP Call.eligible
        then .error (.module .messageCounterOverflow) else c.verdict)) ∧
    after.chain.messageCounter.toNat =
      n + min (2 ^ 128 - 1 - n) (calls.countP Call.eligible) ∧
    after.chain.events = env.chain.events ++ admitted.map (Post.event encode) ∧
    after.offchain = env.offchain.putAll (admitted.map (Post.put encode)) := by
  intro n after admitted
  have kept : posts n calls = admitted := posts_eq n calls
  refine ⟨fun i c here => execute_results encode calls env here, ?_, ?_, ?_⟩
  · exact (messageCounter_stateAfter encode calls env).trans (by rw [posts_length])
  · simp only [after, stateAfter_eq, events_publishAll]
    rw [← kept]
  · simp only [after, stateAfter_eq, offchain_publishAll]
    rw [← kept]

theorem run_closed_form_sample :
    let call (byte : UInt8) : Call (ByteArr keySize) :=
      .sample (List.Vector.replicate keySize byte) [1]
    let env : Externalities := ⟨⟨BitVec.ofNat 128 (2 ^ 128 - 2), []⟩, Store.empty⟩
    ((execute List.Vector.toList [call 7, call 8]).run env).1[1]? =
      some (.error (.module .messageCounterOverflow)) := by
  intro call env
  obtain ⟨results, -⟩ := run_closed_form List.Vector.toList [call 7, call 8] env
  exact (results 1 (call 8) rfl).trans (congrArg some (if_pos (by decide)))

end Run

namespace Event

def metadata : Event → MessageMetadata
  | messageSent _ metadata => metadata

/-- The key without the counter at its end. -/
def signer (e : Event) : Bytes := e.key.take (e.key.length - 16)

def number (e : Event) : Nat := leValue (e.key.drop (e.key.length - 16))

end Event

/-- Who signed each event, what it says and what is stored under its key. -/
def Externalities.readable (env : Externalities) : List (Bytes × MessageMetadata × Option Bytes) :=
  env.chain.events.map fun e => (e.signer, e.metadata, env.offchain e.key)

namespace Post
variable (encode : AccountId → Bytes) (p : Post AccountId)

theorem length_key_sub : (p.key encode).length - 16 = (encode p.account).length := by
  simp only [key, derivedKey, MessageKey.encode, List.length_append, leBytes_length,
    Nat.add_sub_cancel]

theorem signer_event : (p.event encode).signer = encode p.account := by
  rw [Event.signer]
  change (p.key encode).take ((p.key encode).length - 16) = _
  rw [length_key_sub]
  exact List.take_left

theorem number_event : (p.event encode).number = p.counter.toNat := by
  rw [Event.number]
  change leValue ((p.key encode).drop ((p.key encode).length - 16)) = _
  rw [length_key_sub, key, derivedKey, MessageKey.encode, List.drop_left]
  exact leValue_leBytes p.counter.isLt

end Post

section Readers
variable (encode : AccountId → Bytes)

theorem readable_stateAfter (calls : List (Call AccountId)) :
    (stateAfter encode calls .genesis).readable =
      (posts 0 calls).map fun p => (encode p.account, p.metadata, some p.message) := by
  have run : stateAfter encode calls .genesis =
      Externalities.genesis.publishAll encode (posts 0 calls) := stateAfter_eq encode calls .genesis
  have stored := (putAll_holds_iff Store.empty).mpr (puts_functional encode 0 calls)
  rw [run, Externalities.readable, events_publishAll, offchain_publishAll]
  change List.map _ ([] ++ (posts 0 calls).map (Post.event encode)) = _
  rw [List.nil_append, List.map_map]
  apply List.map_congr_left
  intro p member
  have held := stored (p.put encode) (List.mem_map_of_mem member)
  simp only [Function.comp_apply, Post.signer_event]
  exact congrArg (fun found => (encode p.account, p.metadata, found)) held

def Call.entry (c : Call AccountId) : Option (Bytes × MessageMetadata × Option Bytes) :=
  (c.post 0).map fun p => (encode p.account, p.metadata, some p.message)

theorem Call.entry_eq (c : Call AccountId) (number : Nat) :
    (c.post number).map (fun p => (encode p.account, p.metadata, some p.message)) =
      c.entry encode := by
  rw [entry, post, post]
  cases ensureSigned c.origin with
  | error e => rfl
  | ok account => rfl

theorem readable_eq {calls : List (Call AccountId)}
    (room : calls.countP Call.eligible ≤ 2 ^ 128 - 1) :
    (stateAfter encode calls .genesis).readable =
      (calls.filter Call.eligible).filterMap (Call.entry encode) := by
  have all : (calls.filter Call.eligible).take (2 ^ 128 - 1 - 0) =
      calls.filter Call.eligible := by
    apply List.take_of_length_le
    rw [← List.countP_eq_length_filter]
    exact room
  rw [readable_stateAfter, posts_eq, numbered, all, List.map_filterMap]
  simp only [Call.entry_eq]
  conv_rhs => rw [← List.zipIdx_map_fst 0 (calls.filter Call.eligible), List.filterMap_map]
  rfl

/-- While the counter has room for all of them, the order of the calls does not matter.
Each call meets the verdict it would meet alone, the counter ends at one value, and
readers find the same signers, metadata and messages, in another order. -/
theorem run_order_free {calls calls' : List (Call AccountId)} (reordered : calls.Perm calls')
    (room : calls.countP Call.eligible ≤ 2 ^ 128 - 1) :
    ((execute encode calls).run .genesis).1 = calls.map Call.verdict ∧
      ((execute encode calls').run .genesis).1 = calls'.map Call.verdict ∧
      (stateAfter encode calls .genesis).chain.messageCounter =
        (stateAfter encode calls' .genesis).chain.messageCounter ∧
      ((stateAfter encode calls .genesis).readable).Perm
        (stateAfter encode calls' .genesis).readable := by
  have room' : calls'.countP Call.eligible ≤ 2 ^ 128 - 1 := by rwa [← reordered.countP_eq]
  refine ⟨execute_verdicts encode calls .genesis room,
    execute_verdicts encode calls' .genesis room', BitVec.eq_of_toNat_eq ?_, ?_⟩
  · simp only [messageCounter_stateAfter, posts_length, reordered.countP_eq]
  · rw [readable_eq encode room, readable_eq encode room']
    exact (reordered.filter _).filterMap _

theorem run_order_free_sample :
    let call : UInt8 → Bytes → Call (ByteArr keySize) :=
      fun byte message => .sample (List.Vector.replicate keySize byte) message
    ((stateAfter List.Vector.toList [call 7 [1], call 8 [], call 9 [3]] .genesis).readable).Perm
      (stateAfter List.Vector.toList [call 9 [3], call 7 [1], call 8 []] .genesis).readable := by
  intro call
  have reordered : [call 7 [1], call 8 [], call 9 [3]].Perm [call 9 [3], call 7 [1], call 8 []] :=
    (List.perm_append_comm : ([call 7 [1], call 8 []] ++ [call 9 [3]]).Perm _)
  exact (run_order_free List.Vector.toList reordered (by decide)).2.2.2

theorem posts_accepted [DecidableEq AccountId] (account : AccountId)
    (calls : List (Call AccountId)) (env : Externalities) :
    ((posts env.chain.messageCounter.toNat calls).filter fun p => p.account = account).map
        Post.metadata =
      ((calls.zip ((execute encode calls).run env).1).filter fun p =>
        p.2.isOk && p.1.origin = .signed account).map fun p => p.1.metadata := by
  induction calls generalizing env with
  | nil => rfl
  | cons c calls ih =>
      rw [execute_cons]
      cases decision : admission env.chain.messageCounter.toNat c with
      | none =>
          obtain ⟨e, run⟩ := dispatch_refused encode decision
          simp only [run, posts_refused decision, List.zip_cons_cons]
          rw [ih, List.filter_cons_of_neg]
          exact Bool.false_ne_true
      | some p =>
          obtain ⟨-, -, origin, -, metadata, -⟩ := admission_eq_some_iff.mp decision
          have rest := ih (env.publish (p.key encode) p.message p.metadata)
          rw [messageCounter_publish decision] at rest
          simp only [dispatch_admitted encode decision, posts_admitted decision,
            List.zip_cons_cons, List.filter_cons, origin, RuntimeOrigin.signed.injEq]
          by_cases own : p.account = account
          · simp [own, rest, metadata, Except.isOk, Except.toBool]
          · simp [own, rest]

/-- The numbers of the new events follow each other without a gap, and the events whose key
names an account are its accepted calls, in the order it made them. -/
theorem events_attributed [DecidableEq AccountId] (injective : Function.Injective encode)
    (calls : List (Call AccountId)) (env : Externalities) :
    let results := ((execute encode calls).run env).1
    ∃ new, (stateAfter encode calls env).chain.events = env.chain.events ++ new ∧
      new.map Event.number =
        List.range' env.chain.messageCounter.toNat (results.countP Except.isOk) ∧
      ∀ account, (new.filter fun e => e.signer = encode account).map Event.metadata =
        ((calls.zip results).filter fun p =>
          p.2.isOk && p.1.origin = .signed account).map fun p => p.1.metadata := by
  intro results
  refine ⟨(posts env.chain.messageCounter.toNat calls).map (Post.event encode), ?_, ?_,
    fun account => ?_⟩
  · rw [stateAfter_eq, events_publishAll]
  · rw [List.map_map, accepted_execute, ← map_number_sequence admission_numbers]
    exact List.map_congr_left fun p _ => p.number_event encode
  · have named : ((fun e : Event => decide (e.signer = encode account)) ∘ Post.event encode) =
        fun p : Post AccountId => decide (p.account = account) := by
      funext p
      simp only [Function.comp_apply, Post.signer_event, injective.eq_iff]
    rw [List.filter_map, named, List.map_map]
    exact posts_accepted encode account calls env

theorem events_attributed_raw :
    let calls : List (Call Bytes) := [.sample [7] [1], .sample [7, 9] [2], .sample [7] []]
    ∃ new, (stateAfter (fun account => account) calls .genesis).chain.events = [] ++ new ∧
      (new.filter fun e => e.signer = ([7, 9] : Bytes)).map Event.metadata =
        [(Call.sample ([7, 9] : Bytes) [2]).metadata] := by
  intro calls
  obtain ⟨new, events, -, attributed⟩ :=
    events_attributed (fun account : Bytes => account) (fun _ _ same => same) calls .genesis
  exact ⟨new, events, attributed [7, 9]⟩

end Readers

end Nolik
