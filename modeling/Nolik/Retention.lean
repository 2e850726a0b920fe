import Nolik.Board

/-! Runs of the pallet from genesis, by any accounts and with any mix of refused calls, lose
nothing. The account encoding is arbitrary here, since the counter alone keeps keys apart. What
several chains do to one store is not covered. -/
namespace Nolik
open ByteString Effects KeyValue

variable {AccountId : Type} (encode : AccountId → Bytes)

theorem puts_functional (n : Nat) (calls : List (Call AccountId)) :
    Functional ((posts n calls).map (Post.put encode)) := by
  apply functional_of_nodup
  rw [List.map_map]
  exact keys_nodup encode n calls

/-- An admitted message stays under its key through any later traffic. -/
theorem offchain_kept {c : Call AccountId} {env : Externalities} {p : Post AccountId}
    (admitted : admission env.chain.messageCounter.toNat c = some p)
    (later : List (Call AccountId)) :
    (stateAfter encode (c :: later) env).offchain (p.key encode) = some p.message := by
  have member : p ∈ posts env.chain.messageCounter.toNat (c :: later) := by
    rw [posts_admitted admitted]
    exact List.mem_cons_self
  rw [stateAfter_eq, offchain_publishAll]
  exact (putAll_holds_iff _).mpr (puts_functional encode _ _) _ (List.mem_map_of_mem member)

theorem event_kept {c : Call AccountId} {env : Externalities} {p : Post AccountId}
    (admitted : admission env.chain.messageCounter.toNat c = some p)
    (later : List (Call AccountId)) :
    p.event encode ∈ (stateAfter encode (c :: later) env).chain.events := by
  rw [stateAfter_eq, events_publishAll, posts_admitted admitted, List.map_cons]
  exact List.mem_append_right _ List.mem_cons_self

theorem offchain_announced (calls : List (Call AccountId)) {key : Bytes}
    (stored : (stateAfter encode calls .genesis).offchain key ≠ none) :
    key ∈ (stateAfter encode calls .genesis).chain.events.map Event.key := by
  obtain ⟨message, holds⟩ := Option.ne_none_iff_exists'.mp stored
  rw [stateAfter_eq, offchain_publishAll] at holds
  obtain ⟨p, member, put⟩ := List.mem_map.mp (mem_of_putAll_empty holds)
  have announced : p.event encode ∈ (stateAfter encode calls .genesis).chain.events := by
    rw [stateAfter_eq, events_publishAll]
    exact List.mem_append_right _ (List.mem_map_of_mem member)
  have same : (p.event encode).key = key := congrArg Prod.fst put
  rw [← same]
  exact List.mem_map_of_mem announced

theorem event_keys_nodup (calls : List (Call AccountId)) :
    ((stateAfter encode calls .genesis).chain.events.map Event.key).Nodup := by
  rw [stateAfter_eq, events_publishAll]
  change (([] ++ (posts _ calls).map (Post.event encode)).map Event.key).Nodup
  rw [List.nil_append, List.map_map]
  exact keys_nodup encode _ calls

/-- The counter counts the accepted calls, the event keys never repeat, every accepted
message is found under the key of its event at every later point, and nothing else is
stored. -/
theorem no_message_lost (calls : List (Call AccountId)) :
    (stateAfter encode calls .genesis).chain.messageCounter.toNat =
        ((execute encode calls).run .genesis).1.countP Except.isOk ∧
      ((stateAfter encode calls .genesis).chain.events.map Event.key).Nodup ∧
      (∀ before c later rest, calls = before ++ c :: later ++ rest →
        ((c.dispatch encode).run (stateAfter encode before .genesis)).1 = .ok () →
        ∃ key,
          (stateAfter encode (before ++ [c]) .genesis).chain.events =
            (stateAfter encode before .genesis).chain.events ++ [.messageSent key c.metadata] ∧
          .messageSent key c.metadata ∈
            (stateAfter encode (before ++ c :: later) .genesis).chain.events ∧
          (stateAfter encode (before ++ c :: later) .genesis).offchain key = some c.message) ∧
      (∀ key, (stateAfter encode calls .genesis).offchain key ≠ none →
        key ∈ (stateAfter encode calls .genesis).chain.events.map Event.key) := by
  refine ⟨?_, event_keys_nodup encode calls, ?_, fun _ => offchain_announced encode calls⟩
  · rw [messageCounter_stateAfter, accepted_execute]
    exact Nat.zero_add _
  · intro before c later rest _ accepted
    obtain ⟨p, admitted⟩ := (dispatch_ok_iff encode).mp accepted
    obtain ⟨-, -, -, -, metadata, message⟩ := admission_eq_some_iff.mp admitted
    refine ⟨p.key encode, ?_, ?_, ?_⟩
    · rw [stateAfter_append, stateAfter_cons, stateAfter_nil, dispatch_admitted encode admitted,
        metadata]
      rfl
    · rw [stateAfter_append, ← metadata]
      exact event_kept encode admitted later
    · rw [stateAfter_append, ← message]
      exact offchain_kept encode admitted later

end Nolik
