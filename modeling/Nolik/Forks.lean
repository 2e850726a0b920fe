import Nolik.Retention

/-! A node executes every imported block on the state of its parent, and all of them write to
one off-chain store, in the order of import. Exactly when two forks do not write different
messages under one key, every chain finds its messages there. -/
namespace Nolik
open ByteString KeyValue Sequencing

variable {AccountId : Type}

/-- A block names its parent by its place in the order of import. Genesis has place 0. -/
structure Block (AccountId : Type) where
  parent : Nat
  calls : List (Call AccountId)

/-- The chain state after genesis and after each imported block, and the node's one store. -/
structure Node where
  states : List ChainState
  offchain : Store Bytes Bytes

def Node.genesis : Node := ⟨[.genesis], Store.empty⟩

def importBlock (encode : AccountId → Bytes) (node : Node) (block : Block AccountId) :
    Option Node := do
  let parent ← node.states[block.parent]?
  let env := stateAfter encode block.calls ⟨parent, node.offchain⟩
  pure ⟨node.states ++ [env.chain], env.offchain⟩

def importAll (encode : AccountId → Bytes) (blocks : List (Block AccountId)) : Option Node :=
  blocks.foldlM (importBlock encode) .genesis

/-- The calls from genesis to each block of a tree. -/
def extendChains (chains : List (List (Call AccountId))) (block : Block AccountId) :
    List (List (Call AccountId)) :=
  chains ++ [chains[block.parent]?.getD [] ++ block.calls]

def chainsOf (blocks : List (Block AccountId)) : List (List (Call AccountId)) :=
  blocks.foldl extendChains [[]]

def Emits (encode : AccountId → Bytes) (chain : List (Call AccountId)) (key : Bytes)
    (c : Call AccountId) : Prop :=
  ∃ before after, chain = before ++ c :: after ∧
    ((c.dispatch encode).run (stateAfter encode before .genesis)).1 = .ok () ∧
    (stateAfter encode (before ++ [c]) .genesis).chain.events =
      (stateAfter encode before .genesis).chain.events ++ [.messageSent key c.metadata]

/-- Under each key its chain announced, the node still holds the message of the call. -/
def Survives (encode : AccountId → Bytes) (blocks : List (Block AccountId)) (node : Node) : Prop :=
  ∀ chain ∈ chainsOf blocks, ∀ key c, Emits encode chain key c →
    node.offchain key = some c.message

/-- Two posts of the tree, on one chain or on two, agree on the message when they have one
account and one counter. -/
def ForksAgree (blocks : List (Block AccountId)) : Prop :=
  ∀ chain ∈ chainsOf blocks, ∀ chain' ∈ chainsOf blocks, ∀ p ∈ posts 0 chain,
    ∀ q ∈ posts 0 chain', p.account = q.account → p.counter = q.counter → p.message = q.message

section Emission
variable (encode : AccountId → Bytes) {chain : List (Call AccountId)}

theorem counter_of_genesis (before : List (Call AccountId)) :
    (stateAfter encode before .genesis).chain.messageCounter.toNat =
      0 + (posts 0 before).length :=
  messageCounter_stateAfter encode before .genesis

theorem post_of_emits {key : Bytes} {c : Call AccountId} (emits : Emits encode chain key c) :
    ∃ p ∈ posts 0 chain, p.key encode = key ∧ p.message = c.message := by
  obtain ⟨before, after, split, accepted, event⟩ := emits
  obtain ⟨p, admitted⟩ := (dispatch_ok_iff encode).mp accepted
  refine ⟨p, ?_, ?_, (admission_eq_some_iff.mp admitted).2.2.2.2.2⟩
  · rw [counter_of_genesis] at admitted
    exact mem_sequence_iff.mpr ⟨before, c, after, split, admitted⟩
  · rw [stateAfter_append, stateAfter_cons, stateAfter_nil,
      dispatch_admitted encode admitted] at event
    have same := List.append_cancel_left event
    injection same with head
    injection head

theorem emits_of_post {p : Post AccountId} (member : p ∈ posts 0 chain) :
    ∃ c, Emits encode chain (p.key encode) c ∧ c.message = p.message := by
  obtain ⟨before, c, after, split, admitted⟩ := mem_sequence_iff.mp member
  rw [← counter_of_genesis encode before] at admitted
  obtain ⟨-, -, -, -, metadata, message⟩ := admission_eq_some_iff.mp admitted
  refine ⟨c, ⟨before, after, split, (dispatch_ok_iff encode).mpr ⟨p, admitted⟩, ?_⟩, message.symm⟩
  rw [stateAfter_append, stateAfter_cons, stateAfter_nil, dispatch_admitted encode admitted,
    metadata]
  rfl

end Emission

/-- What holds after each import. `ps` are the posts written so far, oldest first. -/
structure Tracks (encode : AccountId → Bytes) (node : Node)
    (chains : List (List (Call AccountId))) (ps : List (Post AccountId)) : Prop where
  states : node.states = chains.map fun chain => (stateAfter encode chain .genesis).chain
  offchain : node.offchain = Store.empty.putAll (ps.map (Post.put encode))
  published : ∀ p, p ∈ ps ↔ ∃ chain ∈ chains, p ∈ posts 0 chain

section Import
variable (encode : AccountId → Bytes)

theorem tracks_genesis : Tracks encode .genesis [[]] ([] : List (Post AccountId)) where
  states := rfl
  offchain := rfl
  published p := by simp

/-- The store is written but never read, so a chain runs the same next to any store. -/
theorem chain_publishAll (chain : ChainState) (first second : Store Bytes Bytes)
    (ps : List (Post AccountId)) :
    (Externalities.publishAll encode ⟨chain, first⟩ ps).chain =
      (Externalities.publishAll encode ⟨chain, second⟩ ps).chain := by
  induction ps generalizing chain first second with
  | nil => rfl
  | cons p ps ih => exact ih _ _ _

theorem chain_stateAfter (before calls : List (Call AccountId)) (offchain : Store Bytes Bytes) :
    (stateAfter encode calls ⟨(stateAfter encode before .genesis).chain, offchain⟩).chain =
      (stateAfter encode (before ++ calls) .genesis).chain := by
  rw [stateAfter_append, stateAfter_eq, stateAfter_eq encode calls (stateAfter _ _ _)]
  exact chain_publishAll encode _ _ _ _

theorem tracks_importBlock {node node' : Node} {chains : List (List (Call AccountId))}
    {ps : List (Post AccountId)} {block : Block AccountId} (tracks : Tracks encode node chains ps)
    (imported : importBlock encode node block = some node') :
    ∃ new, Tracks encode node' (extendChains chains block) (ps ++ new) := by
  obtain ⟨parent, known, executed⟩ := Option.bind_eq_some_iff.mp imported
  rw [tracks.states, List.getElem?_map, Option.map_eq_some_iff] at known
  obtain ⟨chain, found, rfl⟩ := known
  cases executed
  have grown : extendChains chains block = chains ++ [chain ++ block.calls] := by
    rw [extendChains, found, Option.getD_some]
  have started : (stateAfter encode chain .genesis).chain.messageCounter.toNat =
      0 + (posts 0 chain).length := counter_of_genesis encode chain
  refine ⟨posts (0 + (posts 0 chain).length) block.calls, ?_, ?_, ?_⟩
  · rw [grown, List.map_append, tracks.states, chain_stateAfter]
    rfl
  · rw [stateAfter_eq, offchain_publishAll, tracks.offchain, started, List.map_append,
      putAll_append]
  · intro p
    have split : posts 0 (chain ++ block.calls) =
        posts 0 chain ++ posts (0 + (posts 0 chain).length) block.calls :=
      sequence_append 0 chain block.calls
    rw [grown, List.mem_append, tracks.published p]
    -- a post of the new chain is inherited from the parent or written by this block
    constructor
    · rintro (⟨old, member, posted⟩ | new)
      · exact ⟨old, List.mem_append_left _ member, posted⟩
      · refine ⟨chain ++ block.calls, List.mem_append_right _ List.mem_cons_self, ?_⟩
        rw [split]
        exact List.mem_append_right _ new
    · rintro ⟨chain', member, posted⟩
      rcases List.mem_append.mp member with old | new
      · exact .inl ⟨chain', old, posted⟩
      · rw [List.mem_singleton.mp new, split] at posted
        rcases List.mem_append.mp posted with inherited | fresh
        · exact .inl ⟨chain, List.mem_of_getElem? found, inherited⟩
        · exact .inr fresh

theorem tracks_foldlM {blocks : List (Block AccountId)} {node node' : Node}
    {chains : List (List (Call AccountId))} {ps : List (Post AccountId)}
    (tracks : Tracks encode node chains ps)
    (imported : blocks.foldlM (importBlock encode) node = some node') :
    ∃ ps', Tracks encode node' (blocks.foldl extendChains chains) ps' := by
  induction blocks generalizing node chains ps with
  | nil =>
      cases imported
      exact ⟨ps, tracks⟩
  | cons block blocks ih =>
      rw [List.foldlM_cons] at imported
      obtain ⟨next, first, rest⟩ := Option.bind_eq_some_iff.mp imported
      obtain ⟨new, tracks'⟩ := tracks_importBlock encode tracks first
      exact ih tracks' rest

theorem tracks_importAll {blocks : List (Block AccountId)} {node : Node}
    (imported : importAll encode blocks = some node) :
    ∃ ps, Tracks encode node (chainsOf blocks) ps :=
  tracks_foldlM encode (tracks_genesis encode) imported

end Import

theorem survives_iff_holds {encode : AccountId → Bytes} {blocks : List (Block AccountId)}
    {node : Node} {ps : List (Post AccountId)} (tracks : Tracks encode node (chainsOf blocks) ps) :
    Survives encode blocks node ↔
      ∀ p ∈ ps.map (Post.put encode), node.offchain p.1 = some p.2 := by
  rw [List.forall_mem_map]
  constructor
  · intro survives p written
    obtain ⟨chain, member, posted⟩ := (tracks.published p).mp written
    obtain ⟨c, emits, message⟩ := emits_of_post encode posted
    rw [Post.put, ← message]
    exact survives chain member _ c emits
  · intro holds chain member key c emits
    obtain ⟨p, posted, key', message⟩ := post_of_emits encode emits
    rw [← key', ← message]
    exact holds p ((tracks.published p).mpr ⟨chain, member, posted⟩)

theorem forksAgree_iff_functional {encode : AccountId → Bytes}
    (injective : Function.Injective encode) {blocks : List (Block AccountId)} {node : Node}
    {ps : List (Post AccountId)} (tracks : Tracks encode node (chainsOf blocks) ps) :
    ForksAgree blocks ↔ Functional (ps.map (Post.put encode)) := by
  constructor
  · intro agree
    simp only [Functional, List.forall_mem_map]
    intro p hp q hq same
    obtain ⟨chain, member, posted⟩ := (tracks.published p).mp hp
    obtain ⟨chain', member', posted'⟩ := (tracks.published q).mp hq
    obtain ⟨account, counter⟩ := MessageKey.encode_split same
    exact agree chain member chain' member' p posted q posted' (injective account) counter
  · intro functional chain member chain' member' p posted q posted' account counter
    have hp := (tracks.published p).mpr ⟨chain, member, posted⟩
    have hq := (tracks.published q).mpr ⟨chain', member', posted'⟩
    have same : p.key encode = q.key encode := by
      rw [Post.key, Post.key, account, counter]
    exact functional _ (List.mem_map_of_mem hp) _ (List.mem_map_of_mem hq) same

/-- After any order of import the messages of every chain are found under their keys
exactly when no two forks gave one account's counter to different messages. -/
theorem messages_survive_iff {encode : AccountId → Bytes} (injective : Function.Injective encode)
    {blocks : List (Block AccountId)} {node : Node}
    (imported : importAll encode blocks = some node) :
    Survives encode blocks node ↔ ForksAgree blocks := by
  obtain ⟨ps, tracks⟩ := tracks_importAll encode imported
  rw [survives_iff_holds tracks, forksAgree_iff_functional injective tracks, tracks.offchain]
  exact putAll_holds_iff _

theorem messages_survive_sample :
    let blocks : List (Block (ByteArr keySize)) :=
      [⟨0, [.sample (List.Vector.replicate keySize 7) [1]]⟩,
        ⟨1, [.sample (List.Vector.replicate keySize 7) [2]]⟩,
        ⟨0, [.sample (List.Vector.replicate keySize 8) [3]]⟩]
    ∃ node, importAll List.Vector.toList blocks = some node ∧
      Survives List.Vector.toList blocks node := by
  intro blocks
  refine ⟨_, rfl, (messages_survive_iff List.Vector.toList_injective rfl).mpr ?_⟩
  unfold ForksAgree
  decide +kernel

/-- One account writes on two forks, and the later import replaces the message of the
other fork. -/
theorem fork_overwrites_message :
    let account : ByteArr keySize := List.Vector.replicate keySize 7
    let blocks : List (Block (ByteArr keySize)) :=
      [⟨0, [.sample account [1]]⟩, ⟨0, [.sample account [2]]⟩]
    ∃ node, importAll List.Vector.toList blocks = some node ∧
      ¬ Survives List.Vector.toList blocks node := by
  intro account blocks
  refine ⟨_, rfl, fun survives => ?_⟩
  have first : [Call.sample account [1]] ∈ chainsOf blocks :=
    List.mem_cons_of_mem _ List.mem_cons_self
  have held := survives _ first (derivedKey List.Vector.toList account 0) (.sample account [1])
    ⟨[], [], rfl, rfl, rfl⟩
  exact absurd held (by decide +kernel)

end Nolik
