import Nolik.Forks

/-! The off-chain stores of nodes that know the same chains, whatever the order in which they
imported the blocks and however the chains are cut into blocks. -/
namespace Nolik
open ByteString KeyValue Sequencing

variable {AccountId : Type}

def SameChains (blocks blocks' : List (Block AccountId)) : Prop :=
  ∀ chain, chain ∈ chainsOf blocks ↔ chain ∈ chainsOf blocks'

theorem chainsOf_zero (blocks : List (Block AccountId)) : (chainsOf blocks)[0]? = some [] := by
  have kept : ∀ chains : List (List (Call AccountId)), chains[0]? = some [] →
      (blocks.foldl extendChains chains)[0]? = some [] := by
    induction blocks with
    | nil => exact fun chains first => first
    | cons block blocks ih =>
        intro chains first
        apply ih
        rw [extendChains, List.getElem?_append_left]
        · exact first
        · exact (List.getElem?_eq_some_iff.mp first).1
  exact kept [[]] rfl

/-- A block on genesis with the calls of a chain adds the chain. -/
theorem chainsOf_replay (blocks : List (Block AccountId)) (chain : List (Call AccountId)) :
    chainsOf (blocks ++ [⟨0, chain⟩]) = chainsOf blocks ++ [chain] := by
  rw [chainsOf, List.foldl_append]
  change extendChains (chainsOf blocks) ⟨0, chain⟩ = _
  rw [extendChains, chainsOf_zero, Option.getD_some, List.nil_append]

theorem sameChains_replay {blocks : List (Block AccountId)} {chain : List (Call AccountId)}
    (known : chain ∈ chainsOf blocks) : SameChains blocks (blocks ++ [⟨0, chain⟩]) := by
  intro other
  rw [chainsOf_replay, List.mem_append, List.mem_singleton]
  constructor
  · exact .inl
  · rintro (old | rfl)
    · exact old
    · exact known

section Replay
variable (encode : AccountId → Bytes)

/-- Whoever executes a chain last finds its messages in the store. -/
theorem importAll_replay {blocks : List (Block AccountId)} {node : Node}
    (imported : importAll encode blocks = some node) (chain : List (Call AccountId)) :
    ∃ node', importAll encode (blocks ++ [⟨0, chain⟩]) = some node' ∧
      ∀ p ∈ posts 0 chain, node'.offchain (p.key encode) = some p.message := by
  obtain ⟨ps, tracks⟩ := tracks_importAll encode imported
  have genesis : node.states[0]? = some .genesis := by
    rw [tracks.states, List.getElem?_map, chainsOf_zero]
    rfl
  have run : importAll encode (blocks ++ [⟨0, chain⟩]) =
      some ⟨node.states ++ [(stateAfter encode chain ⟨.genesis, node.offchain⟩).chain],
        (stateAfter encode chain ⟨.genesis, node.offchain⟩).offchain⟩ := by
    rw [importAll, List.foldlM_append]
    change importAll encode blocks >>= _ = _
    rw [imported]
    change importBlock encode node ⟨0, chain⟩ >>= pure = _
    rw [importBlock, genesis]
    rfl
  refine ⟨_, run, fun p member => ?_⟩
  rw [stateAfter_eq, offchain_publishAll]
  exact (putAll_holds_iff _).mpr (puts_functional encode 0 chain) _ (List.mem_map_of_mem member)

end Replay

/-- All nodes that know the same chains hold the same off-chain store exactly when no two
forks gave one account's counter to different messages. -/
theorem stores_converge_iff {encode : AccountId → Bytes} (injective : Function.Injective encode)
    {blocks : List (Block AccountId)} {node : Node}
    (imported : importAll encode blocks = some node) :
    (∀ blocks' node', SameChains blocks blocks' → importAll encode blocks' = some node' →
      node'.offchain = node.offchain) ↔ ForksAgree blocks := by
  constructor
  · intro converge chain known chain' known' p posted q posted' account counter
    obtain ⟨first, importedFirst, holds⟩ := importAll_replay encode imported chain
    obtain ⟨second, importedSecond, holds'⟩ := importAll_replay encode imported chain'
    have found := holds p posted
    have found' := holds' q posted'
    rw [converge _ _ (sameChains_replay known) importedFirst] at found
    rw [converge _ _ (sameChains_replay known') importedSecond] at found'
    have key : p.key encode = q.key encode := by rw [Post.key, Post.key, account, counter]
    rw [key, found'] at found
    exact (Option.some.inj found).symm
  · intro agree blocks' node' same imported'
    obtain ⟨ps, tracks⟩ := tracks_importAll encode imported
    obtain ⟨ps', tracks'⟩ := tracks_importAll encode imported'
    have members : ∀ p, p ∈ ps ↔ p ∈ ps' := by
      intro p
      rw [tracks.published, tracks'.published]
      simp only [same _]
    rw [tracks.offchain, tracks'.offchain]
    symm
    apply putAll_congr_of_functional ((forksAgree_iff_functional injective tracks).mp agree)
    intro pair
    simp only [List.mem_map, members]

theorem stores_converge_sample :
    let one : Block (ByteArr keySize) := ⟨0, [.sample (List.Vector.replicate keySize 7) [1]]⟩
    let other : Block (ByteArr keySize) := ⟨0, [.sample (List.Vector.replicate keySize 8) [2]]⟩
    ∃ node node', importAll List.Vector.toList [one, other] = some node ∧
      importAll List.Vector.toList [other, one] = some node' ∧
      node'.offchain = node.offchain := by
  intro one other
  have imported : importAll List.Vector.toList [one, other] = some _ := rfl
  have agree : ForksAgree [one, other] := by
    unfold ForksAgree
    decide +kernel
  have same : SameChains [one, other] [other, one] := by
    intro chain
    change chain ∈ [[], one.calls, other.calls] ↔ chain ∈ [[], other.calls, one.calls]
    simp only [List.mem_cons, List.not_mem_nil, or_false]
    tauto
  have converge := (stores_converge_iff List.Vector.toList_injective imported).mpr agree
  exact ⟨_, _, imported, rfl, converge _ _ same rfl⟩

end Nolik
