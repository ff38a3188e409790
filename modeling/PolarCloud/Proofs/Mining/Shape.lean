import PolarCloud.Proofs.Mining.AddBlock

/-! # The shape of the chain

Calls of `addBlock` on an empty chain build the accepted blocks into a list of groups of blocks.
What its links show is said by `Chain.Shape`. Heights are unsigned, and the height that follows the
greatest one is zero: the chain has its shape exactly as long as no block of height zero is put
behind another one.
-/

namespace PolarCloud.Mining

open Keystore

/-- Chains after any calls of `addBlock`, with the heads of the blocks that were accepted. Whatever
else of the node changes between two calls is left open. -/
inductive Chain.Added (rt : Runtime) (start : Chain) : Chain → List BlockHead → Prop
  | start : Added rt start start []
  | accepted {wallet : Wallet} {node next : Node} {heads : List BlockHead} {bh : BlockHead} {txs : List TxItr}
      (before : Added rt start node.chain heads) (ran : addBlock rt wallet node bh txs = some (next, true)) :
      Added rt start next.chain (heads ++ [bh])
  | refused {wallet : Wallet} {node next : Node} {heads : List BlockHead} {bh : BlockHead} {txs : List TxItr}
      (before : Added rt start node.chain heads) (ran : addBlock rt wallet node bh txs = some (next, false)) :
      Added rt start next.chain heads

namespace Chain

/-- From the current group along `PreGroup`. -/
def getFirstGroup (chain : Chain) : Option ℕ :=
  chain.group.bind (Arena.lastRef Group.preGroup chain.groups chain.groups.length)

/-- The block of a head: it shows id and height, and its group lists it and has its group height. -/
structure Holds (chain : Chain) (ref : ℕ) (bh : BlockHead) : Prop where
  block : (chain.blocks[ref]?).map (fun block => (block.id, block.height)) = some (bh.hash, bh.height)
  group : ((chain.blocks[ref]?).bind fun block => chain.groups[block.group]?).map Group.height = some bh.groupHeight

/-- The links of a chain show the accepted blocks, as a list and cut into groups. -/
structure Shape (chain : Chain) (heads : List BlockHead) (blocks groups : List ℕ) : Prop where
  /-- along `NextBlock` -/
  onwards : Arena.Path Block.nextBlock chain.blocks chain.getFirstBlock blocks
  holds : List.Forall₂ chain.Holds blocks heads
  consecutive : heads.IsChain fun bh next => bh.height.toNat + 1 = next.height.toNat
  preBlock : Arena.Inverse Block.preBlock Block.nextBlock chain.blocks
  last : chain.getLastBlock = blocks.getLast?.bind (chain.blocks[·]?)
  /-- along `NextGroup` -/
  onwardsGroup : Arena.Path Group.nextGroup chain.groups chain.getFirstGroup groups
  concatenated : groups.flatMap (fun ref => (chain.groups[ref]?).elim [] Group.blocks) = blocks
  owner : ∀ ref group, chain.groups[ref]? = some group → ∀ block ∈ group.blocks,
    (chain.blocks[block]?).map Block.group = some ref
  different : (groups.filterMap (chain.groups[·]?)).IsChain fun group next => group.height ≠ next.height
  preGroup : Arena.Inverse Group.preGroup Group.nextGroup chain.groups
  newest : chain.group = groups.getLast?

/-- What every call keeps. -/
structure Held (chain : Chain) (heads : List BlockHead) : Prop where
  linked : chain.Linked
  labels : chain.labels.map (fun label => (label.1, label.2.1)) = heads.map fun bh => (bh.hash, bh.height)
  follows : heads.IsChain fun bh next => bh.height + 1 = next.height
  alternating : Runs.Alternating chain.pieces
  keyed : ∀ run ∈ chain.pieces, ∀ ref ∈ run.2, (heads[ref]?).map BlockHead.groupHeight = some run.1

variable {chain : Chain} {heads : List BlockHead} {rt : Runtime}

theorem Held.length_eq (held : chain.Held heads) : chain.blocks.length = heads.length := by
  have same := congrArg List.length held.labels
  simpa only [List.length_map, Chain.labels] using same

theorem Fresh.held (fresh : chain.Fresh) : chain.Held [] := by
  refine ⟨fresh.linked, ?_, .nil, ?_, ?_⟩
  · rw [labels, fresh.blocks]
    rfl
  · rw [pieces, fresh.groups]
    exact .nil
  · rw [pieces, fresh.groups]
    exact fun run member => absurd member List.not_mem_nil

/-- A block that is accepted is held behind the others. -/
theorem Held.accepted {wallet : Wallet} {node next : Node} {bh : BlockHead} {txs : List TxItr}
    (held : node.chain.Held heads) (adds : Adds rt wallet node bh txs next true) :
    next.chain.Held (heads ++ [bh]) := by
  have accepts := (adds.added_iff held.linked).mp rfl
  obtain ⟨depositTx, -, links⟩ := adds.deposits
  obtain ⟨chain, result, linked, -, labels⟩ := linkBlock_accepted depositTx held.linked accepts
  obtain ⟨rfl, -⟩ := Prod.mk.inj (Option.some.inj (links.symm.trans result))
  have pieces := linkBlock_pieces held.linked accepts links
  refine ⟨linked, ?_, ?_, ?_, ?_⟩
  · rw [labels, List.map_append, List.map_append, held.labels]
    rfl
  · refine List.isChain_append.mpr ⟨held.follows, List.isChain_singleton _, fun last isLast first isFirst => ?_⟩
    cases isFirst
    obtain ⟨label, atLast, same⟩ : ∃ label, node.chain.labels.getLast? = some label ∧ label.2.1 = last.height := by
      have both := congrArg List.getLast? held.labels
      rw [List.getLast?_map, List.getLast?_map, isLast, Option.map_some] at both
      obtain ⟨label, atLast, same⟩ := Option.map_eq_some_iff.mp both
      exact ⟨label, atLast, congrArg Prod.snd same⟩
    rw [← same]
    exact held.linked.accepts_iff.mp accepts label atLast
  · rw [pieces]
    exact held.alternating.join _ _
  · rw [pieces]
    apply @Runs.forall_join _ _ _ _ _ _ fun key ref => ((heads ++ [bh])[ref]?).map BlockHead.groupHeight = some key
    · intro run member ref inside
      have old := held.keyed run member ref inside
      rw [List.getElem?_append_left]
      · exact old
      · by_contra outside
        rw [List.getElem?_eq_none (Nat.not_lt.mp outside)] at old
        cases old
    · intro ref new
      rw [List.mem_singleton.mp new, held.length_eq, List.getElem?_concat_length]
      rfl

/-- Every call keeps what is held. -/
theorem Added.held {start : Chain} (fresh : start.Fresh) (added : Added rt start chain heads) : chain.Held heads := by
  induction added with
  | start => exact fresh.held
  | accepted before ran ih => exact ih.accepted (addBlock_eq_some_iff.mp ran)
  | refused before ran ih =>
    rw [(addBlock_eq_some_iff.mp ran).chain_eq ih.linked]
    exact ih

theorem Held.holds (held : chain.Held heads) {ref : ℕ} {bh : BlockHead} (found : heads[ref]? = some bh) :
    chain.Holds ref bh := by
  have shown := congrArg (·[ref]?) held.labels
  simp only [Chain.labels, List.map_map, List.getElem?_map, found, Option.map_some] at shown
  refine ⟨shown, ?_⟩
  obtain ⟨block, content, -⟩ := Option.map_eq_some_iff.mp shown
  have listed : ref ∈ chain.groups.flatMap Group.blocks := by
    rw [held.linked.pieces, List.mem_range]
    exact (List.getElem?_eq_some_iff.mp content).1
  obtain ⟨group, isGroup, inside⟩ := List.mem_flatMap.mp listed
  obtain ⟨position, atPosition⟩ := List.getElem?_of_mem isGroup
  have owner := held.linked.owner position group atPosition ref inside block content
  have keyed := held.keyed (group.height, group.blocks) (List.mem_map_of_mem isGroup) ref inside
  rw [found] at keyed
  rw [content, Option.bind_some, owner, atPosition]
  exact keyed.symm

/-- While the heights increase, what is held has the shape. -/
theorem Held.shape (held : chain.Held heads)
    (consecutive : heads.IsChain fun bh next => bh.height.toNat + 1 = next.height.toNat) :
    chain.Shape heads (List.range chain.blocks.length) (List.range chain.groups.length) := by
  have linked := held.linked
  refine ⟨?_, ?_, consecutive, linked.blocks.inverse, ?_, ?_, ?_, ?_, ?_, linked.groups.inverse, ?_⟩
  · rw [linked.getFirstBlock_eq]
    exact linked.blocks.path_all
  · rw [held.length_eq]
    apply List.forall₂_iff_get.mpr
    refine ⟨List.length_range, fun ref inside inside' => ?_⟩
    rw [List.get_eq_getElem, List.getElem_range]
    exact held.holds (List.getElem?_eq_getElem inside')
  · rw [linked.getLastBlock_eq, List.getLast?_range, List.getLast?_eq_getElem?]
    split
    · next none => simp [none]
    · rfl
  · have first : chain.getFirstGroup = if chain.groups = [] then none else some 0 := by
      rw [getFirstGroup, linked.group]
      split
      · rfl
      · next present =>
        have positive := List.length_pos_iff.mpr present
        exact linked.groups.lastRef_pre (by omega) (by omega)
    rw [first]
    exact linked.groups.path_all
  · rw [← linked.pieces]
    have whole := congrArg (List.flatMap fun group : Option Group => group.elim [] Group.blocks)
      (Arena.map_getElem?_range chain.groups)
    rw [List.flatMap_map, List.flatMap_map] at whole
    exact whole
  · intro ref group found block member
    have inside : block < chain.blocks.length := by
      rw [← List.mem_range, ← linked.pieces]
      exact List.mem_flatMap.mpr ⟨group, List.mem_of_getElem? found, member⟩
    have content := List.getElem?_eq_getElem inside
    rw [content, Option.map_some, linked.owner ref group found block member _ content]
  · have whole := congrArg (List.filterMap id) (Arena.map_getElem?_range chain.groups)
    simp only [List.filterMap_map, Function.id_comp, List.filterMap_some] at whole
    rw [whole]
    exact (List.isChain_map fun group : Group => (group.height, group.blocks)).mp held.alternating
  · rw [linked.group, List.getLast?_range]
    simp only [List.length_eq_zero_iff]

theorem succ_eq_iff {height next : UInt64} (follows : height + 1 = next) :
    height.toNat + 1 = next.toNat ↔ next ≠ 0 := by
  have wraps : (height.toNat + 1) % 2 ^ 64 = next.toNat := by rw [← follows, UInt64.toNat_add, UInt64.toNat_one]
  have small : height.toNat < 2 ^ 64 := height.toNat_lt
  have zero : next = 0 ↔ next.toNat = 0 := by rw [← UInt64.toNat_inj, UInt64.toNat_zero]
  rw [Ne, zero]
  omega

/-- Heights that follow each other increase unless one of them is zero. -/
theorem consecutive_iff (follows : heads.IsChain fun bh next => bh.height + 1 = next.height) :
    (heads.IsChain fun bh next => bh.height.toNat + 1 = next.height.toNat) ↔ ∀ bh ∈ heads.tail, bh.height ≠ 0 := by
  induction follows with
  | nil => exact iff_of_true .nil fun bh member => absurd member List.not_mem_nil
  | singleton => exact iff_of_true (.singleton _) fun bh member => absurd member List.not_mem_nil
  | cons_cons next rest ih =>
    rw [List.isChain_cons_cons, ih, List.tail_cons, List.tail_cons, List.forall_mem_cons, succ_eq_iff next]

/-- The chain has its shape exactly as long as no block of height zero was put behind another one. -/
theorem shape_iff {start : Chain} (fresh : start.Fresh) (added : Added rt start chain heads) :
    (∃ blocks groups, chain.Shape heads blocks groups) ↔ ∀ bh ∈ heads.tail, bh.height ≠ 0 := by
  have held := added.held fresh
  rw [← consecutive_iff held.follows]
  constructor
  · rintro ⟨blocks, groups, shape⟩
    exact shape.consecutive
  · intro consecutive
    exact ⟨_, _, held.shape consecutive⟩

/-- Two blocks of different groups, and in between a block that is refused. -/
theorem two_blocks_shape : ∃ (chain : Chain) (blocks groups : List ℕ),
    chain.Shape [{ hash? := some [1], height := 1, groupHeight := 1 }, { hash? := some [2], height := 2, groupHeight := 2 }]
      blocks groups := by
  let first : BlockHead := { hash? := some [1], height := 1, groupHeight := 1 }
  let second : BlockHead := { hash? := some [2], height := 2, groupHeight := 2 }
  obtain ⟨one, first_ran, two, refused_ran, three, second_ran⟩ : ∃ one,
      addBlock Sample.runtime Sample.twoKeys {} first [] = some (one, true) ∧ ∃ two,
        addBlock Sample.runtime Sample.twoKeys one first [] = some (two, false) ∧ ∃ three,
          addBlock Sample.runtime Sample.twoKeys two second [] = some (three, true) :=
    ⟨_, rfl, _, rfl, _, rfl⟩
  have fresh : ({} : Node).chain.Fresh := ⟨rfl, rfl, rfl⟩
  have added : Added Sample.runtime ({} : Node).chain three.chain [first, second] :=
    .accepted (.refused (.accepted .start first_ran) refused_ran) second_ran
  exact ⟨_, (shape_iff fresh added).mpr (by decide)⟩

/-- Behind the block of the greatest height a block of height zero is accepted, and the heights do not increase. -/
theorem height_zero_accepted : ∃ (rt : Runtime) (start chain : Chain) (heads : List BlockHead),
    start.Fresh ∧ Added rt start chain heads ∧ ¬ ∃ blocks groups, chain.Shape heads blocks groups := by
  obtain ⟨one, two, first, second⟩ : ∃ one two : Node,
      addBlock Sample.runtime Sample.twoKeys {} { hash? := some [1], height := 0xffffffffffffffff } [] = some (one, true) ∧
        addBlock Sample.runtime Sample.twoKeys one { hash? := some [2], height := 0 } [] = some (two, true) :=
    ⟨_, _, rfl, rfl⟩
  refine ⟨Sample.runtime, {}, two.chain, _, ⟨rfl, rfl, rfl⟩,
    .accepted (@Added.accepted _ _ _ {} _ _ _ _ .start first) second, ?_⟩
  rintro ⟨blocks, groups, shape⟩
  have increases := List.isChain_pair.mp shape.consecutive
  exact absurd increases (by decide)

end Chain

end PolarCloud.Mining
