import PolarCloud.Base.Runs
import PolarCloud.Model.Mining.Chain

/-! # Linking a block

What `linkBlock` does to a linked chain is said once: a block whose height does not follow the
last height changes nothing, any other block becomes the last one and the chain stays linked.
-/

namespace PolarCloud.Mining

/-- What a reference to a block shows: its id, its height and its deposits. -/
def Block.label (block : Block) : Bytes × UInt64 × List TxItr := (block.id, block.height, block.depositTx)

namespace Chain

/-- The labels of the blocks on the chain, from the first to the last. -/
def labels (chain : Chain) : List (Bytes × UInt64 × List TxItr) := chain.blocks.map Block.label

variable {chain : Chain} {bh : BlockHead}

/-- The result of linking a first block. -/
private theorem linkBlock_first (depositTx : List TxItr) (linked : chain.Linked) (empty : chain.blocks = []) :
    ∃ next, chain.linkBlock bh depositTx = some (next, true) ∧ next.Linked ∧
      next = { chain with blocks := next.blocks, groups := next.groups, group := next.group } ∧
        next.labels = chain.labels ++ [(bh.hash, bh.height, depositTx)] := by
  have noGroups := linked.groups_eq_nil_iff.mpr empty
  have group := linked.group
  rw [if_pos noGroups] at group
  refine ⟨_, by rw [linkBlock, group], ?_, rfl, by simp [labels, empty, Block.label, Block.id, BlockHead.hash]⟩
  simp only [empty, noGroups, List.nil_append, List.length_nil]
  constructor
  · exact Arena.chained_single rfl rfl
  · exact Arena.chained_single rfl rfl
  · rfl
  · rfl
  · simp
  · intro ref group present block member content found
    cases ref with
    | zero =>
      obtain rfl : _ = group := by simpa using present
      obtain rfl : block = 0 := by simpa using member
      obtain rfl : _ = content := by simpa using found
      rfl
    | succ ref => simp at present

/-- Every block of a group is in the arena. -/
private theorem inside_of_mem (linked : chain.Linked) {ref block : ℕ} {group : Group}
    (found : chain.groups[ref]? = some group) (member : block ∈ group.blocks) : block < chain.blocks.length := by
  have member : block ∈ chain.groups.flatMap Group.blocks :=
    List.mem_flatMap.mpr ⟨group, List.mem_of_getElem? found, member⟩
  rw [linked.pieces] at member
  exact List.mem_range.mp member

/-- Following the links from the current group reaches the block linked last. -/
private theorem current_walk (linked : chain.Linked) (present : chain.blocks ≠ []) :
    ∃ (current : Group) (first : ℕ) (lastBlock : Block),
      chain.group = some (chain.groups.length - 1) ∧ chain.groups[chain.groups.length - 1]? = some current ∧
        current.blocks.head? = some first ∧ chain.getLastBlockFrom first = some (chain.blocks.length - 1) ∧
          chain.blocks[chain.blocks.length - 1]? = some lastBlock ∧
            lastBlock.group = chain.groups.length - 1 ∧ chain.getLastBlock = some lastBlock := by
  obtain ⟨current, lastBlock, group, lookup, last, content, owner⟩ := linked.last_group present
  obtain ⟨first, rest, cells⟩ := List.exists_cons_of_ne_nil (linked.nonempty current (List.mem_of_getElem? lookup))
  have inside : first < chain.blocks.length := inside_of_mem linked lookup (cells ▸ List.mem_cons_self ..)
  refine ⟨current, first, lastBlock, group, lookup, by rw [cells]; rfl, ?_, content, owner, ?_⟩
  · exact linked.blocks.lastRef_next inside (by omega)
  · rw [linked.getLastBlock_eq, List.getLast?_eq_getElem?, content]

/-- A block of another height leaves every link as it is. -/
theorem linkBlock_refused (depositTx : List TxItr) (linked : chain.Linked) (refused : ¬ chain.Accepts bh) :
    chain.linkBlock bh depositTx = some (chain, false) := by
  simp only [Accepts, not_forall] at refused
  obtain ⟨last, atLast, gap⟩ := refused
  have present : chain.blocks ≠ [] := by
    intro empty
    rw [linked.getLastBlock_eq, empty] at atLast
    cases atLast
  obtain ⟨current, first, lastBlock, group, lookup, head, walk, content, owner, same⟩ :=
    current_walk linked present
  obtain rfl : last = lastBlock := Option.some.inj (atLast.symm.trans same)
  simp only [linkBlock, group, lookup, Option.bind_eq_bind, Option.bind_some, head, walk, content, owner]
  rw [if_pos gap]

private theorem modify_last {α : Type*} {items : List α} (present : items ≠ []) (f : α → α) :
    ∃ before last, items = before ++ [last] ∧ before.length = items.length - 1 ∧
      items.modify (items.length - 1) f = before ++ [f last] := by
  obtain ⟨before, last, rfl⟩ := (List.eq_nil_or_concat' items).resolve_left present
  refine ⟨before, last, rfl, by simp, ?_⟩
  rw [List.length_append, List.length_singleton, Nat.add_sub_cancel]
  induction before with
  | nil => rfl
  | cons head rest ih => exact congrArg (head :: ·) (ih (by simp))

private theorem lookup_modify_append {α : Type*} {items : List α} {position ref : ℕ} {f : α → α} {item found : α}
    (here : (items.modify position f ++ [item])[ref]? = some found) :
    (ref = items.length ∧ found = item) ∨ ∃ old, items[ref]? = some old ∧ (found = old ∨ found = f old) := by
  rcases Nat.lt_or_ge ref items.length with inside | behind
  · rw [List.getElem?_append_left (by rw [List.length_modify]; exact inside), List.getElem?_modify] at here
    obtain ⟨old, present, same⟩ := Option.map_eq_some_iff.mp here
    refine .inr ⟨old, present, ?_⟩
    split at same
    · exact .inr same.symm
    · exact .inl same.symm
  · rw [List.getElem?_append_right (by rw [List.length_modify]; exact behind), List.length_modify] at here
    left
    cases gap : ref - items.length with
    | zero =>
      rw [gap] at here
      exact ⟨by omega, (Option.some.inj here).symm⟩
    | succ more =>
      rw [gap] at here
      cases here

/-- Old blocks keep their group when a block is linked behind them. -/
private theorem owner_kept (linked : chain.Linked) {ref block position : ℕ} {group : Group} {link : Block → Block}
    {newBlock content : Block} (sameGroup : ∀ block, (link block).group = block.group)
    (found : chain.groups[ref]? = some group) (member : block ∈ group.blocks)
    (here : (chain.blocks.modify position link ++ [newBlock])[block]? = some content) : content.group = ref := by
  have inside := inside_of_mem linked found member
  rcases lookup_modify_append here with ⟨behind, -⟩ | ⟨old, present, rfl | rfl⟩
  · omega
  · exact linked.owner ref group found block member _ present
  · rw [sameGroup]
    exact linked.owner ref group found block member old present

private theorem at_end {position : ℕ} {link : Block → Block} {newBlock content : Block}
    (here : (chain.blocks.modify position link ++ [newBlock])[chain.blocks.length]? = some content) :
    content = newBlock := by
  rcases lookup_modify_append here with ⟨-, rfl⟩ | ⟨old, present, -⟩
  · rfl
  · rw [List.getElem?_eq_none le_rfl] at present
    cases present

/-- The blocks with one more behind the last. -/
private def blocksWith (chain : Chain) (newBlock : Block) : List Block :=
  (chain.blocks.modify (chain.blocks.length - 1) fun block => { block with nextBlock := some chain.blocks.length }) ++
    [newBlock]

private theorem labels_blocksWith (present : chain.blocks ≠ []) (newBlock : Block) :
    (chain.blocksWith newBlock).map Block.label = chain.labels ++ [newBlock.label] := by
  obtain ⟨before, last, split, -, modified⟩ := modify_last present fun block : Block =>
    { block with nextBlock := some chain.blocks.length }
  rw [blocksWith, modified, labels, split]
  simp [Block.label, Block.id]

/-- A block that joins the last group keeps the chain linked. -/
private theorem linked_join (linked : chain.Linked) (present : chain.blocks ≠ []) {newBlock : Block}
    (pre : newBlock.preBlock = some (chain.blocks.length - 1)) (next : newBlock.nextBlock = none)
    (own : newBlock.group = chain.groups.length - 1) :
    Linked { chain with
      blocks := chain.blocksWith newBlock
      groups := chain.groups.modify (chain.groups.length - 1) fun group =>
        { group with blocks := group.blocks ++ [chain.blocks.length] } } := by
  have someGroup : chain.groups ≠ [] := fun empty => present (linked.groups_eq_nil_iff.mp empty)
  have blockPositive := List.length_pos_iff.mpr present
  obtain ⟨before, last, split, size, modified⟩ := modify_last someGroup fun group : Group =>
    { group with blocks := group.blocks ++ [chain.blocks.length] }
  constructor
  · exact linked.blocks.append present (by intro _; rfl) (by intro _; rfl) pre next
  · exact linked.groups.modify (by intro _; rfl) (by intro _; rfl) _
  · have filled : ¬ chain.groups.modify (chain.groups.length - 1) (fun group : Group =>
        { group with blocks := group.blocks ++ [chain.blocks.length] }) = [] := by simp [modified]
    have group := linked.group
    rw [if_neg someGroup] at group
    simp only [if_neg filled, List.length_modify, group]
  · have pieces := linked.pieces
    rw [split] at pieces
    simp only [blocksWith, modified, List.flatMap_append, List.flatMap_singleton, List.length_append,
      List.length_modify, List.length_singleton, List.range_succ] at pieces ⊢
    rw [← pieces, List.append_assoc]
  · intro group member
    rw [modified] at member
    rcases List.mem_append.mp member with old | new
    · exact linked.nonempty group (split ▸ List.mem_append_left _ old)
    · rw [List.mem_singleton.mp new]
      simp
  · intro ref group found block member content here
    simp only [List.getElem?_modify] at found
    obtain ⟨old, oldFound, rfl⟩ := Option.map_eq_some_iff.mp found
    split at member
    · next atLast =>
      rcases List.mem_append.mp member with member | member
      · exact owner_kept linked (by intro _; rfl) oldFound member here
      · obtain rfl := List.mem_singleton.mp member
        rw [at_end here, own, ← atLast]
    · exact owner_kept linked (by intro _; rfl) oldFound member here

/-- A block that opens a group keeps the chain linked. -/
private theorem linked_open (linked : chain.Linked) (present : chain.blocks ≠ []) {newBlock : Block} {newGroup : Group}
    (pre : newBlock.preBlock = some (chain.blocks.length - 1)) (next : newBlock.nextBlock = none)
    (own : newBlock.group = chain.groups.length) (preGroup : newGroup.preGroup = some (chain.groups.length - 1))
    (nextGroup : newGroup.nextGroup = none) (only : newGroup.blocks = [chain.blocks.length]) :
    Linked { chain with
      blocks := chain.blocksWith newBlock
      groups := (chain.groups.modify (chain.groups.length - 1) fun group =>
        { group with nextGroup := some chain.groups.length }) ++ [newGroup]
      group := some chain.groups.length } := by
  have someGroup : chain.groups ≠ [] := fun empty => present (linked.groups_eq_nil_iff.mp empty)
  constructor
  · exact linked.blocks.append present (by intro _; rfl) (by intro _; rfl) pre next
  · exact linked.groups.append someGroup (by intro _; rfl) (by intro _; rfl) preGroup nextGroup
  · simp
  · obtain ⟨before, last, split, size, modified⟩ := modify_last someGroup fun group : Group =>
      { group with nextGroup := some chain.groups.length }
    have pieces := linked.pieces
    rw [split] at pieces
    simp only [blocksWith, modified, only, List.flatMap_append, List.flatMap_singleton, List.length_append,
      List.length_modify, List.length_singleton, List.range_succ] at pieces ⊢
    rw [← pieces]
  · intro group member
    rcases List.mem_append.mp member with present | new
    · obtain ⟨ref, found⟩ := List.getElem?_of_mem present
      rw [List.getElem?_modify] at found
      obtain ⟨old, oldFound, rfl⟩ := Option.map_eq_some_iff.mp found
      have filled := linked.nonempty old (List.mem_of_getElem? oldFound)
      split <;> exact filled
    · rw [List.mem_singleton.mp new, only]
      simp
  · intro ref group found block member content here
    rcases lookup_modify_append found with ⟨rfl, rfl⟩ | ⟨old, oldFound, rfl | rfl⟩
    · rw [only] at member
      obtain rfl := List.mem_singleton.mp member
      rw [at_end here, own]
    · exact owner_kept linked (by intro _; rfl) oldFound member here
    · exact owner_kept linked (by intro _; rfl) oldFound member here

/-- A block of the next height becomes the last one. -/
private theorem linkBlock_next (depositTx : List TxItr) (linked : chain.Linked) (present : chain.blocks ≠ [])
    (accepted : chain.Accepts bh) :
    ∃ next, chain.linkBlock bh depositTx = some (next, true) ∧ next.Linked ∧
      next = { chain with blocks := next.blocks, groups := next.groups, group := next.group } ∧
        next.labels = chain.labels ++ [(bh.hash, bh.height, depositTx)] := by
  obtain ⟨current, first, lastBlock, group, lookup, head, walk, content, owner, same⟩ :=
    current_walk linked present
  have follows : ¬ (lastBlock.height + 1 ≠ bh.height) := not_not.mpr (accepted lastBlock same)
  simp only [linkBlock, group, lookup, Option.bind_eq_bind, Option.bind_some, head, walk, content, owner]
  rw [if_neg follows]
  split
  · refine ⟨_, rfl, ?_, rfl, labels_blocksWith present _⟩
    have joined := @linked_join chain linked present
      { preBlock := some (chain.blocks.length - 1), group := chain.groups.length - 1, height := bh.height,
        id? := bh.hash?, depositTx } rfl rfl rfl
    rwa [group] at joined
  · exact ⟨_, rfl, linked_open linked present rfl rfl rfl rfl rfl rfl, rfl, labels_blocksWith present _⟩

/-- A block of the next height, or a first one, is linked behind the others. -/
theorem linkBlock_accepted (depositTx : List TxItr) (linked : chain.Linked) (accepted : chain.Accepts bh) :
    ∃ next, chain.linkBlock bh depositTx = some (next, true) ∧ next.Linked ∧
      next = { chain with blocks := next.blocks, groups := next.groups, group := next.group } ∧
        next.labels = chain.labels ++ [(bh.hash, bh.height, depositTx)] := by
  by_cases empty : chain.blocks = []
  · exact linkBlock_first depositTx linked empty
  · exact linkBlock_next depositTx linked empty accepted

/-- The height of every group and the blocks in it. -/
def pieces (chain : Chain) : List (UInt64 × List ℕ) := chain.groups.map fun group => (group.height, group.blocks)

/-- A block that is linked joins the last group when it has the height of that group. -/
theorem linkBlock_pieces {next : Chain} {depositTx : List TxItr} (linked : chain.Linked) (accepted : chain.Accepts bh)
    (links : chain.linkBlock bh depositTx = some (next, true)) :
    next.pieces = Runs.join bh.groupHeight [chain.blocks.length] chain.pieces := by
  by_cases empty : chain.blocks = []
  · have noGroups := linked.groups_eq_nil_iff.mpr empty
    have group := linked.group
    rw [if_pos noGroups] at group
    rw [linkBlock, group] at links
    cases links
    simp only [pieces, noGroups, List.nil_append, List.map_cons, List.map_nil, Runs.join]
  · obtain ⟨current, first, lastBlock, group, lookup, head, walk, content, owner, same⟩ := current_walk linked empty
    have someGroup : chain.groups ≠ [] := fun none => empty (linked.groups_eq_nil_iff.mp none)
    have follows : ¬ (lastBlock.height + 1 ≠ bh.height) := not_not.mpr (accepted lastBlock same)
    obtain ⟨before, last, split, size, -⟩ := modify_last someGroup id
    obtain rfl : current = last := by
      rw [← size, split, List.getElem?_concat_length] at lookup
      exact (Option.some.inj lookup).symm
    have pieces_eq : chain.pieces =
        before.map (fun group => (group.height, group.blocks)) ++ [(current.height, current.blocks)] := by
      rw [pieces, split, List.map_append]
      rfl
    have modified (change : Group → Group) : chain.groups.modify (chain.groups.length - 1) change =
        before ++ [change current] := by
      obtain ⟨before', last', split', -, modified⟩ := modify_last someGroup change
      obtain ⟨rfl, rfl⟩ := List.append_singleton_inj.mp (split.symm.trans split')
      exact modified
    rw [pieces_eq, Runs.join_concat]
    simp only [linkBlock, group, lookup, Option.bind_eq_bind, Option.bind_some, head, walk, content, owner,
      if_neg follows] at links
    split at links
    · next sameGroup =>
      cases links
      simp only [pieces, modified, List.map_append, List.map_cons, List.map_nil, if_pos sameGroup]
    · next otherGroup =>
      cases links
      simp only [pieces, modified, List.map_append, List.map_cons, List.map_nil, if_neg otherGroup, List.append_assoc,
        List.cons_append, List.nil_append]

/-- Whether a block is accepted shows in the last label. -/
theorem Linked.accepts_iff (linked : chain.Linked) :
    chain.Accepts bh ↔ ∀ label, chain.labels.getLast? = some label → label.2.1 + 1 = bh.height := by
  rw [Accepts, linked.getLastBlock_eq, labels, List.getLast?_map]
  constructor
  · intro accepts label last
    obtain ⟨block, isLast, rfl⟩ := Option.map_eq_some_iff.mp last
    exact accepts block isLast
  · intro accepts block last
    exact accepts block.label (by rw [last, Option.map_some])

end Chain

end PolarCloud.Mining
