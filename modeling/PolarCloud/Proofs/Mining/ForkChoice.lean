import PolarCloud.Base.Branches
import PolarCloud.Proofs.Mining.Successors

/-! # The first successor and the longest branch

New blocks are listed behind the older ones, so the first successor keeps leading to a longest
branch only as long as no block makes a branch behind a later entry longer than the first one.
-/

namespace PolarCloud.Mining

open Branches

/-- A header is stored under the key. -/
def Held (db : Db) (h : Bytes) : Prop := ∃ bh, Stored db h bh

/-- A stored header lists the successor. -/
def Lists (db : Db) (h h' : Bytes) : Prop := ∃ bh, Stored db h bh ∧ h' ∈ bh.nexts

/-- Every record's first successor starts a branch at least as long as any other successor does. -/
def FirstLongest (db : Db) : Prop :=
  ∀ h bh first rest, Stored db h bh → bh.nexts = first :: rest →
    ∀ other ∈ rest, ∀ size, Branch (Held db) (Lists db) size other → Branch (Held db) (Lists db) size first

/-- The parent of an arriving block is stored. -/
def ParentHeld (rt : Runtime) (node : Node) (event : Event) : Prop :=
  ∀ bh txs, event.message? rt node.db = some ⟨some bh, txs⟩ → Held node.db bh.previousblockhash

/-- Wherever the way down to an arriving block leaves a record by a later successor, the first
successor already starts a branch that reaches as deep. -/
def FirstKept (rt : Runtime) (node : Node) (event : Event) : Prop :=
  ∀ bh txs, event.message? rt node.db = some ⟨some bh, txs⟩ →
    ∀ h old first rest, Stored node.db h old → old.nexts = first :: rest → ∀ other ∈ rest, ∀ depth,
      Descends (Lists node.db) depth other bh.previousblockhash →
        Branch (Held node.db) (Lists node.db) (depth + 2) first

/-- One clear event whose block has a stored parent and keeps the first branches longest. -/
def ForkStep (rt : Runtime) (wallet : Keystore.Wallet) (node next : Node) : Prop :=
  ∃ event, Clear rt node event ∧ ParentHeld rt node event ∧ FirstKept rt node event ∧ next = handle rt wallet node event

section Step

variable {rt : Runtime} {wallet : Keystore.Wallet} {node : Node} {start : UInt64}

theorem Successors.closed {db : Db} (kept : Successors start db) (h h' : Bytes) (lists : Lists db h h') :
    Held db h ∧ Held db h' := by
  obtain ⟨bh, stored, listed⟩ := lists
  obtain ⟨bh', stored', -⟩ := kept.forward h bh h' stored listed
  exact ⟨⟨bh, stored⟩, ⟨bh', stored'⟩⟩

/-- A new block is attached to the tree of stored headers. -/
private theorem attaches_of_stored {db next : Db} {bh parent : BlockHead} (kept : Successors start db)
    (fresh : ∀ old, ¬ Stored db bh.hash old) (noNexts : bh.nexts = []) (ne : bh.previousblockhash ≠ bh.hash)
    (known : Stored db bh.previousblockhash parent)
    (stored : ∀ h other, Stored next h other ↔ if h = bh.hash then other = bh else
      if h = bh.previousblockhash then other = parent.addNext bh.hash? else Stored db h other) :
    Attaches (Held db) (Lists db) (Held next) (Lists next) bh.previousblockhash bh.hash where
  attached := ⟨parent, known⟩
  fresh := fun ⟨old, here⟩ => fresh old here
  present_iff := by
    intro h
    simp only [Held, stored]
    by_cases atNew : h = bh.hash
    · simp [atNew]
    · by_cases atParent : h = bh.previousblockhash
      · subst atParent
        simp only [if_neg ne, if_pos, exists_eq, true_iff]
        exact .inl ⟨parent, known⟩
      · simp [atNew, atParent]
  next_iff := by
    intro h h'
    simp only [Lists, stored]
    by_cases atNew : h = bh.hash
    · subst atNew
      simp only [if_pos, exists_eq_left, noNexts, List.not_mem_nil, Ne.symm ne, false_and, or_false, false_iff]
      rintro ⟨old, here, -⟩
      exact fresh old here
    · by_cases atParent : h = bh.previousblockhash
      · subst atParent
        simp only [if_neg ne, if_pos, exists_eq_left, BlockHead.nexts_addNext, List.mem_append, List.mem_singleton,
          true_and]
        constructor
        · exact fun listed => listed.imp_left fun listed => ⟨parent, known, listed⟩
        · rintro (⟨old, here, listed⟩ | rfl)
          · exact .inl (here.unique known ▸ listed)
          · exact .inr rfl
      · simp [atNew, atParent]
  closed := kept.closed

/-- A new header that nothing lists yet starts no branch behind an older one. -/
private theorem FirstLongest.insert {db next : Db} {bh : BlockHead} (longest : FirstLongest db)
    (kept : Successors start db) (fresh : ∀ old, ¬ Stored db bh.hash old) (noNexts : bh.nexts = [])
    (stored : ∀ h other, Stored next h other ↔ if h = bh.hash then other = bh else Stored db h other) :
    FirstLongest next := by
  have other {h : Bytes} {old : BlockHead} (here : Stored db h old) : h ≠ bh.hash :=
    fun same => fresh old (same ▸ here)
  have sameLists : ∀ h h', Lists next h h' → Lists db h h' := by
    rintro h h' ⟨old, here, listed⟩
    rw [stored] at here
    split at here
    · rw [here, noNexts] at listed
      cases listed
    · exact ⟨old, here, listed⟩
  have grown : ∀ h, Held db h → Held next h := fun h ⟨old, here⟩ =>
    ⟨old, (stored h old).mpr (by rwa [if_neg (other here)])⟩
  have more : ∀ h h', Lists db h h' → Lists next h h' := fun h h' ⟨old, here, listed⟩ =>
    ⟨old, (stored h old).mpr (by rwa [if_neg (other here)]), listed⟩
  intro h old first rest here cut later member size branch
  rw [stored] at here
  split at here
  · rw [here, noNexts] at cut
    cases cut
  · have laterHeld := (kept.closed h later ⟨old, here, by rw [cut]; exact List.mem_cons_of_mem _ member⟩).2
    have before := branch.restrict sameLists (fun h h' lists => (kept.closed h h' lists).2) laterHeld
    exact (longest h old first rest here cut later member size before).mono grown more

/-- A new header below its parent: a branch that it makes longer was reached from the first one already. -/
private theorem FirstLongest.attach {db next : Db} {bh parent : BlockHead} (longest : FirstLongest db)
    (kept : Successors start db) (noNexts : bh.nexts = []) (known : Stored db bh.previousblockhash parent)
    (attaches : Attaches (Held db) (Lists db) (Held next) (Lists next) bh.previousblockhash bh.hash)
    (keeps : ∀ h old first rest, Stored db h old → old.nexts = first :: rest → ∀ other ∈ rest, ∀ depth,
      Descends (Lists db) depth other bh.previousblockhash → Branch (Held db) (Lists db) (depth + 2) first)
    (stored : ∀ h other, Stored next h other ↔ if h = bh.hash then other = bh else
      if h = bh.previousblockhash then other = parent.addNext bh.hash? else Stored db h other) : FirstLongest next := by
  have old (h : Bytes) (old : BlockHead) (first : Bytes) (rest : List Bytes) (here : Stored db h old)
      (cut : old.nexts = first :: rest) (later : Bytes) (member : later ∈ rest) (size : ℕ)
      (branch : Branch (Held next) (Lists next) size later) : Branch (Held next) (Lists next) size first := by
    have laterHeld := (kept.closed h later ⟨old, here, by rw [cut]; exact List.mem_cons_of_mem _ member⟩).2
    rcases attaches.branch_of laterHeld branch with before | ⟨depth, down, bound⟩
    · exact attaches.branch_mono (longest h old first rest here cut later member size before)
    · exact (attaches.branch_mono (keeps h old first rest here cut later member depth down)).shorten bound
  intro h record first rest here cut later member size branch
  rw [stored] at here
  split at here
  · rw [here, noNexts] at cut
    cases cut
  · split at here
    · next atParent =>
      subst atParent here
      rw [BlockHead.nexts_addNext] at cut
      cases nexts : parent.nexts with
      | nil =>
        rw [nexts, List.nil_append] at cut
        cases cut
        cases member
      | cons head tail =>
        rw [nexts, List.cons_append] at cut
        cases cut
        rcases List.mem_append.mp member with member | member
        · exact old _ parent first tail known nexts later member size branch
        · obtain rfl := List.mem_singleton.mp member
          have short := attaches.branch_leaf branch
          have firstHeld := (kept.closed _ first ⟨parent, known, by rw [nexts]; exact List.mem_cons_self ..⟩).2
          have single : Branch (Held db) (Lists db) 1 first := ⟨firstHeld, .inl rfl⟩
          exact (attaches.branch_mono single).shorten short
    · exact old h record first rest here cut later member size branch

/-- One step of such a run keeps the first branches longest. -/
theorem FirstLongest.step (longest : FirstLongest node.db) (kept : Successors start node.db) {event : Event}
    (clear : Clear rt node event) (held : ParentHeld rt node event) (keeps : FirstKept rt node event) :
    FirstLongest (handle rt wallet node event).db := by
  have after := @heads_after rt wallet node kept.filed kept.free event clear
  generalize (handle rt wallet node event).db = next at after ⊢
  cases after with
  | same stored =>
    have sameHeld : Held next = Held node.db := by funext h; simp only [Held, stored]
    have sameLists : Lists next = Lists node.db := by funext h h'; simp only [Lists, stored]
    intro h bh first rest here
    rw [sameHeld, sameLists]
    exact longest h bh first rest ((stored h bh).mp here)
  | inserted bh brought clear fresh noNexts due stored => exact longest.insert kept fresh noNexts stored
  | attached bh parent brought clear fresh noNexts due known stored =>
    obtain ⟨txs, brought⟩ := brought
    obtain ⟨stay, parentHere⟩ := held bh txs brought
    have known : Stored node.db bh.previousblockhash parent :=
      known.resolve_right fun absent => absent.2 stay parentHere
    have attaches := attaches_of_stored kept fresh noNexts (clear.parent due).2 known stored
    exact longest.attach kept noNexts known attaches (keeps bh txs brought) stored

end Step

/-- In every run of such imports from a first block, the first successor starts a longest branch. -/
theorem firstLongest_of_kept {rt : Runtime} {wallet : Keystore.Wallet} {genesis : BlockHead} {start node : Node}
    (bare : genesis.nexts = []) (onlyGenesis : start.db = genesisDb genesis)
    (reached : Relation.ReflTransGen (ForkStep rt wallet) start node) : FirstLongest node.db := by
  -- no height is above the greatest one, so nothing is asked of blocks that amend no parent
  have never (height : UInt64) : ¬ UInt64.ofNat (2 ^ 64 - 1) < height := by
    have top : (UInt64.ofNat (2 ^ 64 - 1)).toNat = 2 ^ 64 - 1 := rfl
    have bound := height.toNat_lt
    rw [UInt64.not_lt, UInt64.le_iff_toNat_le, top]
    omega
  have kept : Successors (UInt64.ofNat (2 ^ 64 - 1)) node.db ∧ FirstLongest node.db := by
    induction reached with
    | refl =>
      have first : Successors (UInt64.ofNat (2 ^ 64 - 1)) start.db :=
        onlyGenesis ▸ .genesis bare (UInt64.not_lt.mp (never _))
      refine ⟨first, fun h bh head rest here cut => ?_⟩
      have noNexts := (genesisDb_only (onlyGenesis ▸ here)).2
      rw [noNexts, bare] at cut
      cases cut
    | tail _ step ih =>
      obtain ⟨event, clear, held, keeps, rfl⟩ := step
      exact ⟨(ih.1.step clear fun _ _ bh _ high => absurd high (never bh.height)).1,
        ih.2.step ih.1 clear held keeps⟩
  exact kept.2

/-! ## A side branch that outgrows the first one -/

/-- One clear event whose block has a stored parent. -/
def TreeStep (rt : Runtime) (wallet : Keystore.Wallet) (node next : Node) : Prop :=
  ∃ event, Clear rt node event ∧ ParentHeld rt node event ∧ next = handle rt wallet node event

namespace Sample

/-- A second block at height 2, and one on top of it. -/
def rival : BlockHead := { hash? := some [3], height := 2, groupHeight := 1, previousblockhash? := some [1] }

def third : BlockHead := { hash? := some [4], height := 3, groupHeight := 1, previousblockhash? := some [3] }

/-- The database when the three blocks have followed the first one. -/
def forked : Db :=
  let db := Db.saveHead ((genesisDb genesis).save [1] (genesis.addNext (some [2])).json) second false
  let db := Db.saveHead (db.save [1] ((genesis.addNext (some [2])).addNext (some [3])).json) rival false
  Db.saveHead (db.save [3] (rival.addNext (some [4])).json) third false

theorem parentHeld_bare {rt : Runtime} {node : Node} {bh parent : BlockHead}
    (held : Stored node.db bh.previousblockhash parent) : ParentHeld rt node (.save (bare bh)) := by
  rintro other txs brought
  cases brought
  exact ⟨parent, held⟩

/-- One bare block above the first height whose parent is stored. -/
theorem treeStep_bare {rt : Runtime} {wallet : Keystore.Wallet} {node : Node} {bh parent : BlockHead}
    (starting : node.chain.startingBlock = 1) (high : 1 < bh.height) (absent : node.db.find bh.hash = none)
    (noNexts : bh.nexts = []) (reserved : bh.hash ≠ Config.keyBlockStart)
    (other : bh.previousblockhash ≠ Config.keyBlockStart ∧ bh.previousblockhash ≠ bh.hash)
    (held : Stored node.db bh.previousblockhash parent) :
    ∃ next, TreeStep rt wallet node next ∧ next.chain.startingBlock = 1 ∧
      next.db = Db.saveHead (node.db.save parent.hash (parent.addNext bh.hash?).json) bh false := by
  obtain ⟨next, isNext, starting', saved⟩ :=
    @saved_amended rt wallet node _ (bare bh) bh parent starting rfl high rfl held
  exact ⟨next, ⟨.save (bare bh), clear_bare absent noNexts reserved other, parentHeld_bare held, isNext⟩, starting',
    saved⟩

end Sample

/-- The third block extends the rival, and the first successor of the first block is left behind. -/
theorem firstLongest_broken : ∃ (start node : Node) (genesis : BlockHead),
    genesis.nexts = [] ∧ start.db = genesisDb genesis ∧
      Relation.ReflTransGen (TreeStep Sample.runtime Sample.twoKeys) start node ∧ ¬ FirstLongest node.db := by
  obtain ⟨one, stepOne, startOne, dbOne⟩ := @Sample.treeStep_bare Sample.runtime Sample.twoKeys Sample.atGenesis
    Sample.second Sample.genesis rfl (by decide) rfl rfl (by decide) (by decide) rfl
  obtain ⟨two, stepTwo, startTwo, dbTwo⟩ := @Sample.treeStep_bare Sample.runtime Sample.twoKeys one
    Sample.rival (Sample.genesis.addNext (some [2])) startOne (by decide) (by rw [dbOne]; rfl) rfl (by decide) (by decide)
    (by rw [dbOne]; rfl)
  obtain ⟨three, stepThree, -, dbThree⟩ := @Sample.treeStep_bare Sample.runtime Sample.twoKeys two
    Sample.third Sample.rival startTwo (by decide) (by rw [dbTwo, dbOne]; rfl) rfl (by decide) (by decide)
    (by rw [dbTwo, dbOne]; rfl)
  refine ⟨Sample.atGenesis, three, Sample.genesis, rfl, rfl, ((Relation.ReflTransGen.single stepOne).tail stepTwo).tail
    stepThree, ?_⟩
  have db : three.db = Sample.forked := by rw [dbThree, dbTwo, dbOne]; rfl
  rw [db]
  intro longest
  have side : Branch (Held Sample.forked) (Lists Sample.forked) 2 [3] :=
    ⟨⟨Sample.rival.addNext (some [4]), rfl⟩,
      .inr ⟨[4], ⟨Sample.rival.addNext (some [4]), rfl, by decide⟩, ⟨Sample.third, rfl⟩, .inl rfl⟩⟩
  have root : Stored Sample.forked [1] ((Sample.genesis.addNext (some [2])).addNext (some [3])) := rfl
  obtain ⟨-, zero | ⟨h', ⟨record, stored, listed⟩, -⟩⟩ :=
    longest [1] _ [2] [[3]] root rfl [3] (List.mem_singleton_self _) 2 side
  · cases zero
  · have leaf : Stored Sample.forked [2] Sample.second := rfl
    rw [stored.unique leaf] at listed
    cases listed

namespace Sample

/-- A block on top of the first successor. -/
def upper : BlockHead := { hash? := some [5], height := 3, groupHeight := 1, previousblockhash? := some [2] }

theorem stored_amended_iff {db : Db} {bh parent other : BlockHead} {h : Bytes} :
    Stored (Db.saveHead (db.save parent.hash parent.json) bh false) h other ↔
      if h = bh.hash then other = bh else if h = parent.hash then other = parent else Stored db h other := by
  rw [Db.saveHead, if_neg Bool.false_ne_true, stored_save_head_iff, stored_save_head_iff]

/-- No record lists more than one successor. -/
def NoFork (db : Db) : Prop := ∀ h old, Stored db h old → old.nexts.length ≤ 1

theorem NoFork.firstKept {rt : Runtime} {node : Node} (single : NoFork node.db) (event : Event) :
    FirstKept rt node event := by
  intro bh txs _ h old first rest stored cut other member
  have short := single h old stored
  rw [cut, List.length_cons] at short
  have more := List.length_pos_of_mem member
  omega

/-- One bare block above the first height that keeps the first branches longest. -/
theorem forkStep_bare {rt : Runtime} {wallet : Keystore.Wallet} {node : Node} {bh parent : BlockHead}
    (starting : node.chain.startingBlock = 1) (high : 1 < bh.height) (absent : node.db.find bh.hash = none)
    (noNexts : bh.nexts = []) (reserved : bh.hash ≠ Config.keyBlockStart)
    (other : bh.previousblockhash ≠ Config.keyBlockStart ∧ bh.previousblockhash ≠ bh.hash)
    (held : Stored node.db bh.previousblockhash parent) (keeps : FirstKept rt node (.save (bare bh))) :
    ∃ next, ForkStep rt wallet node next ∧ next.chain.startingBlock = 1 ∧
      next.db = Db.saveHead (node.db.save parent.hash (parent.addNext bh.hash?).json) bh false := by
  obtain ⟨next, isNext, starting', saved⟩ :=
    @saved_amended rt wallet node _ (bare bh) bh parent starting rfl high rfl held
  exact ⟨next, ⟨.save (bare bh), clear_bare absent noNexts reserved other, parentHeld_bare held, keeps, isNext⟩,
    starting', saved⟩

/-- The rival becomes a second successor of the first block, whose first one has a block on top. -/
theorem rival_listed : ∃ node, Relation.ReflTransGen (ForkStep runtime twoKeys) atGenesis node ∧
    node.chain.startingBlock = 1 ∧ node.db.find [4] = none ∧ ∀ h old, Stored node.db h old ↔
      if h = [3] then old = rival else if h = [1] then old = (genesis.addNext (some [2])).addNext (some [3])
      else if h = [5] then old = upper else if h = [2] then old = second.addNext (some [5])
      else Stored atGenesis.db h old := by
  have only {h : Bytes} {old : BlockHead} (stored : Stored atGenesis.db h old) : old.nexts = [] := by
    rw [(genesisDb_only stored).2]
    rfl
  obtain ⟨one, stepOne, startOne, dbOne⟩ := @forkStep_bare runtime twoKeys atGenesis second genesis rfl (by decide) rfl
    rfl (by decide) (by decide) rfl
    (NoFork.firstKept (fun h old stored => (only stored ▸ Nat.zero_le 1 : old.nexts.length ≤ 1)) _)
  have storedOne (h : Bytes) (old : BlockHead) : Stored one.db h old ↔ if h = [2] then old = second
      else if h = [1] then old = genesis.addNext (some [2]) else Stored atGenesis.db h old := by
    rw [dbOne]
    exact @stored_amended_iff _ second (genesis.addNext (some [2])) old h
  obtain ⟨two, stepTwo, startTwo, dbTwo⟩ := @forkStep_bare runtime twoKeys one upper second startOne (by decide)
    (by rw [dbOne]; rfl) rfl (by decide) (by decide) (by rw [dbOne]; rfl) (NoFork.firstKept (fun h old stored => by
      rw [storedOne] at stored
      split at stored
      · rw [stored]; decide
      · split at stored
        · rw [stored]; decide
        · rw [only stored]; decide) _)
  have storedTwo (h : Bytes) (old : BlockHead) : Stored two.db h old ↔ if h = [5] then old = upper
      else if h = [2] then old = second.addNext (some [5])
      else if h = [1] then old = genesis.addNext (some [2]) else Stored atGenesis.db h old := by
    rw [dbTwo]
    refine (@stored_amended_iff _ upper (second.addNext (some [5])) old h).trans ?_
    rw [storedOne]
    change (if h = [5] then _ else if h = [2] then _ else if h = [2] then _ else _) ↔ _
    split_ifs <;> rfl
  obtain ⟨three, stepThree, startThree, dbThree⟩ := @forkStep_bare runtime twoKeys two rival
    (genesis.addNext (some [2])) startTwo (by decide) (by rw [dbTwo, dbOne]; rfl) rfl (by decide) (by decide)
    (by rw [dbTwo, dbOne]; rfl) (NoFork.firstKept (fun h old stored => by
      rw [storedTwo] at stored
      split at stored
      · rw [stored]; decide
      · split at stored
        · rw [stored]; decide
        · split at stored
          · rw [stored]; decide
          · rw [only stored]; decide) _)
  refine ⟨three, ((Relation.ReflTransGen.single stepOne).tail stepTwo).tail stepThree, startThree,
    by rw [dbThree, dbTwo, dbOne]; rfl, fun h old => ?_⟩
  rw [dbThree]
  refine (@stored_amended_iff _ rival ((genesis.addNext (some [2])).addNext (some [3])) old h).trans ?_
  rw [storedTwo]
  change (if h = [3] then _ else if h = [1] then _ else if h = [5] then _ else if h = [2] then _
    else if h = [1] then _ else _) ↔ _
  split_ifs <;> rfl

end Sample

/-- A fork whose second branch grows as long as the first one, and no longer. -/
theorem firstLongest_of_kept_fork : ∃ (node : Node) (old : BlockHead),
    Stored node.db [1] old ∧ old.nexts = [[2], [3]] ∧ Branch (Held node.db) (Lists node.db) 2 [3] ∧
      FirstLongest node.db := by
  obtain ⟨three, run, starting, absent, stored⟩ := Sample.rival_listed
  have rivalHeld : Stored three.db [3] Sample.rival := (stored _ _).mpr rfl
  have keeps : FirstKept Sample.runtime three (.save (Sample.bare Sample.third)) := by
    rintro bh txs brought h old first rest here cut other member depth down
    cases brought
    -- the one record with a later successor is that of the first block
    have isRoot : old = (Sample.genesis.addNext (some [2])).addNext (some [3]) := by
      have many : 2 ≤ old.nexts.length := by
        rw [cut, List.length_cons]
        have more := List.length_pos_of_mem member
        omega
      rw [stored] at here
      split at here
      · rw [here] at many
        exact absurd many (by decide)
      · split at here
        · exact here
        · split at here
          · rw [here] at many
            exact absurd many (by decide)
          · split at here
            · rw [here] at many
              exact absurd many (by decide)
            · rw [(genesisDb_only here).2] at many
              exact absurd many (by decide)
    rw [isRoot] at cut
    cases cut
    obtain rfl := List.mem_singleton.mp member
    cases depth with
    | zero =>
      have firstHeld : Stored three.db [2] (Sample.second.addNext (some [5])) := (stored _ _).mpr rfl
      have upperHeld : Stored three.db [5] Sample.upper := (stored _ _).mpr rfl
      exact ⟨⟨_, firstHeld⟩, .inr ⟨[5], ⟨_, firstHeld, by decide⟩, ⟨_, upperHeld⟩, .inl rfl⟩⟩
    | succ depth =>
      obtain ⟨h', ⟨record, known, listed⟩, -⟩ := down
      rw [known.unique rivalHeld] at listed
      cases listed
  obtain ⟨four, stepFour, -, dbFour⟩ := @Sample.forkStep_bare Sample.runtime Sample.twoKeys three Sample.third
    Sample.rival starting (by decide) absent rfl (by decide) (by decide) rivalHeld keeps
  have storedFour (h : Bytes) (old : BlockHead) : Stored four.db h old ↔ if h = [4] then old = Sample.third
      else if h = [3] then old = Sample.rival.addNext (some [4]) else Stored three.db h old := by
    rw [dbFour]
    exact @Sample.stored_amended_iff _ Sample.third (Sample.rival.addNext (some [4])) old h
  have root : Stored four.db [1] ((Sample.genesis.addNext (some [2])).addNext (some [3])) :=
    (storedFour _ _).mpr ((stored _ _).mpr rfl)
  have rivalFour : Stored four.db [3] (Sample.rival.addNext (some [4])) := (storedFour _ _).mpr rfl
  have thirdFour : Stored four.db [4] Sample.third := (storedFour _ _).mpr rfl
  exact ⟨four, _, root, rfl, ⟨⟨_, rivalFour⟩, .inr ⟨[4], ⟨_, rivalFour, by decide⟩, ⟨_, thirdFour⟩, .inl rfl⟩⟩,
    firstLongest_of_kept (show Sample.genesis.nexts = [] from rfl) rfl (run.tail stepFour)⟩

end PolarCloud.Mining
