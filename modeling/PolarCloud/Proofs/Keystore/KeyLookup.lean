import PolarCloud.Proofs.Keystore.WrongPassword

/-! # Looking for a private key

The search makes the addresses of every seed again and enters them in memory once more, and it leaves the seed current
that it came to last. So it changes nothing only where it makes no address: none of the seeds has one, or the cipher
does not take the password.
-/

namespace PolarCloud.Keystore.SeedWallet

variable {keys : Keys} {rt : Runtime} {password : Bytes} {this : SeedWallet} {address : String}

/-- What `GetAllAddress` returns while the seed with the number is current. -/
def listOf (this : SeedWallet) (k : ℕ) : List Address := ({ this with seedsIndex := k } : SeedWallet).getAllAddress

/-- The addresses of all seeds. -/
def own (keys : Keys) (rt : Runtime) (password : Bytes) (this : SeedWallet) : List Address :=
  this.seeds.zipIdx.flatMap fun one => addresses keys rt password one.2 one.1.data one.1.addrIndex

/-- The cipher takes the password, and every stored address is one that the password leads to from its seed. -/
def Correct (keys : Keys) (rt : Runtime) (password : Bytes) (this : SeedWallet) : Prop :=
  keys.Accepts password ∧ ∀ one ∈ this.addressFile, one ∈ this.own keys rt password

/-- The key is the private one of the address. -/
def Belongs (keys : Keys) (key : Bytes) (one : Address) : Prop := ∃ rand, keys.newKeyPair rand = some (key, one.pubkey)

/-- A lookup of the key of one address: the current seed and the lists in memory stay, and a correct password gives the
key of the address with the text, if there is one. -/
structure PureLookup (keys : Keys) (rt : Runtime) (this : SeedWallet) (address : String) (password : Bytes) : Prop where
  seedsIndex : (this.getPriKey keys rt address password).1.seedsIndex = this.seedsIndex
  lists : ∀ k, (this.getPriKey keys rt address password).1.listOf k = this.listOf k
  found : Correct keys rt password this →
    ((∃ key, (this.getPriKey keys rt address password).2 = some (.ok (some key))) ↔
      ∃ one ∈ this.own keys rt password, keys.b58String one.hash = address)
  key : Correct keys rt password this →
    ∀ key, (this.getPriKey keys rt address password).2 = some (.ok (some key)) →
      ∃ one ∈ this.own keys rt password, keys.b58String one.hash = address ∧ Belongs keys key one

/-- The seed with the number is the first one that has addresses. -/
def FirstUsed (this : SeedWallet) (k : ℕ) (row : Seed) : Prop :=
  this.seeds[k]? = some row ∧ 0 < row.addrIndex ∧ ∀ j < k, ∀ other, this.seeds[j]? = some other → other.addrIndex = 0

theorem FirstUsed.unique {k k' : ℕ} {row row' : Seed} (first : this.FirstUsed k row) (first' : this.FirstUsed k' row') :
    k = k' ∧ row = row' := by
  obtain ⟨present, used, before⟩ := first
  obtain ⟨present', used', before'⟩ := first'
  have same : k = k' := by
    rcases Nat.lt_trichotomy k k' with less | same | more
    · exact absurd (before' k less row present) used.ne'
    · exact same
    · exact absurd (before k' more row' present') used'.ne'
  subst same
  exact ⟨rfl, Option.some.inj (present.symm.trans present')⟩

/-- No seed has an address, and the last one is current; or the cipher does not take the password for the key of the
first address, whose seed is current. -/
def Idle (keys : Keys) (password : Bytes) (this : SeedWallet) : Prop :=
  (∀ row ∈ this.seeds, row.addrIndex = 0) ∧ (this.seeds = [] ∨ this.seedsIndex + 1 = this.seeds.length) ∨
    ∃ row, this.FirstUsed this.seedsIndex row ∧
      keys.encrypt (((pairAt keys password row.data 0 {}).map Prod.fst).getD []) password = none

/-! ## The lists grow -/

/-- Entering an address under a number makes its list longer, and no other. -/
theorem listOf_syncAddrMap (key k : ℕ) (addr : Address) :
    ({ this with addrList := syncAddrMap this.addrList key addr } : SeedWallet).listOf k =
      this.listOf k ++ if key = k then [addr] else [] := by
  simp only [listOf, getAllAddress, syncAddrMap]
  have missing {addrs : AddrMap} (none : addrs.find? (fun one => one.1 = k) = none) : k ∉ addrs.map Prod.fst := by
    intro listed
    obtain ⟨one, member, same⟩ := List.mem_map.mp listed
    exact List.find?_eq_none.mp none one member (decide_eq_true same)
  split
  · next listed =>
    rw [List.find?_map]
    have keys : ((fun one : ℕ × List Address => decide (one.1 = k)) ∘ fun one : ℕ × List Address =>
        if one.1 = key then (key, one.2 ++ [addr]) else one) = fun one => decide (one.1 = k) := by
      funext one
      rw [Function.comp_apply]
      split
      · next same => rw [same]
      · rfl
    rw [keys]
    cases shown : this.addrList.find? fun one => decide (one.1 = k) with
    | none =>
      have other : key ≠ k := fun same => missing shown (same ▸ listed)
      rw [if_neg other]
      rfl
    | some one =>
      have named : one.1 = k := by simpa using List.find?_some shown
      subst named
      by_cases same : one.1 = key
      · simp [same]
      · simp [same, Ne.symm same]
  · next unlisted =>
    rw [List.find?_append]
    by_cases same : key = k
    · subst same
      have none : this.addrList.find? (fun one => decide (one.1 = key)) = none := by
        refine List.find?_eq_none.mpr fun one member named => unlisted ?_
        exact List.mem_map.mpr ⟨one, member, decide_eq_true_iff.mp named⟩
      simp [none]
    · simp [same]

/-- Every list is as long as before, or longer. -/
def Grown (before after : SeedWallet) : Prop := ∀ k, (before.listOf k).length ≤ (after.listOf k).length

theorem Grown.refl (this : SeedWallet) : Grown this this := fun _ => le_rfl

theorem Grown.trans {first second third : SeedWallet} (grown : Grown first second) (grown' : Grown second third) :
    Grown first third :=
  fun k => (grown k).trans (grown' k)

/-- Making an address keeps the seeds and the current one, and every list. -/
theorem getAddress_grown {row : Seed} (current : this.seeds[this.seedsIndex]? = some row) (rt : Runtime) (index : ℕ)
    (chain : KeyChain) :
    Grown this (this.getAddress keys rt index password chain).1 ∧
      (this.getAddress keys rt index password chain).1.seeds = this.seeds ∧
      (this.getAddress keys rt index password chain).1.seedsIndex = this.seedsIndex := by
  cases encrypted : keys.encrypt (((pairAt keys password row.data index chain).map Prod.fst).getD []) password with
  | none =>
    rw [getAddress_unmade current rt encrypted]
    exact ⟨fun _ => le_rfl, rfl, rfl⟩
  | some priKey =>
    rw [getAddress_made current rt encrypted]
    refine ⟨fun k => ?_, rfl, rfl⟩
    have longer := congrArg List.length (@listOf_syncAddrMap this this.seedsIndex k
      (addressAt keys rt password this.seedsIndex row.data index chain))
    rw [List.length_append] at longer
    exact Nat.le_of_add_right_le longer.ge

/-- So does the search through one seed. -/
theorem searchAddresses_grown {row : Seed} (current : this.seeds[this.seedsIndex]? = some row) (rt : Runtime)
    (indices : List ℕ) (chain : KeyChain) (prikey : Option (Option Bytes)) :
    Grown this (searchAddresses keys rt address password indices this chain prikey).1 ∧
      (searchAddresses keys rt address password indices this chain prikey).1.seeds = this.seeds ∧
      (searchAddresses keys rt address password indices this chain prikey).1.seedsIndex = this.seedsIndex := by
  induction indices generalizing this chain prikey with
  | nil => exact ⟨Grown.refl this, rfl, rfl⟩
  | cons i rest ih =>
    obtain ⟨grown, seeds, index⟩ := @getAddress_grown keys password this row current rt i chain
    rw [searchAddresses]
    generalize this.getAddress keys rt i password chain = made at grown seeds index ⊢
    obtain ⟨after, addr, chain'⟩ := made
    dsimp only at grown seeds index ⊢
    split
    · exact ⟨grown, seeds, index⟩
    · exact ⟨grown, seeds, index⟩
    · split
      · exact ⟨grown, seeds, index⟩
      · obtain ⟨grown', seeds', index'⟩ := @ih after (by rw [seeds, index]; exact current) chain' _
        exact ⟨grown.trans grown', seeds'.trans seeds, index'.trans index⟩

/-- The search through several ends at one of them. -/
theorem searchSeeds_grown (rt : Runtime) {rest : List (Seed × ℕ)}
    (numbered : ∀ one ∈ rest, this.seeds[one.2]? = some one.1) (prikey : Option (Option Bytes)) :
    Grown this (searchSeeds keys rt address password rest this prikey).1 ∧
      (searchSeeds keys rt address password rest this prikey).1.seeds = this.seeds ∧
      ((searchSeeds keys rt address password rest this prikey).1.seedsIndex = this.seedsIndex ∨
        (searchSeeds keys rt address password rest this prikey).1.seedsIndex ∈ rest.map Prod.snd) := by
  induction rest generalizing this prikey with
  | nil => cases prikey <;> exact ⟨Grown.refl this, rfl, .inl rfl⟩
  | cons one rest ih =>
    obtain ⟨v, k⟩ := one
    obtain ⟨current, numbered⟩ := List.forall_mem_cons.mp numbered
    obtain ⟨grown, seeds, index⟩ := @searchAddresses_grown keys password { this with seedsIndex := k } address v current
      rt (List.range v.addrIndex) {} prikey
    rw [searchSeeds, List.map_cons]
    generalize searchAddresses keys rt address password (List.range v.addrIndex) { this with seedsIndex := k } {}
      prikey = done at grown seeds index
    obtain ⟨after, result⟩ := done
    have before : Grown this after := grown
    have here : after.seedsIndex ∈ k :: rest.map Prod.snd := index ▸ List.mem_cons_self
    rcases result with _ | _ | prikey'
    · exact ⟨before, seeds, .inr here⟩
    · exact ⟨before, seeds, .inr here⟩
    · obtain ⟨grown', seeds', index'⟩ := ih (by rwa [seeds]) prikey'
      refine ⟨before.trans grown', seeds'.trans seeds, .inr ?_⟩
      rcases index' with same | later
      · exact same ▸ here
      · exact List.mem_cons_of_mem _ later

/-- The first address of a seed cannot be encrypted, or a list becomes longer. -/
theorem searchAddresses_first {row : Seed} (current : this.seeds[this.seedsIndex]? = some row) (rt : Runtime)
    (positive : 0 < row.addrIndex) (prikey : Option (Option Bytes)) :
    keys.encrypt (((pairAt keys password row.data 0 {}).map Prod.fst).getD []) password = none ∧
        (∃ privateKey, searchAddresses keys rt address password (List.range row.addrIndex) this {} prikey =
          ({ this with privateKey }, none)) ∨
      keys.encrypt (((pairAt keys password row.data 0 {}).map Prod.fst).getD []) password ≠ none ∧
        (this.listOf this.seedsIndex).length <
          ((searchAddresses keys rt address password (List.range row.addrIndex) this {} prikey).1.listOf
            this.seedsIndex).length := by
  obtain ⟨n, count⟩ := Nat.exists_eq_succ_of_ne_zero positive.ne'
  rw [count, List.range_succ_eq_map, searchAddresses]
  cases encrypted : keys.encrypt (((pairAt keys password row.data 0 {}).map Prod.fst).getD []) password with
  | none =>
    refine .inl ⟨rfl, keyLeft keys password row.data 0 {} this.privateKey, ?_⟩
    rw [getAddress_unmade current rt encrypted]
    dsimp only
    rw [if_pos rfl, checkPass]
    cases this.addressFile with
    | nil => rfl
    | cons first rest => rfl
  | some priKey =>
    refine .inr ⟨Option.some_ne_none _, ?_⟩
    have longer := congrArg List.length (@listOf_syncAddrMap this this.seedsIndex this.seedsIndex
      (addressAt keys rt password this.seedsIndex row.data 0 {}))
    rw [if_pos rfl, List.length_append, List.length_singleton] at longer
    rw [getAddress_made current rt encrypted]
    dsimp only
    rw [if_pos rfl]
    generalize checkPass _ _ = checked
    rcases checked with _ | _ | _
    · exact Nat.lt_of_succ_le longer.ge
    · exact Nat.lt_of_succ_le longer.ge
    · refine (Nat.lt_of_succ_le longer.ge).trans_le ?_
      exact (@searchAddresses_grown keys password { this with
        privateKey := keyLeft keys password row.data 0 {} this.privateKey
        addrList := syncAddrMap this.addrList this.seedsIndex
          (addressAt keys rt password this.seedsIndex row.data 0 {}) } address row current rt _ _ _).1 this.seedsIndex

/-- The search passes over seeds without addresses, and at the first other one it makes an address or ends. -/
theorem searchSeeds_cases (rt : Runtime) {rest : List (Seed × ℕ)}
    (numbered : ∀ one ∈ rest, this.seeds[one.2]? = some one.1) :
    (∀ one ∈ rest, one.1.addrIndex = 0) ∧ searchSeeds keys rt address password rest this none =
        ({ this with seedsIndex := (rest.getLast?.map Prod.snd).getD this.seedsIndex },
          some (.error noSuchAddress)) ∨
      ∃ front one back, rest = front ++ one :: back ∧ (∀ other ∈ front, other.1.addrIndex = 0) ∧
        0 < one.1.addrIndex ∧
        (keys.encrypt (((pairAt keys password one.1.data 0 {}).map Prod.fst).getD []) password = none ∧
            (∃ privateKey, searchSeeds keys rt address password rest this none =
              ({ this with privateKey, seedsIndex := one.2 }, none)) ∨
          keys.encrypt (((pairAt keys password one.1.data 0 {}).map Prod.fst).getD []) password ≠ none ∧
            (this.listOf one.2).length <
              ((searchSeeds keys rt address password rest this none).1.listOf one.2).length) := by
  induction rest generalizing this with
  | nil => exact .inl ⟨nofun, rfl⟩
  | cons one rest ih =>
    obtain ⟨v, k⟩ := one
    obtain ⟨current, numbered⟩ := List.forall_mem_cons.mp numbered
    rw [searchSeeds]
    by_cases zero : v.addrIndex = 0
    · rw [zero, List.range_zero, searchAddresses]
      dsimp only
      rcases @ih { this with seedsIndex := k } numbered with ⟨all, done⟩ | ⟨front, one, back, rfl, before, rest⟩
      · refine .inl ⟨List.forall_mem_cons.mpr ⟨zero, all⟩, done.trans ?_⟩
        rw [List.getLast?_cons]
        cases rest.getLast? with
        | none => rfl
        | some last => rfl
      · exact .inr ⟨(v, k) :: front, one, back, rfl, List.forall_mem_cons.mpr ⟨zero, before⟩, rest⟩
    · refine .inr ⟨[], (v, k), rest, rfl, nofun, Nat.pos_of_ne_zero zero, ?_⟩
      have positive : 0 < v.addrIndex := Nat.pos_of_ne_zero zero
      rcases @searchAddresses_first keys password { this with seedsIndex := k } address v current rt positive none with
        ⟨refused, privateKey, done⟩ | ⟨encrypted, longer⟩
      · refine .inl ⟨refused, privateKey, ?_⟩
        rw [done]
      · refine .inr ⟨encrypted, ?_⟩
        obtain ⟨-, seeds, -⟩ := @searchAddresses_grown keys password { this with seedsIndex := k } address v current rt
          (List.range v.addrIndex) {} .none
        generalize searchAddresses keys rt address password (List.range v.addrIndex) { this with seedsIndex := k } {}
          .none = done at longer seeds
        obtain ⟨after, result⟩ := done
        rcases result with _ | _ | prikey
        · exact longer
        · exact longer
        · exact longer.trans_le ((searchSeeds_grown rt (by rwa [seeds]) prikey).1 k)

theorem firstUsed_of_split {front back : List (Seed × ℕ)} {one : Seed × ℕ}
    (split : this.seeds.zipIdx = front ++ one :: back) (before : ∀ other ∈ front, other.1.addrIndex = 0)
    (used : 0 < one.1.addrIndex) : this.FirstUsed one.2 one.1 := by
  have place (j : ℕ) : (front ++ one :: back)[j]? = this.seeds[j]?.map fun seed => (seed, j) := by
    rw [← split, List.getElem?_zipIdx]
    simp
  have here := place front.length
  rw [List.getElem?_append_right le_rfl, Nat.sub_self, List.getElem?_cons_zero] at here
  obtain ⟨seed, present, same⟩ := Option.map_eq_some_iff.mp here.symm
  rw [← same] at used ⊢
  refine ⟨present, used, fun j less other there => ?_⟩
  have earlier := place j
  rw [there, List.getElem?_append_left less] at earlier
  exact before _ (List.mem_of_getElem? earlier)

theorem own_eq_nil (all : ∀ row ∈ this.seeds, row.addrIndex = 0) : this.own keys rt password = [] := by
  refine List.flatMap_eq_nil_iff.mpr fun one member => ?_
  rw [all one.1 (List.fst_mem_of_mem_zipIdx member)]
  rfl

/-- The search ends at the last seed. -/
theorem last_eq_iff : (this.seeds.zipIdx.getLast?.map Prod.snd).getD this.seedsIndex = this.seedsIndex ↔
    this.seeds = [] ∨ this.seedsIndex + 1 = this.seeds.length := by
  rw [List.getLast?_zipIdx]
  rcases List.eq_nil_or_concat' this.seeds with empty | ⟨front, row, split⟩
  · simp [empty]
  · have some : this.seeds ≠ [] := by simp [split]
    have length : this.seeds.length = front.length + 1 := by simp [split]
    rw [or_iff_right some, length, split, List.getLast?_concat, Nat.zero_add, Nat.add_sub_cancel, add_left_inj, eq_comm]
    rfl

theorem idle_iff_of_unused (none : ∀ row ∈ this.seeds, row.addrIndex = 0) :
    Idle keys password this ↔ this.seeds = [] ∨ this.seedsIndex + 1 = this.seeds.length := by
  constructor
  · rintro (⟨-, current⟩ | ⟨row, ⟨present, used, -⟩, -⟩)
    · exact current
    · exact absurd (none row (List.mem_of_getElem? present)) used.ne'
  · exact fun current => .inl ⟨none, current⟩

theorem idle_iff_of_firstUsed {k : ℕ} {row : Seed} (first : this.FirstUsed k row) :
    Idle keys password this ↔ k = this.seedsIndex ∧
      keys.encrypt (((pairAt keys password row.data 0 {}).map Prod.fst).getD []) password = none := by
  constructor
  · rintro (⟨none, -⟩ | ⟨other, first', refused⟩)
    · exact absurd (none row (List.mem_of_getElem? first.1)) first.2.1.ne'
    · obtain ⟨same, rfl⟩ := first.unique first'
      exact ⟨same, refused⟩
  · rintro ⟨rfl, refused⟩
    exact .inr ⟨row, first, refused⟩

/-- A search that enters nothing and finds nothing is a lookup if it ends where it began. -/
theorem pureLookup_iff_of_missed {k : ℕ} {privateKey : Option Bytes}
    {outcome : Option (Except String (Option Bytes))}
    (result : this.getPriKey keys rt address password = ({ this with privateKey, seedsIndex := k }, outcome))
    (missed : ∀ key, outcome ≠ some (.ok (some key)))
    (unowned : Correct keys rt password this → this.own keys rt password = []) :
    PureLookup keys rt this address password ↔ k = this.seedsIndex := by
  constructor
  · intro pure
    have kept := pure.seedsIndex
    rwa [result] at kept
  · rintro rfl
    constructor
    · rw [result]
    · rw [result]
      exact fun k => rfl
    · intro correct
      rw [result, unowned correct]
      refine iff_of_false ?_ ?_
      · rintro ⟨key, found⟩
        exact missed key found
      · rintro ⟨one, member, -⟩
        cases member
    · rw [result]
      exact fun _ key found => absurd found (missed key)

/-- Looking for a private key is a lookup exactly where it makes no address and ends where it began. -/
theorem getPriKey_pure_iff (keys : Keys) (rt : Runtime) (this : SeedWallet) (address : String) (password : Bytes) :
    PureLookup keys rt this address password ↔ Idle keys password this := by
  rcases @searchSeeds_cases keys password this address rt this.seeds.zipIdx
    (fun one member => List.mem_zipIdx_iff_getElem?.mp member) with
    ⟨all, done⟩ | ⟨front, one, back, split, before, used, outcome⟩
  · have none : ∀ row ∈ this.seeds, row.addrIndex = 0 := by
      intro row member
      obtain ⟨k, present⟩ := List.mem_iff_getElem?.mp member
      exact all (row, k) (List.mem_zipIdx_iff_getElem?.mpr present)
    rw [pureLookup_iff_of_missed done nofun fun _ => own_eq_nil none, last_eq_iff, idle_iff_of_unused none]
  · have first := firstUsed_of_split split before used
    rw [idle_iff_of_firstUsed first]
    rcases outcome with ⟨refused, privateKey, done⟩ | ⟨encrypted, longer⟩
    · have wrong : ¬ Correct keys rt password this := by
        rintro ⟨accepts, -⟩
        obtain ⟨priKey, taken⟩ := accepts (((pairAt keys password one.1.data 0 {}).map Prod.fst).getD [])
        rw [refused] at taken
        cases taken
      rw [pureLookup_iff_of_missed done nofun fun correct => absurd correct wrong, and_iff_left refused]
    · refine iff_of_false (fun pure => ?_) fun idle => encrypted idle.2
      have same := pure.lists one.2
      rw [getPriKey] at same
      rw [same] at longer
      exact lt_irrefl _ longer

/-! ## Looking for a key of a wallet with two seeds -/

/-- The cipher from before, with the bytes of an address as its text. -/
def textKeys : Keys :=
  { shiftKeys with b58String := fun hash => String.ofList (hash.map fun byte => Char.ofNat byte.toNat) }

/-- A wallet with one address and a second seed, the first one current. -/
def twoSeeds : SeedWallet := ((oneStored.setSeed { data := [7] }).setSeedIndex 0 inOrder).1

/-- The empty text is found, though it is no address; the address is entered again, and the second seed is current. -/
theorem getPriKey_moves : Correct textKeys plainHashes [1] twoSeeds ∧
    (∃ key, (twoSeeds.getPriKey textKeys plainHashes "" [1]).2 = some (.ok (some key))) ∧
    (∀ one ∈ twoSeeds.own textKeys plainHashes [1], textKeys.b58String one.hash ≠ "") ∧
    (twoSeeds.getPriKey textKeys plainHashes "" [1]).1.seedsIndex ≠ twoSeeds.seedsIndex ∧
    ¬ PureLookup textKeys plainHashes twoSeeds "" [1] := by
  refine ⟨⟨fun text => ⟨_, rfl⟩, by decide⟩, ⟨_, rfl⟩, by decide, by decide, fun pure => ?_⟩
  exact absurd pure.seedsIndex (by decide)

end PolarCloud.Keystore.SeedWallet
