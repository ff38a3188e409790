import PolarCloud.Base.Replay
import PolarCloud.Model.Keystore.Seeds

/-! # Addresses that stay in the file

The addresses of a seed are determined by its data, and every operation writes either all of them or the
lists in memory. What was returned stays in the file exactly when each of these writes covers it, and no
password is refused exactly when the seed in use leads to the first address of the file.
-/

namespace PolarCloud.Keystore

/-- The cipher takes the password for every text. -/
def Keys.Accepts (keys : Keys) (password : Bytes) : Prop := ∀ text, ∃ priKey, keys.encrypt text password = some priKey

/-! ## The addresses of a seed -/

section Derived

variable (keys : Keys) (rt : Runtime) (password : Bytes) (k : ℕ) (data : Bytes)

/-- The chain that an address is made from. -/
def chainBefore (chain : KeyChain) : KeyChain :=
  if chain.prePubKey = [] then (firstGenerateSeed keys data password chain).2 else chain

/-- The key pair of the address with an index. -/
def pairAt (index : ℕ) (chain : KeyChain) : Option (Bytes × Bytes) :=
  keys.newKeyPair (generateSeed keys index (chainBefore keys password data chain))

/-- The address with an index, under the number `k` of its seed. -/
def addressAt (index : ℕ) (chain : KeyChain) : Address :=
  let pair := pairAt keys password data index chain
  let pub := (pair.map Prod.snd).getD []
  { seedIndex := k, index := Int64.ofNat index, priKey := (keys.encrypt ((pair.map Prod.fst).getD []) password).getD [],
    pubkey := pub, hash := (buildAddrByPubkey rt pub).getD [] }

def chainAfter (index : ℕ) (chain : KeyChain) : KeyChain :=
  { chainBefore keys password data chain with
    prePubKey := ((pairAt keys password data index chain).map Prod.snd).getD [] }

/-- The addresses with the given indices. -/
def derive : List ℕ → KeyChain → List Address
  | [], _ => []
  | i :: rest, chain => addressAt keys rt password k data i chain :: derive rest (chainAfter keys password data i chain)

/-- The first `n` addresses of a seed. -/
def addresses (n : ℕ) : List Address := derive keys rt password k data (List.range n) {}

/-- The first address that the password leads to. -/
def firstHash : Bytes := (addressAt keys rt password 0 data 0 {}).hash

theorem addresses_succ (n : ℕ) : addresses keys rt password k data (n + 1) =
    addressAt keys rt password k data 0 {} ::
      derive keys rt password k data ((List.range n).map (· + 1)) (chainAfter keys password data 0 {}) := by
  rw [addresses, List.range_succ_eq_map]
  rfl

/-- The chain behind several addresses. -/
def chainThrough (indices : List ℕ) (chain : KeyChain) : KeyChain :=
  indices.foldl (fun chain i => chainAfter keys password data i chain) chain

theorem derive_append (indices more : List ℕ) (chain : KeyChain) :
    derive keys rt password k data (indices ++ more) chain =
      derive keys rt password k data indices chain ++
        derive keys rt password k data more (chainThrough keys password data indices chain) := by
  induction indices generalizing chain with
  | nil => rfl
  | cons i rest ih => exact congrArg _ (ih _)

/-- One more address stands behind the ones before. -/
theorem addresses_concat (n : ℕ) : addresses keys rt password k data (n + 1) =
    addresses keys rt password k data n ++
      [addressAt keys rt password k data n (chainThrough keys password data (List.range n) {})] := by
  rw [addresses, List.range_succ, derive_append]
  rfl

/-- Every address carries its index and the number of its seed. -/
theorem map_index_addresses (n : ℕ) :
    (addresses keys rt password k data n).map Address.index = (List.range n).map Int64.ofNat := by
  induction n with
  | zero => rfl
  | succ n ih => rw [addresses_concat, List.map_append, ih, List.range_succ, List.map_append]; rfl

theorem seedIndex_of_mem_addresses {n : ℕ} {addr : Address}
    (member : addr ∈ addresses keys rt password k data n) : addr.seedIndex = k := by
  induction n with
  | zero => cases member
  | succ n ih =>
    rw [addresses_concat, List.mem_append, List.mem_singleton] at member
    rcases member with earlier | rfl
    · exact ih earlier
    · rfl

theorem length_addresses (n : ℕ) : (addresses keys rt password k data n).length = n := by
  have indices := congrArg List.length (map_index_addresses keys rt password k data n)
  rwa [List.length_map, List.length_map, List.length_range] at indices

/-- Making one more address keeps the ones before. -/
theorem prefix_addresses (n : ℕ) :
    addresses keys rt password k data n <+: addresses keys rt password k data (n + 1) :=
  ⟨_, (addresses_concat keys rt password k data n).symm⟩

variable {keys k data} {rt password} in
theorem pubkey_of_mem_addresses
    (pairs : ∀ index chain, ∃ pair, keys.newKeyPair (generateSeed keys index chain) = some pair ∧ pair.2 ≠ []) {n : ℕ}
    {addr : Address} (member : addr ∈ addresses keys rt password k data n) : addr.pubkey ≠ [] := by
  rw [addresses] at member
  generalize List.range n = indices at member
  generalize ({} : KeyChain) = chain at member
  induction indices generalizing chain with
  | nil => cases member
  | cons i rest ih =>
    rcases List.mem_cons.mp member with rfl | later
    · obtain ⟨pair, made, present⟩ := pairs i (chainBefore keys password data chain)
      rw [addressAt, pairAt, made]
      exact present
    · exact ih _ later

end Derived

/-! ## The lists in memory -/

/-- All addresses in memory. -/
def AddrMap.all (addrs : AddrMap) : List Address := addrs.flatMap Prod.snd

/-- Entering addresses one after the other under one number. -/
def AddrMap.syncAll (addrs : AddrMap) (key : ℕ) (own : List Address) : AddrMap :=
  own.foldl (fun addrs addr => syncAddrMap addrs key addr) addrs

theorem syncAll_single (key : ℕ) (before own : List Address) :
    AddrMap.syncAll [(key, before)] key own = [(key, before ++ own)] := by
  induction own generalizing before with
  | nil => rw [List.append_nil]; rfl
  | cons addr own ih =>
    have first : syncAddrMap [(key, before)] key addr = [(key, before ++ [addr])] := by simp [syncAddrMap]
    rw [AddrMap.syncAll, List.foldl_cons, first]
    exact (ih _).trans (by rw [List.append_assoc]; rfl)

namespace SeedWallet

variable {keys : Keys} {rt : Runtime} {password : Bytes} {this : SeedWallet} {chain : KeyChain}

/-! ## One address, and several -/

/-- The private key that making an address leaves behind: its own, or that of the seed, or the one before. -/
def keyLeft (keys : Keys) (password data : Bytes) (index : ℕ) (chain : KeyChain) (before : Option Bytes) :
    Option Bytes :=
  ((pairAt keys password data index chain).map Prod.fst).or
    ((if chain.prePubKey = [] then (firstGenerateSeed keys data password chain).1 else none).or before)

/-- An address whose key can be encrypted is entered in memory. -/
theorem getAddress_made {row : Seed} (own : this.seeds[this.seedsIndex]? = some row) (rt : Runtime) {index : ℕ}
    {chain : KeyChain} {priKey : Bytes} (encrypted : keys.encrypt
      (((pairAt keys password row.data index chain).map Prod.fst).getD []) password = some priKey) :
    this.getAddress keys rt index password chain =
      ({ this with
          privateKey := keyLeft keys password row.data index chain this.privateKey
          addrList := syncAddrMap this.addrList this.seedsIndex
            (addressAt keys rt password this.seedsIndex row.data index chain) },
        some (addressAt keys rt password this.seedsIndex row.data index chain),
        chainAfter keys password row.data index chain) := by
  by_cases fresh : chain.prePubKey = []
  · simp only [pairAt, chainBefore, if_pos fresh] at encrypted
    simp only [getAddress, own, Option.map_some, Option.getD_some, if_pos fresh, encrypted, addressAt, chainAfter,
      keyLeft, pairAt, chainBefore]
  · simp only [pairAt, chainBefore, if_neg fresh] at encrypted
    simp only [getAddress, own, Option.map_some, Option.getD_some, if_neg fresh, encrypted, addressAt, chainAfter,
      keyLeft, pairAt, chainBefore]

/-- Otherwise there is none, and nothing but the private key changes. -/
theorem getAddress_unmade {row : Seed} (own : this.seeds[this.seedsIndex]? = some row) (rt : Runtime) {index : ℕ}
    {chain : KeyChain} (refused : keys.encrypt
      (((pairAt keys password row.data index chain).map Prod.fst).getD []) password = none) :
    this.getAddress keys rt index password chain =
      ({ this with privateKey := keyLeft keys password row.data index chain this.privateKey }, none,
        chainAfter keys password row.data index chain) := by
  by_cases fresh : chain.prePubKey = []
  · simp only [pairAt, chainBefore, if_pos fresh] at refused
    simp only [getAddress, own, Option.map_some, Option.getD_some, if_pos fresh, refused, chainAfter, keyLeft, pairAt,
      chainBefore]
  · simp only [pairAt, chainBefore, if_neg fresh] at refused
    simp only [getAddress, own, Option.map_some, Option.getD_some, if_neg fresh, refused, chainAfter, keyLeft, pairAt,
      chainBefore]

theorem getAddress_eq (accepts : keys.Accepts password) {row : Seed} (own : this.seeds[this.seedsIndex]? = some row)
    (rt : Runtime) (index : ℕ) (chain : KeyChain) : ∃ privateKey, this.getAddress keys rt index password chain =
      ({ this with
          privateKey
          addrList := syncAddrMap this.addrList this.seedsIndex
            (addressAt keys rt password this.seedsIndex row.data index chain) },
        some (addressAt keys rt password this.seedsIndex row.data index chain),
        chainAfter keys password row.data index chain) := by
  obtain ⟨priKey, encrypted⟩ := accepts (((pairAt keys password row.data index chain).map Prod.fst).getD [])
  exact ⟨_, getAddress_made own rt encrypted⟩

theorem getAddresses_eq (accepts : keys.Accepts password) {row : Seed} (own : this.seeds[this.seedsIndex]? = some row)
    (rt : Runtime) (indices : List ℕ) (chain : KeyChain) (last : Address) :
    ∃ privateKey chain', getAddresses keys rt password indices (this, some last, chain) =
      ({ this with
          privateKey
          addrList := this.addrList.syncAll this.seedsIndex
            (derive keys rt password this.seedsIndex row.data indices chain) },
        (last :: derive keys rt password this.seedsIndex row.data indices chain).getLast?, chain') := by
  induction indices generalizing this last chain with
  | nil => exact ⟨this.privateKey, chain, rfl⟩
  | cons i rest ih =>
    obtain ⟨privateKey, made⟩ := getAddress_eq accepts own rt i chain
    rw [getAddresses, List.foldl_cons, made, derive, List.getLast?_cons_cons]
    exact @ih { this with privateKey, addrList := _ } own _ _

/-- The seed's first address, made in a wallet whose lists were forgotten. -/
theorem getAddress_first (accepts : keys.Accepts password) {row : Seed} (own : this.seeds[this.seedsIndex]? = some row)
    (rt : Runtime) : ∃ privateKey, ({ this with addrList := [] } : SeedWallet).getAddress keys rt 0 password {} =
      ({ this with
          privateKey
          addrList := [(this.seedsIndex, [addressAt keys rt password this.seedsIndex row.data 0 {}])] },
        some (addressAt keys rt password this.seedsIndex row.data 0 {}), chainAfter keys password row.data 0 {}) :=
  @getAddress_eq _ _ { this with addrList := [] } accepts _ own rt 0 {}

/-! ## The password -/

/-- The first address that the password leads to from a seed is the first one of the file, if there is one. -/
def Matches (keys : Keys) (rt : Runtime) (password : Bytes) (this : SeedWallet) (row : Seed) : Prop :=
  ∀ first, this.addressFile.head? = some first → first.hash = firstHash keys rt password row.data

theorem checkPass_first (keys : Keys) (rt : Runtime) (password : Bytes) (this : SeedWallet) (row : Seed) (k : ℕ) :
    (this.Matches keys rt password row ∧ this.checkPass (some (addressAt keys rt password k row.data 0 {})) =
      some (.ok ())) ∨
      (¬ this.Matches keys rt password row ∧
        this.checkPass (some (addressAt keys rt password k row.data 0 {})) = some (.error passwordIsWrong)) := by
  rw [Matches, checkPass]
  cases this.addressFile with
  | nil => exact .inl ⟨fun first present => (nomatch present), rfl⟩
  | cons first rest =>
    by_cases same : first.hash = firstHash keys rt password row.data
    · exact .inl ⟨fun other head => by cases head; exact same, if_pos same⟩
    · exact .inr ⟨fun all => same (all first rfl), if_neg same⟩

/-! ## Writing the file -/

/-- The addresses that a save writes now. -/
def saved (this : SeedWallet) (range : Range) : List Address := (range.visit this.addrList).flatMap Prod.snd

theorem mem_saved {range : Range} {addr : Address} : addr ∈ this.saved range ↔ addr ∈ this.addrList.all :=
  ((range.perm this.addrList).flatMap_right Prod.snd).mem_iff

theorem saved_single {k : ℕ} {own : List Address} (only : this.addrList = [(k, own)]) (range : Range) :
    this.saved range = own := by
  have same := range.perm this.addrList
  rw [only, List.perm_singleton] at same
  rw [saved, only, same, List.flatMap_singleton]

/-- The coinbase of the current seed is set, and the files are written. -/
def coined (this : SeedWallet) (v : Address) (range : Range) : SeedWallet :=
  ({ this with
    seeds := this.seeds.modify this.seedsIndex fun row => { row with coinbase := v } } : SeedWallet).save range

theorem coined_coined (first second : Address) (range : Range) :
    (this.coined first range).coined second range = this.coined second range := by
  have same : (this.seeds.modify this.seedsIndex fun row => { row with coinbase := first }).modify this.seedsIndex
      (fun row => { row with coinbase := second }) =
        this.seeds.modify this.seedsIndex fun row => { row with coinbase := second } := by
    rw [List.modify_modify_eq]
    rfl
  simp only [coined, save, same]

private theorem modify_set {α : Type} (rows : List α) (i : ℕ) (row : α) (change : α → α) :
    (rows.set i row).modify i change = rows.set i (change row) := by
  apply List.ext_getElem?
  intro j
  rw [List.getElem?_modify, List.getElem?_set, List.getElem?_set]
  split
  · split
    · rfl
    · rfl
  · rw [Option.map_eq_map, Option.map_id']

/-- Without an address of the index nothing happens, and otherwise one of them becomes the coinbase. -/
theorem setCoinbase_eq (index : Int64) (range : Range) :
    (∀ v ∈ this.addressFile, v.index ≠ index) ∧ this.setCoinbase index range = this ∨
      ∃ v ∈ this.addressFile, v.index = index ∧ this.setCoinbase index range = this.coined v range := by
  suffices general : ∀ (entries : List Address) (now : SeedWallet),
      (∀ v ∈ entries, v.index ≠ index) ∧
          entries.foldl (fun this v => if v.index = index then this.coined v range else this) now = now ∨
        ∃ v ∈ entries, v.index = index ∧
          entries.foldl (fun this v => if v.index = index then this.coined v range else this) now =
            now.coined v range from
    general this.addressFile this
  intro entries
  induction entries with
  | nil => exact fun now => .inl ⟨nofun, rfl⟩
  | cons v rest ih =>
    intro now
    rw [List.foldl_cons]
    by_cases named : v.index = index
    · rw [if_pos named]
      rcases ih (now.coined v range) with ⟨-, done⟩ | ⟨later, member, named', done⟩
      · exact .inr ⟨v, List.mem_cons_self, named, done⟩
      · exact .inr ⟨later, List.mem_cons_of_mem _ member, named', done.trans (coined_coined v later range)⟩
    · rw [if_neg named]
      rcases ih now with ⟨others, done⟩ | ⟨later, member, named', done⟩
      · exact .inl ⟨List.forall_mem_cons.mpr ⟨named, others⟩, done⟩
      · exact .inr ⟨later, List.mem_cons_of_mem _ member, named', done⟩

/-! ## The operations -/

theorem setSeedIndex_file (index : ℕ) (range : Range) : (this.setSeedIndex index range).1.addressFile =
    if this.seedsIndex ≤ this.seeds.length ∧ (∃ seed, this.seeds[index]? = some seed ∧ seed.coinbase.pubkey = []) ∧
        ∃ v ∈ this.addressFile, v.index = 0 then this.saved range else this.addressFile := by
  rw [setSeedIndex]
  split
  · next none =>
    rw [if_neg]
    rintro ⟨inside, ⟨seed, present, -⟩, -⟩
    rcases none with none | outside
    · rw [none] at present
      cases present
    · omega
  · next some =>
    have inside : this.seedsIndex ≤ this.seeds.length := by
      by_contra outside
      exact some (.inr (by omega))
    dsimp only
    cases present : this.seeds[index]? with
    | none => simp
    | some seed =>
      dsimp only
      by_cases unset : seed.coinbase.pubkey = []
      · rw [if_pos unset]
        rcases @setCoinbase_eq { this with seedsIndex := index } 0 range with ⟨others, done⟩ | ⟨v, member, named, done⟩
        · rw [done, if_neg]
          rintro ⟨-, -, v, member, named⟩
          exact others v member named
        · rw [done, if_pos ⟨inside, ⟨seed, rfl, unset⟩, v, member, named⟩]
          rfl
      · rw [if_neg unset]
        simp [unset]

theorem setSeedIndex_refused (index : ℕ) (range : Range) :
    Usage.isRefused (this.setSeedIndex index range).2 = false := by
  rw [setSeedIndex]
  split
  · rfl
  · dsimp only
    cases this.seeds[index]? with
    | none => rfl
    | some seed => rfl

/-- With the right password all addresses of the seed are written and the last of them is returned. -/
theorem getNewAddress_done (accepts : keys.Accepts password) {row : Seed}
    (own : this.seeds[this.seedsIndex]? = some row)
    (matches_ : this.Matches keys rt password row) (range : Range) :
    ∃ after last, this.getNewAddress keys rt password range = (after, some (.ok (some last))) ∧
      (addresses keys rt password this.seedsIndex row.data (row.addrIndex + 1)).getLast? = some last ∧
      after.addressFile = addresses keys rt password this.seedsIndex row.data (row.addrIndex + 1) ∧
      after.addrList = [(this.seedsIndex, addresses keys rt password this.seedsIndex row.data (row.addrIndex + 1))] ∧
      after.seedsIndex = this.seedsIndex ∧ after.seedFile = after.seeds ∧
      ∃ coinbase, after.seeds = this.seeds.set this.seedsIndex { row with addrIndex := row.addrIndex + 1, coinbase } ∧
        (row.coinbase.pubkey ≠ [] ∧ coinbase = row.coinbase ∨
          row.coinbase.pubkey = [] ∧ coinbase ∈ after.addressFile) := by
  obtain ⟨privateKey, made⟩ := getAddress_first accepts own rt
  rcases checkPass_first keys rt password this row this.seedsIndex with ⟨-, right⟩ | ⟨apart, -⟩
  · rw [getNewAddress, own]
    dsimp only
    rw [made]
    dsimp only
    generalize first : addressAt keys rt password this.seedsIndex row.data 0 {} = address at right
    rw [show checkPass { this with privateKey, addrList := [(this.seedsIndex, [address])] } (some address) =
      some (.ok ()) from right]
    obtain ⟨privateKey', chain, all⟩ := @getAddresses_eq _ _
      { this with privateKey, addrList := [(this.seedsIndex, [address])] } accepts row own rt
      ((List.range row.addrIndex).map (· + 1)) (chainAfter keys password row.data 0 {}) address
    dsimp only at all ⊢
    rw [all]
    have whole : addresses keys rt password this.seedsIndex row.data (row.addrIndex + 1) =
        address :: derive keys rt password this.seedsIndex row.data ((List.range row.addrIndex).map (· + 1))
          (chainAfter keys password row.data 0 {}) := by rw [addresses_succ, first]
    rw [syncAll_single, List.singleton_append, ← whole]
    obtain ⟨last, ends⟩ : ∃ last, (addresses keys rt password this.seedsIndex row.data (row.addrIndex + 1)).getLast? =
        some last := by rw [whole]; exact ⟨_, List.getLast?_cons⟩
    rw [ends]
    have named : ∃ v ∈ addresses keys rt password this.seedsIndex row.data (row.addrIndex + 1), v.index = 0 := by
      rw [whole, ← first]
      exact ⟨_, List.mem_cons_self, rfl⟩
    generalize addresses keys rt password this.seedsIndex row.data (row.addrIndex + 1) = made at named
    by_cases unset : row.coinbase.pubkey = []
    · rw [if_pos unset]
      rcases @setCoinbase_eq (save
        { this with
          privateKey := privateKey'
          addrList := [(this.seedsIndex, made)]
          seeds := this.seeds.set this.seedsIndex { row with addrIndex := row.addrIndex + 1 } } range) 0 range with
        ⟨others, -⟩ | ⟨v, member, -, done⟩
      · obtain ⟨v, member, index⟩ := named
        refine absurd index (others v ?_)
        change v ∈ saved _ range
        rwa [saved_single rfl range]
      · refine ⟨_, last, Prod.ext done rfl, rfl, saved_single rfl range, rfl, rfl, rfl, v, ?_, .inr ⟨unset, member⟩⟩
        exact modify_set ..
    · rw [if_neg unset]
      exact ⟨_, last, rfl, rfl, saved_single rfl range, rfl, rfl, rfl, row.coinbase, rfl, .inl ⟨unset, rfl⟩⟩
  · exact absurd matches_ apart

/-- With another one nothing is written. -/
theorem getNewAddress_refused (accepts : keys.Accepts password) {row : Seed}
    (own : this.seeds[this.seedsIndex]? = some row)
    (apart : ¬ this.Matches keys rt password row) (range : Range) :
    ∃ after, this.getNewAddress keys rt password range = (after, some (.error passwordIsWrong)) ∧
      after.addressFile = this.addressFile := by
  obtain ⟨privateKey, made⟩ := getAddress_first accepts own rt
  rcases checkPass_first keys rt password this row this.seedsIndex with ⟨same, -⟩ | ⟨-, wrong⟩
  · exact absurd same apart
  · rw [getNewAddress, own]
    dsimp only
    rw [made]
    dsimp only
    generalize addressAt keys rt password this.seedsIndex row.data 0 {} = address at wrong
    rw [show checkPass { this with privateKey, addrList := [(this.seedsIndex, [address])] } (some address) =
      some (.error passwordIsWrong) from wrong]
    exact ⟨_, rfl, rfl⟩

/-- Later addresses are compared without a look at the password. -/
theorem searchAddresses_later (accepts : keys.Accepts password) {row : Seed}
    (own : this.seeds[this.seedsIndex]? = some row) (rt : Runtime) (address : String) {indices : List ℕ}
    (later : ∀ i ∈ indices, i ≠ 0) (chain : KeyChain) (prikey : Option (Option Bytes)) :
    ∃ after prikey', searchAddresses keys rt address password indices this chain prikey = (after, some (.ok prikey')) ∧
      after.addressFile = this.addressFile ∧ after.seeds = this.seeds ∧ after.seedsIndex = this.seedsIndex := by
  induction indices generalizing this chain prikey with
  | nil => exact ⟨this, prikey, rfl, rfl, rfl, rfl⟩
  | cons i rest ih =>
    obtain ⟨positive, later⟩ := List.forall_mem_cons.mp later
    obtain ⟨privateKey, made⟩ := getAddress_eq accepts own rt i chain
    rw [searchAddresses, made]
    dsimp only
    rw [if_neg positive]
    exact @ih { this with privateKey, addrList := _ } own later _ _

/-- The addresses of one seed: none at all, or the password is checked at the first. -/
theorem searchAddresses_range (accepts : keys.Accepts password) {row : Seed}
    (own : this.seeds[this.seedsIndex]? = some row) (rt : Runtime) (address : String) (prikey : Option (Option Bytes)) :
    ∃ after result, searchAddresses keys rt address password (List.range row.addrIndex) this {} prikey =
        (after, some result) ∧
      (after.addressFile = this.addressFile ∧ after.seeds = this.seeds ∧ after.seedsIndex = this.seedsIndex) ∧
      ((0 < row.addrIndex → this.Matches keys rt password row) ∧ (∃ prikey', result = .ok prikey') ∨
        ¬ (0 < row.addrIndex → this.Matches keys rt password row) ∧ result = .error passwordIsWrong) := by
  cases count : row.addrIndex with
  | zero => exact ⟨this, _, rfl, ⟨rfl, rfl, rfl⟩, .inl ⟨nofun, prikey, rfl⟩⟩
  | succ n =>
    obtain ⟨privateKey, made⟩ := getAddress_eq accepts own rt 0 {}
    rw [List.range_succ_eq_map, searchAddresses, made]
    dsimp only
    rw [if_pos rfl]
    rcases checkPass_first keys rt password this row this.seedsIndex with ⟨same, right⟩ | ⟨apart, wrong⟩
    · generalize addressAt keys rt password this.seedsIndex row.data 0 {} = addr at right
      rw [show checkPass { this with
        privateKey, addrList := syncAddrMap this.addrList this.seedsIndex addr } (some addr) =
        some (.ok ()) from right]
      obtain ⟨after, prikey', done, unwritten⟩ := @searchAddresses_later _ _
        { this with privateKey, addrList := syncAddrMap this.addrList this.seedsIndex addr } accepts row own rt address
        ((List.range n).map Nat.succ) (fun i member => by
          obtain ⟨j, -, rfl⟩ := List.mem_map.mp member
          exact Nat.succ_ne_zero j)
        (chainAfter keys password row.data 0 {})
        (if contains (keys.b58String addr.hash) address then some privateKey else prikey)
      exact ⟨after, _, done, unwritten, .inl ⟨fun _ => same, prikey', rfl⟩⟩
    · generalize addressAt keys rt password this.seedsIndex row.data 0 {} = addr at wrong
      rw [show checkPass { this with
        privateKey, addrList := syncAddrMap this.addrList this.seedsIndex addr } (some addr) =
        some (.error passwordIsWrong) from wrong]
      exact ⟨_, _, rfl, ⟨rfl, rfl, rfl⟩, .inr ⟨fun all => apart (all n.succ_pos), rfl⟩⟩

theorem Matches.congr {other : SeedWallet} (same : other.addressFile = this.addressFile) {row : Seed} :
    other.Matches keys rt password row ↔ this.Matches keys rt password row := by
  rw [Matches, Matches, same]

/-- A search over seeds reports a wrong password when the first addresses of one of them do not match. -/
theorem searchSeeds_eq (accepts : keys.Accepts password) (rt : Runtime) (address : String) {rest : List (Seed × ℕ)}
    (numbered : ∀ one ∈ rest, this.seeds[one.2]? = some one.1) (prikey : Option (Option Bytes)) :
    ∃ after result, searchSeeds keys rt address password rest this prikey = (after, some result) ∧
      (after.addressFile = this.addressFile ∧ after.seeds = this.seeds ∧
        (after.seedsIndex = this.seedsIndex ∨ ∃ one ∈ rest, after.seedsIndex = one.2)) ∧
      (Usage.isRefused (some result) = false ↔
        ∀ one ∈ rest, 0 < one.1.addrIndex → this.Matches keys rt password one.1) := by
  induction rest generalizing this prikey with
  | nil =>
    cases prikey with
    | none => exact ⟨this, _, rfl, ⟨rfl, rfl, .inl rfl⟩, iff_of_true (by decide) nofun⟩
    | some prikey => exact ⟨this, _, rfl, ⟨rfl, rfl, .inl rfl⟩, iff_of_true rfl nofun⟩
  | cons one rest ih =>
    obtain ⟨v, k⟩ := one
    obtain ⟨own, numbered⟩ := List.forall_mem_cons.mp numbered
    obtain ⟨after, result, done, ⟨file, seeds, current⟩, outcome⟩ :=
      @searchAddresses_range _ _ { this with seedsIndex := k } accepts v own rt address prikey
    rw [searchSeeds, done, List.forall_mem_cons]
    rcases outcome with ⟨first, prikey', rfl⟩ | ⟨first, rfl⟩
    · obtain ⟨final, result, ended, ⟨file', seeds', current'⟩, refused⟩ := @ih after (by rwa [seeds]) prikey'
      refine ⟨final, result, ended, ⟨file'.trans file, seeds'.trans seeds, .inr ?_⟩, refused.trans ?_⟩
      · rcases current' with same | ⟨one, member, same⟩
        · exact ⟨(v, k), List.mem_cons_self, same.trans current⟩
        · exact ⟨one, List.mem_cons_of_mem _ member, same⟩
      · simp only [Matches.congr file]
        exact (and_iff_right first).symm
    · exact ⟨after, _, rfl, ⟨file, seeds, .inr ⟨(v, k), List.mem_cons_self, current⟩⟩,
        iff_of_false (by simp [Usage.isRefused]) fun all => first all.1⟩

theorem getPriKey_eq (accepts : keys.Accepts password) (rt : Runtime) (address : String) :
    ∃ after result, this.getPriKey keys rt address password = (after, some result) ∧
      (after.addressFile = this.addressFile ∧ after.seeds = this.seeds ∧
        (after.seedsIndex = this.seedsIndex ∨ after.seedsIndex < this.seeds.length)) ∧
      (Usage.isRefused (some result) = false ↔
        ∀ row ∈ this.seeds, 0 < row.addrIndex → this.Matches keys rt password row) := by
  obtain ⟨after, result, done, ⟨file, seeds, current⟩, refused⟩ := @searchSeeds_eq _ _ this accepts rt address
    this.seeds.zipIdx (fun one member => List.mem_zipIdx_iff_getElem?.mp member) none
  refine ⟨after, result, done, ⟨file, seeds, current.imp_right ?_⟩,
    refused.trans ⟨fun all row member => ?_, fun all one member => ?_⟩⟩
  · rintro ⟨one, member, same⟩
    rw [same]
    exact (List.getElem?_eq_some_iff.mp (List.mem_zipIdx_iff_getElem?.mp member)).1
  · obtain ⟨k, present⟩ := List.mem_iff_getElem?.mp member
    exact all (row, k) (List.mem_zipIdx_iff_getElem?.mpr present)
  · exact all one.1 (List.mem_of_getElem? (List.mem_zipIdx_iff_getElem?.mp member))

end SeedWallet

/-! ## Every sequence of operations -/

namespace Usage

variable {keys : Keys} {rt : Runtime} {password : Bytes}

/-- Every address that was ever returned is in the address file, and the last operation has not reported a wrong
password. -/
def Kept (this : Usage) : Prop :=
  (∀ addr ∈ this.returned, addr.hash ∈ this.wallet.addressFile.map Address.hash) ∧ this.refused = false

/-- An operation that leaves nothing out of the file and finds the password right: a seed that is made current without
a coinbase saves the lists in memory when the file has an address with index 0, so that they must hold every address
that was returned; a new address saves those of its seed, so that they must include all of them, and the file must begin
with the first of them; the search for a private key needs this beginning of every seed that has addresses. -/
def Safe (keys : Keys) (rt : Runtime) (password : Bytes) (this : Usage) (call : Operation × Range) : Prop :=
  match call.1 with
  | .setSeed _ => True
  | .setSeedIndex index =>
      this.wallet.seedsIndex ≤ this.wallet.seeds.length →
        (∃ seed, this.wallet.seeds[index]? = some seed ∧ seed.coinbase.pubkey = []) →
          (∃ v ∈ this.wallet.addressFile, v.index = 0) →
            ∀ addr ∈ this.returned, addr.hash ∈ this.wallet.addrList.all.map Address.hash
  | .getNewAddress =>
      ∀ row, this.wallet.seeds[this.wallet.seedsIndex]? = some row →
        this.wallet.Matches keys rt password row ∧
          ∀ addr ∈ this.returned, addr.hash ∈
            (addresses keys rt password this.wallet.seedsIndex row.data (row.addrIndex + 1)).map Address.hash
  | .getPriKey _ => ∀ row ∈ this.wallet.seeds, 0 < row.addrIndex → this.wallet.Matches keys rt password row

/-- One operation. -/
theorem kept_step_iff (accepts : keys.Accepts password) {this : Usage} (kept : this.Kept) (call : Operation × Range) :
    (this.step keys rt password call).Kept ↔ Safe keys rt password this call := by
  obtain ⟨operation, range⟩ := call
  obtain ⟨inside, -⟩ := kept
  cases operation with
  | setSeed seed => exact iff_of_true ⟨inside, rfl⟩ trivial
  | setSeedIndex index =>
    rw [Kept, step, Safe]
    dsimp only
    rw [SeedWallet.setSeedIndex_refused, SeedWallet.setSeedIndex_file, and_iff_left rfl]
    split
    · next saves =>
      simp only [saves, forall_const, List.mem_map, SeedWallet.mem_saved]
    · next other =>
      exact iff_of_true inside fun low unset first => absurd ⟨low, unset, first⟩ other
  | getNewAddress =>
    rw [Kept, step, Safe]
    dsimp only
    cases own : this.wallet.seeds[this.wallet.seedsIndex]? with
    | none =>
      rw [SeedWallet.getNewAddress, own]
      exact iff_of_true ⟨by simpa [addressOf] using inside, rfl⟩ nofun
    | some row =>
      by_cases same : this.wallet.Matches keys rt password row
      · obtain ⟨after, last, done, ends, file, -⟩ := SeedWallet.getNewAddress_done accepts own same range
        rw [done, file]
        have made : last.hash ∈ (addresses keys rt password this.wallet.seedsIndex row.data
            (row.addrIndex + 1)).map Address.hash := List.mem_map_of_mem (List.mem_of_getLast? ends)
        simp only [addressOf, isRefused, Option.toList, List.forall_mem_append, List.forall_mem_singleton, made,
          and_true, Option.some.injEq, forall_eq', same, true_and]
      · obtain ⟨after, done, -⟩ := SeedWallet.getNewAddress_refused accepts own same range
        rw [done]
        exact iff_of_false (by simp [isRefused]) fun all => same (all row rfl).1
  | getPriKey address =>
    rw [Kept, step, Safe]
    dsimp only
    obtain ⟨after, result, done, ⟨file, -⟩, refused⟩ := SeedWallet.getPriKey_eq accepts rt address
    rw [done, file, ← refused]
    exact and_iff_right inside

/-- No address is forgotten and no password refused in a sequence of operations exactly when all of them are safe where
they happen. -/
theorem addresses_kept_iff (accepts : keys.Accepts password) (start : SeedWallet) (calls : List (Operation × Range)) :
    Replay.Always (step keys rt password) { wallet := start } Kept calls ↔
      Replay.Each (step keys rt password) { wallet := start } (Safe keys rt password) calls :=
  @Replay.always_iff_each _ _ _ { wallet := start } Kept (fun _ => True) _ ⟨nofun, rfl⟩ trivial (fun _ _ _ _ => trivial)
    (fun _ call _ kept => kept_step_iff accepts kept call) calls

/-! ## One seed -/

/-- An operation on the first seed. -/
def OnFirst : Operation → Prop
  | .setSeed _ => False
  | .setSeedIndex index => index = 0
  | _ => True

/-- The one seed is current, and the file holds exactly its addresses. -/
def OneSeed (keys : Keys) (rt : Runtime) (password data : Bytes) (this : Usage) : Prop :=
  this.wallet.seedsIndex = 0 ∧ ∃ row, this.wallet.seeds = [row] ∧ row.data = data ∧
    this.wallet.addressFile = addresses keys rt password 0 data row.addrIndex ∧
    (0 < row.addrIndex → row.coinbase.pubkey ≠ [])

theorem OneSeed.matches_ {data : Bytes} {this : Usage} {row : Seed} (own : row.data = data)
    (file : this.wallet.addressFile = addresses keys rt password 0 data row.addrIndex) :
    this.wallet.Matches keys rt password row := by
  intro first head
  rw [file] at head
  cases count : row.addrIndex with
  | zero =>
    rw [count] at head
    cases head
  | succ n =>
    rw [count, addresses_succ] at head
    cases head
    rw [own]
    rfl

/-- On a wallet with one seed every operation is safe, and leaves one seed with its addresses in the file. -/
theorem OneSeed.step (accepts : keys.Accepts password)
    (pairs : ∀ rand, ∃ pair, keys.newKeyPair rand = some pair ∧ pair.2 ≠ []) {data : Bytes} {this : Usage}
    (kept : this.Kept) (one : this.OneSeed keys rt password data) {call : Operation × Range} (first : OnFirst call.1) :
    Safe keys rt password this call ∧ (this.step keys rt password call).OneSeed keys rt password data := by
  obtain ⟨current, row, seeds, own, file, coinbase⟩ := one
  have same := OneSeed.matches_ own file
  obtain ⟨operation, range⟩ := call
  cases operation with
  | setSeed seed => exact first.elim
  | setSeedIndex index =>
    cases show index = 0 from first
    have none (unset : row.coinbase.pubkey = []) : this.wallet.addressFile = [] := by
      have zero : row.addrIndex = 0 := by
        by_contra positive
        exact coinbase (Nat.pos_of_ne_zero positive) unset
      rw [file, zero]
      rfl
    constructor
    · rintro - ⟨seed, present, unset⟩ ⟨v, member, -⟩
      rw [seeds] at present
      cases present
      rw [none unset] at member
      cases member
    · have unchanged : (this.wallet.setSeedIndex 0 range).1.seeds = [row] ∧
          (this.wallet.setSeedIndex 0 range).1.seedsIndex = 0 ∧
          (this.wallet.setSeedIndex 0 range).1.addressFile = this.wallet.addressFile := by
        by_cases unset : row.coinbase.pubkey = []
        · simp [SeedWallet.setSeedIndex, SeedWallet.setCoinbase, seeds, current, none unset]
        · simp [SeedWallet.setSeedIndex, seeds, current, unset]
      exact ⟨unchanged.2.1, row, unchanged.1, own, unchanged.2.2.trans file, coinbase⟩
  | getNewAddress =>
    have present : this.wallet.seeds[this.wallet.seedsIndex]? = some row := by rw [seeds, current]; rfl
    obtain ⟨after, last, done, -, file', -, current', -, coin, seeds', set⟩ :=
      SeedWallet.getNewAddress_done accepts present same range
    rw [current, own] at file'
    constructor
    · intro other there
      cases present.symm.trans there
      refine ⟨same, fun addr member => ?_⟩
      have before := kept.1 addr member
      rw [file] at before
      rw [current, own]
      exact List.map_subset _ (prefix_addresses keys rt password 0 data row.addrIndex).subset before
    · rw [Usage.step, OneSeed]
      dsimp only
      rw [done]
      refine ⟨current'.trans current, { row with addrIndex := row.addrIndex + 1, coinbase := coin },
        by rw [seeds', seeds, current]; rfl, own, file', fun _ => ?_⟩
      rcases set with ⟨before, rfl⟩ | ⟨-, made⟩
      · exact before
      · exact pubkey_of_mem_addresses (fun _ _ => pairs _) (file' ▸ made)
  | getPriKey address =>
    obtain ⟨after, result, done, ⟨file', seeds', current'⟩, -⟩ := SeedWallet.getPriKey_eq accepts rt address
    constructor
    · intro other member _
      rw [seeds, List.mem_singleton] at member
      exact member ▸ same
    · rw [Usage.step, OneSeed]
      dsimp only
      rw [done]
      refine ⟨?_, row, seeds'.trans seeds, own, file'.trans file, coinbase⟩
      rw [seeds, current] at current'
      simpa using current'

/-- A wallet with one seed never forgets an address and never refuses the password. -/
theorem one_seed_kept (accepts : keys.Accepts password)
    (pairs : ∀ rand, ∃ pair, keys.newKeyPair rand = some pair ∧ pair.2 ≠ []) (data : Bytes)
    (calls : List (Operation × Range)) (first : ∀ call ∈ calls, OnFirst call.1) :
    Replay.Always (Usage.step keys rt password) { wallet := { seeds := [{ data }] } } Kept calls := by
  have given : Replay.Each (Usage.step keys rt password) { wallet := { seeds := [{ data }] } }
      (fun _ call => OnFirst call.1) calls := by
    rintro front call back rfl
    exact first call (List.mem_append_right _ List.mem_cons_self)
  have always := @Replay.always_iff_each_of _ _ (Usage.step keys rt password) { wallet := { seeds := [{ data }] } } Kept
    (OneSeed keys rt password data) (fun _ _ => True) (fun _ call => OnFirst call.1) ⟨nofun, rfl⟩
    ⟨rfl, _, rfl, rfl, rfl, fun positive => absurd positive (lt_irrefl 0)⟩
    (fun _ _ first one kept => (one.step accepts pairs kept first).2)
    (fun _ call first one kept =>
      iff_of_true ((kept_step_iff accepts kept call).mpr (one.step accepts pairs kept first).1) trivial) calls given
  exact always.1.mpr fun _ _ _ _ => trivial

end Usage

/-! ## Two seeds -/

/-- A cipher that hides nothing, and keys that are their own seeds. -/
def plainKeys : Keys where
  encrypt text _ := some text
  decrypt text _ := some text
  newKeyPair rand := some (rand, 1 :: rand)
  sha512 := id
  b58String _ := ""

def plainHashes : Runtime where
  sha3 := id
  hash160 := id
  unmarshal _ := none

def inOrder : Range := ⟨id, fun _ => .refl _⟩

/-- An address of a second seed is asked for. -/
def secondAddress : List (Operation × Range) :=
  [.setSeed { data := [1] }, .setSeedIndex 0, .getNewAddress, .setSeed { data := [2] }, .setSeedIndex 1,
    .getNewAddress].map (·, inOrder)

/-- Two more seeds are made current, one after the other. -/
def seedsInTurn : List (Operation × Range) :=
  [.setSeed { data := [1] }, .setSeedIndex 0, .getNewAddress, .setSeed { data := [2] }, .setSeed { data := [3] },
    .setSeedIndex 1, .setSeedIndex 2].map (·, inOrder)

/-- The right password is refused for the second seed, and the address of the first one leaves the file. -/
theorem second_seed_breaks : plainKeys.Accepts [] ∧
    ¬ Replay.Always (Usage.step plainKeys plainHashes []) {} Usage.Kept secondAddress ∧
    ¬ Replay.Always (Usage.step plainKeys plainHashes []) {} Usage.Kept seedsInTurn := by
  refine ⟨fun text => ⟨text, rfl⟩, fun always => ?_, fun always => ?_⟩
  · exact absurd always.last.2 (by decide)
  · exact absurd always.last.1 (by decide)

/-- A second seed that is never made current. -/
def firstOnly : List (Operation × Range) :=
  [.setSeed { data := [1] }, .setSeedIndex 0, .getNewAddress, .setSeed { data := [2] }, .getNewAddress].map (·, inOrder)

theorem firstOnly_kept : Replay.Always (Usage.step plainKeys plainHashes []) {} Usage.Kept firstOnly := by
  refine (Usage.addresses_kept_iff (fun text => ⟨text, rfl⟩) {} firstOnly).mpr ?_
  simp only [firstOnly, List.map_cons, List.map_nil, Replay.each_cons]
  refine ⟨trivial, ?_, ?_, trivial, ?_, Replay.each_nil⟩
  · rintro - - ⟨v, member, -⟩
    cases member
  · rintro row ⟨⟩
    exact ⟨fun first none => (nomatch none), nofun⟩
  · rintro row ⟨⟩
    refine ⟨fun first head => ?_, by decide⟩
    cases head
    decide

end PolarCloud.Keystore
