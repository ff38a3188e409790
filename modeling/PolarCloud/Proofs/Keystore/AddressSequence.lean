import PolarCloud.Model.Keystore.Load
import PolarCloud.Proofs.Keystore.Addresses
import PolarCloud.Proofs.Keystore.Cipher

/-! # The sequence of addresses

A wallet that was made from one seed holds the addresses of this seed in memory and on disk, in the order of their
indices. Making one more keeps all of them, and reading the files again gives the same list.
-/

namespace PolarCloud.Keystore

/-- The digest of a password is a key of the cipher. -/
theorem Library.accepts_md5 (lib : Library) (password : Bytes) : lib.keys.Accepts (lib.md5 password) := by
  intro text
  refine ⟨lib.aes.encryptBlocks (keyPadding (lib.md5 password)) (keyPadding (lib.md5 password)) (pkcs7Padding text), ?_⟩
  change returned (encrypt lib.aes text (lib.md5 password)) = _
  rw [encrypt_short (lib.length_md5 password).le]
  rfl

/-- Every digest of SHA-512 makes a pair of keys with a public key that is not empty. -/
def Library.MakesPairs (lib : Library) : Prop :=
  ∀ rand, rand.length = 64 → ∃ pair, lib.newKeyPair rand = some pair ∧ pair.2 ≠ []

theorem Library.MakesPairs.generated {lib : Library} (pairs : lib.MakesPairs) (index : ℕ) (chain : KeyChain) :
    ∃ pair, lib.keys.newKeyPair (generateSeed lib.keys index chain) = some pair ∧ pair.2 ≠ [] :=
  pairs _ (lib.length_sha512 _)

namespace SeedWallet

/-- A wallet with one seed and `n` addresses: their number is the seed's next index, their indices are those below it,
memory holds what the file holds, the first of them is the coinbase, and the files read again give the same list, in
this process or in another one. -/
structure Sequence (this : SeedWallet) (n : ℕ) : Prop where
  addrIndex : this.seeds.map Seed.addrIndex = [n]
  length : this.addressFile.length = n
  indices : this.addressFile.map Address.index = (List.range n).map Int64.ofNat
  getAllAddress : this.getAllAddress = this.addressFile
  coinbase : ∃ first, this.addressFile.head? = some first ∧ first.index = 0 ∧ this.getCoinbase = some (.ok first)
  reload : ∀ range, (this.load true range).1.getAllAddress = this.addressFile
  restart : ∀ range, (({ seedFile := this.seedFile, addressFile := this.addressFile } : SeedWallet).load true
    range).1.getAllAddress = this.addressFile

/-- What a wallet with one seed holds after `n` addresses. -/
structure Made (keys : Keys) (rt : Runtime) (password data : Bytes) (n : ℕ) (this : SeedWallet) : Prop where
  seedsIndex : this.seedsIndex = 0
  seeds : ∃ row, this.seeds = [row] ∧ row.data = data ∧ row.addrIndex = n ∧ this.addressFile.head? = some row.coinbase
  addressFile : this.addressFile = addresses keys rt password 0 data n
  addrList : this.addrList = [(0, addresses keys rt password 0 data n)]
  seedFile : this.seedFile = this.seeds

section Made

variable {keys : Keys} {rt : Runtime} {password data : Bytes} {this : SeedWallet} {n : ℕ}

/-- Reading the files gives the addresses of the seed. -/
theorem load_getAllAddress {row : Seed} (seedFile : this.seedFile = [row]) (set : row.coinbase.pubkey ≠ [])
    (inside : this.seedsIndex ≤ 1)
    (addressFile : this.addressFile = addresses keys rt password 0 data (n + 1)) (range : Range) :
    (this.load true range).1.getAllAddress = this.addressFile := by
  have own : this.addressFile.filter (fun v => v.seedIndex = ((0 : ℕ) : ℤ)) = this.addressFile := by
    refine List.filter_eq_self.mpr fun v member => decide_eq_true ?_
    rw [addressFile] at member
    exact seedIndex_of_mem_addresses keys rt password 0 data member
  have lists : AddrMap.syncAll [] 0 this.addressFile = [(0, this.addressFile)] := by
    rw [addressFile, addresses_succ]
    exact syncAll_single 0 [_] _
  rw [load, loadSeeds, if_pos rfl]
  dsimp only
  rw [setSeedIndex, seedFile, if_neg (by rw [List.length_singleton]; simp; omega)]
  dsimp only [List.getElem?_cons_zero]
  rw [if_neg set, own]
  change ((List.find? _ (AddrMap.syncAll [] 0 this.addressFile)).map Prod.snd).getD [] = _
  rw [lists]
  rfl

theorem Made.sequence (pairs : ∀ index chain, ∃ pair, keys.newKeyPair (generateSeed keys index chain) = some pair ∧
    pair.2 ≠ []) (made : Made keys rt password data n this) : Sequence this n := by
  obtain ⟨row, seeds, own, count, first⟩ := made.seeds
  have nonempty : n ≠ 0 := by
    rintro rfl
    rw [made.addressFile] at first
    cases first
  obtain ⟨m, rfl⟩ := Nat.exists_eq_succ_of_ne_zero nonempty
  have member : row.coinbase ∈ addresses keys rt password 0 data (m + 1) := by
    rw [← made.addressFile]
    exact List.mem_of_head? first
  have set : row.coinbase.pubkey ≠ [] := pubkey_of_mem_addresses pairs member
  constructor
  · rw [seeds, List.map_singleton, count]
  · rw [made.addressFile, length_addresses]
  · rw [made.addressFile, map_index_addresses]
  · rw [getAllAddress, made.addrList, made.addressFile, made.seedsIndex]
    rfl
  · refine ⟨row.coinbase, first, ?_, ?_⟩
    · rw [made.addressFile, addresses_succ] at first
      rw [← Option.some.inj first]
      rfl
    · rw [getCoinbase, seeds, made.seedsIndex]
      exact if_pos set
  · exact load_getAllAddress (made.seedFile.trans seeds) set (by rw [made.seedsIndex]; omega) made.addressFile
  · exact @load_getAllAddress keys rt password data
      { seedFile := this.seedFile, addressFile := this.addressFile } m row (made.seedFile.trans seeds) set
      (Nat.zero_le 1) made.addressFile

/-- One more address: all earlier ones stay, and it stands behind them. -/
theorem Made.getNewAddress (accepts : keys.Accepts password)
    (pairs : ∀ index chain, ∃ pair, keys.newKeyPair (generateSeed keys index chain) = some pair ∧ pair.2 ≠ [])
    (made : Made keys rt password data n this) (range : Range) :
    ∃ after last, this.getNewAddress keys rt password range = (after, some (.ok (some last))) ∧
      after.addressFile = this.addressFile ++ [last] ∧ Made keys rt password data (n + 1) after := by
  obtain ⟨row, seeds, own, count, first⟩ := made.seeds
  have current : this.seeds[this.seedsIndex]? = some row := by rw [seeds, made.seedsIndex]; rfl
  have right : this.Matches keys rt password row :=
    @Usage.OneSeed.matches_ keys rt password data { wallet := this } row own (by rw [count]; exact made.addressFile)
  obtain ⟨after, last, done, ends, file, lists, index, seedFile, coinbase, seeds', set⟩ :=
    getNewAddress_done accepts current right range
  rw [made.seedsIndex, own, count] at file lists
  rw [made.seedsIndex, own, count, addresses_concat, List.getLast?_concat] at ends
  have behind : after.addressFile = this.addressFile ++ [last] := by
    rw [file, made.addressFile, addresses_concat, Option.some.inj ends]
  have member : row.coinbase ∈ addresses keys rt password 0 data n := by
    rw [← made.addressFile]
    exact List.mem_of_head? first
  have unchanged : coinbase = row.coinbase := by
    rcases set with ⟨-, same⟩ | ⟨unset, -⟩
    · exact same
    · exact absurd unset (pubkey_of_mem_addresses pairs member)
  refine ⟨after, last, done, behind, index.trans made.seedsIndex, ?_, file, lists, seedFile⟩
  refine ⟨{ row with addrIndex := row.addrIndex + 1, coinbase }, ?_, own, by rw [← count], ?_⟩
  · rw [seeds', seeds, made.seedsIndex]
    rfl
  · rw [behind, List.head?_append, first, unchanged]
    rfl

/-- The first address of a wallet without files. -/
theorem Made.first (accepts : keys.Accepts password) (rt : Runtime) (range : Range) :
    ∃ after last, ({ seeds := [{ data }], seedFile := [{ data }] } : SeedWallet).getNewAddress keys rt password range =
        (after, some (.ok (some last))) ∧ Made keys rt password data 1 after := by
  have right : ({ seeds := [{ data }], seedFile := [{ data }] } : SeedWallet).Matches keys rt password { data } :=
    fun first none => nomatch none
  obtain ⟨after, last, done, -, file, lists, index, seedFile, coinbase, seeds, set⟩ :=
    @getNewAddress_done keys rt password { seeds := [{ data }], seedFile := [{ data }] } accepts { data } rfl right
      range
  refine ⟨after, last, done, index, ⟨_, seeds, rfl, rfl, ?_⟩, file, lists, seedFile⟩
  have only : after.addressFile = [addressAt keys rt password 0 data 0 {}] := file.trans (addresses_succ ..)
  rcases set with ⟨unset, -⟩ | ⟨-, member⟩
  · exact absurd rfl unset
  · rw [only, List.mem_singleton] at member
    rw [only, member]
    rfl

/-- A new wallet has its first address. -/
theorem newLoad_made (lib : Library) (rt : Runtime) (seed password : Bytes) (first second : Range) :
    ∃ after data, ({} : SeedWallet).newLoad lib rt seed password first second = (after, some (.ok ())) ∧
      Made lib.keys rt (lib.md5 password) data 1 after := by
  obtain ⟨after, last, done, made⟩ := @Made.first lib.keys (lib.md5 password)
    (lib.aes.encryptBlocks (keyPadding (lib.md5 password)) (keyPadding (lib.md5 password)) (pkcs7Padding seed))
    (lib.accepts_md5 password) rt second
  have empty (data : Bytes) : ({ seeds := [{ data }], seedFile := [{ data }] } : SeedWallet).setSeedIndex 0 first =
      ({ seeds := [{ data }], seedFile := [{ data }] }, some (.ok ())) := rfl
  refine ⟨after, _, ?_, made⟩
  rw [newLoad, encrypt_short (lib.length_md5 password).le]
  dsimp only [setSeed, List.nil_append, List.length_nil]
  rw [empty]
  dsimp only
  rw [done]

end Made

/-- The calls with the password from the first ones on, and the wallet behind them. -/
theorem Made.foldl {keys : Keys} {rt : Runtime} {password data : Bytes} (accepts : keys.Accepts password)
    (pairs : ∀ index chain, ∃ pair, keys.newKeyPair (generateSeed keys index chain) = some pair ∧ pair.2 ≠ [])
    {this : SeedWallet} {n : ℕ} (made : Made keys rt password data n this) (calls : List Range) :
    Made keys rt password data (n + calls.length)
      (calls.foldl (fun this range => (this.getNewAddress keys rt password range).1) this) := by
  induction calls generalizing this n with
  | nil => exact made
  | cons range calls ih =>
    obtain ⟨after, last, done, -, made⟩ := made.getNewAddress accepts pairs range
    rw [List.foldl_cons, done, List.length_cons, show n + (calls.length + 1) = n + 1 + calls.length by omega]
    exact ih made

/-- From a new wallet on every call with the password succeeds: it appends one address to the file, and what is there is
the sequence of all addresses. -/
theorem address_sequence (lib : Library) (rt : Runtime) (pairs : lib.MakesPairs) (seed password : Bytes)
    (first second : Range) (calls : List Range) :
    let start := ({} : SeedWallet).newLoad lib rt seed password first second
    let call (this : SeedWallet) (range : Range) := this.getNewAddress lib.keys rt (lib.md5 password) range
    let this := calls.foldl (fun this range => (call this range).1) start.1
    start.2 = some (.ok ()) ∧ Sequence this (calls.length + 1) ∧
      ∀ range, ∃ last, (call this range).2 = some (.ok (some last)) ∧
        (call this range).1.addressFile = this.addressFile ++ [last] := by
  obtain ⟨after, data, done, made⟩ := newLoad_made lib rt seed password first second
  have accepts := lib.accepts_md5 password
  have made := made.foldl accepts pairs.generated calls
  rw [Nat.add_comm] at made
  dsimp only
  rw [done]
  refine ⟨rfl, made.sequence pairs.generated, fun range => ?_⟩
  obtain ⟨next, last, done', behind, -⟩ := made.getNewAddress accepts pairs.generated range
  rw [done']
  exact ⟨last, rfl, behind⟩

/-- Digests that are the beginning of the text, filled up with zeros, and keys that are their own seeds. -/
def plainLibrary : Library where
  aes := plainAes
  newKeyPair rand := some (rand, 1 :: rand)
  sha512 text := (text ++ List.replicate 64 0).take 64
  md5 text := (text ++ List.replicate 16 0).take 16
  b58String _ := ""
  length_sha512 text := by simp
  length_md5 text := by simp

/-- Three more addresses behind the first one. -/
theorem address_sequence_four :
    let start := ({} : SeedWallet).newLoad plainLibrary plainHashes [1] [2] inOrder inOrder
    let call (this : SeedWallet) (range : Range) :=
      this.getNewAddress plainLibrary.keys plainHashes (plainLibrary.md5 [2]) range
    let this := [inOrder, inOrder, inOrder].foldl (fun this range => (call this range).1) start.1
    start.2 = some (.ok ()) ∧ Sequence this 4 ∧
      ∀ range, ∃ last, (call this range).2 = some (.ok (some last)) ∧
        (call this range).1.addressFile = this.addressFile ++ [last] :=
  address_sequence plainLibrary plainHashes (fun rand _ => ⟨(rand, 1 :: rand), rfl, List.cons_ne_nil 1 rand⟩) [1] [2]
    inOrder inOrder [inOrder, inOrder, inOrder]

end SeedWallet

end PolarCloud.Keystore
