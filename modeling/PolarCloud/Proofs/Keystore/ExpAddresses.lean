import PolarCloud.Base.Replay
import PolarCloud.Model.Keystore.ExpAddress
import PolarCloud.Proofs.Keystore.Addresses

/-! # One extended address for a main address

Every key in memory is a text, so that no list is ever found under a pointer and the index is always 0. A main address
has distinct extended addresses as long as it is asked for one of them, and memory and the file agree as long as the
file is read into an empty memory.
-/

namespace PolarCloud.Keystore

/-! ## The map -/

/-- Every list is entered once, under a text. -/
structure ExpAddrMap.Texts (addrs : ExpAddrMap) : Prop where
  nodup : (addrs.map Prod.fst).Nodup
  text : ∀ one ∈ addrs, ∃ hash, one.1 = .text hash

theorem ExpAddrMap.Texts.sync {addrs : ExpAddrMap} (texts : addrs.Texts) (key : Address) (addr : ExpAddress) :
    ExpAddrMap.Texts (syncExpAddrMap addrs key addr) := by
  refine ⟨Entries.nodup_change texts.nodup, fun one member => ?_⟩
  rcases Entries.mem_keys_change.mp (List.mem_map_of_mem member) with before | new
  · obtain ⟨other, there, same⟩ := List.mem_map.mp before
    rw [← same]
    exact texts.text other there
  · exact ⟨key.hash, new⟩

theorem syncExpAddrMap_perm {addrs : ExpAddrMap} (texts : addrs.Texts) (key : Address) (addr : ExpAddress) :
    ((syncExpAddrMap addrs key addr).flatMap Prod.snd).Perm (addr :: addrs.flatMap Prod.snd) :=
  Entries.flatMap_change_perm texts.nodup _ addr

namespace ExpWallet

variable {this : ExpWallet} {rt : Runtime}

/-- What is read is entered in memory, with what is there. -/
theorem enter_eq (texts : this.expAddrList.Texts) (entries : List ExpAddress) :
    ∃ addrs, entries.foldl (fun this v =>
        ({ this with expAddrList := syncExpAddrMap this.expAddrList v.preAddress v } : ExpWallet)) this =
        { this with expAddrList := addrs } ∧
      ExpAddrMap.Texts addrs ∧ (addrs.flatMap Prod.snd).Perm (entries ++ this.expAddrList.flatMap Prod.snd) := by
  induction entries using List.reverseRecOn with
  | nil => exact ⟨_, rfl, texts, .refl _⟩
  | append_singleton entries v ih =>
    obtain ⟨addrs, done, entered, perm⟩ := ih
    rw [Replay.foldl_concat, done]
    refine ⟨_, rfl, entered.sync v.preAddress v, ?_⟩
    apply (syncExpAddrMap_perm entered v.preAddress v).trans
    rw [List.append_assoc]
    exact (perm.cons v).trans List.perm_middle.symm

theorem initExpAddress_eq (texts : this.expAddrList.Texts) :
    ∃ addrs, this.initExpAddress = { this with expAddrList := addrs } ∧ ExpAddrMap.Texts addrs ∧
      (addrs.flatMap Prod.snd).Perm (this.expAddressFile ++ this.expAddrList.flatMap Prod.snd) :=
  enter_eq texts this.expAddressFile

/-- A list under a text is not found under a pointer. -/
theorem find?_pointer (texts : this.expAddrList.Texts) (place : ℕ) :
    (this.expAddrList.find? fun one => one.1 = .pointer place) = none := by
  apply List.find?_eq_none.mpr
  intro one member
  obtain ⟨hash, key⟩ := texts.text one member
  rw [key]
  exact fun same => ExpKey.noConfusion (of_decide_eq_true same)

theorem getNewExpAddress_none {preaddress : AddressPointer} (unknown : this.getAddressInfo preaddress.address = none)
    (rt : Runtime) (range : ExpRange) : this.getNewExpAddress rt preaddress range = (this.saveExpAddr range, none) := by
  rw [getNewExpAddress, unknown]

/-- Whatever was made before, the index is 0. -/
theorem getNewExpAddress_some (texts : this.expAddrList.Texts) {preaddress : AddressPointer} {addr : Address}
    (info : this.getAddressInfo preaddress.address = some addr) (rt : Runtime) (range : ExpRange) :
    this.getNewExpAddress rt preaddress range =
      ((this.getExpAddress rt preaddress.address addr.pubkey 0).1.saveExpAddr range,
        some (this.getExpAddress rt preaddress.address addr.pubkey 0).2) := by
  rw [getNewExpAddress, info, find?_pointer texts]
  rfl

theorem saveExpAddr_perm (this : ExpWallet) (range : ExpRange) :
    (this.saveExpAddr range).expAddressFile.Perm (this.expAddrList.flatMap Prod.snd) :=
  (range.perm _).flatMap_right Prod.snd

end ExpWallet

namespace ExpUsage

variable {this : ExpUsage} {rt : Runtime}

/-- What has been made for the main address with the hash. -/
def madeFor (this : ExpUsage) (hash : Bytes) : List ExpAddress :=
  this.made.filter fun one => one.preAddress.hash = hash

/-- The extended addresses of a main address are numbered from 0 and distinct, and memory and the file hold everything
that was made once. -/
structure Distinct (this : ExpUsage) : Prop where
  numbered : ∀ hash, (this.madeFor hash).map ExpAddress.index =
    (List.range (this.madeFor hash).length).map Int64.ofNat
  distinct : ∀ hash, ((this.madeFor hash).map ExpAddress.address).Nodup
  inMemory : (this.wallet.expAddrList.flatMap Prod.snd).Perm this.made
  onFile : this.wallet.expAddressFile.Perm this.made

/-- A main address is asked for its first extended address, and the file is read by a new process, or while it is
empty. -/
def First (this : ExpUsage) : ExpEvent → Prop
  | .getNewExpAddress preaddress _ =>
      this.wallet.getAddressInfo preaddress.address = none ∨ this.madeFor preaddress.address.hash = []
  | .initExpAddress => this.wallet.expAddressFile = []
  | .restart => True

/-- What holds in every state. -/
structure Known (this : ExpUsage) : Prop where
  texts : this.wallet.expAddrList.Texts
  zero : ∀ one ∈ this.made, one.index = 0

/-- With the index 0 throughout, the numbering allows one extended address for a main address. -/
theorem numbered_iff {addrs : List ExpAddress} (zero : ∀ one ∈ addrs, one.index = 0) :
    addrs.map ExpAddress.index = (List.range addrs.length).map Int64.ofNat ↔ addrs.length ≤ 1 := by
  match addrs with
  | [] => exact iff_of_true rfl (Nat.zero_le 1)
  | [one] =>
    refine iff_of_true ?_ le_rfl
    rw [List.map_singleton, zero one (List.mem_singleton_self one)]
    rfl
  | _ :: second :: rest =>
    refine iff_of_false (fun same => ?_) (by simp)
    have at_one := congrArg (fun indices => indices[1]?) same
    simp [zero second (by simp)] at at_one

theorem Known.distinct_iff (known : this.Known) : this.Distinct ↔
    (∀ hash, (this.madeFor hash).length ≤ 1) ∧ (this.wallet.expAddrList.flatMap Prod.snd).Perm this.made ∧
      this.wallet.expAddressFile.Perm this.made := by
  have zero : ∀ hash, ∀ one ∈ this.madeFor hash, one.index = 0 :=
    fun hash one member => known.zero one (List.mem_filter.mp member).1
  constructor
  · rintro ⟨numbered, -, inMemory, onFile⟩
    exact ⟨fun hash => (numbered_iff (zero hash)).mp (numbered hash), inMemory, onFile⟩
  · rintro ⟨single, inMemory, onFile⟩
    refine ⟨fun hash => (numbered_iff (zero hash)).mpr (single hash), fun hash => ?_, inMemory, onFile⟩
    apply List.nodup_iff_count_le_one.mpr
    intro address
    apply List.count_le_length.trans
    rw [List.length_map]
    exact single hash

/-! ## One step -/

/-- An extended address is made: its main address is known, and its index is 0. -/
theorem step_getNewExpAddress (known : this.Known) {preaddress : AddressPointer} {addr : Address}
    (info : this.wallet.getAddressInfo preaddress.address = some addr) (rt : Runtime) (range : ExpRange) :
    ∃ one addrs, one.preAddress = preaddress.address ∧ one.index = 0 ∧ ExpAddrMap.Texts addrs ∧
      (addrs.flatMap Prod.snd).Perm (one :: this.wallet.expAddrList.flatMap Prod.snd) ∧
      this.step rt (.getNewExpAddress preaddress range) =
        { wallet := ({ this.wallet with expAddrList := addrs } : ExpWallet).saveExpAddr range,
          made := this.made ++ [one] } := by
  refine ⟨(this.wallet.getExpAddress rt preaddress.address addr.pubkey 0).2, _, rfl, rfl,
    known.texts.sync preaddress.address _, syncExpAddrMap_perm known.texts preaddress.address _, ?_⟩
  rw [step, ExpWallet.getNewExpAddress_some known.texts info]
  rfl

theorem Known.step (known : this.Known) (rt : Runtime) (event : ExpEvent) : (this.step rt event).Known := by
  cases event with
  | getNewExpAddress preaddress range =>
    cases info : this.wallet.getAddressInfo preaddress.address with
    | none =>
      rw [ExpUsage.step, ExpWallet.getNewExpAddress_none info]
      refine ⟨known.texts, fun one member => known.zero one ?_⟩
      rwa [Option.toList_none, List.append_nil] at member
    | some addr =>
      obtain ⟨one, addrs, -, zero, texts, -, done⟩ := step_getNewExpAddress known info rt range
      rw [done]
      refine ⟨texts, fun other member => ?_⟩
      rcases List.mem_append.mp member with before | new
      · exact known.zero other before
      · rw [List.mem_singleton.mp new]
        exact zero
  | initExpAddress =>
    obtain ⟨addrs, done, texts, -⟩ := ExpWallet.initExpAddress_eq known.texts
    rw [ExpUsage.step, done]
    exact ⟨texts, known.zero⟩
  | restart =>
    obtain ⟨addrs, done, texts, -⟩ := @ExpWallet.initExpAddress_eq { this.wallet with expAddrList := [] }
      ⟨List.nodup_nil, nofun⟩
    rw [ExpUsage.step, done]
    exact ⟨texts, known.zero⟩

theorem madeFor_concat (this : ExpUsage) (wallet : ExpWallet) (one : ExpAddress) (hash : Bytes) :
    madeFor { wallet, made := this.made ++ [one] } hash =
      this.madeFor hash ++ if one.preAddress.hash = hash then [one] else [] := by
  rw [madeFor, List.filter_append]
  congr 1
  simp [List.filter_singleton]

/-- One more for a main address leaves at most one for each exactly when it is the first. -/
theorem single_concat_iff (single : ∀ hash, (this.madeFor hash).length ≤ 1) (wallet : ExpWallet) (one : ExpAddress) :
    (∀ hash, (madeFor { wallet, made := this.made ++ [one] } hash).length ≤ 1) ↔
      this.madeFor one.preAddress.hash = [] := by
  constructor
  · intro after
    have own := after one.preAddress.hash
    rw [madeFor_concat, if_pos rfl, List.length_append, List.length_singleton] at own
    apply List.eq_nil_of_length_eq_zero
    omega
  · intro first hash
    rw [madeFor_concat]
    split
    · next own =>
      rw [← own, first]
      exact le_rfl
    · rw [List.append_nil]
      exact single hash

/-- A step leaves the extended addresses distinct exactly when it is a first one. -/
theorem distinct_step_iff (known : this.Known) (distinct : this.Distinct) (rt : Runtime) (event : ExpEvent) :
    (this.step rt event).Distinct ↔ this.First event := by
  rw [(known.step rt event).distinct_iff]
  obtain ⟨single, inMemory, onFile⟩ := known.distinct_iff.mp distinct
  cases event with
  | getNewExpAddress preaddress range =>
    cases info : this.wallet.getAddressInfo preaddress.address with
    | none =>
      refine iff_of_true ?_ (.inl info)
      rw [ExpUsage.step, ExpWallet.getNewExpAddress_none info, Option.toList_none, List.append_nil]
      exact ⟨single, inMemory, (ExpWallet.saveExpAddr_perm this.wallet range).trans inMemory⟩
    | some addr =>
      obtain ⟨one, addrs, pre, -, -, perm, done⟩ := step_getNewExpAddress known info rt range
      have entered : (addrs.flatMap Prod.snd).Perm (this.made ++ [one]) :=
        (perm.trans (inMemory.cons one)).trans (List.perm_append_singleton one this.made).symm
      rw [done, single_concat_iff single, pre]
      constructor
      · exact fun ⟨first, _⟩ => .inr first
      · rintro (unknown | first)
        · cases info.symm.trans unknown
        · exact ⟨first, entered, (ExpWallet.saveExpAddr_perm _ range).trans entered⟩
  | initExpAddress =>
    obtain ⟨addrs, done, -, perm⟩ := ExpWallet.initExpAddress_eq known.texts
    rw [ExpUsage.step, done]
    change _ ∧ (addrs.flatMap Prod.snd).Perm this.made ∧ _ ↔ this.wallet.expAddressFile = []
    constructor
    · rintro ⟨-, once, -⟩
      have lengths := (perm.symm.trans once).length_eq
      rw [List.length_append, inMemory.length_eq] at lengths
      apply List.eq_nil_of_length_eq_zero
      omega
    · intro empty
      rw [empty] at perm
      exact ⟨single, perm.trans inMemory, onFile⟩
  | restart =>
    obtain ⟨addrs, done, -, perm⟩ := @ExpWallet.initExpAddress_eq { this.wallet with expAddrList := [] }
      ⟨List.nodup_nil, nofun⟩
    rw [ExpUsage.step, done]
    refine iff_of_true ⟨single, ?_, onFile⟩ trivial
    rw [List.flatMap_nil, List.append_nil] at perm
    exact perm.trans onFile

/-- In a new wallet with any address file, the extended addresses are distinct throughout a run exactly when every main
address is asked for one of them, and the file is read again by new processes or while it is empty. -/
theorem distinct_always_iff (rt : Runtime) (addressFile : List Address) (events : List ExpEvent) :
    Replay.Always (step rt) { wallet := { addressFile } } Distinct events ↔
      Replay.Each (step rt) { wallet := { addressFile } } First events := by
  apply @Replay.always_iff_each _ _ _ _ Distinct Known
  · exact ⟨fun _ => rfl, fun _ => List.nodup_nil, .refl _, .refl _⟩
  · exact ⟨⟨List.nodup_nil, nofun⟩, nofun⟩
  · exact fun this event known _ => known.step rt event
  · exact fun this event known distinct => distinct_step_iff known distinct rt event

/-- The address file of the example. -/
def oneAddress : Address := { seedIndex := 0, index := 0, priKey := [], pubkey := [5], hash := [9] }

def mapInOrder : ExpRange := ⟨id, fun _ => .refl _⟩

/-- Two extended addresses of one main address are the same, and a reload enters the one of the file again. -/
theorem second_is_first :
    let ask := ExpEvent.getNewExpAddress ⟨0, oneAddress⟩ mapInOrder
    let run := [ask, ask].foldl (step plainHashes) { wallet := { addressFile := [oneAddress] } }
    (run.made.map ExpAddress.index = [0, 0] ∧ ∃ address, run.made.map ExpAddress.address = [address, address]) ∧
      ¬ Replay.Always (step plainHashes) { wallet := { addressFile := [oneAddress] } } Distinct [ask, ask] ∧
      ¬ Replay.Always (step plainHashes) { wallet := { addressFile := [oneAddress] } } Distinct
        [ask, .initExpAddress] := by
  refine ⟨⟨by decide, _, rfl⟩, fun always => ?_, fun always => ?_⟩
  · exact absurd (always.last.distinct [9]) (by decide)
  · exact absurd always.last.inMemory.length_eq (by decide)

end ExpUsage

end PolarCloud.Keystore
