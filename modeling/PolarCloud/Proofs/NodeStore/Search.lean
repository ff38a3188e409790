import PolarCloud.Proofs.NodeStore.Numbers

/-! # Searches for near and for farther nodes

A list of candidates holds every number once, so it is sorted by strictly growing distances. The first of
them is the nearest; those behind a node's own number are farther than the node.
-/

namespace PolarCloud.NodeStore

namespace Kademlia

variable {kl : Kademlia} {target one number : ℕ}

theorem less_eq_true_iff {a b : ℕ} : less target a b = true ↔ target ^^^ a ≤ target ^^^ b := by
  rw [less]
  split
  · next farther => simpa using farther
  · next near => simpa using near

@[simp] theorem mem_add : number ∈ (kl.add one).nodes ↔ number ∈ kl.nodes ∨ number = one := by
  rw [add]
  split
  · next known =>
    constructor
    · exact .inl
    · rintro (known' | rfl)
      · exact known'
      · exact known
  · simp

theorem nodup_add (nodup : kl.nodes.Nodup) : (kl.add one).nodes.Nodup := by
  rw [add]
  split
  · exact nodup
  · next fresh =>
    rw [← List.concat_eq_append]
    exact nodup.concat fresh

theorem mem_addIds (ids : List Multihash) :
    number ∈ (ids.foldl (fun kl one => kl.add one.number) kl).nodes ↔
      number ∈ kl.nodes ∨ ∃ id ∈ ids, id.number = number := by
  induction ids generalizing kl with
  | nil => simp
  | cons id ids ih =>
    rw [List.foldl_cons, ih, mem_add, List.exists_mem_cons_iff, or_assoc, eq_comm (a := number)]

theorem nodup_addIds (nodup : kl.nodes.Nodup) (ids : List Multihash) :
    (ids.foldl (fun kl one => kl.add one.number) kl).nodes.Nodup := by
  induction ids generalizing kl with
  | nil => exact nodup
  | cons id ids ih => exact ih (nodup_add nodup)

theorem mem_get : number ∈ kl.get target ↔ number ∈ kl.nodes := List.mem_insertionSort _

/-- From near to far, and no two at the same distance. -/
theorem get_sorted (target : ℕ) (nodup : kl.nodes.Nodup) :
    (kl.get target).Pairwise fun a b => target ^^^ a < target ^^^ b := by
  have sorted : (kl.get target).Pairwise fun a b => less target a b = true := by
    have total : Std.Total fun a b => less target a b = true :=
      ⟨fun a b => by rw [less_eq_true_iff, less_eq_true_iff]; exact le_total _ _⟩
    have trans : IsTrans ℕ fun a b => less target a b = true :=
      ⟨fun a b c => by simp only [less_eq_true_iff]; exact le_trans⟩
    exact List.pairwise_insertionSort _ _
  have distinct : (kl.get target).Nodup := (List.perm_insertionSort _ _).nodup_iff.mpr nodup
  refine (sorted.and distinct).imp fun ⟨near, other⟩ => ?_
  exact lt_of_le_of_ne (less_eq_true_iff.mp near) fun same => other (Xor.inj same)

/-- The first is the nearest. -/
theorem nearest_head (nodup : kl.nodes.Nodup) (first : (kl.get target).head? = some number) :
    Xor.Nearest kl.nodes target number := by
  have sorted := get_sorted target nodup
  obtain ⟨rest, list⟩ := List.head?_eq_some_iff.mp first
  rw [list, List.pairwise_cons] at sorted
  refine ⟨mem_get.mp (list ▸ List.mem_cons_self), fun other mem => ?_⟩
  have inside : other ∈ number :: rest := list ▸ mem_get.mpr mem
  rcases List.mem_cons.mp inside with rfl | behind
  · exact le_rfl
  · exact (sorted.1 other behind).le

theorem exists_head (target : ℕ) (inside : number ∈ kl.nodes) : ∃ first, (kl.get target).head? = some first := by
  cases list : kl.get target with
  | nil =>
    have mem : number ∈ kl.get target := mem_get.mpr inside
    rw [list] at mem
    cases mem
  | cons first rest => exact ⟨first, rfl⟩

end Kademlia

namespace NodeManager

variable {this : NodeManager} {target : Multihash} {outId : Option Multihash}

/-- The numbers among which a search that includes the node itself looks. -/
def searched (this : NodeManager) (outId : Option Multihash) : List ℕ := (this.candidates outId true).nodes

theorem mem_searched {number : ℕ} : number ∈ this.searched outId ↔
    number = this.nodeSelf.number ∨ ∃ id ∈ this.nodes, id ≠ outId.getD [] ∧ id.number = number := by
  rw [searched, candidates]
  simp [Kademlia.mem_addIds, and_assoc]

/-- A search that includes the node itself finds the id of the nearest number. -/
theorem findNearInSuper_self (this : NodeManager) (target : Multihash) (outId : Option Multihash) :
    ∃ number, Xor.Nearest (this.searched outId) target.number number ∧
      this.findNearInSuper target outId true = some (Multihash.ofNumber number) := by
  have inside : this.nodeSelf.number ∈ this.searched outId := mem_searched.mpr (.inl rfl)
  obtain ⟨number, first⟩ := Kademlia.exists_head target.number inside
  refine ⟨number, Kademlia.nearest_head ?_ first, ?_⟩
  · exact Kademlia.nodup_addIds (Kademlia.nodup_add List.nodup_nil) _
  · rw [findNearInSuper, first]
    rfl

/-- What a search finds is made of its number, and is no farther than the node itself. -/
theorem near_spec {target found : Multihash} (near : this.findNearInSuper target outId true = some found) :
    found = Multihash.ofNumber found.number ∧
      target.number ^^^ found.number ≤ target.number ^^^ this.nodeSelf.number := by
  obtain ⟨number, ⟨searched, least⟩, near'⟩ := findNearInSuper_self this target outId
  obtain rfl : found = Multihash.ofNumber number := Option.some.inj (near.symm.trans near')
  have made : (Multihash.ofNumber number).number = number := by
    rcases mem_searched.mp searched with rfl | ⟨id, -, -, rfl⟩
    · exact Multihash.number_ofNumber_number _
    · exact Multihash.number_ofNumber_number _
  rw [made]
  exact ⟨rfl, least _ (mem_searched.mpr (.inl rfl))⟩

section Behind

variable {self : Bytes} {list : List ℕ}

theorem behind_true (others : ∀ number ∈ list, BigEndian.bytes number ≠ self) :
    behind self true list = list.map Multihash.ofNumber := by
  induction list with
  | nil => rfl
  | cons one list ih =>
    rw [List.forall_mem_cons] at others
    rw [behind, if_neg others.1, if_pos rfl, ih others.2, List.map_cons]

theorem behind_false (others : ∀ number ∈ list, BigEndian.bytes number ≠ self) (tail : List ℕ) :
    behind self false (list ++ tail) = behind self false tail := by
  induction list with
  | nil => rfl
  | cons one list ih =>
    rw [List.forall_mem_cons] at others
    rw [List.cons_append, behind, if_neg others.1, if_neg Bool.false_ne_true, ih others.2]

end Behind

theorem eq_of_bytes {number : ℕ} {id : Multihash} (same : BigEndian.bytes number = id.data) : number = id.number := by
  rw [Multihash.number, ← same, BigEndian.number_bytes]

/-- All numbers that a node sorts to find those behind it. -/
def sorted (this : NodeManager) (id : Multihash) : Kademlia :=
  this.nodes.foldl (fun kl one => kl.add one.number) (((Kademlia.mk []).add this.nodeSelf.number).add id.number)

theorem mem_sorted {id : Multihash} {number : ℕ} : number ∈ (this.sorted id).nodes ↔
    number = this.nodeSelf.number ∨ number = id.number ∨ ∃ one ∈ this.nodes, one.number = number := by
  rw [sorted]
  simp [Kademlia.mem_addIds, or_assoc]

/-- Behind an item of a sorted list stand the items that are larger. -/
private theorem mem_after_iff {before after : List ℕ} {key : ℕ → ℕ} {item other : ℕ}
    (sorted : (before ++ item :: after).Pairwise fun first second => key first < key second) :
    other ∈ after ↔ other ∈ before ++ item :: after ∧ key item < key other := by
  obtain ⟨-, behind, across⟩ := List.pairwise_append.mp sorted
  rw [List.pairwise_cons] at behind
  constructor
  · intro later
    exact ⟨List.mem_append_right _ (List.mem_cons_of_mem _ later), behind.1 other later⟩
  · rintro ⟨mem, larger⟩
    rcases List.mem_append.mp mem with earlier | mem
    · exact absurd (across other earlier item List.mem_cons_self) larger.asymm
    · rcases List.mem_cons.mp mem with rfl | later
      · exact absurd larger (lt_irrefl _)
      · exact later

/-- A node with the digest of its number passes on to all that are farther than itself. -/
private theorem mem_getIdsForFar_own (own : BigEndian.bytes this.nodeSelf.number = this.nodeSelf.data)
    {id far : Multihash} : far ∈ this.getIdsForFar id ↔ ∃ number ∈ (this.sorted id).nodes,
      far = Multihash.ofNumber number ∧ id.number ^^^ this.nodeSelf.number < id.number ^^^ number := by
  have nodup : (this.sorted id).nodes.Nodup :=
    Kademlia.nodup_addIds (Kademlia.nodup_add (Kademlia.nodup_add List.nodup_nil)) _
  have inside : this.nodeSelf.number ∈ (this.sorted id).get id.number :=
    Kademlia.mem_get.mpr (mem_sorted.mpr (.inl rfl))
  obtain ⟨before, after, split⟩ := List.append_of_mem inside
  have order := Kademlia.get_sorted id.number nodup
  rw [split] at order
  have others {number : ℕ} (apart : id.number ^^^ number ≠ id.number ^^^ this.nodeSelf.number) :
      BigEndian.bytes number ≠ this.nodeSelf.data := fun same => apart (by rw [eq_of_bytes same])
  have list : this.getIdsForFar id = after.map Multihash.ofNumber := by
    change behind this.nodeSelf.data false ((this.sorted id).get id.number) = _
    obtain ⟨-, behind_lt, before_lt⟩ := List.pairwise_append.mp order
    rw [split, behind_false, behind, if_pos own, behind_true]
    · exact fun number mem => others ((List.pairwise_cons.mp behind_lt).1 number mem).ne'
    · exact fun number mem => others (before_lt number mem _ List.mem_cons_self).ne
  have known {number : ℕ} : number ∈ after ↔ number ∈ (this.sorted id).nodes ∧
      id.number ^^^ this.nodeSelf.number < id.number ^^^ number := by
    rw [mem_after_iff order, ← split, Kademlia.mem_get]
  simp only [list, List.mem_map, known, and_assoc]
  exact exists_congr fun number => and_congr_right fun _ => ⟨fun ⟨farther, same⟩ => ⟨same.symm, farther⟩,
    fun ⟨same, farther⟩ => ⟨farther, same.symm⟩⟩

/-- What is passed on to is farther than the node, when the node's digest is that of its number; otherwise
there is nothing. -/
theorem mem_getIdsForFar {id far : Multihash} : far ∈ this.getIdsForFar id ↔
    BigEndian.bytes this.nodeSelf.number = this.nodeSelf.data ∧
      ∃ one ∈ this.nodes, far = Multihash.ofNumber one.number ∧
        id.number ^^^ this.nodeSelf.number < id.number ^^^ one.number := by
  by_cases own : BigEndian.bytes this.nodeSelf.number = this.nodeSelf.data
  · rw [mem_getIdsForFar_own own, and_iff_right own]
    constructor
    · rintro ⟨number, mem, rfl, farther⟩
      rcases mem_sorted.mp mem with rfl | rfl | ⟨one, stored, rfl⟩
      · exact absurd farther (lt_irrefl _)
      · rw [Nat.xor_self] at farther
        exact absurd farther (Nat.not_lt_zero _)
      · exact ⟨one, stored, rfl, farther⟩
    · rintro ⟨one, stored, rfl, farther⟩
      exact ⟨one.number, mem_sorted.mpr (.inr (.inr ⟨one, stored, rfl⟩)), rfl, farther⟩
  · have none : this.getIdsForFar id = [] := by
      change behind this.nodeSelf.data false ((this.sorted id).get id.number) = _
      rw [← List.append_nil (Kademlia.get _ _), behind_false, behind]
      exact fun number _ same => own (eq_of_bytes same ▸ same)
    rw [none]
    exact iff_of_false List.not_mem_nil fun ⟨same, _⟩ => own same

end NodeManager

end PolarCloud.NodeStore
