import PolarCloud.Proofs.NodeStore.ExactSearch

/-! # Who is farther away

A broadcast is sent on to the ids that stand behind the own number in a sorted list, each made of its number again. The
own number is not found there when the own digest begins with a zero byte, and then nobody is reached.
-/

namespace PolarCloud.NodeStore.NodeManager

variable {this : NodeManager} {id : Multihash}

/-- The result holds, once each, all nodes of the table that are farther from the id than the node itself, and nothing
else. -/
structure AllFar (this : NodeManager) (id : Multihash) : Prop where
  nodup : (this.getIdsForFar id).Nodup
  far : ∀ one, one ∈ this.getIdsForFar id ↔
    one ∈ this.nodes ∧ id.number ^^^ this.nodeSelf.number < id.number ^^^ one.number

theorem behind_sublist (self : Bytes) (find : Bool) (list : List ℕ) :
    (behind self find list).Sublist (list.map Multihash.ofNumber) := by
  induction list generalizing find with
  | nil => exact .slnil
  | cons one list ih =>
    rw [behind, List.map_cons]
    split
    · exact (ih true).cons _
    · split
      · exact (ih find).cons_cons _
      · exact (ih find).cons _

/-- Numbers of ids are sorted, so no id is made twice. -/
theorem nodup_getIdsForFar (this : NodeManager) (id : Multihash) : (this.getIdsForFar id).Nodup := by
  apply (behind_sublist _ _ _).nodup
  have distinct : (this.sorted id).nodes.Nodup :=
    Kademlia.nodup_addIds (Kademlia.nodup_add (Kademlia.nodup_add List.nodup_nil)) _
  have numbers {number : ℕ} (mem : number ∈ (this.sorted id).get id.number) :
      (Multihash.ofNumber number).number = number := by
    rcases mem_sorted.mp (Kademlia.mem_get.mp mem) with rfl | rfl | ⟨one, -, rfl⟩
    · exact Multihash.number_ofNumber_number _
    · exact Multihash.number_ofNumber_number _
    · exact Multihash.number_ofNumber_number _
  apply List.Nodup.map_on
  · intro first mem second mem' same
    rw [← numbers mem, same, numbers mem']
  · exact (List.perm_insertionSort _ _).nodup_iff.mpr distinct

theorem bytes_number_iff : BigEndian.bytes id.number = id.data ↔ id.data.head? ≠ some 0 := by
  constructor
  · intro same
    rw [← same]
    exact BigEndian.head?_bytes _
  · exact BigEndian.bytes_number

/-- All farther nodes are found exactly when, if there are any, neither the own digest nor one of theirs begins with a
zero byte. -/
theorem getIdsForFar_iff (nodeIds : ∀ one ∈ this.nodes, IsNodeId one) (id : Multihash) : AllFar this id ↔
    ∀ one ∈ this.nodes, id.number ^^^ this.nodeSelf.number < id.number ^^^ one.number →
      this.nodeSelf.data.head? ≠ some 0 ∧ one.data.head? ≠ some 0 := by
  constructor
  · intro all one stored farther
    obtain ⟨own, two, stored', same, -⟩ := mem_getIdsForFar.mp ((all.far one).mpr ⟨stored, farther⟩)
    refine ⟨bytes_number_iff.mp own, ?_⟩
    have number : one.number = two.number := by rw [same, Multihash.number_ofNumber_number]
    apply (nodeIds one stored).ofNumber_number_iff.mp
    rw [number, ← same]
  · intro plain
    refine ⟨nodup_getIdsForFar this id, fun one => ?_⟩
    rw [mem_getIdsForFar]
    constructor
    · rintro ⟨-, two, stored, rfl, farther⟩
      rw [(nodeIds two stored).ofNumber_number_iff.mpr (plain two stored farther).2]
      exact ⟨stored, farther⟩
    · rintro ⟨stored, farther⟩
      obtain ⟨own, leading⟩ := plain one stored farther
      have same := (nodeIds one stored).ofNumber_number_iff.mpr leading
      exact ⟨bytes_number_iff.mpr own, one, stored, same.symm, farther⟩

theorem far_three : AllFar threeNodes (idOf 7) ↔
    ∀ one ∈ threeNodes.nodes, (idOf 7).number ^^^ (idOf 7).number < (idOf 7).number ^^^ one.number →
      (idOf 7).data.head? ≠ some 0 ∧ one.data.head? ≠ some 0 :=
  @getIdsForFar_iff threeNodes nodeIds_threeNodes.nodes (idOf 7)

/-- A node whose digest begins with a zero byte, with two others in its table. -/
def ownZero : NodeManager where
  nodeSelf := idOf 0
  nodes := [idOf 1, idOf 2]

/-- It finds nobody farther than itself, though one is; and what is found instead of an id with a zero byte is none of
the table. -/
theorem far_lost : ¬ AllFar ownZero (idOf 1) ∧ ¬ AllFar threeNodes (idOf 7) := by
  constructor
  · intro all
    have found := (all.far (idOf 2)).mpr ⟨by decide, by decide⟩
    exact absurd found (by decide)
  · intro all
    have found := (all.far (idOf 0)).mpr ⟨by decide, by decide⟩
    exact absurd found (by decide)

end PolarCloud.NodeStore.NodeManager
