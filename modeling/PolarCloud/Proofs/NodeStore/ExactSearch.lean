import PolarCloud.Proofs.NodeStore.Search

/-! # Which id a search returns

A search turns ids into numbers, takes the nearest number, and makes an id of it again. Among the ids that nodes make
for themselves this gives the nearest id back exactly when its digest does not begin with a zero byte.
-/

namespace PolarCloud.NodeStore

/-- The result of a search among candidates: nothing if there are none, and otherwise one of the nearest. -/
def Exact (candidates : List Multihash) (target : Multihash) (found : Option Multihash) : Prop :=
  (found = none ↔ candidates = []) ∧
    ∀ id, found = some id →
      id ∈ candidates ∧ ∀ other ∈ candidates, target.number ^^^ id.number ≤ target.number ^^^ other.number

instance (candidates : List Multihash) (target : Multihash) (found : Option Multihash) :
    Decidable (Exact candidates target found) := by
  unfold Exact
  infer_instance

/-- No candidate that is nearest to the target has a digest that begins with a zero byte. -/
def Plain (candidates : List Multihash) (target : Multihash) : Prop :=
  ∀ id ∈ candidates, (∀ other ∈ candidates, target.number ^^^ id.number ≤ target.number ^^^ other.number) →
    id.data.head? ≠ some 0

theorem exact_iff_plain {candidates : List Multihash} (nodeIds : ∀ id ∈ candidates, IsNodeId id) (target : Multihash)
    {kl : Kademlia} (nodup : kl.nodes.Nodup) (numbers : ∀ number, number ∈ kl.nodes ↔
      ∃ id ∈ candidates, id.number = number) :
    Exact candidates target ((kl.get target.number).head?.map Multihash.ofNumber) ↔ Plain candidates target := by
  cases list : kl.get target.number with
  | nil =>
    have none : candidates = [] := by
      refine List.eq_nil_iff_forall_not_mem.mpr fun id mem => ?_
      have inside : id.number ∈ kl.get target.number := Kademlia.mem_get.mpr ((numbers _).mpr ⟨id, mem, rfl⟩)
      rw [list] at inside
      cases inside
    subst none
    exact iff_of_true ⟨by simp, nofun⟩ nofun
  | cons number rest =>
    obtain ⟨inside, least⟩ := Kademlia.nearest_head nodup (by rw [list]; rfl)
    obtain ⟨nearest, mem, rfl⟩ := (numbers number).mp inside
    have near (other : Multihash) (mem' : other ∈ candidates) :
        target.number ^^^ nearest.number ≤ target.number ^^^ other.number :=
      least _ ((numbers _).mpr ⟨other, mem', rfl⟩)
    have only {id : Multihash} (mem' : id ∈ candidates)
        (near' : ∀ other ∈ candidates, target.number ^^^ id.number ≤ target.number ^^^ other.number) : id = nearest :=
      (nodeIds id mem').number_inj (nodeIds nearest mem) (Xor.inj (le_antisymm (near' _ mem) (near _ mem')))
    have plain : Plain candidates target ↔ nearest.data.head? ≠ some 0 :=
      ⟨fun all => all nearest mem near, fun leading id mem' near' => only mem' near' ▸ leading⟩
    rw [plain, ← (nodeIds nearest mem).ofNumber_number_iff, List.head?_cons, Option.map_some]
    constructor
    · rintro ⟨-, found⟩
      obtain ⟨mem', near'⟩ := found _ rfl
      exact only mem' near'
    · intro same
      rw [same]
      refine ⟨iff_of_false (Option.some_ne_none _) (List.ne_nil_of_mem mem), ?_⟩
      rintro id ⟨⟩
      exact ⟨mem, near⟩

namespace NodeManager

variable {this : NodeManager} {outId : Option Multihash} {includeSelf : Bool}

/-- The ids among which `FindNearInSuper` looks: the super nodes without the excluded one, and the node itself. -/
def inSuper (this : NodeManager) (outId : Option Multihash) (includeSelf : Bool) : List Multihash :=
  (if includeSelf then [this.nodeSelf] else []) ++ this.nodes.filter fun one => outId ≠ some one

/-- The ids among which `FindNearNodeId` looks: these, and the proxied nodes that are no apps. -/
def inNodes (this : NodeManager) (apps : List Multihash) (outId : Option Multihash) (includeSelf : Bool) :
    List Multihash :=
  this.inSuper outId includeSelf ++ this.proxys.filter fun one => outId ≠ some one ∧ one ∉ apps

/-- All ids that a node knows are of the kind that nodes make for themselves. -/
structure NodeIds (this : NodeManager) : Prop where
  nodeSelf : IsNodeId this.nodeSelf
  nodes : ∀ id ∈ this.nodes, IsNodeId id
  proxys : ∀ id ∈ this.proxys, IsNodeId id

namespace NodeIds

theorem of_mem_inSuper (ids : this.NodeIds) {id : Multihash} (mem : id ∈ this.inSuper outId includeSelf) :
    IsNodeId id := by
  rw [inSuper, List.mem_append] at mem
  rcases mem with self | node
  · cases includeSelf with
    | false => cases self
    | true => exact List.mem_singleton.mp self ▸ ids.nodeSelf
  · exact ids.nodes id (List.mem_filter.mp node).1

theorem of_mem_inNodes (ids : this.NodeIds) {apps : List Multihash} {id : Multihash}
    (mem : id ∈ this.inNodes apps outId includeSelf) : IsNodeId id := by
  rw [inNodes, List.mem_append] at mem
  rcases mem with inside | proxy
  · exact ids.of_mem_inSuper inside
  · exact ids.proxys id (List.mem_filter.mp proxy).1

end NodeIds

/-- No node makes itself the id that a missing `outId` stands for. -/
theorem excluded_iff {one : Multihash} (nodeId : IsNodeId one) : one ≠ outId.getD [] ↔ outId ≠ some one := by
  cases outId with
  | some out => rw [Option.getD_some, Ne, Ne, Option.some_inj, eq_comm]
  | none =>
    refine iff_of_true ?_ nofun
    rintro rfl
    exact absurd nodeId.data_eq.1 (by decide)

theorem mem_candidates (ids : this.NodeIds) {number : ℕ} : number ∈ (this.candidates outId includeSelf).nodes ↔
    ∃ id ∈ this.inSuper outId includeSelf, id.number = number := by
  have nodes : (∃ id ∈ this.nodes.filter fun one => one ≠ outId.getD [], id.number = number) ↔
      ∃ id ∈ this.nodes.filter fun one => outId ≠ some one, id.number = number := by
    simp only [List.mem_filter, decide_eq_true_eq]
    refine exists_congr fun id => and_congr_left fun _ => and_congr_right fun mem => excluded_iff (ids.nodes id mem)
  have self : number ∈ (if includeSelf then (Kademlia.mk []).add this.nodeSelf.number else {} : Kademlia).nodes ↔
      ∃ id ∈ (if includeSelf then [this.nodeSelf] else []), id.number = number := by
    cases includeSelf with
    | false => simp
    | true => simp [eq_comm]
  rw [candidates, Kademlia.mem_addIds, nodes, self, inSuper]
  simp only [List.mem_append, or_and_right, exists_or]

theorem nodup_candidates : (this.candidates outId includeSelf).nodes.Nodup := by
  refine Kademlia.nodup_addIds ?_ _
  cases includeSelf with
  | false => exact List.nodup_nil
  | true => exact Kademlia.nodup_add List.nodup_nil

/-- A search among the super nodes returns the nearest of them exactly when its digest does not begin with a zero
byte, and so does a search among all nodes. -/
theorem near_exact_iff (ids : this.NodeIds) (apps : List Multihash) (target : Multihash) (outId : Option Multihash)
    (includeSelf : Bool) :
    (Exact (this.inSuper outId includeSelf) target (this.findNearInSuper target outId includeSelf) ↔
        Plain (this.inSuper outId includeSelf) target) ∧
      (Exact (this.inNodes apps outId includeSelf) target (this.findNearNodeId apps target outId includeSelf) ↔
        Plain (this.inNodes apps outId includeSelf) target) := by
  constructor
  · exact exact_iff_plain (fun id => ids.of_mem_inSuper) target nodup_candidates fun number => mem_candidates ids
  · refine exact_iff_plain (fun id => ids.of_mem_inNodes) target (Kademlia.nodup_addIds nodup_candidates _)
      fun number => ?_
    have proxys : (∃ id ∈ this.proxys.filter fun one => one ≠ outId.getD [] ∧ one ∉ apps, id.number = number) ↔
        ∃ id ∈ this.proxys.filter fun one => outId ≠ some one ∧ one ∉ apps, id.number = number := by
      simp only [List.mem_filter, decide_eq_true_eq]
      refine exists_congr fun id => and_congr_left fun _ => and_congr_right fun mem => ?_
      rw [excluded_iff (ids.proxys id mem)]
    rw [Kademlia.mem_addIds, mem_candidates ids, proxys, inNodes]
    simp only [List.mem_append, or_and_right, exists_or]

end NodeManager

/-- A node whose table holds three ids, one of them without a first bit. -/
def threeNodes : NodeManager where
  nodeSelf := idOf 7
  nodes := [idOf 0, idOf 1, idOf 2]

theorem nodeIds_threeNodes : threeNodes.NodeIds where
  nodeSelf := nodeId_idOf 7
  nodes id mem := by
    simp only [threeNodes, List.mem_cons, List.not_mem_nil, or_false] at mem
    rcases mem with rfl | rfl | rfl <;> exact nodeId_idOf _
  proxys _ mem := nomatch mem

theorem near_exact_three :
    (Exact (threeNodes.inSuper none true) (idOf 3) (threeNodes.findNearInSuper (idOf 3) none true) ↔
        Plain (threeNodes.inSuper none true) (idOf 3)) ∧
      (Exact (threeNodes.inNodes [] none true) (idOf 3) (threeNodes.findNearNodeId [] (idOf 3) none true) ↔
        Plain (threeNodes.inNodes [] none true) (idOf 3)) :=
  NodeManager.near_exact_iff nodeIds_threeNodes [] (idOf 3) none true

/-- The nearest id begins with a zero byte: what is returned is no candidate. -/
theorem zero_byte_lost : threeNodes.NodeIds ∧
    ¬ Exact (threeNodes.inSuper none true) (idOf 0) (threeNodes.findNearInSuper (idOf 0) none true) ∧
    ¬ Exact (threeNodes.inNodes [] none true) (idOf 0) (threeNodes.findNearNodeId [] (idOf 0) none true) := by
  refine ⟨nodeIds_threeNodes, ?_, ?_⟩
  · decide
  · decide

end PolarCloud.NodeStore
