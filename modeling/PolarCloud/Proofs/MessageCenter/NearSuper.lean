import PolarCloud.Model.MessageCenter.NearSuper
import PolarCloud.Proofs.NodeStore.Additions

/-! # Which of the offered nodes are added

The handler leaves its loop at the first node that is not needed; an ordinary node leaves it when the nearest node has
the first slot, which is nearly always. An entry that points to the variable of the loop holds the next node of the
list one turn later, and the loop ends there.
-/

namespace PolarCloud.MessageCenter.NearSuper

open NodeStore NodeManager

/-- Add the nodes of a list in order. -/
def addNodes (this : NodeManager) (turns : List Turn) : NodeManager :=
  turns.foldl (fun this turn => this.addNode (turn.add.visit this.nodes) turn.id) this

/-- No node of a list is needed at its turn. -/
def NoneNeeded (this : NodeManager) (turns : List Turn) : Prop :=
  ∀ front turn back, turns = front ++ turn :: back → ¬ (addNodes this front).Needs turn.id

/-- Whether the node is a super node at the turn behind some others, to all of which connections were made. -/
def superAt (isSuper : Bool) (front : List Turn) : Bool := (front.getLast?.map Turn.isSuper).getD isSuper

/-- What stands before a needed node is needed itself, has no session, and if the node is an ordinary one with the new
connection, the nearest node is not in the first slot. A needed node that has a session is followed by nothing, or by
itself, or the node is an ordinary one whose nearest node is in the first slot then. -/
structure Considered (isSuper : Bool) (this : NodeManager) (turns : List Turn) : Prop where
  before : ∀ front turn middle needed back, turns = front ++ turn :: (middle ++ needed :: back) →
    (addNodes this (front ++ turn :: middle)).Needs needed.id →
      (addNodes this front).Needs turn.id ∧ turn.session = false ∧
        (turn.isSuper = false → ¬ (addNodes this (front ++ [turn])).NearIsFirst)
  own : ∀ front turn other back, turns = front ++ turn :: other :: back →
    (addNodes this front).Needs turn.id → turn.session = true →
      other.id = turn.id ∨ superAt isSuper front = false ∧ (addNodes this (front ++ [turn])).NearIsFirst

/-- Each entry is stored under its own name. -/
def OwnNames (this : Handler) : Prop := ∀ key ∈ this.manager.nodes, this.idOf key = key

/-- The handler ends, its table has the nodes that are there when the whole list is added in order, each stored under
its own name, and the slots that are built from the two tables hold the same ids. -/
def AllAdded (this : NodeManager) (turns : List Turn) (handled : Option Handler) : Prop :=
  ∃ last, handled = some last ∧ Same last.manager (addNodes this turns) ∧ OwnNames last ∧
    ∀ order order' : TableOrder, ∀ i < nodeIdLevel, (last.manager.rebuilt (order.visit last.getAllNodes)).ids[i]? =
      ((addNodes this turns).rebuilt (order'.visit (addNodes this turns).nodes)).ids[i]?

/-! ## Lists of which nothing is needed -/

variable {this that : NodeManager} {rest : List Turn} {now : Turn}

/-- The tables after one addition. -/
def after (this : NodeManager) (now : Turn) : NodeManager := this.addNode (now.add.visit this.nodes) now.id

theorem addNodes_cons : addNodes this (now :: rest) = addNodes (after this now) rest := rfl

theorem noneNeeded_nil (this : NodeManager) : NoneNeeded this [] := by
  intro front turn back split
  cases (List.append_eq_nil_iff.mp split.symm).2

theorem noneNeeded_cons : NoneNeeded this (now :: rest) ↔ ¬ this.Needs now.id ∧ NoneNeeded (after this now) rest := by
  constructor
  · intro none
    exact ⟨none [] now rest rfl, fun front turn back split => none (now :: front) turn back (by rw [split]; rfl)⟩
  · rintro ⟨first, none⟩ front turn back split
    cases front with
    | nil =>
      cases split
      exact first
    | cons _ front =>
      cases split
      exact none front turn back rfl

theorem sound_addNodes (sound : this.Sound) {turns : List Turn} (superIds : ∀ turn ∈ turns, IsSuperId turn.id) :
    (addNodes this turns).Sound := by
  induction turns generalizing this with
  | nil => exact sound
  | cons now rest ih =>
    obtain ⟨superId, superIds⟩ := List.forall_mem_cons.mp superIds
    exact ih (sound_addNode sound now.add superId) superIds

theorem near_addNodes (sound : this.Sound) {turns : List Turn} (superIds : ∀ turn ∈ turns, IsSuperId turn.id) {i : ℕ}
    (level : i < nodeIdLevel) {one : Multihash} (mem : one ∈ this.nodes) : ∃ two ∈ (addNodes this turns).nodes,
      place this.nodeSelf i ^^^ two.number ≤ place this.nodeSelf i ^^^ one.number := by
  induction turns generalizing this one with
  | nil => exact ⟨one, mem, le_rfl⟩
  | cons now rest ih =>
    obtain ⟨superId, superIds⟩ := List.forall_mem_cons.mp superIds
    obtain ⟨two, mem, near⟩ := near_addNode sound now.add superId level mem
    obtain ⟨three, mem, nearer⟩ := ih (sound_addNode sound now.add superId) superIds mem
    rw [addNode_nodeSelf] at nearer
    exact ⟨three, mem, nearer.trans near⟩

/-- A list changes what is in a table exactly when one of its nodes is needed. -/
theorem noneNeeded_iff (sound : this.Sound) (superIds : ∀ turn ∈ rest, IsSuperId turn.id) :
    NoneNeeded this rest ↔ Same this (addNodes this rest) := by
  induction rest with
  | nil =>
    exact iff_of_true (noneNeeded_nil this) ⟨rfl, fun id => Iff.rfl⟩
  | cons now rest ih =>
    obtain ⟨superId, superIds⟩ := List.forall_mem_cons.mp superIds
    rw [noneNeeded_cons, addNodes_cons]
    by_cases needs : this.Needs now.id
    · refine iff_of_false (fun both => both.1 needs) fun same => ?_
      have inside := mem_addNode_needed sound (now.add.perm _) superId needs
      obtain ⟨-, i, level, nearer⟩ := needs
      obtain ⟨two, mem, near⟩ := near_addNodes (sound_addNode sound now.add superId) superIds level inside
      rw [addNode_nodeSelf] at near
      exact (nearer two ((same.nodes two).mpr mem)).not_ge near
    · rw [and_iff_right needs, after, addNode_unneeded sound now.add needs]
      exact ih superIds

/-! ## One turn -/

namespace Handler

variable {handler : Handler}

theorem idOf_of_clean (handler : Handler) (clean : handler.pointing = []) (key : Multihash) :
    handler.idOf key = key := by
  rw [idOf, clean, if_neg List.not_mem_nil]

/-- The entry of the node of this turn is right. -/
theorem idOf_of_own (handler : Handler) {id : Multihash} (points : handler.pointing = [id])
    (own : handler.newNode = id) (key : Multihash) : handler.idOf key = key := by
  rw [idOf, points, own, ite_eq_right_iff]
  exact fun mem => (List.mem_singleton.mp mem).symm

/-- Where all entries have objects of their own, the ids are the names. -/
theorem getAllNodes_of_clean (clean : handler.pointing = []) : handler.getAllNodes = handler.manager.nodes := by
  rw [getAllNodes]
  exact (List.map_congr_left fun key _ => handler.idOf_of_clean clean key).trans (List.map_id _)

theorem stores_iff_needs (sound : handler.manager.Sound) (order : TableOrder) {id : Multihash}
    (other : id ≠ handler.manager.nodeSelf) :
    handler.stores (order.visit handler.manager.nodes) id = true ↔ handler.manager.Needs id := by
  rw [← checkNeedNode_iff_needs sound order fun own => absurd own other, stores]
  by_cases empty : order.visit handler.manager.nodes = []
  · rw [checkNeedNode, empty]
    simp only [ne_eq, other, not_false_eq_true, decide_true, Bool.true_and, List.isEmpty_nil, if_true]
    exact iff_of_true rfl trivial
  · rw [checkNeedNode_eq empty other]
    simp only [ne_eq, other, not_false_eq_true, decide_true, Bool.true_and]
    exact Iff.rfl

/-- The second addition of a node changes nothing. -/
theorem addNewNode_stored (clean : handler.pointing = []) (sound : handler.manager.Sound)
    (other : handler.newNode ≠ handler.manager.nodeSelf) (unneeded : ¬ handler.manager.Needs handler.newNode) :
    handler.addNewNode now = handler := by
  have refused := not_congr (stores_iff_needs sound now.add other)
  rw [Bool.not_eq_true] at refused
  rw [addNewNode, getAllNodes_of_clean clean, refused.mpr unneeded, addNode_unneeded sound now.add unneeded]
  rfl

/-- The loop ends at a node that is not needed. -/
theorem turn_unneeded (clean : handler.pointing = []) (sound : handler.manager.Sound)
    (own : now.id = handler.manager.nodeSelf → handler.manager.nodes ≠ []) (unneeded : ¬ handler.manager.Needs now.id) :
    handler.turn now = some (.done { handler with newNode := now.id }) := by
  have ids := @getAllNodes_of_clean { handler with newNode := now.id } clean
  have refused := not_congr (checkNeedNode_iff_needs sound now.check own)
  rw [Bool.not_eq_true] at refused
  rw [turn]
  dsimp only
  rw [ids, refused.mpr unneeded]
  rfl

/-- What is left by a turn with a needed node. -/
structure Turned (handler : Handler) (now : Turn) (next : Handler) : Prop where
  same : Same next.manager (after handler.manager now)
  sound : next.manager.Sound
  isSuper : next.manager.isSuper = if now.session then handler.manager.isSuper else now.isSuper
  newNode : next.newNode = now.id
  pointing : next.pointing = if now.session then [now.id] else []

/-- The part of a turn that is about the super peer. -/
def checkSuperPeer (this : Handler) : Option (ForInStep Handler) :=
  if this.manager.isSuper then some (.yield this)
  else
    match { this.manager with nodes := this.getAllNodes }.findNearInSuper this.manager.nodeSelf none false,
      this.manager.superPeerId with
    | some nearId, some superPeerId =>
        if nearId = superPeerId then some (.done this)
        else some (.yield { this with manager := { this.manager with superPeerId := some nearId } })
    | _, _ => none

/-- An ordinary node leaves the loop where the nearest node is in the first slot, and takes it for its super peer
otherwise. -/
theorem checkSuperPeer_eq {this : Handler} (ids : this.getAllNodes = this.manager.nodes) (sound : this.manager.Sound)
    (firstPeer : this.manager.FirstPeer) :
    (this.manager.isSuper = false ∧ this.manager.NearIsFirst → this.checkSuperPeer = some (.done this)) ∧
      (¬ (this.manager.isSuper = false ∧ this.manager.NearIsFirst) → ∃ superPeerId,
        this.checkSuperPeer = some (.yield { this with manager := { this.manager with superPeerId } })) := by
  have superIds := sound.known.superIds sound.zeroFree
  obtain ⟨first, mem, peer, least⟩ := firstPeer
  rw [checkSuperPeer]
  by_cases isSuper : this.manager.isSuper = true
  · rw [if_pos isSuper]
    refine ⟨fun ⟨ordinary, _⟩ => ?_, fun _ => ⟨_, rfl⟩⟩
    rw [isSuper] at ordinary
    cases ordinary
  · have ordinary : this.manager.isSuper = false := Bool.eq_false_iff.mpr isSuper
    have present {one : Multihash} (mem : one ∈ this.manager.nodes) : one ≠ [] := by
      rintro rfl
      exact absurd (superIds _ mem).isNodeId.data_eq.1 (by decide)
    rw [if_neg isSuper, ids, peer]
    rcases findNearInSuper_others this.manager this.manager.nodeSelf with ⟨only, -⟩ | ⟨near, member, -, nearest, found⟩
    · exact absurd (only first mem) (present mem)
    · rw [(superIds near member).ofNumber_number] at found
      -- the nearest node is in the first slot exactly when it is the super peer
      have iff : this.manager.NearIsFirst ↔ near = first := by
        constructor
        · rintro ⟨one, stored, both⟩
          have same : one = near := by
            apply (superIds one stored).number_inj (superIds near member)
            exact Xor.inj (le_antisymm (both near member).1 (nearest one stored (present stored)))
          have same' : one = first := by
            apply (superIds one stored).number_inj (superIds first mem)
            exact Xor.inj (le_antisymm (both first mem).2 (least one stored))
          rw [← same, same']
        · rintro rfl
          exact ⟨near, member, fun one stored => ⟨nearest one stored (present stored), least one stored⟩⟩
      rw [show ({ this.manager with nodes := this.manager.nodes } : NodeManager) = this.manager from rfl, found, iff]
      dsimp only
      constructor
      · rintro ⟨-, same⟩
        rw [if_pos same]
      · intro differ
        rw [if_neg fun same => differ ⟨ordinary, same⟩]
        exact ⟨some near, rfl⟩

/-- The additions of a turn. -/
def added (this : Handler) (now : Turn) : Handler :=
  let this := { this with newNode := now.id }
  (if now.session then this else this.addClientConn now).addNewNode now

theorem turn_eq (clean : handler.pointing = []) (sound : handler.manager.Sound) (needs : handler.manager.Needs now.id) :
    handler.turn now = (handler.added now).checkSuperPeer := by
  have needed := (checkNeedNode_iff_needs sound now.check fun own => absurd own needs.1).mpr needs
  have ids := @getAllNodes_of_clean { handler with newNode := now.id } clean
  rw [turn]
  dsimp only
  rw [ids, needed]
  rfl

/-- With a session the node is added once, and its entry points to the variable. -/
theorem added_session (clean : handler.pointing = []) (sound : handler.manager.Sound)
    (needs : handler.manager.Needs now.id) (session : now.session = true) : handler.added now =
      { manager := after handler.manager now, newNode := now.id, pointing := [now.id] } := by
  have ids := @getAllNodes_of_clean { handler with newNode := now.id } clean
  have stored := (@stores_iff_needs { handler with newNode := now.id } sound now.add now.id needs.1).mpr needs
  rw [added]
  simp only [session, if_true]
  rw [addNewNode, ids]
  dsimp only at stored ⊢
  rw [stored, if_pos rfl, clean]
  rfl

/-- Without one, the connection has added it already. -/
theorem added_connect (clean : handler.pointing = []) (sound : handler.manager.Sound) (superId : IsSuperId now.id)
    (needs : handler.manager.Needs now.id) (session : now.session = false) : handler.added now =
      { manager := { handler.manager.addNode (now.connect.visit handler.manager.nodes) now.id with
          isSuper := now.isSuper }
        newNode := now.id, pointing := [] } := by
  have ids := @getAllNodes_of_clean { handler with newNode := now.id } clean
  have connected : addClientConn { handler with newNode := now.id } now =
      { manager := { handler.manager.addNode (now.connect.visit handler.manager.nodes) now.id with
          isSuper := now.isSuper }
        newNode := now.id, pointing := [] } := by
    rw [addClientConn]
    dsimp only
    rw [ids, clean, List.filter_nil, ite_self]
  rw [added]
  simp only [session, Bool.false_eq_true, if_false]
  rw [connected]
  apply addNewNode_stored rfl
  · exact (sound_addNode sound now.connect superId).congr rfl rfl
  · dsimp only
    rw [addNode_nodeSelf]
    exact needs.1
  · exact not_needs_stored sound (now.connect.perm _) superId needs

theorem turned_added (clean : handler.pointing = []) (sound : handler.manager.Sound) (superId : IsSuperId now.id)
    (needs : handler.manager.Needs now.id) :
    Turned handler now (handler.added now) ∧ (handler.added now).manager.FirstPeer := by
  have own : Same handler.manager handler.manager := ⟨rfl, fun _ => Iff.rfl⟩
  cases session : now.session with
  | true =>
    rw [added_session clean sound needs session]
    refine ⟨⟨⟨rfl, fun _ => Iff.rfl⟩, sound_addNode sound now.add superId, ?_, rfl, ?_⟩, ?_⟩
    · rw [if_pos session, after, addNode_isSuper]
    · rw [if_pos session]
    · exact firstPeer_addNode sound now.add superId needs
  | false =>
    rw [added_connect clean sound superId needs session]
    have same := same_addNode sound sound own superId (now.connect.perm _) (now.add.perm _)
    refine ⟨⟨⟨same.nodeSelf, same.nodes⟩, (sound_addNode sound now.connect superId).congr rfl rfl, ?_, rfl, ?_⟩, ?_⟩
    · rw [session]
      rfl
    · rw [session]
      rfl
    · exact firstPeer_addNode sound now.connect superId needs

/-- A needed node is added, and the loop goes on unless an ordinary node has its nearest node in the first slot. -/
theorem turn_needed (clean : handler.pointing = []) (sound : handler.manager.Sound) (superId : IsSuperId now.id)
    (needs : handler.manager.Needs now.id) : ∃ next, Turned handler now next ∧
      (next.manager.isSuper = false ∧ next.manager.NearIsFirst → handler.turn now = some (.done next)) ∧
        (¬ (next.manager.isSuper = false ∧ next.manager.NearIsFirst) → handler.turn now = some (.yield next)) := by
  obtain ⟨turned, firstPeer⟩ := turned_added clean sound superId needs
  have ids : (handler.added now).getAllNodes = (handler.added now).manager.nodes := by
    rw [getAllNodes]
    refine (List.map_congr_left fun key _ => ?_).trans (List.map_id _)
    have points := turned.pointing
    split at points
    · exact idOf_of_own _ points turned.newNode key
    · exact idOf_of_clean _ points key
  obtain ⟨leaves, stays⟩ := checkSuperPeer_eq ids turned.sound firstPeer
  rw [turn_eq clean sound needs]
  by_cases stop : (handler.added now).manager.isSuper = false ∧ (handler.added now).manager.NearIsFirst
  · exact ⟨handler.added now, turned, leaves, fun other => absurd stop other⟩
  · obtain ⟨superPeerId, yields⟩ := stays stop
    refine ⟨{ handler.added now with manager := { (handler.added now).manager with superPeerId } },
      ⟨⟨turned.same.nodeSelf, turned.same.nodes⟩, ?_, turned.isSuper, turned.newNode, turned.pointing⟩,
      fun other => absurd other stop, fun _ => yields⟩
    exact turned.sound.congr rfl rfl

/-- Behind a node that had a session the loop ends: the entry holds the next node, so that this one is not needed. -/
theorem turn_behind (sound : handler.manager.Sound) (superId : IsSuperId now.id) {id : Multihash}
    (stored : id ∈ handler.manager.nodes) (points : handler.pointing = [id]) :
    handler.turn now = some (.done { handler with newNode := now.id }) := by
  let ids := getAllNodes { handler with newNode := now.id }
  -- the ids that the table holds now, the one of this turn among them
  have member : now.id ∈ ids := by
    refine List.mem_map.mpr ⟨id, stored, ?_⟩
    rw [idOf, points, if_pos (List.mem_singleton_self _)]
  have members : ∀ one ∈ ids, one = now.id ∨ one ∈ handler.manager.nodes := by
    intro one mem
    obtain ⟨key, inside, rfl⟩ := List.mem_map.mp mem
    rw [idOf]
    split
    · exact .inl rfl
    · exact .inr inside
  have refused : handler.manager.checkNeedNode (now.check.visit ids) now.id = false := by
    have some : now.check.visit ids ≠ [] := fun none =>
      List.ne_nil_of_mem member ((visit_eq_nil_iff now.check).mp none)
    by_cases own : now.id = handler.manager.nodeSelf
    · rw [checkNeedNode, if_neg (by simpa using some), if_pos own]
    · have known : KnownIds { handler.manager with nodes := ids } := by
        refine ⟨sound.known.nodeSelf, fun one mem => ?_, fun mem => ?_⟩
        · rcases members one mem with rfl | old
          · exact superId.isNodeId
          · exact sound.known.nodes one old
        · exact (members _ mem).elim (fun same => own same.symm) sound.known.others
      have zeroFree : ZeroFree { handler.manager with nodes := ids } := by
        intro one mem
        rcases members one mem with rfl | old
        · exact superId.data_head?
        · exact sound.zeroFree one old
      exact (refused_iff known zeroFree own now.check).mpr fun _ _ => ⟨now.id, member, le_rfl⟩
  rw [turn]
  change (if (!handler.manager.checkNeedNode (now.check.visit ids) now.id) = true then _ else _) = _
  rw [refused]
  rfl

end Handler

/-! ## The whole list -/

/-- Whether a turn is one behind which the loop goes on without a pointer to its variable. -/
def Passes (this : NodeManager) (now : Turn) : Prop :=
  this.Needs now.id ∧ now.session = false ∧ (now.isSuper = false → ¬ (after this now).NearIsFirst)

theorem superAt_cons (isSuper : Bool) (front : List Turn) :
    superAt isSuper (now :: front) = superAt now.isSuper front := by
  cases front using List.reverseRecOn with
  | nil => rfl
  | append_singleton front last => simp [superAt, List.getLast?_cons]

/-- Behind a turn that passes, the rest of the list is to be considered. -/
theorem considered_passes {isSuper : Bool} (passes : Passes this now) :
    Considered isSuper this (now :: rest) ↔ Considered now.isSuper (after this now) rest := by
  constructor
  · rintro ⟨before, own⟩
    refine ⟨fun front turn middle needed back split needs => ?_, fun front turn other back split needs session => ?_⟩
    · exact before (now :: front) turn middle needed back (by rw [split]; rfl) needs
    · have allowed := own (now :: front) turn other back (by rw [split]; rfl) needs session
      rwa [superAt_cons] at allowed
  · rintro ⟨before, own⟩
    constructor
    · intro front turn middle needed back split needs
      cases front with
      | nil =>
        cases split
        exact passes
      | cons _ front =>
        cases split
        exact before front turn middle needed back rfl needs
    · intro front turn other back split needs session
      cases front with
      | nil =>
        cases split
        exact absurd (passes.2.1.symm.trans session) Bool.false_ne_true
      | cons _ front =>
        cases split
        rw [superAt_cons]
        exact own front turn other back rfl needs session

/-- Behind any other turn nothing may be needed, and a node that had a session is followed by what leaves its entry as
it is. -/
theorem considered_stops {isSuper : Bool} (stops : ¬ Passes this now) : Considered isSuper this (now :: rest) ↔
    NoneNeeded (after this now) rest ∧ (this.Needs now.id → now.session = true → ∀ other back, rest = other :: back →
      other.id = now.id ∨ isSuper = false ∧ (after this now).NearIsFirst) := by
  constructor
  · rintro ⟨before, own⟩
    refine ⟨fun front turn back split needs => stops ?_, fun needs session other back split => ?_⟩
    · exact before [] now front turn back (by rw [split]; rfl) needs
    · exact own [] now other back (by rw [split]; rfl) needs session
  · rintro ⟨none, own⟩
    constructor
    · intro front turn middle needed back split needs
      cases front with
      | nil =>
        cases split
        exact absurd needs (none middle needed back rfl)
      | cons _ front =>
        cases split
        exact absurd needs (none (front ++ turn :: middle) needed back (by simp))
    · intro front turn other back split needs session
      cases front with
      | nil =>
        cases split
        exact own needs session other back rfl
      | cons _ front =>
        cases split
        exact absurd needs (none front turn (other :: back) rfl)

/-- The first part of what is promised. -/
def Added (this : NodeManager) (turns : List Turn) (handled : Option Handler) : Prop :=
  ∃ last, handled = some last ∧ Same last.manager (addNodes this turns) ∧ OwnNames last

/-- What the whole list promises, told of its first turn. -/
theorem added_iff_of_done {handler last : Handler} (turned : handler.turn now = some (.done last)) :
    Added this (now :: rest) (handler.turns (now :: rest)) ↔
      Same last.manager (addNodes (after this now) rest) ∧ OwnNames last := by
  rw [Added, Handler.turns, turned]
  constructor
  · rintro ⟨_, ⟨⟩, all⟩
    exact all
  · exact fun all => ⟨last, rfl, all⟩

/-- A table that has what another one has keeps up with the list exactly when nothing of it is needed. -/
theorem same_addNodes_iff (sound : this.Sound) {turns : List Turn} (superIds : ∀ turn ∈ turns, IsSuperId turn.id)
    (same : Same that this) : Same that (addNodes this turns) ↔ NoneNeeded this turns := by
  rw [noneNeeded_iff sound superIds]
  exact ⟨same.symm.trans, same.trans⟩

/-- A list that begins with a node that is not needed. -/
theorem added_unneeded {handler : Handler} (clean : handler.pointing = []) (sound : handler.manager.Sound)
    (sound' : this.Sound) (same : Same handler.manager this) (superIds : ∀ turn ∈ rest, IsSuperId turn.id)
    (own : now.id = this.nodeSelf → this.nodes ≠ []) (needs : ¬ this.Needs now.id) :
    Added this (now :: rest) (handler.turns (now :: rest)) ↔ Considered handler.manager.isSuper this (now :: rest) := by
  have stops : ¬ Passes this now := fun passes => needs passes.1
  have unchanged : after this now = this := addNode_unneeded sound' now.add needs
  have nonempty : now.id = handler.manager.nodeSelf → handler.manager.nodes ≠ [] := by
    intro itself none
    apply own (itself.trans same.nodeSelf)
    refine List.eq_nil_iff_forall_not_mem.mpr fun id mem => ?_
    rw [← same.nodes, none] at mem
    cases mem
  have ends := Handler.turn_unneeded clean sound nonempty fun needs' => needs (same.needs_iff.mp needs')
  rw [added_iff_of_done ends, considered_stops stops, unchanged, ← same_addNodes_iff sound' superIds same]
  constructor
  · rintro ⟨all, -⟩
    exact ⟨all, fun needs' => absurd needs' needs⟩
  · rintro ⟨all, -⟩
    exact ⟨all, fun key _ => Handler.idOf_of_clean { handler with newNode := now.id } clean key⟩

/-- A list that begins with a needed node that had a session: its entry points to the variable of the loop. -/
theorem added_session {handler next : Handler} (turned : Handler.Turned handler now next)
    (same : Same next.manager (after this now)) (soundAfter : (after this now).Sound)
    (superIds : ∀ turn ∈ rest, IsSuperId turn.id) (stored : now.id ∈ (after this now).nodes) (needs : this.Needs now.id)
    (session : now.session = true)
    (leaves : handler.manager.isSuper = false ∧ (after this now).NearIsFirst → handler.turn now = some (.done next))
    (stays : ¬ (handler.manager.isSuper = false ∧ (after this now).NearIsFirst) →
      handler.turn now = some (.yield next)) :
    Added this (now :: rest) (handler.turns (now :: rest)) ↔ Considered handler.manager.isSuper this (now :: rest) := by
  have stops : ¬ Passes this now := fun passes => Bool.false_ne_true (passes.2.1.symm.trans session)
  have contents := same_addNodes_iff soundAfter superIds same
  have points : next.pointing = [now.id] := by
    rw [turned.pointing, session]
    rfl
  rw [considered_stops stops]
  by_cases stop : handler.manager.isSuper = false ∧ (after this now).NearIsFirst
  · rw [added_iff_of_done (leaves stop), contents]
    refine and_congr_right fun _ => iff_of_true (fun key _ => ?_) fun _ _ _ _ _ => .inr stop
    exact next.idOf_of_own points turned.newNode key
  · cases rest with
    | nil =>
      refine iff_of_true ⟨next, ?_, same, fun key _ => ?_⟩ ⟨noneNeeded_nil _, fun _ _ _ _ split => ?_⟩
      · rw [Handler.turns, stays stop]
        rfl
      · exact next.idOf_of_own points turned.newNode key
      · cases split
    | cons other back =>
      have stored' : now.id ∈ next.manager.nodes := (same.nodes now.id).mpr stored
      have behind := Handler.turn_behind turned.sound (superIds other List.mem_cons_self) stored' points
      have ends : handler.turns (now :: other :: back) = some { next with newNode := other.id } := by
        rw [Handler.turns, stays stop]
        dsimp only
        rw [Handler.turns, behind]
      rw [Added, ends]
      constructor
      · rintro ⟨_, ⟨⟩, all, own'⟩
        refine ⟨contents.mp all, fun _ _ other' back' split => ?_⟩
        cases split
        have held := own' now.id stored'
        rw [Handler.idOf, points, if_pos (List.mem_singleton_self _)] at held
        exact .inl held
      · rintro ⟨none, own'⟩
        refine ⟨_, rfl, contents.mpr none, fun key _ => ?_⟩
        have again := (own' needs session other back rfl).resolve_right stop
        exact Handler.idOf_of_own { next with newNode := other.id } points again key

/-- All of a list is added exactly when its needed nodes are considered. -/
theorem added_iff {handler : Handler} {turns : List Turn} (clean : handler.pointing = [])
    (sound : handler.manager.Sound) (sound' : this.Sound) (same : Same handler.manager this)
    (superIds : ∀ turn ∈ turns, IsSuperId turn.id)
    (own : ∀ turn, turns.head? = some turn → turn.id = this.nodeSelf → this.nodes ≠ []) :
    Added this turns (handler.turns turns) ↔ Considered handler.manager.isSuper this turns := by
  induction turns generalizing handler this with
  | nil =>
    refine iff_of_true ⟨handler, rfl, same, fun key _ => ?_⟩ ⟨?_, ?_⟩
    · exact handler.idOf_of_clean clean key
    · intro front _ _ _ _ split
      cases (List.append_eq_nil_iff.mp split.symm).2
    · intro front _ _ _ split
      cases (List.append_eq_nil_iff.mp split.symm).2
  | cons now rest ih =>
    obtain ⟨superId, superIds⟩ := List.forall_mem_cons.mp superIds
    by_cases needs : this.Needs now.id
    · have soundAfter : (after this now).Sound := sound_addNode sound' now.add superId
      have stored : now.id ∈ (after this now).nodes := mem_addNode_needed sound' (now.add.perm _) superId needs
      obtain ⟨next, turned, leaves, stays⟩ := Handler.turn_needed clean sound superId (same.needs_iff.mpr needs)
      have sameNext : Same next.manager (after this now) :=
        turned.same.trans (same_addNode sound sound' same superId (now.add.perm _) (now.add.perm _))
      rw [sameNext.nearIsFirst_iff, turned.isSuper] at leaves stays
      cases session : now.session with
      | true =>
        rw [session] at leaves stays
        exact added_session turned sameNext soundAfter superIds stored needs session leaves stays
      | false =>
        have unpointed : next.pointing = [] := by
          rw [turned.pointing, session]
          rfl
        rw [session] at leaves stays
        by_cases stop : now.isSuper = false ∧ (after this now).NearIsFirst
        · have stops : ¬ Passes this now := fun passes => passes.2.2 stop.1 stop.2
          rw [added_iff_of_done (leaves stop), considered_stops stops, same_addNodes_iff soundAfter superIds sameNext]
          refine and_congr_right fun _ => iff_of_true (fun key _ => next.idOf_of_clean unpointed key) ?_
          intro _ other
          rw [session] at other
          cases other
        · have passes : Passes this now := ⟨needs, session, fun ordinary near => stop ⟨ordinary, near⟩⟩
          have ordinary : next.manager.isSuper = now.isSuper := by
            rw [turned.isSuper, session]
            rfl
          rw [considered_passes passes, ← ordinary, Added, Handler.turns, stays stop]
          exact ih unpointed turned.sound soundAfter sameNext superIds fun _ _ _ => List.ne_nil_of_mem stored
    · exact added_unneeded clean sound sound' same superIds (own now rfl) needs

/-- The slots that are built from tables with the same ids hold the same. -/
theorem rebuilt_eq (sound : this.Sound) (sound' : that.Sound) (same : Same this that)
    {allNodes allNodes' : List Multihash} (range : allNodes.Perm this.nodes)
    (range' : allNodes'.Perm that.nodes) {i : ℕ} (level : i < nodeIdLevel) :
    (this.rebuilt allNodes).ids[i]? = (that.rebuilt allNodes').ids[i]? := by
  by_cases empty : this.nodes = []
  · have empty' : that.nodes = [] := by
      refine List.eq_nil_iff_forall_not_mem.mpr fun id mem => ?_
      rw [← same.nodes, empty] at mem
      cases mem
    rw [empty, List.perm_nil] at range
    rw [empty', List.perm_nil] at range'
    rw [range, range', rebuilt, rebuilt, same.nodeSelf]
  · have empty' : that.nodes ≠ [] := by
      obtain ⟨id, mem⟩ := List.exists_mem_of_ne_nil _ empty
      exact List.ne_nil_of_mem ((same.nodes id).mp mem)
    obtain ⟨slot, filled⟩ := exists_slots sound.known sound.zeroFree empty range
    obtain ⟨slot', filled'⟩ := exists_slots sound'.known sound'.zeroFree empty' range'
    rw [← same.nodeSelf] at filled'
    rw [filled.getElem?_ids level, filled'.getElem?_ids level]
    exact congrArg some (slot_unique sound.known filled (filled'.congr same.nodes) level)

/-- A table with the same ids as one that is built of nodes without a zero byte is one. -/
theorem sound_of_same (sound : that.Sound) (same : Same this that) : this.Sound := by
  refine ⟨⟨same.nodeSelf ▸ sound.known.nodeSelf, fun id mem => sound.known.nodes id ((same.nodes id).mp mem), ?_⟩,
    fun id mem => sound.zeroFree id ((same.nodes id).mp mem), ?_⟩
  · rw [same.nodeSelf, same.nodes]
    exact sound.known.others
  · refine @fits_of_nearest that this that.nodes same.nodeSelf (fun id mem => (same.nodes id).mp mem) fun id mem => ?_
    exact sound.fits id ((same.nodes id).mp mem)

/-- Where all is added, what is needed was considered. -/
theorem considered_of_allAdded (sound : this.Sound) {turns : List Turn} (superIds : ∀ turn ∈ turns, IsSuperId turn.id)
    (own : ∀ turn, turns.head? = some turn → turn.id = this.nodeSelf → this.nodes ≠ [])
    (all : AllAdded this turns (getNearSuperAddrRecv this turns)) : Considered this.isSuper this turns := by
  obtain ⟨last, handled, same, ownNames, -⟩ := all
  have added := @added_iff this { manager := this, newNode := [] } turns rfl sound sound ⟨rfl, fun _ => Iff.rfl⟩
    superIds own
  exact added.mp ⟨last, handled, same, ownNames⟩

/-- Of a list of nodes without a zero byte in front all are added, to a table that was built of such nodes, exactly when
those that are needed are considered. The own id is not offered while the table is empty: no connection reaches it. -/
theorem getNearSuperAddrRecv_iff (sound : this.Sound) {turns : List Turn}
    (superIds : ∀ turn ∈ turns, IsSuperId turn.id)
    (own : ∀ turn, turns.head? = some turn → turn.id = this.nodeSelf → this.nodes ≠ []) :
    AllAdded this turns (getNearSuperAddrRecv this turns) ↔ Considered this.isSuper this turns := by
  refine ⟨considered_of_allAdded sound superIds own, fun considered => ?_⟩
  have added := @added_iff this { manager := this, newNode := [] } turns rfl sound sound ⟨rfl, fun _ => Iff.rfl⟩
    superIds own
  obtain ⟨last, handled, same, ownNames⟩ := added.mpr considered
  have sound' := sound_addNodes sound superIds
  have ids : last.getAllNodes = last.manager.nodes := (List.map_congr_left ownNames).trans (List.map_id _)
  refine ⟨last, handled, same, ownNames, fun order order' i level => ?_⟩
  rw [ids]
  exact rebuilt_eq (sound_of_same sound' same) sound' same (order.perm _) (order'.perm _) level

/-! ## Nodes that are passed over -/

/-- A node of the list, with orders of no interest. -/
def turnOf (id : Multihash) (session isSuper : Bool) : Turn :=
  { id, session, isSuper, check := anyOrder, connect := anyOrder, add := anyOrder }

/-- A super node with no neighbour. -/
def noNode : NodeManager where
  nodeSelf := idOf 7

theorem superId_idOf {first : UInt8} (leading : (idOf first).data.head? ≠ some 0) : IsSuperId (idOf first) :=
  isSuperId_of (nodeId_idOf first) leading

theorem superIds_two (session isSuper session' isSuper' : Bool) :
    ∀ turn ∈ [turnOf (idOf 1) session isSuper, turnOf (idOf 2) session' isSuper'], IsSuperId turn.id :=
  List.forall_mem_cons.mpr ⟨superId_idOf (by decide), List.forall_mem_singleton.mpr (superId_idOf (by decide))⟩

theorem considered_two : AllAdded noNode [turnOf (idOf 1) false true, turnOf (idOf 2) false true]
      (getNearSuperAddrRecv noNode [turnOf (idOf 1) false true, turnOf (idOf 2) false true]) ↔
    Considered true noNode [turnOf (idOf 1) false true, turnOf (idOf 2) false true] := by
  refine @getNearSuperAddrRecv_iff noNode ?_ _ (superIds_two false true false true) ?_
  · exact @sound_run noNode (nodeId_idOf 7) rfl [] nofun
  · rintro turn ⟨⟩ own
    exact absurd own (by decide)

/-- The table of a node behind its first neighbour. -/
theorem mem_after_first (session isSuper : Bool) {one : Multihash} :
    one ∈ (after noNode (turnOf (idOf 1) session isSuper)).nodes ↔ one = idOf 1 :=
  @mem_addNode_first noNode (idOf 1) (by decide) rfl one

/-- A super node with one neighbour. -/
def oneNode : NodeManager := after noNode (turnOf (idOf 1) false true)

theorem needs_second (session isSuper : Bool) : (after noNode (turnOf (idOf 1) session isSuper)).Needs (idOf 2) := by
  have self : (after noNode (turnOf (idOf 1) session isSuper)).nodeSelf = idOf 7 := addNode_nodeSelf
  rw [Needs, self]
  refine ⟨by decide, 0, by decide, fun one mem => ?_⟩
  rw [(mem_after_first session isSuper).mp mem]
  decide

/-- The handler leaves at a stored node, and an ordinary node leaves behind its first one, though the next node is
needed; and an entry that points to the variable of the loop holds the next node. -/
theorem passed_over :
    ¬ AllAdded oneNode [turnOf (idOf 1) true true, turnOf (idOf 2) false true]
        (getNearSuperAddrRecv oneNode [turnOf (idOf 1) true true, turnOf (idOf 2) false true]) ∧
      ¬ AllAdded noNode [turnOf (idOf 1) false false, turnOf (idOf 2) false false]
        (getNearSuperAddrRecv noNode [turnOf (idOf 1) false false, turnOf (idOf 2) false false]) ∧
      ¬ AllAdded noNode [turnOf (idOf 1) true true, turnOf (idOf 2) false true]
        (getNearSuperAddrRecv noNode [turnOf (idOf 1) true true, turnOf (idOf 2) false true]) := by
  have sound : noNode.Sound := @sound_run noNode (nodeId_idOf 7) rfl [] nofun
  have soundOne : oneNode.Sound := @sound_addNode noNode (idOf 1) sound anyOrder (@superId_idOf 1 (by decide))
  have stored : idOf 1 ∈ oneNode.nodes := (mem_after_first false true).mpr rfl
  have own (session isSuper : Bool) (rest : List Turn) : ∀ turn, (turnOf (idOf 1) session isSuper :: rest).head? =
      some turn → turn.id = noNode.nodeSelf → noNode.nodes ≠ [] := by
    rintro turn ⟨⟩ same
    exact absurd (show idOf 1 = idOf 7 from same) (by decide)
  refine ⟨fun all => ?_, fun all => ?_, fun all => ?_⟩
  · have considered := considered_of_allAdded soundOne (superIds_two true true false true)
      (fun _ _ _ => List.ne_nil_of_mem stored) all
    have unneeded : ¬ oneNode.Needs (idOf 1) := by
      rintro ⟨-, i, -, nearer⟩
      exact lt_irrefl _ (nearer _ stored)
    have unchanged : after oneNode (turnOf (idOf 1) true true) = oneNode := addNode_unneeded soundOne anyOrder unneeded
    refine unneeded (considered.before [] _ [] _ [] rfl ?_).1
    rw [List.nil_append, addNodes_cons, unchanged]
    exact needs_second false true
  · have considered := considered_of_allAdded sound (superIds_two false false false false) (own false false _) all
    refine (considered.before [] _ [] _ [] rfl (needs_second false false)).2.2 rfl ?_
    change (after noNode (turnOf (idOf 1) false false)).NearIsFirst
    refine ⟨idOf 1, (mem_after_first false false).mpr rfl, fun one mem => ?_⟩
    rw [(mem_after_first false false).mp mem]
    exact ⟨le_rfl, le_rfl⟩
  · have considered := considered_of_allAdded sound (superIds_two true true false true) (own true true _) all
    have needs : noNode.Needs (idOf 1) := ⟨by decide, 0, by decide, nofun⟩
    rcases considered.own [] _ _ [] rfl needs rfl with same | ⟨ordinary, -⟩
    · exact absurd same (by decide)
    · cases ordinary

end PolarCloud.MessageCenter.NearSuper
