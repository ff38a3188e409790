import PolarCloud.Model.Mining.Miner
import PolarCloud.Proofs.Mining.Successors

/-! # The block saver and its own queue

On a mining node the turn that links a block ends with a send into the queue that only this turn's
goroutine reads. The send finds the slot free as long as no handler's block is queued in between.
-/

namespace PolarCloud.Mining

open Keystore

section Queue

variable {rt : Runtime} {wallet : Wallet} {miner : Bool}

/-- In quiet runs the block saver never waits on itself, and the block in the queue can be taken. -/
theorem saver_never_stuck {start s : Mailbox.State Node BlockHeadVO} (empty : start.slot = none)
    (waits : start.reader = .waiting)
    (run : Relation.ReflTransGen (Mailbox.QuietStep (saver rt wallet miner)) start s) :
    ¬ Mailbox.Stuck s ∧ ∀ bhvo, s.slot = some bhvo → ∃ taken,
      Relation.ReflTransGen (Mailbox.AnyStep (saver rt wallet miner)) s taken ∧ taken.reader = .turn bhvo := by
  have kept := (Mailbox.kept_start empty waits).run run
  exact ⟨kept.not_stuck, fun bhvo holds => kept.taken holds⟩

end Queue

/-! ## A handler between the receive and the send -/

namespace Sample

/-- A miner that has seen a height and holds no block. -/
def atHeight : Node := { chain := { highestBlock := 1 } }

/-- A block is found at once, with nothing to pack and nothing to pay a deposit from. -/
def instant : Work where
  call := { sign := fun _ _ _ _ => .error "", visits := fun _ => [] }
  createTime := 0
  time := 0
  visits := []
  merkleRoot := []
  nonce := 0
  typed := List.forall_mem_nil _

theorem genesis_saved : (saveBlockHead runtime twoKeys atHeight (bare genesis)).2 = .next := rfl

/-- The turn of a first block queues the next one. -/
theorem mined_genesis : ∃ next built, SaverTurn runtime twoKeys true atHeight (bare genesis) next (.sends built) := by
  obtain ⟨built, builds⟩ : ∃ built, buildBlockForPOW runtime twoKeys
      (minedNode runtime twoKeys atHeight (bare genesis) instant) instant = some built := ⟨_, rfl⟩
  exact ⟨_, built, .mined instant built genesis_saved rfl SyncMap.enumerates_empty builds⟩

end Sample

/-- A first block is taken, a handler queues a second one, and the block saver cannot queue its own. -/
theorem saver_stuck : ∃ (start stuck : Mailbox.State Node BlockHeadVO), start.slot = none ∧ start.reader = .waiting ∧
    Relation.ReflTransGen (Mailbox.AnyStep (saver Sample.runtime Sample.twoKeys true)) start stuck ∧
      Mailbox.Stuck stuck := by
  let start : Mailbox.State Node BlockHeadVO := { state := Sample.atHeight }
  let worker := saver Sample.runtime Sample.twoKeys true
  let taken : Mailbox.State Node BlockHeadVO :=
    { state := Sample.atHeight, callers := [Sample.bare Sample.second], reader := .turn (Sample.bare Sample.genesis) }
  have run : Relation.ReflTransGen (Mailbox.AnyStep worker) start taken :=
    (((Relation.ReflTransGen.single ⟨_, .call (Sample.bare Sample.genesis)⟩).tail
      ⟨_, .send [] (Sample.bare Sample.genesis) [] rfl rfl⟩).tail
        ⟨_, .receive (Sample.bare Sample.genesis) rfl rfl⟩).tail ⟨_, .call (Sample.bare Sample.second)⟩
  obtain ⟨next, built, turn⟩ := Sample.mined_genesis
  obtain ⟨stuck, later, isStuck⟩ := @Mailbox.stuck_of_send _ _ worker taken _ _ _ _ _ rfl turn rfl rfl
  exact ⟨start, stuck, rfl, rfl, run.trans later, isStuck⟩

/-- A quiet run: the turn of a first block mines the next one, and the block saver queues it. -/
theorem saver_never_stuck_mined : ∃ (s : Mailbox.State Node BlockHeadVO) (built : BlockHeadVO) (next : Node),
    SaverTurn Sample.runtime Sample.twoKeys true Sample.atHeight (Sample.bare Sample.genesis) next (.sends built) ∧
      s.slot = some built ∧ ¬ Mailbox.Stuck s ∧ ∀ bhvo, s.slot = some bhvo → ∃ taken,
        Relation.ReflTransGen (Mailbox.AnyStep (saver Sample.runtime Sample.twoKeys true)) s taken ∧
          taken.reader = .turn bhvo := by
  let start : Mailbox.State Node BlockHeadVO := { state := Sample.atHeight }
  let worker := saver Sample.runtime Sample.twoKeys true
  let first := Sample.bare Sample.genesis
  obtain ⟨next, built, turn⟩ := Sample.mined_genesis
  have called : Mailbox.QuietStep worker start { start with callers := [first] } := ⟨.call, trivial, .call first⟩
  have idle : ¬ Mailbox.Committed worker { start with callers := [first] } := by
    rintro (⟨item, sending⟩ | ⟨item, turns, -⟩)
    · cases sending
    · cases turns
  have sent : Mailbox.QuietStep worker { start with callers := [first] } { start with slot := some first } :=
    ⟨.send, idle, .send [] first [] rfl rfl⟩
  have survives : ∀ item, some first = some item → ¬ worker.ends Sample.atHeight item := by
    rintro _ ⟨⟩ ends
    exact ends Sample.genesis_saved
  have received : Mailbox.QuietStep worker { start with slot := some first } { start with reader := .turn first } :=
    ⟨.receive, survives, .receive first rfl rfl⟩
  have mined : Mailbox.QuietStep worker { start with reader := .turn first }
      { start with state := next, reader := .sending built } := ⟨.turn, trivial, .turn first next (.sends built) rfl turn⟩
  have given : Mailbox.QuietStep worker { start with state := next, reader := .sending built }
      { start with state := next, slot := some built } := ⟨.give, trivial, .give built rfl rfl⟩
  exact ⟨_, built, next, turn, rfl,
    saver_never_stuck rfl rfl (((((Relation.ReflTransGen.single called).tail sent).tail received).tail mined).tail given)⟩

end PolarCloud.Mining
