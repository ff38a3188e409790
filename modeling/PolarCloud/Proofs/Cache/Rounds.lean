import PolarCloud.Base.Replay
import PolarCloud.Model.Cache.Raft

/-! # Rounds of elections

A heart overwrites the count of its team with whatever it carries, and a vote request makes a follower of whoever gets
it before the counts are compared. Counting a vote is the only other way in which a count changes, and it goes up by
one, unless it is the largest there is.
-/

namespace PolarCloud.Cache.Raft

open NodeStore

/-- A request or a heart with a count lower than the one of its team. -/
def Message.StaleFor (node : Node) (teamid : Multihash) : Message → Prop
  | .raftVote other index => other = teamid ∧ index < (node.team teamid).index
  | .raftVoteRecv _ _ => False
  | .raftVoteHeart other index => other = teamid ∧ index < (node.team teamid).index

/-- A message lowers the count of no team, and a stale one changes neither the role nor the count of its team. -/
structure Node.KeepsRounds (own : Multihash) (node : Node) (message : Message) : Prop where
  forward : ∀ teamid, (node.team teamid).index ≤ ((node.handle own message).team teamid).index
  stale : ∀ teamid, message.StaleFor node teamid → ((node.handle own message).team teamid).role =
    (node.team teamid).role ∧ ((node.handle own message).team teamid).index = (node.team teamid).index

/-- The count of a team in a later state of a run is never lower than in an earlier one, and stale messages change
nothing of their team. -/
structure Node.RoundsForward (own : Multihash) (start : Node) (messages : List Message) : Prop where
  forward : ∀ teamid front between back, messages = front ++ between ++ back →
    ((front.foldl (Node.handle own) start).team teamid).index ≤
      (((front ++ between).foldl (Node.handle own) start).team teamid).index
  stale : ∀ teamid front message back, messages = front ++ message :: back →
    message.StaleFor (front.foldl (Node.handle own) start) teamid →
      (((front ++ [message]).foldl (Node.handle own) start).team teamid).role =
          ((front.foldl (Node.handle own) start).team teamid).role ∧
        (((front ++ [message]).foldl (Node.handle own) start).team teamid).index =
          ((front.foldl (Node.handle own) start).team teamid).index

/-- A request with a lower count gets to a follower only, a heart does not carry a lower count, and no vote decides an
election at the largest count. -/
def Message.InOrder (node : Node) : Message → Prop
  | .raftVote teamid index => index < (node.team teamid).index → (node.team teamid).role = .follower
  | .raftVoteRecv voteid content => ∀ teamid index team, content = some (teamid, index) →
      node.teams.load teamid = some team → (team.addVote voteid).elected →
        team.index.toNat + 1 < 2 ^ 64
  | .raftVoteHeart teamid index => (node.team teamid).index ≤ index

namespace Network

variable {network : Network} {self teamid voteid : Multihash} {index : UInt64} {place : ℕ}

theorem node_setNode (node : Node) : (network.setNode self node).node self = node := if_pos rfl

/-- What happens to a node in the network is that it handles the message. -/
theorem node_raftVote {request : VoteRequest} (found : network.requests[place]? = some request) :
    (network.raftVote self place).node self =
      (network.node self).handle self (.raftVote request.teamid request.index) := by
  rw [raftVote, found]
  exact node_setNode _

theorem node_raftVoteHeart {heart : HeartData} (found : network.hearts[place]? = some heart) :
    (network.raftVoteHeart self place).node self =
      (network.node self).handle self (.raftVoteHeart heart.teamid heart.index) := by
  rw [raftVoteHeart, found]
  exact node_setNode _

theorem node_doVote : (network.doVote self teamid voteid).node self =
    (network.node self).handle self (.raftVoteRecv voteid (some (teamid, index))) := by
  rw [doVote, Node.handle, Node.doVote]
  cases (network.node self).teams.load teamid with
  | none => rfl
  | some team =>
    dsimp only
    split
    · exact node_setNode _
    · exact node_setNode _

end Network

namespace Node

variable {node : Node} {self teamid other : Multihash} {team : RaftTeam} {index : UInt64}

theorem team_of_load (known : node.teams.load teamid = some team) : node.team teamid = team := by
  rw [Node.team, known]
  rfl

theorem team_raftVote : ((node.raftVote self other index).2).team teamid =
    if teamid = other then (node.team other).setRole self .follower else node.team teamid := team_saveTeam ..

theorem team_raftVoteHeart : (node.raftVoteHeart self other index).team teamid =
    if teamid = other then { (node.team other).setRole self .follower with index } else node.team teamid :=
  team_saveTeam ..

/-- A count that is not the largest goes up. -/
theorem index_le_succ_iff : index ≤ index + 1 ↔ index.toNat + 1 < 2 ^ 64 := by
  have bound := index.toNat_lt
  rw [UInt64.le_iff_toNat_le, UInt64.toNat_add, UInt64.toNat_one]
  omega

theorem index_doVote (voteid : Multihash) : (team.doVote voteid).index =
    if (team.addVote voteid).elected then team.index + 1 else team.index := by
  rw [RaftTeam.doVote]
  split
  · rfl
  · rfl

theorem keepsRounds_raftVote :
    node.KeepsRounds self (.raftVote other index) ↔ (Message.raftVote other index).InOrder node := by
  constructor
  · intro keeps lower
    have same := (keeps.stale other ⟨rfl, lower⟩).1
    rw [handle, team_raftVote, if_pos rfl] at same
    exact same.symm
  · intro inOrder
    constructor
    · intro teamid
      rw [handle, team_raftVote]
      split
      · next same => exact same ▸ UInt64.le_refl _
      · exact UInt64.le_refl _
    · rintro teamid ⟨rfl, lower⟩
      rw [handle, team_raftVote, if_pos rfl]
      exact ⟨(inOrder lower).symm, rfl⟩

theorem keepsRounds_raftVoteHeart :
    node.KeepsRounds self (.raftVoteHeart other index) ↔ (Message.raftVoteHeart other index).InOrder node := by
  constructor
  · intro keeps
    have forward := keeps.forward other
    rwa [handle, team_raftVoteHeart, if_pos rfl] at forward
  · intro inOrder
    constructor
    · intro teamid
      rw [handle, team_raftVoteHeart]
      split
      · next same => exact same ▸ inOrder
      · exact UInt64.le_refl _
    · rintro teamid ⟨rfl, lower⟩
      exact absurd lower (UInt64.not_lt.mpr inOrder)

theorem keepsRounds_raftVoteRecv (voteid : Multihash) (content : Option (Multihash × UInt64)) :
    node.KeepsRounds self (.raftVoteRecv voteid content) ↔ (Message.raftVoteRecv voteid content).InOrder node := by
  match content with
  | none => exact iff_of_true ⟨fun _ => UInt64.le_refl _, fun _ stale => stale.elim⟩ nofun
  | some (other, index) =>
    cases known : node.teams.load other with
    | none =>
      have same : node.handle self (.raftVoteRecv voteid (some (other, index))) = node := by
        rw [handle, doVote, known]
      refine iff_of_true ⟨fun _ => same.symm ▸ UInt64.le_refl _, fun _ stale => stale.elim⟩ ?_
      rintro _ _ team ⟨⟩ stored
      rw [known] at stored
      cases stored
    | some team =>
      have counted : node.handle self (.raftVoteRecv voteid (some (other, index))) =
          node.saveTeam other (team.doVote voteid) := by
        rw [handle, doVote, known]
      constructor
      · rintro keeps _ _ team' ⟨⟩ stored elected
        cases known.symm.trans stored
        have forward := keeps.forward other
        rw [counted, team_saveTeam, if_pos rfl, index_doVote, if_pos elected, team_of_load known] at forward
        exact index_le_succ_iff.mp forward
      · intro inOrder
        refine ⟨fun teamid => ?_, fun _ stale => stale.elim⟩
        rw [counted, team_saveTeam]
        split
        · next same =>
          rw [same, team_of_load known, index_doVote]
          split
          · next elected => exact index_le_succ_iff.mpr (inOrder other index team rfl known elected)
          · exact UInt64.le_refl _
        · exact UInt64.le_refl _

/-- What one message does. -/
theorem keepsRounds_iff (message : Message) : node.KeepsRounds self message ↔ message.InOrder node := by
  cases message with
  | raftVote teamid index => exact keepsRounds_raftVote
  | raftVoteRecv voteid content => exact keepsRounds_raftVoteRecv voteid content
  | raftVoteHeart teamid index => exact keepsRounds_raftVoteHeart

/-- Rounds go forward over a run exactly when each of its messages keeps them. -/
theorem roundsForward_iff_each (self : Multihash) (start : Node) (messages : List Message) :
    start.RoundsForward self messages ↔ Replay.Each (handle self) start (KeepsRounds self) messages := by
  constructor
  · intro rounds front message back split
    constructor
    · intro teamid
      have forward := rounds.forward teamid front [message] back (by rw [split, List.append_assoc]; rfl)
      rwa [Replay.foldl_concat] at forward
    · intro teamid stale
      have kept := rounds.stale teamid front message back split stale
      rwa [Replay.foldl_concat] at kept
  · intro each
    constructor
    · rintro teamid front between back rfl
      induction between using List.reverseRecOn generalizing back with
      | nil =>
        rw [List.append_nil]
        exact UInt64.le_refl _
      | append_singleton between message ih =>
        have split : front ++ (between ++ [message]) ++ back = front ++ between ++ message :: back := by
          simp only [List.append_assoc, List.singleton_append]
        rw [split] at each
        have kept := each (front ++ between) message back rfl
        rw [← List.append_assoc, Replay.foldl_concat]
        exact UInt64.le_trans (ih (message :: back) each) (kept.forward teamid)
    · intro teamid front message back split stale
      rw [Replay.foldl_concat]
      exact (each front message back split).stale teamid stale

/-- The rounds of every team go forward, and stale messages change nothing, exactly when the messages arrive in
order. -/
theorem roundsForward_iff (self : Multihash) (start : Node) (messages : List Message) :
    start.RoundsForward self messages ↔
      Replay.Each (handle self) start (fun node message => message.InOrder node) messages := by
  rw [roundsForward_iff_each]
  constructor
  · exact fun each front message back split => (keepsRounds_iff message).mp (each front message back split)
  · exact fun each front message back split => (keepsRounds_iff message).mpr (each front message back split)

/-- A node that counted the votes of half of a team and leads it in round 1. -/
def leading : Node :=
  { teams := SyncMap.empty.store [7]
      { nodeids := getQuarterLogicIds [7], nodeid := [1], role := .leader, vote := [[1], [2]], index := 1 } }

/-- A team hears of a second round, and then of the first one again; and a leader that is asked for a vote in a round
that is over leads no longer. -/
theorem round_back : ¬ Node.RoundsForward [1] {} [.raftVoteHeart [7] 2, .raftVoteHeart [7] 1] ∧
    ¬ leading.RoundsForward [1] [.raftVote [7] 0] := by
  constructor
  · intro rounds
    have back := rounds.forward [7] [.raftVoteHeart [7] 2] [.raftVoteHeart [7] 1] [] rfl
    exact absurd back (by decide)
  · intro rounds
    have same := (rounds.stale [7] [] (.raftVote [7] 0) [] rfl ⟨rfl, by decide⟩).1
    cases same

end Node

end PolarCloud.Cache.Raft
