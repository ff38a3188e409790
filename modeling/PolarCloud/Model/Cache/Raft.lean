import PolarCloud.Base.SyncMap
import PolarCloud.Model.NodeStore.NodeManager

/-! # Elections

For every key there is a team of four logical ids, each of which is answered for by whichever node is nearest.
A node that wants to lead a team asks the four for their votes one after the other, and leads once half of them
have been counted, its own included. Messages stay in the network: they may be delivered any number of times, or
never.
-/

namespace PolarCloud.Cache.Raft

open NodeStore

inductive Role where
  | unset
  | leader
  | follower
  | candidate
deriving DecidableEq, Repr

/-- A team at a node. Copies of a team share its role and its votes. -/
structure RaftTeam where
  nodeids : List Multihash
  nodeid : Multihash := []
  role : Role := .unset
  vote : List Multihash := []
  index : UInt64 := 0
deriving DecidableEq, Repr

namespace RaftTeam

def setRole (this : RaftTeam) (nodeid : Multihash) (role : Role) : RaftTeam := { this with nodeid, role }

/-- Count the vote of an id, once. -/
def addVote (this : RaftTeam) (nodeid : Multihash) : RaftTeam :=
  { this with vote := if nodeid ∈ this.vote then this.vote else this.vote ++ [nodeid] }

/-- At least half of the team has voted. -/
def elected (this : RaftTeam) : Prop := this.nodeids.length ≤ 2 * this.vote.length

instance (this : RaftTeam) : Decidable this.elected := inferInstanceAs (Decidable (_ ≤ _))

def doVote (this : RaftTeam) (nodeid : Multihash) : RaftTeam :=
  let voted := this.addVote nodeid
  if voted.elected then { voted.setRole voted.nodeid .leader with index := voted.index + 1 } else voted

end RaftTeam

/-- A round of requests that a node is sending: the count it began with, the ids still to be asked, and the
request whose reply it waits for. -/
structure Campaign where
  teamid : Multihash
  index : UInt64
  ids : List Multihash
  asked : Option ℕ := none
deriving DecidableEq, Repr

structure Node where
  teams : SyncMap Multihash RaftTeam := .empty
  heartTime : List Multihash := []
  campaigns : List Campaign := []

namespace Node

/-- The team of an id, created when it is new. -/
def team (this : Node) (teamid : Multihash) : RaftTeam :=
  (this.teams.load teamid).getD { nodeids := getQuarterLogicIds teamid }

def saveTeam (this : Node) (teamid : Multihash) (team : RaftTeam) : Node :=
  { this with teams := this.teams.store teamid team }

theorem team_saveTeam (this : Node) (other teamid : Multihash) (team : RaftTeam) :
    (this.saveTeam other team).team teamid = if teamid = other then team else this.team teamid := by
  rw [Node.team, saveTeam, SyncMap.load_store]
  split
  · rfl
  · rfl

/-- Vote for oneself, and as a candidate begin to ask the others. -/
def createVote (this : Node) (self teamid : Multihash) (team : RaftTeam) : Node :=
  let node := this.saveTeam teamid (team.addVote self)
  if team.role = .candidate then
    { node with campaigns := node.campaigns ++ [{ teamid, index := team.index, ids := getQuarterLogicIds teamid }] }
  else node

def firstTeam (this : Node) (self teamid : Multihash) : Node :=
  match this.teams.load teamid with
  | none => this.createVote self teamid ((this.team teamid).setRole self .candidate)
  | some _ => this

/-- The heart of a team has not been heard for too long. -/
def checkHeartTime (this : Node) (self teamid : Multihash) : Node :=
  let team := this.team teamid
  match team.role with
  | .leader => this.saveTeam teamid team
  | .candidate => this.createVote self teamid team
  | _ => this.saveTeam teamid (team.setRole self .candidate)

/-- The role that a node has for a team; only its own role counts. -/
def getRole (team : RaftTeam) (nodeid : Multihash) : Role := if team.nodeid = nodeid then team.role else .follower

/-- A vote request is answered; whether the vote is granted. -/
def raftVote (this : Node) (self teamid : Multihash) (index : UInt64) : Bool × Node :=
  let team := (this.team teamid).setRole self .follower
  (getRole team self = .follower ∧ ¬ index < team.index, this.saveTeam teamid team)

def raftVoteHeart (this : Node) (self teamid : Multihash) (index : UInt64) : Node :=
  let node := { this with heartTime := if teamid ∈ this.heartTime then this.heartTime else this.heartTime ++ [teamid] }
  node.saveTeam teamid { (node.team teamid).setRole self .follower with index }

/-- A vote is counted for a team that is known. -/
def doVote (this : Node) (teamid nodeid : Multihash) : Node :=
  match this.teams.load teamid with
  | none => this
  | some team => this.saveTeam teamid (team.doVote nodeid)

end Node

/-- What a node is sent: a vote request, the reply to one of its own (with the team it had sent, when the vote is
granted, and the id whose vote it is), or the heart of a leader. -/
inductive Message where
  | raftVote (teamid : Multihash) (index : UInt64)
  | raftVoteRecv (voteid : Multihash) (content : Option (Multihash × UInt64))
  | raftVoteHeart (teamid : Multihash) (index : UInt64)
deriving DecidableEq, Repr

/-- A message is handled; the count in the reply to a request is not read. -/
def Node.handle (self : Multihash) (this : Node) : Message → Node
  | .raftVote teamid index => (this.raftVote self teamid index).2
  | .raftVoteRecv _ none => this
  | .raftVoteRecv voteid (some (teamid, _)) => this.doVote teamid voteid
  | .raftVoteHeart teamid index => this.raftVoteHeart self teamid index

/-- When the heart of each team was last heard, in nanoseconds. -/
structure HeartTime where
  beats : List (Multihash × ℤ)
  nodup : (beats.map Prod.fst).Nodup

namespace HeartTime

/-- 15 seconds, in nanoseconds. -/
def heartInterval : ℤ := 15 * 10 ^ 9

/-- All teams are looked at, in the order in which the map gives them, each at its own time `now`. The first id that
is no multihash, and the first team that is led, end the loop. -/
def checkHeartTime (self : Multihash) (now : Multihash → ℤ) (node : Node) : List (Multihash × ℤ) → Node
  | [] => node
  | (k, v) :: beats =>
      match Utils.cast k with
      | none => node
      | some teamid =>
          let team := node.team teamid
          let created := node.saveTeam teamid team
          if team.role = .leader then created
          else if heartInterval < now k - v then checkHeartTime self now (created.checkHeartTime self teamid) beats
          else checkHeartTime self now created beats

end HeartTime

structure VoteRequest where
  sender : Multihash
  teamid : Multihash
  index : UInt64
  voteid : Multihash
deriving DecidableEq, Repr

/-- A reply names its request; a vote that is refused is a reply without content. -/
structure VoteReply where
  request : ℕ
  granted : Bool
deriving DecidableEq, Repr

structure HeartData where
  teamid : Multihash
  index : UInt64
deriving DecidableEq, Repr

/-- All nodes, and all messages that were ever sent. -/
structure Network where
  node : Multihash → Node := fun _ => {}
  requests : List VoteRequest := []
  replies : List VoteReply := []
  hearts : List HeartData := []

/-- What can happen: a node hears of a key, finds a heart overdue, asks the next id of a campaign (or skips it,
when it answers for the id itself), gives up waiting, or gets one of the messages that were sent; a leader sends
a heartbeat. -/
inductive Event where
  | firstTeam (self teamid : Multihash)
  | checkHeartTime (self teamid : Multihash)
  | sendVote (self : Multihash) (campaign : ℕ) (sent : Bool)
  | timeout (self : Multihash) (campaign : ℕ)
  | raftVote (self : Multihash) (request : ℕ)
  | raftVoteRecv (reply : ℕ)
  | raftVoteHeart (self : Multihash) (heart : ℕ)
  | sendHeartTask (self teamid : Multihash)
deriving DecidableEq, Repr

namespace Network

def setNode (this : Network) (self : Multihash) (node : Node) : Network :=
  { this with node := fun other => if other = self then node else this.node other }

/-- A node's campaigns, one of them changed. -/
def setCampaign (this : Network) (self : Multihash) (place : ℕ) (campaign : Campaign) : Network :=
  this.setNode self { this.node self with campaigns := (this.node self).campaigns.set place campaign }

def sendVote (this : Network) (self : Multihash) (place : ℕ) (sent : Bool) : Network :=
  match (this.node self).campaigns[place]? with
  | some { teamid, index, ids := voteid :: ids, asked := none } =>
      if sent then
        { this.setCampaign self place { teamid, index, ids, asked := some this.requests.length } with
          requests := this.requests ++ [{ sender := self, teamid, index, voteid }] }
      else this.setCampaign self place { teamid, index, ids }
  | _ => this

def timeout (this : Network) (self : Multihash) (place : ℕ) : Network :=
  match (this.node self).campaigns[place]? with
  | some campaign => this.setCampaign self place { campaign with asked := none }
  | none => this

def raftVote (this : Network) (self : Multihash) (place : ℕ) : Network :=
  match this.requests[place]? with
  | some request =>
      let (granted, node) := (this.node self).raftVote self request.teamid request.index
      { this.setNode self node with replies := this.replies ++ [{ request := place, granted }] }
  | none => this

def mulitiHeart (this : Network) (teamid : Multihash) (index : UInt64) : Network :=
  { this with hearts := this.hearts ++ [{ teamid, index }] }

/-- A vote is counted; who is elected by it sends its heart. -/
def doVote (this : Network) (self teamid nodeid : Multihash) : Network :=
  match (this.node self).teams.load teamid with
  | none => this
  | some team =>
      let team := team.doVote nodeid
      let network := this.setNode self ((this.node self).saveTeam teamid team)
      if team.elected then network.mulitiHeart teamid team.index else network

/-- The heartbeat of a node, if it leads the team. -/
def sendHeartTask (this : Network) (self teamid : Multihash) : Network :=
  let team := (this.node self).team teamid
  let network := this.setNode self ((this.node self).saveTeam teamid team)
  if team.role = .leader then network.mulitiHeart teamid team.index else network

/-- The campaign of a node that waits for the reply to a request. -/
def waiting (this : Network) (self : Multihash) (request : ℕ) : Option ℕ :=
  (this.node self).campaigns.findIdx? fun campaign => campaign.asked = some request

/-- A reply that is waited for ends the waiting; a granted vote is counted. -/
def raftVoteRecv (this : Network) (place : ℕ) : Network :=
  match this.replies[place]? with
  | none => this
  | some reply =>
      match this.requests[reply.request]? with
      | none => this
      | some request =>
          match this.waiting request.sender reply.request with
          | none => this
          | some campaign =>
              let network := this.timeout request.sender campaign
              if reply.granted then network.doVote request.sender request.teamid request.voteid else network

def raftVoteHeart (this : Network) (self : Multihash) (place : ℕ) : Network :=
  match this.hearts[place]? with
  | some heart => this.setNode self ((this.node self).raftVoteHeart self heart.teamid heart.index)
  | none => this

def step (this : Network) : Event → Network
  | .firstTeam self teamid => this.setNode self ((this.node self).firstTeam self teamid)
  | .checkHeartTime self teamid =>
      if teamid ∈ (this.node self).heartTime then this.setNode self ((this.node self).checkHeartTime self teamid)
      else this
  | .sendVote self campaign sent => this.sendVote self campaign sent
  | .timeout self campaign => this.timeout self campaign
  | .raftVote self request => this.raftVote self request
  | .raftVoteRecv reply => this.raftVoteRecv reply
  | .raftVoteHeart self heart => this.raftVoteHeart self heart
  | .sendHeartTask self teamid => this.sendHeartTask self teamid

def run (events : List Event) : Network := events.foldl step {}

end Network

end PolarCloud.Cache.Raft
