import Mathlib.Data.List.Induction
import PolarCloud.Base.Replay
import PolarCloud.Model.Cache.Raft

/-! # Leaders of a team

Voters do not remember for whom they voted, and a candidate needs one vote beside its own. Whatever else
happens, a node gets to lead a team only by counting a vote, and then its count is one larger than before. So
two nodes lead a team with the same count exactly when a vote is counted while another node leads with that
count already.
-/

namespace PolarCloud.Cache.Raft

open NodeStore

def Node.Leads (node : Node) (teamid : Multihash) (index : UInt64) : Prop :=
  ∃ team ∈ node.teams.load teamid, team.role = .leader ∧ team.index = index

instance (node : Node) (teamid : Multihash) (index : UInt64) : Decidable (node.Leads teamid index) :=
  inferInstanceAs (Decidable (∃ team ∈ node.teams.load teamid, team.role = .leader ∧ team.index = index))

/-- A node leads a team with a count. -/
def Network.Leads (network : Network) (self teamid : Multihash) (index : UInt64) : Prop :=
  (network.node self).Leads teamid index

instance (network : Network) (self teamid : Multihash) (index : UInt64) : Decidable (network.Leads self teamid index) :=
  inferInstanceAs (Decidable ((network.node self).Leads teamid index))

/-- No two nodes lead a team with the same count. -/
def Network.OneLeader (network : Network) : Prop :=
  ∀ first second teamid index, network.Leads first teamid index → network.Leads second teamid index → first = second

/-- A vote for a team is granted to a node that waits for it, and brings it to half of the team; the count it
will lead with. -/
def Network.Crowns (network : Network) (event : Event) (self teamid : Multihash) (index : UInt64) : Prop :=
  ∃ place reply request team, event = .raftVoteRecv place ∧ reply ∈ network.replies[place]? ∧ reply.granted = true ∧
    request ∈ network.requests[reply.request]? ∧ request.sender = self ∧ request.teamid = teamid ∧
    (network.waiting self reply.request).isSome = true ∧ team ∈ (network.node self).teams.load teamid ∧
    (team.addVote request.voteid).elected ∧ index = team.index + 1

namespace Node

variable {node : Node} {self teamid other : Multihash} {index : UInt64} {team : RaftTeam}

theorem leads_saveTeam : (node.saveTeam other team).Leads teamid index ↔
    if teamid = other then team.role = .leader ∧ team.index = index else node.Leads teamid index := by
  rw [Leads, saveTeam, SyncMap.load_store]
  split
  · simp
  · rfl

/-- Saving a team that leads only where it led before makes no leader. -/
theorem Leads.of_saveTeam (kept : team.role = .leader → node.teams.load other = some team)
    (leads : (node.saveTeam other team).Leads teamid index) : node.Leads teamid index := by
  rw [leads_saveTeam] at leads
  split at leads
  · next same => exact ⟨team, same ▸ kept leads.1, leads⟩
  · exact leads

/-- Saving a team that is not led makes no leader. -/
theorem Leads.of_saveTeam_unled (unled : team.role ≠ .leader) (leads : (node.saveTeam other team).Leads teamid index) :
    node.Leads teamid index :=
  leads.of_saveTeam fun led => absurd led unled

/-- A new team is not led. -/
theorem load_of_led (led : (node.team other).role = .leader) : node.teams.load other = some (node.team other) := by
  rw [team] at led ⊢
  cases known : node.teams.load other with
  | none =>
    rw [known] at led
    cases led
  | some team => rfl

theorem Leads.of_createVote (unled : team.role ≠ .leader)
    (leads : (node.createVote self other team).Leads teamid index) :
    node.Leads teamid index := by
  have voted : (team.addVote self).role ≠ .leader := unled
  rw [createVote] at leads
  split at leads
  · exact Leads.of_saveTeam_unled voted leads
  · exact leads.of_saveTeam_unled voted

theorem Leads.of_firstTeam (leads : (node.firstTeam self other).Leads teamid index) : node.Leads teamid index := by
  rw [firstTeam] at leads
  split at leads
  · exact leads.of_createVote (by simp [RaftTeam.setRole])
  · exact leads

theorem Leads.of_checkHeartTime (leads : (node.checkHeartTime self other).Leads teamid index) :
    node.Leads teamid index := by
  rw [checkHeartTime] at leads
  split at leads
  · exact leads.of_saveTeam load_of_led
  · next candidate => exact leads.of_createVote (by simp [candidate])
  · exact leads.of_saveTeam_unled (by simp [RaftTeam.setRole])

theorem Leads.of_raftVote {asked : UInt64} (leads : (node.raftVote self other asked).2.Leads teamid index) :
    node.Leads teamid index :=
  leads.of_saveTeam_unled (by simp [RaftTeam.setRole])

theorem Leads.of_raftVoteHeart {heard : UInt64} (leads : (node.raftVoteHeart self other heard).Leads teamid index) :
    node.Leads teamid index := by
  have unled : ({ (node.team other).setRole self .follower with index := heard } : RaftTeam).role ≠ .leader := by
    simp [RaftTeam.setRole]
  exact Leads.of_saveTeam_unled unled leads

end Node

namespace Network

variable {network : Network} {self other teamid : Multihash} {index : UInt64}

theorem leads_setNode {node : Node} : (network.setNode other node).Leads self teamid index ↔
    if self = other then node.Leads teamid index else network.Leads self teamid index := by
  rw [Leads, setNode]
  dsimp only
  by_cases same : self = other
  · rw [if_pos same, if_pos same]
  · rw [if_neg same, if_neg same]
    rfl

/-- A node that changes without getting to lead leaves the leaders as they were. -/
theorem Leads.of_setNode {node : Node} (kept : node.Leads teamid index → (network.node other).Leads teamid index)
    (leads : (network.setNode other node).Leads self teamid index) : network.Leads self teamid index := by
  rw [leads_setNode] at leads
  split at leads
  · next same => exact same ▸ kept leads
  · exact leads

theorem leads_setCampaign {place : ℕ} {campaign : Campaign} :
    (network.setCampaign other place campaign).Leads self teamid index ↔ network.Leads self teamid index := by
  rw [setCampaign, leads_setNode]
  split
  · next same => rw [same]; rfl
  · rfl

theorem leads_sendVote {place : ℕ} {sent : Bool} :
    (network.sendVote other place sent).Leads self teamid index ↔ network.Leads self teamid index := by
  rw [sendVote]
  split
  · split
    · exact leads_setCampaign
    · exact leads_setCampaign
  · rfl

theorem leads_timeout {place : ℕ} :
    (network.timeout other place).Leads self teamid index ↔ network.Leads self teamid index := by
  rw [timeout]
  split
  · exact leads_setCampaign
  · rfl

theorem node_timeout {place : ℕ} : ((network.timeout other place).node self).teams = (network.node self).teams := by
  rw [timeout]
  split
  · rw [setCampaign, setNode]
    dsimp only
    split
    · next same => rw [same]
    · rfl
  · rfl

/-- Who leads after a vote was counted led before, or was elected by it. -/
theorem leads_doVote {voteid counted : Multihash} {team : RaftTeam}
    (known : (network.node other).teams.load counted = some team) :
    (network.doVote other counted voteid).Leads self teamid index ↔
      if self = other ∧ teamid = counted then (team.doVote voteid).role = .leader ∧ (team.doVote voteid).index = index
      else network.Leads self teamid index := by
  have saved : (network.doVote other counted voteid).Leads self teamid index ↔
      (network.setNode other ((network.node other).saveTeam counted (team.doVote voteid))).Leads self teamid index := by
    simp only [doVote, known]
    split
    · rfl
    · rfl
  rw [saved, leads_setNode, Node.leads_saveTeam]
  by_cases here : self = other
  · subst here
    by_cases same : teamid = counted
    · rw [if_pos rfl, if_pos same, if_pos ⟨rfl, same⟩]
    · rw [if_pos rfl, if_neg same, if_neg fun both => same both.2]
      rfl
  · rw [if_neg here, if_neg fun both => here both.1]

theorem doVote_unknown {voteid counted : Multihash} (unknown : (network.node other).teams.load counted = none) :
    network.doVote other counted voteid = network := by
  rw [doVote, unknown]

theorem leads_sendHeartTask (leads : (network.sendHeartTask other counted).Leads self teamid index) :
    network.Leads self teamid index := by
  have saved : (network.setNode other ((network.node other).saveTeam counted ((network.node other).team counted))).Leads
      self teamid index := by
    rw [sendHeartTask] at leads
    split at leads
    · exact leads
    · exact leads
  exact saved.of_setNode fun leads => leads.of_saveTeam Node.load_of_led

/-- A vote that is counted leads to a lead that was there before, or elects. -/
theorem RaftTeam.doVote_leads {team : RaftTeam} {voteid : Multihash} (leads : (team.doVote voteid).role = .leader) :
    ((team.addVote voteid).elected ∧ (team.doVote voteid).index = team.index + 1) ∨
      (team.role = .leader ∧ (team.doVote voteid).index = team.index) := by
  rw [RaftTeam.doVote] at leads ⊢
  dsimp only at leads ⊢
  split at leads
  · next elected =>
    rw [if_pos elected]
    exact .inl ⟨elected, rfl⟩
  · next unelected =>
    rw [if_neg unelected]
    exact .inr ⟨leads, rfl⟩

theorem doVote_elected {team : RaftTeam} {voteid : Multihash} (elected : (team.addVote voteid).elected) :
    (team.doVote voteid).role = .leader ∧ (team.doVote voteid).index = team.index + 1 := by
  rw [RaftTeam.doVote, if_pos elected]
  exact ⟨rfl, rfl⟩

/-- A reply counts a vote, when it is waited for and grants one. -/
theorem raftVoteRecv_counts {place campaign : ℕ} {reply : VoteReply} {request : VoteRequest}
    (delivered : network.replies[place]? = some reply) (granted : reply.granted = true)
    (asked : network.requests[reply.request]? = some request)
    (waits : network.waiting request.sender reply.request = some campaign) :
    network.raftVoteRecv place =
      (network.timeout request.sender campaign).doVote request.sender request.teamid request.voteid := by
  simp [raftVoteRecv, delivered, asked, waits, granted]

/-- Otherwise it makes no leader. -/
theorem raftVoteRecv_cases (network : Network) (place : ℕ) :
    (∃ reply request campaign, network.replies[place]? = some reply ∧ reply.granted = true ∧
        network.requests[reply.request]? = some request ∧
          network.waiting request.sender reply.request = some campaign) ∨
      ∀ self teamid index, (network.raftVoteRecv place).Leads self teamid index ↔ network.Leads self teamid index := by
  cases delivered : network.replies[place]? with
  | none => exact .inr fun _ _ _ => by simp [raftVoteRecv, delivered]
  | some reply =>
    cases asked : network.requests[reply.request]? with
    | none => exact .inr fun _ _ _ => by simp [raftVoteRecv, delivered, asked]
    | some request =>
      cases waits : network.waiting request.sender reply.request with
      | none => exact .inr fun _ _ _ => by simp [raftVoteRecv, delivered, asked, waits]
      | some campaign =>
        cases granted : reply.granted with
        | false => exact .inr fun _ _ _ => by simp [raftVoteRecv, delivered, asked, waits, granted, leads_timeout]
        | true => exact .inl ⟨reply, request, campaign, rfl, granted, asked, waits⟩

/-- A reply to a vote request makes a leader only when it is counted. -/
private theorem leads_raftVoteRecv {place : ℕ} (leads : (network.step (.raftVoteRecv place)).Leads self teamid index) :
    network.Leads self teamid index ∨ network.Crowns (.raftVoteRecv place) self teamid index := by
  rw [step] at leads
  rcases network.raftVoteRecv_cases place with ⟨reply, request, campaign, delivered, granted, asked, waits⟩ | same
  · rw [raftVoteRecv_counts delivered granted asked waits] at leads
    cases known : (network.node request.sender).teams.load request.teamid with
    | none =>
      rw [doVote_unknown (by rw [node_timeout, known])] at leads
      exact .inl (leads_timeout.mp leads)
    | some team =>
      rw [leads_doVote (by rw [node_timeout, known])] at leads
      split at leads
      · next here =>
        obtain ⟨rfl, rfl⟩ := here
        rcases RaftTeam.doVote_leads leads.1 with ⟨elected, counted⟩ | ⟨led, kept⟩
        · exact .inr ⟨place, reply, request, team, rfl, delivered, granted, asked, rfl, rfl, by rw [waits]; rfl, known,
            elected, leads.2.symm.trans counted⟩
        · exact .inl ⟨team, known, led, kept.symm.trans leads.2⟩
      · exact .inl (leads_timeout.mp leads)
  · exact .inl ((same _ _ _).mp leads)

/-- A node leads after a step because it led before, or because a vote was counted. -/
theorem leads_step {event : Event} (leads : (network.step event).Leads self teamid index) :
    network.Leads self teamid index ∨ network.Crowns event self teamid index := by
  cases event with
  | firstTeam other counted => exact .inl (leads.of_setNode Node.Leads.of_firstTeam)
  | checkHeartTime other counted =>
    rw [step] at leads
    split at leads
    · exact .inl (leads.of_setNode Node.Leads.of_checkHeartTime)
    · exact .inl leads
  | sendVote other place sent => exact .inl (leads_sendVote.mp leads)
  | timeout other place => exact .inl (leads_timeout.mp leads)
  | raftVote other place =>
    rw [step, raftVote] at leads
    split at leads
    · exact .inl (leads.of_setNode Node.Leads.of_raftVote)
    · exact .inl leads
  | raftVoteHeart other place =>
    rw [step, raftVoteHeart] at leads
    split at leads
    · exact .inl (leads.of_setNode Node.Leads.of_raftVoteHeart)
    · exact .inl leads
  | sendHeartTask other counted => exact .inl (leads_sendHeartTask leads)
  | raftVoteRecv place => exact leads_raftVoteRecv leads

/-- Who is elected leads. -/
theorem Crowns.leads {event : Event} (crowns : network.Crowns event self teamid index) :
    (network.step event).Leads self teamid index := by
  obtain ⟨place, reply, request, team, rfl, delivered, granted, asked, rfl, rfl, waits, known, elected, rfl⟩ := crowns
  obtain ⟨campaign, waits⟩ := Option.isSome_iff_exists.mp waits
  rw [step, raftVoteRecv_counts delivered granted asked waits, leads_doVote (by rw [node_timeout]; exact known),
    if_pos ⟨rfl, rfl⟩]
  exact doVote_elected elected

/-- Whoever else leads, still leads when a node is elected. -/
theorem Crowns.others {event : Event} (crowns : network.Crowns event self teamid index) {second : Multihash}
    (another : second ≠ self) (leads : network.Leads second teamid index) :
    (network.step event).Leads second teamid index := by
  obtain ⟨place, reply, request, team, rfl, delivered, granted, asked, rfl, rfl, waits, known, -, rfl⟩ := crowns
  obtain ⟨campaign, waits⟩ := Option.isSome_iff_exists.mp waits
  rw [step, raftVoteRecv_counts delivered granted asked waits, leads_doVote (by rw [node_timeout]; exact known),
    if_neg fun both => another both.1, leads_timeout]
  exact leads

/-- A step keeps the leaders apart exactly when it elects no node to a count with which another leads. -/
theorem OneLeader.step_iff (one : network.OneLeader) (event : Event) : (network.step event).OneLeader ↔
    ∀ self teamid index, network.Crowns event self teamid index →
      ∀ second ≠ self, ¬ network.Leads second teamid index := by
  constructor
  · intro after self teamid index crowns second another leads
    exact another (after second self teamid index (crowns.others another leads) crowns.leads)
  · intro apart first second teamid index firstLeads secondLeads
    by_contra another
    rcases leads_step firstLeads with firstLed | firstCrowned
    · rcases leads_step secondLeads with secondLed | secondCrowned
      · exact another (one first second teamid index firstLed secondLed)
      · exact apart second teamid index secondCrowned first another firstLed
    · rcases leads_step secondLeads with secondLed | secondCrowned
      · exact apart first teamid index firstCrowned second (Ne.symm another) secondLed
      · -- one reply elects one node
        obtain ⟨place, reply, request, -, rfl, delivered, -, asked, rfl, -⟩ := firstCrowned
        obtain ⟨place', reply', request', -, same, delivered', -, asked', rfl, -⟩ := secondCrowned
        cases same
        cases delivered.symm.trans delivered'
        cases asked.symm.trans asked'
        exact another rfl

theorem run_concat (events : List Event) (event : Event) : run (events ++ [event]) = (run events).step event :=
  Replay.foldl_concat events event

theorem oneLeader_start : (run []).OneLeader := by
  rintro first second teamid index ⟨team, known, -⟩
  cases known

/-- In the states of a run no two nodes lead a team with the same count exactly when no vote is counted that elects
a node to a count with which another node leads. -/
theorem oneLeader_iff (events : List Event) :
    (∀ before after, events = before ++ after → (run before).OneLeader) ↔
      ∀ before event after, events = before ++ event :: after → ∀ self teamid index,
        (run before).Crowns event self teamid index → ∀ other ≠ self, ¬ (run before).Leads other teamid index := by
  constructor
  · rintro always before event after rfl
    have next := always (before ++ [event]) after (by rw [List.append_assoc]; rfl)
    rw [run_concat] at next
    exact ((always before (event :: after) rfl).step_iff event).mp next
  · intro apart before
    induction before using List.reverseRecOn with
    | nil => exact fun _ _ => oneLeader_start
    | append_singleton before event ih =>
      rintro after rfl
      rw [run_concat]
      have split : before ++ [event] ++ after = before ++ event :: after := by rw [List.append_assoc]; rfl
      exact ((ih (event :: after) split).step_iff event).mpr (apart before event after split)

end Network

/-! ## Two leaders -/

/-- Two nodes want to lead a team, one after the other; a third grants both their requests. -/
def twoElections (first second voter teamid : Multihash) : List Event :=
  [.firstTeam first teamid, .firstTeam second teamid, .sendVote first 0 true, .raftVote voter 0, .raftVoteRecv 0,
    .sendVote second 0 true, .raftVote voter 1, .raftVoteRecv 1]

/-- Both of them lead with the count 1. -/
theorem two_leaders : (Network.run (twoElections [1] [2] [3] [4])).Leads [1] [4] 1 ∧
    (Network.run (twoElections [1] [2] [3] [4])).Leads [2] [4] 1 ∧
    ¬ (Network.run (twoElections [1] [2] [3] [4])).OneLeader := by
  have both : (Network.run (twoElections [1] [2] [3] [4])).Leads [1] [4] 1 ∧
      (Network.run (twoElections [1] [2] [3] [4])).Leads [2] [4] 1 := by
    decide
  exact ⟨both.1, both.2, fun one => absurd (one _ _ _ _ both.1 both.2) (by decide)⟩

end PolarCloud.Cache.Raft
