import PolarCloud.Model.Cache.Raft

/-! # Hearts that are overdue

The loop over the heart times ends at the first team that the node leads itself, and at the first id that does not
read, where it should go on to the next one. Whatever comes behind in the order of the map is not looked at.
-/

namespace PolarCloud.Cache.Raft

open NodeStore

/-- The rounds of requests for a team that a node has begun. -/
def Node.campaignsOf (this : Node) (teamid : Multihash) : List Campaign :=
  this.campaigns.filter fun campaign => campaign.teamid = teamid

/-- A team and its rounds are as before. -/
structure Node.Unchanged (node result : Node) (teamid : Multihash) : Prop where
  team : result.team teamid = node.team teamid
  campaigns : result.campaignsOf teamid = node.campaignsOf teamid

/-- A candidate has begun a round, and any other has become a candidate. -/
structure Node.Advanced (node result : Node) (own teamid : Multihash) : Prop where
  candidate : (node.team teamid).role = .candidate →
    result.team teamid = (node.team teamid).addVote own ∧ result.campaignsOf teamid =
      node.campaignsOf teamid ++ [{ teamid, index := (node.team teamid).index, ids := getQuarterLogicIds teamid }]
  follower : (node.team teamid).role ≠ .candidate →
    result.team teamid = (node.team teamid).setRole own .candidate ∧
      result.campaignsOf teamid = node.campaignsOf teamid

namespace HeartTime

/-- The heart has not been heard for too long, by a node that does not lead. -/
def Due (now : Multihash → ℤ) (node : Node) (beat : Multihash × ℤ) : Prop :=
  heartInterval < now beat.1 - beat.2 ∧ (node.team beat.1).role ≠ .leader

/-- The loop ends here. -/
def Ends (node : Node) (beat : Multihash × ℤ) : Prop :=
  Utils.cast beat.1 = none ∨ (node.team beat.1).role = .leader

/-- The teams that are due are advanced, and no others are changed. -/
structure Noticed (own : Multihash) (now : Multihash → ℤ) (beats : List (Multihash × ℤ)) (node result : Node) :
    Prop where
  advanced : ∀ beat ∈ beats, Due now node beat → node.Advanced result own beat.1
  unchanged : ∀ teamid, (∀ beat ∈ beats, beat.1 = teamid → ¬ Due now node beat) → node.Unchanged result teamid

/-- Whatever the order in which the map is ranged over. -/
def AllNoticed (this : HeartTime) (own : Multihash) (now : Multihash → ℤ) (node : Node) : Prop :=
  ∀ order, order.Perm this.beats → Noticed own now this.beats node (checkHeartTime own now node order)

end HeartTime

namespace Node

variable {node middle result : Node} {self teamid other : Multihash}

theorem Unchanged.refl (node : Node) (teamid : Multihash) : node.Unchanged node teamid := ⟨rfl, rfl⟩

theorem Unchanged.trans (first : node.Unchanged middle teamid) (second : middle.Unchanged result teamid) :
    node.Unchanged result teamid :=
  ⟨second.team.trans first.team, second.campaigns.trans first.campaigns⟩

/-- What is advanced from an unchanged state, and not changed then, is advanced. -/
theorem Advanced.of_unchanged {final : Node} (first : node.Unchanged middle teamid)
    (advanced : middle.Advanced result self teamid) (second : result.Unchanged final teamid) :
    node.Advanced final self teamid := by
  constructor
  · intro candidate
    have held := advanced.candidate (first.team ▸ candidate)
    rw [first.team, first.campaigns] at held
    exact ⟨second.team.trans held.1, second.campaigns.trans held.2⟩
  · intro other
    have held := advanced.follower (first.team ▸ other)
    rw [first.team, first.campaigns] at held
    exact ⟨second.team.trans held.1, second.campaigns.trans held.2⟩

/-- What is advanced is not as before. -/
theorem Advanced.not_unchanged (advanced : node.Advanced result self teamid) : ¬ node.Unchanged result teamid := by
  intro unchanged
  by_cases candidate : (node.team teamid).role = .candidate
  · have begun := (advanced.candidate candidate).2
    rw [unchanged.campaigns] at begun
    exact absurd (List.self_eq_append_right.mp begun) (List.cons_ne_nil _ _)
  · have made := (advanced.follower candidate).1
    rw [unchanged.team] at made
    exact candidate (made ▸ rfl)

/-- A team that is created anew is as it was. -/
theorem unchanged_create (node : Node) (other teamid : Multihash) :
    node.Unchanged (node.saveTeam other (node.team other)) teamid := by
  refine ⟨?_, rfl⟩
  rw [team_saveTeam]
  split
  · next same => rw [same]
  · rfl

theorem team_createVote (team : RaftTeam) : (node.createVote self other team).team teamid =
    if teamid = other then team.addVote self else node.team teamid := by
  rw [createVote]
  split
  · exact team_saveTeam ..
  · exact team_saveTeam ..

theorem campaignsOf_createVote {team : RaftTeam} (candidate : team.role = .candidate) :
    (node.createVote self other team).campaignsOf teamid = node.campaignsOf teamid ++
      if other = teamid then [{ teamid := other, index := team.index, ids := getQuarterLogicIds other }] else [] := by
  rw [createVote, if_pos candidate, campaignsOf, List.filter_append, List.filter_singleton, Bool.cond_decide]
  rfl

/-- A team that is not led is advanced, and the others are left alone. -/
theorem advanced_checkHeartTime (unled : (node.team teamid).role ≠ .leader) :
    node.Advanced (node.checkHeartTime self teamid) self teamid ∧
      ∀ other, other ≠ teamid → node.Unchanged (node.checkHeartTime self teamid) other := by
  rw [checkHeartTime]
  split
  · next led => exact absurd led unled
  · next candidate =>
    refine ⟨⟨fun _ => ⟨?_, ?_⟩, fun other => absurd candidate other⟩, fun other differs => ⟨?_, ?_⟩⟩
    · rw [team_createVote, if_pos rfl]
    · rw [campaignsOf_createVote candidate, if_pos rfl]
    · rw [team_createVote, if_neg differs]
    · rw [campaignsOf_createVote candidate, if_neg differs.symm, List.append_nil]
  · next notCandidate =>
    refine ⟨⟨fun candidate => absurd candidate notCandidate, fun _ => ⟨?_, rfl⟩⟩, fun other differs => ⟨?_, rfl⟩⟩
    · rw [team_saveTeam, if_pos rfl]
    · rw [team_saveTeam, if_neg differs]

end Node

namespace HeartTime

variable {node middle result : Node} {own : Multihash} {now : Multihash → ℤ} {beat : Multihash × ℤ}
  {beats order : List (Multihash × ℤ)}

theorem due_iff (same : node.Unchanged middle beat.1) : Due now middle beat ↔ Due now node beat := by
  rw [Due, Due, same.team]

theorem ends_iff (same : node.Unchanged middle beat.1) : Ends middle beat ↔ Ends node beat := by
  rw [Ends, Ends, same.team]

/-- Where the loop ends, nothing has changed. -/
theorem checkHeartTime_ends (ends : Ends node beat) (teamid : Multihash) :
    node.Unchanged (checkHeartTime own now node (beat :: beats)) teamid := by
  obtain ⟨k, v⟩ := beat
  rw [checkHeartTime]
  cases read : Utils.cast k with
  | none => exact .refl node teamid
  | some id =>
    cases Utils.cast_self read
    have led : (node.team k).role = .leader := ends.resolve_left (by rw [read]; nofun)
    dsimp only
    rw [if_pos led]
    exact node.unchanged_create k teamid

/-- Else it goes on from a state in which this team is advanced if it is due, and nothing else has changed. -/
theorem checkHeartTime_goes (goes : ¬ Ends node beat) : ∃ middle,
    checkHeartTime own now node (beat :: beats) = checkHeartTime own now middle beats ∧
      (Due now node beat → node.Advanced middle own beat.1) ∧
      ∀ teamid, (beat.1 = teamid → ¬ Due now node beat) → node.Unchanged middle teamid := by
  obtain ⟨k, v⟩ := beat
  obtain ⟨reads, unled⟩ := not_or.mp goes
  obtain ⟨id, read⟩ := Option.ne_none_iff_exists'.mp reads
  cases Utils.cast_self read
  have created := node.unchanged_create k
  rw [checkHeartTime, read]
  dsimp only
  rw [if_neg unled]
  by_cases late : heartInterval < now k - v
  · have unled' : ((node.saveTeam k (node.team k)).team k).role ≠ .leader := by
      rw [(created k).team]
      exact unled
    obtain ⟨advanced, others⟩ := @Node.advanced_checkHeartTime _ own k unled'
    rw [if_pos late]
    refine ⟨_, rfl, fun _ => .of_unchanged (created k) advanced (.refl _ _), fun teamid notDue => ?_⟩
    have differs : teamid ≠ k := fun same => notDue same.symm ⟨late, unled⟩
    exact (created teamid).trans (others teamid differs)
  · rw [if_neg late]
    exact ⟨_, rfl, fun due => absurd due.1 late, fun teamid _ => created teamid⟩

/-- When nothing is due among beats of which one ends the loop, all due teams are advanced in any order. -/
theorem noticed_of (distinct : (order.map Prod.fst).Nodup)
    (clear : ∀ beat ∈ order, Ends node beat → ∀ other ∈ order, ¬ Due now node other) :
    Noticed own now order node (checkHeartTime own now node order) := by
  induction order generalizing node with
  | nil => exact ⟨fun _ mem => absurd mem List.not_mem_nil, fun teamid _ => .refl node teamid⟩
  | cons beat order ih =>
    obtain ⟨fresh, distinct⟩ := List.nodup_cons.mp distinct
    by_cases ends : Ends node beat
    · have none := clear beat List.mem_cons_self ends
      exact ⟨fun other mem due => absurd due (none other mem), fun teamid _ => checkHeartTime_ends ends teamid⟩
    · obtain ⟨middle, same, advanced, others⟩ := @checkHeartTime_goes node own now beat order ends
      -- later beats are of other teams, so they are due and end the loop as before
      have apart (other : Multihash × ℤ) (mem : other ∈ order) : node.Unchanged middle other.1 :=
        others other.1 fun equal => absurd (equal ▸ List.mem_map_of_mem mem) fresh
      have rest : Noticed own now order middle (checkHeartTime own now middle order) := by
        refine ih distinct fun one mem ends other mem' due => ?_
        refine clear one (List.mem_cons_of_mem _ mem) ((ends_iff (apart one mem)).mp ends) other
          (List.mem_cons_of_mem _ mem') ((due_iff (apart other mem')).mp due)
      rw [same]
      constructor
      · intro other mem due
        rcases List.mem_cons.mp mem with rfl | mem
        · refine .of_unchanged (.refl _ _) (advanced due) (rest.unchanged _ fun one mem equal => ?_)
          exact absurd (equal ▸ List.mem_map_of_mem mem) fresh
        · exact .of_unchanged (apart other mem) (rest.advanced other mem ((due_iff (apart other mem)).mpr due))
            (.refl _ _)
      · intro teamid notDue
        refine (others teamid (notDue beat List.mem_cons_self)).trans (rest.unchanged teamid fun one mem equal => ?_)
        rw [due_iff (apart one mem)]
        exact notDue one (List.mem_cons_of_mem _ mem) equal

theorem Noticed.perm (perm : order.Perm beats) (noticed : Noticed own now order node result) :
    Noticed own now beats node result :=
  ⟨fun beat mem => noticed.advanced beat (perm.mem_iff.mpr mem),
    fun teamid notDue => noticed.unchanged teamid fun beat mem => notDue beat (perm.mem_iff.mp mem)⟩

/-- Every dead leader is noticed in every order exactly when no heart is overdue while the loop can end early. -/
theorem allNoticed_iff (this : HeartTime) (own : Multihash) (now : Multihash → ℤ) (node : Node) :
    this.AllNoticed own now node ↔
      ∀ beat ∈ this.beats, Ends node beat → ∀ other ∈ this.beats, ¬ Due now node other := by
  constructor
  · intro all beat mem ends other mem' due
    have perm : (beat :: this.beats.erase beat).Perm this.beats := (List.perm_cons_erase mem).symm
    exact ((all _ perm).advanced other mem' due).not_unchanged (checkHeartTime_ends ends other.1)
  · intro clear order perm
    have distinct : (order.map Prod.fst).Nodup := (perm.map Prod.fst).nodup_iff.mpr this.nodup
    refine .perm perm (noticed_of distinct fun beat mem ends other mem' => ?_)
    exact clear beat (perm.mem_iff.mp mem) ends other (perm.mem_iff.mp mem')

/-- The hearts of two teams, none of which was heard since. -/
def twoHearts : HeartTime where
  beats := [([0, 1, 1], 0), ([0, 1, 2], 0)]
  nodup := by decide

/-- A node that leads the first of them. -/
def leadsFirst : Node :=
  { teams := SyncMap.empty.store [0, 1, 1] { nodeids := getQuarterLogicIds [0, 1, 1], role := .leader, index := 1 } }

/-- The heart of the second team is overdue, and the loop ends at the first. -/
theorem second_missed : ¬ twoHearts.AllNoticed [1] (fun _ => 16 * 10 ^ 9) leadsFirst := by
  intro all
  have late : heartInterval < 16 * 10 ^ 9 - 0 := by decide
  have advanced := (all twoHearts.beats (.refl _)).advanced ([0, 1, 2], 0) (by decide) ⟨late, by decide⟩
  exact advanced.not_unchanged (checkHeartTime_ends (.inr rfl) _)

end HeartTime

end PolarCloud.Cache.Raft
