import PolarCloud.Base.Replay
import PolarCloud.Model.Utils.Vote

/-! # Eight votes

What a manager keeps for a pair are the hashes that were voted for since the pair was last removed. A vote changes the
hashes of its own pair alone, and passes when there are eight of them.
-/

namespace PolarCloud.Polls

variable {events : List Event} {class_ params replyHash hash : String}

namespace PollManager

variable {this : PollManager}

/-- The hashes that are kept for a pair. -/
def hashes (this : PollManager) (class_ params : String) : Finset String :=
  (((this.data.load class_).bind fun one => one.votes.load params).map Vote.replyHash).getD ∅

/-- The hashes of a pair where a class has other votes. -/
theorem hashes_store (one : Poll) (otherClass otherParams : String) :
    hashes { this with data := this.data.store class_ one } otherClass otherParams =
      if otherClass = class_ then ((one.votes.load otherParams).map Vote.replyHash).getD ∅ else
        this.hashes otherClass otherParams := by
  rw [hashes, SyncMap.load_store]
  split <;> rfl

theorem hashes_of_load {one : Poll} (known : this.data.load class_ = some one) (params : String) :
    this.hashes class_ params = ((one.votes.load params).map Vote.replyHash).getD ∅ := by
  rw [hashes, known, Option.bind_some]

theorem hashes_of_load_none (unknown : this.data.load class_ = none) (params : String) :
    this.hashes class_ params = ∅ := by
  rw [hashes, unknown]
  rfl

/-- The hashes of a pair where a pair of a class that is there gets others. -/
theorem hashes_store_vote {one : Poll} (known : this.data.load class_ = some one) (vote : Vote)
    (otherClass otherParams : String) :
    hashes { this with data := this.data.store class_ { votes := one.votes.store params vote } } otherClass
      otherParams =
      if otherClass = class_ ∧ otherParams = params then vote.replyHash else this.hashes otherClass otherParams := by
  rw [hashes_store]
  by_cases sameClass : otherClass = class_
  · subst sameClass
    rw [if_pos rfl, SyncMap.load_store, hashes_of_load known]
    by_cases sameParams : otherParams = params
    · simp [sameParams]
    · simp [sameParams]
  · simp [sameClass]

/-- One vote is too few. -/
theorem not_passes_first (replyHash : String) : ¬ 8 ≤ (insert replyHash (∅ : Finset String)).card := by
  rw [insert_empty_eq, Finset.card_singleton]
  decide

/-- What `Vote` keeps and answers, where the class is there. -/
theorem voteIn_spec {one : Poll} (known : this.data.load class_ = some one) :
    ((this.voteIn one class_ params replyHash).1 = true ↔ 8 ≤ (insert replyHash (this.hashes class_ params)).card) ∧
    ∀ otherClass otherParams, (this.voteIn one class_ params replyHash).2.hashes otherClass otherParams =
      if otherClass = class_ ∧ otherParams = params then insert replyHash (this.hashes class_ params) else
        this.hashes otherClass otherParams := by
  have kept := hashes_of_load known params
  rw [voteIn]
  cases there : one.votes.load params with
  | none =>
    have before : this.hashes class_ params = ∅ := by
      rw [kept, there]
      rfl
    rw [before]
    exact ⟨iff_of_false Bool.false_ne_true (not_passes_first replyHash), hashes_store_vote known _⟩
  | some vOne =>
    have before : this.hashes class_ params = vOne.replyHash := by
      rw [kept, there]
      rfl
    rw [before]
    exact ⟨decide_eq_true_iff, hashes_store_vote known _⟩

/-- The call in the call is one like any other. -/
theorem vote_of_load_none (unknown : this.data.load class_ = none) :
    this.vote class_ params replyHash =
      (false, (vote { this with data := this.data.store class_ { votes := .empty } } class_ params replyHash).2) := by
  rw [vote, unknown, vote]
  dsimp only
  rw [SyncMap.load_store_self]

/-- A vote passes when its pair has eight hashes then, and adds its hash to those of the pair. -/
theorem vote_spec (this : PollManager) (class_ params replyHash : String) :
    ((this.vote class_ params replyHash).1 = true ↔ 8 ≤ (insert replyHash (this.hashes class_ params)).card) ∧
    ∀ otherClass otherParams, (this.vote class_ params replyHash).2.hashes otherClass otherParams =
      if otherClass = class_ ∧ otherParams = params then insert replyHash (this.hashes class_ params) else
        this.hashes otherClass otherParams := by
  cases known : this.data.load class_ with
  | some one =>
    rw [vote, known]
    exact voteIn_spec known
  | none =>
    have none_ := hashes_of_load_none known params
    -- a class without votes is as good as none
    have empty (otherClass otherParams : String) :
        hashes { this with data := this.data.store class_ { votes := .empty } } otherClass otherParams =
          this.hashes otherClass otherParams := by
      rw [hashes_store]
      split
      · next same => exact (same ▸ hashes_of_load_none known otherParams).symm
      · rfl
    rw [vote_of_load_none known]
    refine ⟨?_, fun otherClass otherParams => ?_⟩
    · rw [none_]
      exact iff_of_false Bool.false_ne_true (not_passes_first replyHash)
    · rw [vote]
      dsimp only
      rw [SyncMap.load_store_self]
      dsimp only
      rw [(voteIn_spec (SyncMap.load_store_self _ _ _)).2, empty, empty]

/-- A removal takes the hashes of its pair away. -/
theorem hashes_removePross (this : PollManager) (class_ param otherClass otherParams : String) :
    (this.removePross class_ param).hashes otherClass otherParams =
      if otherClass = class_ ∧ otherParams = param then ∅ else this.hashes otherClass otherParams := by
  rw [removePross]
  cases known : this.data.load class_ with
  | none =>
    show this.hashes otherClass otherParams = _
    by_cases same : otherClass = class_ ∧ otherParams = param
    · rw [if_pos same, same.1, hashes_of_load_none known]
    · rw [if_neg same]
  | some pOne =>
    dsimp only
    rw [hashes_store]
    by_cases sameClass : otherClass = class_
    · subst sameClass
      by_cases sameParams : otherParams = param
      · simp [sameParams, SyncMap.load_delete]
      · simp [sameParams, SyncMap.load_delete, hashes_of_load known]
    · simp [sameClass]

end PollManager

/-- A hash was voted for, and its pair was not removed since. -/
def VotedSince (events : List Event) (class_ params hash : String) : Prop :=
  ∃ front back, events = front ++ .vote class_ params hash :: back ∧ .removePross class_ params ∉ back

theorem not_votedSince_nil : ¬ VotedSince [] class_ params hash := by
  rintro ⟨front, back, split, -⟩
  cases (List.append_eq_nil_iff.mp split.symm).2

theorem votedSince_concat {event : Event} : VotedSince (events ++ [event]) class_ params hash ↔
    event = .vote class_ params hash ∨ VotedSince events class_ params hash ∧ event ≠ .removePross class_ params := by
  constructor
  · rintro ⟨front, back, split, kept⟩
    rcases List.eq_nil_or_concat' back with rfl | ⟨back, last, rfl⟩
    · obtain ⟨-, same⟩ := List.append_inj' split rfl
      cases same
      exact .inl rfl
    · rw [← List.cons_append, ← List.append_assoc] at split
      obtain ⟨rfl, same⟩ := List.append_inj' split rfl
      cases same
      rw [List.mem_append, not_or, List.mem_singleton] at kept
      exact .inr ⟨⟨front, back, rfl, kept.1⟩, Ne.symm kept.2⟩
  · rintro (rfl | ⟨⟨front, back, rfl, kept⟩, other⟩)
    · exact ⟨events, [], rfl, List.not_mem_nil⟩
    · refine ⟨front, back ++ [event], by rw [List.append_assoc, List.cons_append], ?_⟩
      rw [List.mem_append, not_or, List.mem_singleton]
      exact ⟨kept, Ne.symm other⟩

/-- What is kept for a pair are the hashes that were voted for since its last removal. -/
theorem mem_hashes_run : hash ∈ (run events).hashes class_ params ↔ VotedSince events class_ params hash := by
  induction events using List.reverseRecOn with
  | nil => exact iff_of_false (Finset.notMem_empty hash) not_votedSince_nil
  | append_singleton events event ih =>
    rw [run, Replay.foldl_concat, votedSince_concat, ← ih]
    change hash ∈ ((run events).step event).hashes class_ params ↔ _
    cases event with
    | vote otherClass otherParams otherHash =>
      rw [PollManager.step, (PollManager.vote_spec _ _ _ _).2]
      by_cases same : class_ = otherClass ∧ params = otherParams
      · obtain ⟨rfl, rfl⟩ := same
        simp [eq_comm]
      · have apart : ¬ (otherClass = class_ ∧ otherParams = params) := fun is => same ⟨is.1.symm, is.2.symm⟩
        simp only [same, if_false, Event.vote.injEq, ne_eq, reduceCtorEq, not_false_eq_true, and_true]
        exact (or_iff_right fun is => apart ⟨is.1, is.2.1⟩).symm
    | removePross otherClass otherParams =>
      rw [PollManager.step, PollManager.hashes_removePross]
      by_cases same : class_ = otherClass ∧ params = otherParams
      · obtain ⟨rfl, rfl⟩ := same
        simp
      · have apart : ¬ (otherClass = class_ ∧ otherParams = params) := fun is => same ⟨is.1.symm, is.2.symm⟩
        simp [same, apart]

/-- The calls for one pair. -/
def Event.On (class_ params : String) : Event → Prop
  | .vote otherClass otherParams _ | .removePross otherClass otherParams => otherClass = class_ ∧ otherParams = params

instance (class_ params : String) (event : Event) : Decidable (event.On class_ params) := by
  cases event <;> exact instDecidableAnd

/-- The calls for other pairs leave the hashes of a pair alone. -/
theorem hashes_run_filter (events : List Event) (class_ params : String) :
    (run (events.filter fun event => event.On class_ params)).hashes class_ params =
      (run events).hashes class_ params := by
  induction events using List.reverseRecOn with
  | nil => rfl
  | append_singleton events event ih =>
    rw [List.filter_append, run, run, List.foldl_append, Replay.foldl_concat]
    change (([event].filter _).foldl PollManager.step (run _)).hashes class_ params =
      ((run events).step event).hashes class_ params
    by_cases on : event.On class_ params
    · rw [List.filter_cons_of_pos (by simpa using on), List.filter_nil, List.foldl_cons, List.foldl_nil]
      cases event with
      | vote otherClass otherParams otherHash =>
        obtain ⟨rfl, rfl⟩ := on
        rw [PollManager.step, PollManager.step, (PollManager.vote_spec _ _ _ _).2,
          (PollManager.vote_spec _ _ _ _).2, ih]
      | removePross otherClass otherParams =>
        obtain ⟨rfl, rfl⟩ := on
        rw [PollManager.step, PollManager.step, PollManager.hashes_removePross, PollManager.hashes_removePross, ih]
    · rw [List.filter_cons_of_neg (by simpa using on), List.filter_nil, List.foldl_nil, ih]
      have apart (otherClass otherParams : String) (is : ¬ (otherClass = class_ ∧ otherParams = params)) :
          ¬ (class_ = otherClass ∧ params = otherParams) := fun same => is ⟨same.1.symm, same.2.symm⟩
      cases event with
      | vote otherClass otherParams otherHash =>
        rw [PollManager.step, (PollManager.vote_spec _ _ _ _).2, if_neg (apart _ _ on)]
      | removePross otherClass otherParams =>
        rw [PollManager.step, PollManager.hashes_removePross, if_neg (apart _ _ on)]

/-- A vote passes exactly when eight different hashes, with its own, were voted for since the pair was last removed. The
calls for other pairs make no difference. -/
theorem vote_passes_iff (events : List Event) (class_ params replyHash : String) :
    (((run events).vote class_ params replyHash).1 = true ↔ ∃ hashes : Finset String, 8 ≤ hashes.card ∧
      ∀ hash ∈ hashes, VotedSince (events ++ [.vote class_ params replyHash]) class_ params hash) ∧
    ((run (events.filter fun event => event.On class_ params)).vote class_ params replyHash).1 =
      ((run events).vote class_ params replyHash).1 := by
  have passes := (PollManager.vote_spec (run events) class_ params replyHash).1
  have voted (hash : String) : hash ∈ insert replyHash ((run events).hashes class_ params) ↔
      VotedSince (events ++ [.vote class_ params replyHash]) class_ params hash := by
    rw [votedSince_concat, ← mem_hashes_run, Finset.mem_insert]
    simp [eq_comm]
  constructor
  · rw [passes]
    constructor
    · exact fun enough => ⟨_, enough, fun hash mem => (voted hash).mp mem⟩
    · rintro ⟨hashes, enough, all⟩
      exact enough.trans (Finset.card_le_card fun hash mem => (voted hash).mpr (all hash mem))
  · rw [Bool.eq_iff_iff, passes, (PollManager.vote_spec _ class_ params replyHash).1, hashes_run_filter]

/-- After seven hashes an eighth passes, and one of the seven does not. -/
example : (((run ((List.range 7).map fun i => .vote "build" "name" (toString i))).vote "build" "name" "7").1,
    ((run ((List.range 7).map fun i => .vote "build" "name" (toString i))).vote "build" "name" "0").1) =
      (true, false) := by decide +kernel

end PolarCloud.Polls
