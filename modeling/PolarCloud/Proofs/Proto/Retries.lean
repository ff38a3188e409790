import PolarCloud.Proofs.Proto.Resends

/-! # How often a message is sent again

Messages are sent again in the order in which they were queued, and one time less often than it is configured.
-/

namespace PolarCloud.Proto

namespace Resends

section Steps

variable {this : Resends} {gone : List ℕ} {again : ℕ}

/-! ## How often, and in which order -/

/-- How often a message was sent again. -/
theorem Known.count (known : Known this gone again) (msgid : ℕ) :
    this.resent.count msgid =
      if msgid ∈ gone then 2 else if this.proto.que.head? = some msgid then again else 0 := by
  have nodup := known.nodup
  rw [known.queued] at nodup
  obtain ⟨first, -, apart⟩ := List.nodup_append.mp nodup
  have before : (gone.flatMap (List.replicate 2)).count msgid = if msgid ∈ gone then 2 else 0 := by
    clear known nodup apart
    induction gone with
    | nil => rfl
    | cons one rest ih =>
      obtain ⟨fresh, first⟩ := List.nodup_cons.mp first
      rw [List.flatMap_cons, List.count_append, ih first, List.count_replicate]
      by_cases same : one = msgid
      · subst same
        simp [fresh]
      · simp [same, Ne.symm same]
  have last : (this.proto.que.head?.toList.flatMap (List.replicate again)).count msgid =
      if this.proto.que.head? = some msgid then again else 0 := by
    cases head : this.proto.que.head? with
    | none => rfl
    | some one => simp [List.count_replicate]
  rw [known.resent, List.count_append, before, last]
  split
  · next member =>
    rw [if_neg]
    intro head
    exact apart msgid member msgid (List.mem_of_mem_head? head) rfl
  · exact Nat.zero_add _

theorem Known.inOrder (known : Known this gone again) : this.InOrder := by
  have nodup := known.nodup
  rw [known.queued] at nodup
  obtain ⟨-, behind, apart⟩ := List.nodup_append.mp nodup
  have before : (gone.flatMap fun msgid => List.replicate (this.resent.count msgid) msgid) =
      gone.flatMap (List.replicate 2) := by
    apply List.flatMap_congr
    intro msgid member
    rw [known.count, if_pos member]
  rw [InOrder, known.queued, List.flatMap_append, before]
  refine known.resent.trans (congrArg _ ?_)
  cases que : this.proto.que with
  | nil => rfl
  | cons head rest =>
    rw [que] at behind
    have later : (rest.flatMap fun msgid => List.replicate (this.resent.count msgid) msgid) = [] := by
      apply List.flatMap_eq_nil_iff.mpr
      intro msgid member
      have notHead : head ≠ msgid := fun same => (List.nodup_cons.mp behind).1 (same ▸ member)
      have queued : msgid ∈ this.proto.que := by
        rw [que]
        exact List.mem_cons_of_mem _ member
      rw [known.count, if_neg fun left => apart msgid left msgid queued rfl, que, List.head?_cons,
        if_neg fun same => notHead (Option.some.inj same), List.replicate_zero]
    have queued : head ∈ this.proto.que := by
      rw [que]
      exact List.mem_cons_self ..
    rw [List.flatMap_cons, later, List.append_nil, known.count, if_neg fun left => apart head left head queued rfl, que]
    simp

/-- Every message is sent again twice before it leaves the queue. -/
theorem Known.retried (known : Known this gone again) : this.Retried (resendNum - 1) where
  left msgid queued gone' := by
    rw [known.queued] at queued
    rw [known.count, if_pos ((List.mem_append.mp queued).resolve_right gone')]
    rfl
  most msgid := by
    have few := known.few
    rw [known.count, resendNum]
    split_ifs <;> omega
  leaves young msgid head resting often := by
    obtain ⟨rest, que⟩ : ∃ rest, this.proto.que = msgid :: rest := List.head?_eq_some_iff.mp head
    have nodup := known.nodup
    rw [known.queued] at nodup
    rw [known.count, if_neg fun left =>
      (List.nodup_append.mp nodup).2.2 msgid left msgid (List.mem_of_mem_head? head) rfl, if_pos head] at often
    have twice : again = 2 := often
    rw [tick_young known young resting que, if_pos twice, que]
    rfl

theorem Known.asConfigured_iff (known : Known this gone again) : this.AsConfigured ↔ gone = [] := by
  have few := known.few
  constructor
  · intro configured
    rw [List.eq_nil_iff_forall_not_mem]
    intro msgid member
    have nodup := known.nodup
    rw [known.queued] at nodup
    have left : msgid ∉ this.proto.que := fun queued => (List.nodup_append.mp nodup).2.2 msgid member msgid queued rfl
    have often := configured.retried.left msgid (by rw [known.queued]; exact List.mem_append_left _ member) left
    rw [known.count, if_pos member, resendNum] at often
    omega
  · rintro rfl
    have count (msgid : ℕ) : this.resent.count msgid ≤ 2 := by
      rw [known.count]
      split_ifs <;> omega
    refine ⟨known.inOrder, fun msgid queued left => ?_, fun msgid => Nat.le_trans (count msgid) (by decide),
      fun _ msgid _ _ often => ?_⟩
    · rw [known.queued] at queued
      exact absurd queued left
    · have few := count msgid
      rw [often] at few
      exact absurd few (by decide)

end Steps

/-- While nothing is answered, messages are sent again in the order in which they were queued, each of them one time
less often than it is configured before it leaves the queue. So they are retried as it is configured exactly as long as
none leaves it. -/
theorem retried_iff (events : List Event) (unanswered : Replay.Each step {} Unanswered events) :
    Replay.Always step {} (fun this => this.InOrder ∧ this.Retried (resendNum - 1)) events ∧
      (Replay.Always step {} AsConfigured events ↔ Replay.Each step {} KeepsHead events) := by
  have kept (this : Resends) (event : Event) (unanswered : this.Unanswered event)
      (known : ∃ gone again, Known this gone again) : ∃ gone again, Known (this.step event) gone again := by
    obtain ⟨gone, again, known⟩ := known
    rcases known.step unanswered with ⟨-, again, known⟩ | ⟨-, msgid, known⟩
    · exact ⟨gone, again, known⟩
    · exact ⟨_, 0, known⟩
  have always := Replay.always_of_each ⟨[], 0, start_known⟩ kept unanswered
  constructor
  · intro front back split
    obtain ⟨gone, again, known⟩ := always front back split
    exact ⟨known.inOrder, known.retried⟩
  · refine (Replay.always_iff_each_of (start_known.asConfigured_iff.mpr rfl) ⟨[], 0, start_known⟩
      (fun this event unanswered known _ => kept this event unanswered known) ?_ events unanswered).1
    rintro this event unanswered ⟨gone, again, known⟩ configured
    obtain rfl := known.asConfigured_iff.mp configured
    rcases known.step unanswered with ⟨keeps, again, known⟩ | ⟨drops, msgid, known⟩
    · exact iff_of_true (known.asConfigured_iff.mpr rfl) keeps
    · refine iff_of_false (fun configured => ?_) drops
      exact absurd (known.asConfigured_iff.mp configured) (List.cons_ne_nil _ _)

/-- A message that cannot be sent is queued, and `doing` finds it three times. -/
def threeTicks : List Event :=
  [.sendMsg, .send (some 0), .fail (some 0), .finish (some 0), .tick, .send none, .fail none, .finish none,
    .tick, .send none, .fail none, .finish none, .tick]

theorem threeTicks_unanswered : Replay.Each step {} Unanswered threeTicks := by
  simp only [threeTicks, Replay.each_cons, Replay.each_nil, and_true]
  decide

/-- It is sent again twice, and leaves the queue. -/
theorem twice_only : Replay.Each step {} Unanswered threeTicks ∧ ¬ Replay.Always step {} AsConfigured threeTicks := by
  refine ⟨threeTicks_unanswered, fun always => ?_⟩
  have count := always.last.retried.left 0 (by decide) (by decide)
  exact absurd count (by decide)

/-- It is retried in its order, and one time less often than it is configured. -/
theorem threeTicks_retried :
    Replay.Always step {} (fun this => this.InOrder ∧ this.Retried (resendNum - 1)) threeTicks ∧
      (Replay.Always step {} AsConfigured threeTicks ↔ Replay.Each step {} KeepsHead threeTicks) :=
  retried_iff threeTicks threeTicks_unanswered

end Resends

end PolarCloud.Proto
