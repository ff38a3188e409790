import Mathlib.Data.Set.Card
import PolarCloud.Base.Leader
import PolarCloud.Model.Mining.Height

/-! # The height that the votes elect

The votes are counted exactly, but the scan of the counts keeps the first of several heights with most
votes, not the highest of them: that a tie was seen is noted and not used. So the right height is set
whatever the order of the visits exactly when there is no tie.
-/

namespace PolarCloud.Mining

open Leader

/-! ## Votes -/

/-- How many neighbours answered a height. -/
noncomputable def votes (replies : SyncMap String UInt64) (height : UInt64) : ℕ :=
  {name | replies.load name = some height}.ncard

/-- No height above zero has more votes. -/
structure Most (replies : SyncMap String UInt64) (height : UInt64) : Prop where
  positive : height ≠ 0
  most : ∀ other, other ≠ 0 → votes replies other ≤ votes replies height

/-- The highest of the heights with most votes. -/
structure Elected (replies : SyncMap String UInt64) (height : UInt64) : Prop extends Most replies height where
  highest : ∀ other, Most replies other → other ≤ height

section Counts

variable {replies : SyncMap String UInt64} {order : List (String × UInt64)} {tally : List (UInt64 × ℕ)}
    {height : UInt64}

theorem Elected.unique {other : UInt64} (elected : Elected replies height) (elected' : Elected replies other) :
    height = other :=
  UInt64.le_antisymm (elected'.highest _ elected.toMost) (elected.highest _ elected'.toMost)

theorem votes_eq (enumerates : SyncMap.Enumerates order replies) (height : UInt64) :
    votes replies height = (order.map Prod.snd).count height := by
  have names : {name | replies.load name = some height} =
      ↑((order.filter fun entry => entry.2 = height).map Prod.fst).toFinset := by
    ext name
    simp [← enumerates.mem_iff]
  have once : ((order.filter fun entry => entry.2 = height).map Prod.fst).Nodup :=
    enumerates.nodup.sublist (List.filter_sublist.map Prod.fst)
  rw [votes, names, Set.ncard_coe_finset, List.toFinset_card_of_nodup once, List.length_map,
    List.count_eq_countP, List.countP_map, List.countP_eq_length_filter]
  rfl

theorem votes_pos (enumerates : SyncMap.Enumerates order replies) {name : String}
    (answered : replies.load name = some height) : 0 < votes replies height := by
  rw [votes_eq enumerates, List.count_pos_iff]
  exact List.mem_map_of_mem ((enumerates.mem_iff name height).mpr answered)

theorem load_countVote (heightBlockVote : SyncMap UInt64 ℕ) (height other : UInt64) :
    (countVote heightBlockVote height).load other =
      if other = height then some ((heightBlockVote.load height).getD 0 + 1) else heightBlockVote.load other := by
  rw [countVote]
  cases heightBlockVote.load height <;> rfl

/-- The counts of the votes of a visit. -/
theorem load_countVotes (order : List (String × UInt64)) (height : UInt64) : (countVotes order).load height =
    if height ∈ order.map Prod.snd then some ((order.map Prod.snd).count height) else none := by
  induction order using List.reverseRecOn with
  | nil => rfl
  | append_singleton order entry ih =>
    rw [countVotes, List.foldl_append, List.foldl_cons, List.foldl_nil]
    change (countVote (countVotes order) entry.2).load height = _
    rw [load_countVote, List.map_append, List.count_append]
    by_cases same : height = entry.2
    · subst same
      rw [if_pos rfl, ih]
      by_cases before : entry.2 ∈ order.map Prod.snd
      · simp [before]
      · simp [before, List.count_eq_zero_of_not_mem before]
    · have member : height ∈ order.map Prod.snd ++ [entry].map Prod.snd ↔ height ∈ order.map Prod.snd := by simp [same]
      have none : ([entry].map Prod.snd).count height = 0 := by simp [Ne.symm same]
      rw [if_neg same, ih, none, Nat.add_zero, if_congr member rfl rfl]

/-- There is a visit of the counts. -/
theorem exists_enumerates_countVotes (order : List (String × UInt64)) :
    ∃ tally, SyncMap.Enumerates tally (countVotes order) := by
  induction order using List.reverseRecOn with
  | nil => exact ⟨[], SyncMap.enumerates_empty⟩
  | append_singleton order entry ih =>
    obtain ⟨tally, enumerates⟩ := ih
    rw [countVotes, List.foldl_append, List.foldl_cons, List.foldl_nil]
    change ∃ tally, SyncMap.Enumerates tally (countVote (countVotes order) entry.2)
    rw [countVote]
    split
    · exact ⟨_, enumerates.overwrite _ _⟩
    · exact ⟨_, enumerates.overwrite _ _⟩

/-- A visit of the counts has the heights with at least one vote, and their votes. -/
theorem mem_tally_iff (enumerates : SyncMap.Enumerates order replies)
    (counted : SyncMap.Enumerates tally (countVotes order)) {total : ℕ} :
    (height, total) ∈ tally ↔ 0 < total ∧ votes replies height = total := by
  rw [counted.mem_iff, load_countVotes, votes_eq enumerates]
  split
  · next voted =>
    have positive := List.count_pos_iff.mpr voted
    rw [Option.some_inj]
    exact ⟨fun same => ⟨same ▸ positive, same⟩, And.right⟩
  · next unvoted =>
    rw [List.count_eq_zero_of_not_mem unvoted]
    exact iff_of_false (by simp) fun ⟨positive, same⟩ => positive.ne same

end Counts

/-! ## The scan -/

section Scan

variable {replies : SyncMap String UInt64} {order : List (String × UInt64)} {tally : List (UInt64 × ℕ)}
    {height : UInt64}

/-- The entries that the election looks at. -/
def candidates (tally : List (UInt64 × ℕ)) : List (UInt64 × ℕ) := tally.filter fun entry => entry.1 ≠ 0

/-- Only the votes decide, and more of them are needed than before. -/
theorem visit_positive (election : Election) {total : ℕ} (positive : height ≠ 0) :
    ((election.visit (height, total)).heightBlock =
      if election.heightTotal < total then height else election.heightBlock) ∧
    (election.visit (height, total)).heightTotal = max election.heightTotal total := by
  rw [Election.visit, if_neg positive]
  dsimp only
  have counted (state : Election) (sameTotal : state.heightTotal = election.heightTotal)
      (sameBlock : state.heightBlock = election.heightBlock) :
      (if state.heightTotal < total then { state with heightTotal := total, heightBlock := height }
        else if total = state.heightTotal then { state with isEqual := true } else state).heightBlock =
          (if election.heightTotal < total then height else election.heightBlock) ∧
      (if state.heightTotal < total then { state with heightTotal := total, heightBlock := height }
        else if total = state.heightTotal then { state with isEqual := true } else state).heightTotal =
          max election.heightTotal total := by
    rw [sameTotal]
    split
    · next more => exact ⟨rfl, (max_eq_right more.le).symm⟩
    · next less =>
      rw [max_eq_left (not_lt.mp less)]
      split
      · exact ⟨sameBlock, rfl⟩
      · exact ⟨sameBlock, sameTotal⟩
  split
  · exact counted _ rfl rfl
  · exact counted _ rfl rfl

/-- The election is a scan of the counts of the heights above zero. -/
theorem elect_eq (tally : List (UInt64 × ℕ)) : (elect tally).heightBlock =
    (scan Prod.snd none (candidates tally)).elim 0 Prod.fst := by
  suffices general : ∀ (election : Election) (best : Option (UInt64 × ℕ)),
      election.heightBlock = best.elim 0 Prod.fst → election.heightTotal = least Prod.snd best →
        (tally.foldl Election.visit election).heightBlock = (scan Prod.snd best (candidates tally)).elim 0 Prod.fst from
    general {} none rfl rfl
  induction tally with
  | nil => exact fun election best block _ => block
  | cons entry tally ih =>
    intro election best block total
    obtain ⟨height, count⟩ := entry
    rw [List.foldl_cons]
    by_cases zero : height = 0
    · have skipped : candidates ((height, count) :: tally) = candidates tally := by simp [candidates, zero]
      rw [skipped, Election.visit, if_pos zero]
      exact ih election best block total
    · have seen : candidates ((height, count) :: tally) = (height, count) :: candidates tally := by
        simp [candidates, zero]
      obtain ⟨block', total'⟩ := @visit_positive height election count zero
      rw [seen, scan_cons]
      refine ih _ _ ?_ ?_
      · rw [block', keep, total, block]
        split <;> rfl
      · rw [total', least_keep, total]

variable (enumerates : SyncMap.Enumerates order replies) (counted : SyncMap.Enumerates tally (countVotes order))

include enumerates counted

/-- Where some neighbour answered a height above zero, the election ends with one of most votes. -/
theorem most_of_elect (voted : ∃ name height, replies.load name = some height ∧ height ≠ 0) :
    Most replies (elect tally).heightBlock := by
  obtain ⟨name, height, answered, positive⟩ := voted
  have reached := (@le_least_scan _ Prod.snd none (candidates tally)).2
  have candidate {other : UInt64} (above : other ≠ 0) (some_ : 0 < votes replies other) :
      (other, votes replies other) ∈ candidates tally :=
    List.mem_filter.mpr ⟨(mem_tally_iff enumerates counted).mpr ⟨some_, rfl⟩, by simpa using above⟩
  have one := votes_pos enumerates answered
  rw [elect_eq]
  cases ends : scan Prod.snd none (candidates tally) with
  | none =>
    have none_ := reached _ (candidate positive one)
    rw [ends] at none_
    exact absurd one (not_lt.mpr none_)
  | some leader =>
    obtain ⟨member, above⟩ := List.mem_filter.mp ((mem_of_scan ends).resolve_left (by simp))
    have total := ((mem_tally_iff enumerates counted).mp member).2
    refine ⟨by simpa using above, fun other above' => ?_⟩
    rcases Nat.eq_zero_or_pos (votes replies other) with zero | some_
    · exact zero ▸ Nat.zero_le _
    · have less := reached _ (candidate above' some_)
      rw [ends] at less
      exact less.trans total.ge

omit counted in
/-- Any height of most votes is what the election in some order ends with. -/
theorem exists_elect (voted : ∃ name height, replies.load name = some height ∧ height ≠ 0)
    (most : Most replies height) :
    ∃ tally, SyncMap.Enumerates tally (countVotes order) ∧ (elect tally).heightBlock = height := by
  obtain ⟨tally, counted⟩ := exists_enumerates_countVotes order
  obtain ⟨name, other, answered, positive⟩ := voted
  have some_ : 0 < votes replies height :=
    (votes_pos enumerates answered).trans_le (most.most other positive)
  obtain ⟨before, after, split⟩ :=
    List.append_of_mem ((mem_tally_iff enumerates counted).mpr ⟨some_, (rfl : votes replies height = _)⟩)
  have front : ((height, votes replies height) :: (before ++ after)).Perm tally := split ▸ List.perm_middle.symm
  refine ⟨_, counted.perm front, ?_⟩
  have seen : candidates ((height, votes replies height) :: (before ++ after)) =
      (height, votes replies height) :: candidates (before ++ after) := by simp [candidates, most.positive]
  have ends : scan Prod.snd none ((height, votes replies height) :: candidates (before ++ after)) =
      some (height, votes replies height) := by
    refine scan_head some_ fun entry inside => ?_
    obtain ⟨inside, above⟩ := List.mem_filter.mp inside
    have counts := (mem_tally_iff enumerates counted).mp (front.subset (List.mem_cons_of_mem _ inside))
    rw [← counts.2]
    exact most.most entry.1 (by simpa using above)
  rw [elect_eq, seen, ends]
  rfl

end Scan

/-! ## The answers -/

/-- There is a visit of what was collected. -/
theorem exists_enumerates_collectHeights {currentBlock : UInt64} {asked : List Asked}
    {before replies : SyncMap String UInt64} (collected : collectHeights currentBlock asked before = some replies)
    (enumerable : ∃ order, SyncMap.Enumerates order before) : ∃ order, SyncMap.Enumerates order replies := by
  induction asked generalizing before with
  | nil =>
    cases collected
    exact enumerable
  | cons one rest ih =>
    rw [collectHeights] at collected
    split at collected
    · exact ih collected enumerable
    · split at collected
      · cases collected
      · split at collected
        · exact ih collected enumerable
        · obtain ⟨order, enumerates⟩ := enumerable
          exact ih collected ⟨_, enumerates.overwrite _ _⟩

section Orders

variable (chain : Chain) (asked : List Asked) (replies : SyncMap String UInt64)

/-- In any order of the visits the highest of the heights with most votes is set. -/
def AlwaysElects : Prop :=
  ∀ visit visitVotes, SyncMap.Enumerates (visit replies) replies →
    SyncMap.Enumerates (visitVotes (countVotes (visit replies))) (countVotes (visit replies)) →
    ∃ after, findBlockHeight chain asked visit visitVotes = some after ∧ Elected replies after.highestBlock

/-- No two heights share the most votes. -/
def NoTie : Prop := ∀ first second, Most replies first → Most replies second → first = second

variable {chain asked replies}

theorem findBlockHeight_eq (collected : collectHeights chain.currentBlock asked .empty = some replies)
    {visit : SyncMap String UInt64 → List (String × UInt64)} {visitVotes : SyncMap UInt64 ℕ → List (UInt64 × ℕ)}
    (enumerates : SyncMap.Enumerates (visit replies) replies)
    (voted : ∃ name height, replies.load name = some height ∧ height ≠ 0) :
    findBlockHeight chain asked visit visitVotes =
      some { chain with highestBlock := (elect (visitVotes (countVotes (visit replies)))).heightBlock } := by
  obtain ⟨name, height, answered, -⟩ := voted
  have present : (visit replies).length ≠ 0 :=
    (List.length_pos_of_mem ((enumerates.mem_iff name height).mpr answered)).ne'
  rw [findBlockHeight, collected]
  exact if_neg present

/-- The right height is set in any order of the visits exactly when there is no tie. -/
theorem alwaysElects_iff (collected : collectHeights chain.currentBlock asked .empty = some replies)
    (voted : ∃ name height, replies.load name = some height ∧ height ≠ 0) :
    AlwaysElects chain asked replies ↔ NoTie replies := by
  constructor
  · intro always first second most most'
    obtain ⟨order, enumerates⟩ := exists_enumerates_collectHeights collected ⟨[], SyncMap.enumerates_empty⟩
    have elected {height : UInt64} (most : Most replies height) : Elected replies height := by
      obtain ⟨tally, counted, ends⟩ := exists_elect enumerates voted most
      obtain ⟨after, found, elected⟩ := always (fun _ => order) (fun _ => tally) enumerates counted
      rw [findBlockHeight_eq collected enumerates voted] at found
      cases found
      exact ends ▸ elected
    exact (elected most).unique (elected most')
  · intro noTie visit visitVotes enumerates counted
    have most := most_of_elect enumerates counted voted
    exact ⟨_, findBlockHeight_eq collected enumerates voted, most, fun other most' =>
      UInt64.le_of_eq (noTie other _ most' most)⟩

end Orders

namespace Replied

/-- The answer of a neighbour whose highest block has a height below 256. -/
def answer (height : UInt8) : Option Bytes := some (List.replicate 8 0 ++ height :: List.replicate 7 0)

def tied : List Asked := [⟨"a", answer 5⟩, ⟨"b", answer 7⟩]

def tiedReplies : SyncMap String UInt64 := (SyncMap.empty.store "a" 5).store "b" 7

def untied : List Asked := [⟨"a", answer 5⟩, ⟨"b", answer 5⟩, ⟨"c", answer 7⟩]

def untiedReplies : SyncMap String UInt64 := ((SyncMap.empty.store "a" 5).store "b" 5).store "c" 7

theorem enumerates_tied : SyncMap.Enumerates [("b", 7), ("a", 5)] tiedReplies :=
  (SyncMap.enumerates_empty.store rfl 5).store rfl 7

theorem enumerates_untied : SyncMap.Enumerates [("c", 7), ("b", 5), ("a", 5)] untiedReplies :=
  ((SyncMap.enumerates_empty.store rfl 5).store rfl 5).store rfl 7

end Replied

/-- Of two heights with one vote each, the lower one is set when it is visited first. -/
theorem tie_elects_first : collectHeights 0 Replied.tied .empty = some Replied.tiedReplies ∧
    ¬ AlwaysElects {} Replied.tied Replied.tiedReplies := by
  refine ⟨rfl, fun always => ?_⟩
  have counted : SyncMap.Enumerates [(5, 1), (7, 1)] (countVotes [("b", 7), ("a", 5)]) :=
    (SyncMap.enumerates_empty.store rfl 1).store rfl 1
  obtain ⟨after, found, elected⟩ :=
    always (fun _ => [("b", 7), ("a", 5)]) (fun _ => [(5, 1), (7, 1)]) Replied.enumerates_tied counted
  have lower : after.highestBlock = 5 := by
    cases found
    rfl
  have votes_le (height : UInt64) : votes Replied.tiedReplies height ≤ 1 := by
    rw [votes_eq Replied.enumerates_tied]
    exact List.nodup_iff_count_le_one.mp (by decide) height
  have most : Most Replied.tiedReplies 7 := by
    refine ⟨by decide, fun other _ => (votes_le other).trans ?_⟩
    rw [votes_eq Replied.enumerates_tied]
    decide
  have higher := elected.highest 7 most
  rw [lower] at higher
  exact absurd higher (by decide)

/-- Two votes for one height and one for another are no tie. -/
theorem untied_elects : AlwaysElects {} Replied.untied Replied.untiedReplies := by
  refine (alwaysElects_iff rfl ⟨"a", 5, rfl, by decide⟩).mpr ?_
  have five {height : UInt64} (most : Most Replied.untiedReplies height) : height = 5 := by
    have least := most.most 5 (by decide)
    rw [votes_eq Replied.enumerates_untied, votes_eq Replied.enumerates_untied] at least
    by_contra other
    have few : ([("c", 7), ("b", 5), ("a", 5)].map Prod.snd).count height ≤ 1 := by
      rw [List.map_cons, List.map_cons, List.map_cons, List.map_nil, List.count_cons,
        List.count_cons_of_ne (Ne.symm other), List.count_cons_of_ne (Ne.symm other), List.count_nil]
      split <;> omega
    exact absurd (least.trans few) (by decide)
  exact fun first second most most' => (five most).trans (five most').symm

end PolarCloud.Mining
