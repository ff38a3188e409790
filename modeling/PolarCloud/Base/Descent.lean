import Mathlib.Data.Finset.Card
import Mathlib.Data.Fintype.EquivFin
import Mathlib.Data.List.Chain
import Mathlib.Logic.Hydra
import Mathlib.Logic.Relation

/-! # Steps that come closer

Where every step makes a number smaller, no sequence of steps comes to a place twice or goes on for ever; and
where a step is always there, a goal is reached. A flood takes all steps from a place at once: every message
that is received is replaced by any number of messages to the next places. With finitely many places it
stops, when every step makes the number larger.
-/

namespace PolarCloud.Descent

universe u v

variable {α : Type u} {step : α → α → Prop} {distance : α → ℕ}

theorem reaches (step : α → α → Prop) (distance : α → ℕ) (valid goal : α → Prop)
    (progress : ∀ place, valid place →
      goal place ∨ ∃ next, step place next ∧ valid next ∧ distance next < distance place)
    {start : α} (validStart : valid start) : ∃ place, Relation.ReflTransGen step start place ∧ goal place := by
  induction bound : distance start using Nat.strong_induction_on generalizing start with
  | h bound' ih =>
    rcases progress start validStart with done | ⟨next, first, validNext, closer⟩
    · exact ⟨start, .refl, done⟩
    · obtain ⟨place, path, done⟩ := ih _ (bound ▸ closer) validNext rfl
      exact ⟨place, .head first path, done⟩

/-- Where all steps go down in some order, a path comes to no place twice. -/
theorem path_nodup {β : Type v} [Preorder β] (height : α → β)
    (descends : ∀ place next, step place next → height next < height place) {path : List α}
    (steps : path.IsChain step) :
    path.Nodup := by
  have chain : path.IsChain fun place later => height later < height place := steps.imp descends
  refine chain.pairwise.imp fun closer same => ?_
  rw [same] at closer
  exact lt_irrefl _ closer

theorem not_forever (descends : ∀ place next, step place next → distance next < distance place) (places : ℕ → α) :
    ¬ ∀ time, step (places time) (places (time + 1)) := by
  intro forever
  have descent (time : ℕ) : distance (places time) + time ≤ distance (places 0) := by
    induction time with
    | zero => exact le_rfl
    | succ time ih =>
      have closer := descends _ _ (forever time)
      omega
  have last := descent (distance (places 0) + 1)
  omega

/-- One message of a flood is received, and sent on to any number of next places. -/
def Flood (step : α → α → Prop) (before after : Multiset α) : Prop :=
  ∃ place rest sent, before = place ::ₘ rest ∧ after = sent + rest ∧ ∀ next ∈ sent, step place next

/-- A flood over finitely many places stops, when every step makes the number larger. -/
theorem flood_stops (places : Finset α) (distance : α → ℕ) (confined : ∀ place next, step place next → next ∈ places)
    (ascends : ∀ place next, step place next → distance place < distance next) (floods : ℕ → Multiset α) :
    ¬ ∀ time, Flood step (floods time) (floods (time + 1)) := by
  -- the number of places that are farther drops at every step
  let left (place : α) : ℕ := (places.filter fun other => distance place < distance other).card
  have drops (place next : α) (taken : step place next) : left next < left place := by
    have closer := ascends place next taken
    refine Finset.card_lt_card ⟨fun other mem => ?_, fun all => ?_⟩
    · rw [Finset.mem_filter] at mem ⊢
      exact ⟨mem.1, closer.trans mem.2⟩
    · have mem := all (Finset.mem_filter.mpr ⟨confined place next taken, closer⟩)
      exact absurd (Finset.mem_filter.mp mem).2 (lt_irrefl _)
  have founded : WellFounded (Relation.CutExpand fun next place => left next < left place) :=
    WellFounded.cutExpand (InvImage.wf left Nat.lt_wfRel.wf)
  intro forever
  refine (wellFounded_iff_isEmpty_descending_chain.mp founded).false ⟨floods, fun time => ?_⟩
  obtain ⟨place, rest, sent, before, after, taken⟩ := forever time
  refine ⟨sent, place, fun next mem => drops place next (taken next mem), ?_⟩
  rw [before, after, ← Multiset.singleton_add, add_comm (sent + rest), add_comm sent, ← add_assoc]

/-! ## Floods whose duplicates are dropped -/

/-- One message is received: at a place that had one before it is dropped, at any other it is sent on. -/
inductive Filtered (next : α → List α) : List α × Multiset α → List α × Multiset α → Prop
  | dropped {seen : List α} {place : α} (rest : Multiset α) (known : place ∈ seen) :
      Filtered next (seen, place ::ₘ rest) (seen, rest)
  | received {seen : List α} {place : α} (rest : Multiset α) (fresh : place ∉ seen) :
      Filtered next (seen, place ::ₘ rest) (place :: seen, ↑(next place) + rest)

section Filtered

variable {next : α → List α} {start : List α}

/-- The places that messages come to. -/
def Reached (next : α → List α) (start : List α) (place : α) : Prop :=
  ∃ first ∈ start, Relation.ReflTransGen (fun source target => target ∈ next source) first place

/-- What was started or sent on has been received or is on its way, and nothing else is. -/
structure Flowing (next : α → List α) (start : List α) (state : List α × Multiset α) : Prop where
  started : ∀ place ∈ start, place ∈ state.1 ∨ place ∈ state.2
  sent : ∀ source ∈ state.1, ∀ place ∈ next source, place ∈ state.1 ∨ place ∈ state.2
  reached : ∀ place, place ∈ state.1 ∨ place ∈ state.2 → Reached next start place

theorem flowing_start : Flowing next start ([], ↑start) where
  started _ mem := .inr (Multiset.mem_coe.mpr mem)
  sent _ mem := absurd mem List.not_mem_nil
  reached place mem := ⟨place, mem.elim (fun none => absurd none List.not_mem_nil) Multiset.mem_coe.mp, .refl⟩

theorem Flowing.kept {before after : List α × Multiset α} (flowing : Flowing next start before)
    (step : Filtered next before after) : Flowing next start after := by
  obtain ⟨started, sent, reached⟩ := flowing
  cases step with
  | @dropped seen place rest known =>
    have moved (other : α) (mem : other ∈ seen ∨ other ∈ place ::ₘ rest) : other ∈ seen ∨ other ∈ rest := by
      rcases mem with seen | flying
      · exact .inl seen
      · rcases Multiset.mem_cons.mp flying with rfl | rest
        · exact .inl known
        · exact .inr rest
    exact ⟨fun other mem => moved other (started other mem),
      fun source mem other mem' => moved other (sent source mem other mem'),
      fun other mem => reached other (mem.imp id Multiset.mem_cons_of_mem)⟩
  | @received seen place rest fresh =>
    have moved (other : α) (mem : other ∈ seen ∨ other ∈ place ::ₘ rest) :
        other ∈ place :: seen ∨ other ∈ ↑(next place) + rest := by
      rcases mem with seen | flying
      · exact .inl (List.mem_cons_of_mem _ seen)
      · rcases Multiset.mem_cons.mp flying with rfl | rest
        · exact .inl List.mem_cons_self
        · exact .inr (Multiset.mem_add.mpr (.inr rest))
    have here : Reached next start place := reached place (.inr (Multiset.mem_cons_self _ _))
    refine ⟨fun other mem => moved other (started other mem), fun source mem other mem' => ?_, fun other mem => ?_⟩
    · rcases List.mem_cons.mp mem with rfl | seen
      · exact .inr (Multiset.mem_add.mpr (.inl (Multiset.mem_coe.mpr mem')))
      · exact moved other (sent source seen other mem')
    · rcases mem with seen | flying
      · rcases List.mem_cons.mp seen with rfl | seen
        · exact here
        · exact reached other (.inl seen)
      · rcases Multiset.mem_add.mp flying with sent | rest
        · obtain ⟨first, mem, path⟩ := here
          exact ⟨first, mem, path.tail (Multiset.mem_coe.mp sent)⟩
        · exact reached other (.inr (Multiset.mem_cons_of_mem rest))

/-- When no message is on its way any more, the places that had one are those that are reached. -/
theorem mem_seen_iff {seen : List α} (run : Relation.ReflTransGen (Filtered next) ([], ↑start) (seen, 0)) {place : α} :
    place ∈ seen ↔ Reached next start place := by
  have flowing : Flowing next start (seen, 0) := by
    generalize (seen, (0 : Multiset α)) = last at run
    induction run with
    | refl => exact flowing_start
    | tail _ step ih => exact ih.kept step
  have arrived (other : α) (mem : other ∈ seen ∨ other ∈ (0 : Multiset α)) : other ∈ seen :=
    mem.resolve_right (Multiset.notMem_zero other)
  constructor
  · exact fun mem => flowing.reached place (.inl mem)
  · rintro ⟨first, mem, path⟩
    induction path with
    | refl => exact arrived first (flowing.started first mem)
    | tail _ step ih => exact arrived _ (flowing.sent _ ih _ step)

/-- Over finitely many places such a flood can always come to its end. -/
theorem exists_done {places : Finset α} (confined : ∀ place, ∀ other ∈ next place, other ∈ places) {seen : List α}
    {flying : Multiset α} (inside : ∀ place ∈ flying, place ∈ places) :
    ∃ done, Relation.ReflTransGen (Filtered next) (seen, flying) (done, 0) := by
  classical
  induction left : (places.filter (· ∉ seen)).card using Nat.strong_induction_on generalizing seen flying with
  | h bound ih =>
    induction flying using Multiset.induction_on with
    | empty => exact ⟨seen, .refl⟩
    | cons place rest ihRest =>
      have insideRest : ∀ other ∈ rest, other ∈ places := fun other mem => inside other (Multiset.mem_cons_of_mem mem)
      by_cases known : place ∈ seen
      · obtain ⟨done, run⟩ := ihRest insideRest
        exact ⟨done, .head (.dropped rest known) run⟩
      · have fewer : (places.filter (· ∉ place :: seen)).card < bound := by
          rw [← left]
          refine Finset.card_lt_card ⟨fun other mem => ?_, fun all => ?_⟩
          · rw [Finset.mem_filter] at mem ⊢
            exact ⟨mem.1, fun seen => mem.2 (List.mem_cons_of_mem _ seen)⟩
          · have mem := all (Finset.mem_filter.mpr ⟨inside place (Multiset.mem_cons_self _ _), known⟩)
            exact (Finset.mem_filter.mp mem).2 List.mem_cons_self
        obtain ⟨done, run⟩ := @ih _ fewer (place :: seen) (↑(next place) + rest) (by
          intro other mem
          rcases Multiset.mem_add.mp mem with sent | rest
          · exact confined place other (Multiset.mem_coe.mp sent)
          · exact insideRest other rest) rfl
        exact ⟨done, .head (.received rest known) run⟩

end Filtered

end PolarCloud.Descent
