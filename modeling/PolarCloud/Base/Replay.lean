import Mathlib.Data.List.Basic
import Mathlib.Data.List.Induction

/-! # Runs as folds, and what holds in all of their states

A run applies its events to a state one after the other. When an event keeps a property exactly if it is safe where
it happens, then the property holds in every state of a run exactly if every event of the run is safe where it
happens. Facts that hold of every state anyway may be used on the way.
-/

namespace PolarCloud.Replay

universe u v

variable {σ : Type u} {ε : Type v} {step : σ → ε → σ} {start : σ} {Kept Known : σ → Prop} {Safe : σ → ε → Prop}

theorem foldl_concat (events : List ε) (event : ε) :
    (events ++ [event]).foldl step start = step (events.foldl step start) event := by
  rw [List.foldl_append]
  rfl

/-- A property holds in every state of a run. -/
def Always (step : σ → ε → σ) (start : σ) (Kept : σ → Prop) (events : List ε) : Prop :=
  ∀ front back, events = front ++ back → Kept (front.foldl step start)

/-- Every event of a run is safe in the state in which it happens. -/
def Each (step : σ → ε → σ) (start : σ) (Safe : σ → ε → Prop) (events : List ε) : Prop :=
  ∀ front event back, events = front ++ event :: back → Safe (front.foldl step start) event

theorem Always.front {front back : List ε} (always : Always step start Kept (front ++ back)) :
    Always step start Kept front := by
  rintro early late rfl
  exact always early (late ++ back) (List.append_assoc ..)

theorem Each.front {front back : List ε} (each : Each step start Safe (front ++ back)) :
    Each step start Safe front := by
  rintro early event late rfl
  exact each early event (late ++ back) (List.append_assoc ..)

theorem Always.last {events : List ε} (always : Always step start Kept events) : Kept (events.foldl step start) :=
  always events [] (List.append_nil _).symm

/-- A run whose last state lacks the property. -/
theorem not_always {events : List ε} {final : σ} (ends : events.foldl step start = final) (broken : ¬ Kept final) :
    ¬ Always step start Kept events := fun always => broken (ends ▸ always.last)

theorem always_concat {events : List ε} {event : ε} :
    Always step start Kept (events ++ [event]) ↔ Always step start Kept events ∧
      Kept (step (events.foldl step start) event) := by
  constructor
  · intro always
    have last := always.last
    rw [foldl_concat] at last
    exact ⟨always.front, last⟩
  · rintro ⟨always, last⟩ front back split
    rcases List.eq_nil_or_concat' back with rfl | ⟨back, other, rfl⟩
    · rw [List.append_nil] at split
      rwa [← split, foldl_concat]
    · rw [← List.append_assoc] at split
      exact always front back (List.append_inj_left' split rfl)

theorem each_concat {events : List ε} {event : ε} :
    Each step start Safe (events ++ [event]) ↔ Each step start Safe events ∧ Safe (events.foldl step start) event := by
  constructor
  · intro each
    exact ⟨each.front, each events event [] rfl⟩
  · rintro ⟨each, last⟩ front other back split
    rcases List.eq_nil_or_concat' back with rfl | ⟨back, final, rfl⟩
    · obtain ⟨rfl, same⟩ := List.append_inj' split rfl
      cases same
      exact last
    · rw [← List.cons_append, ← List.append_assoc] at split
      exact each front other back (List.append_inj_left' split rfl)

theorem each_nil : Each step start Safe [] := by
  intro front event back split
  cases (List.append_eq_nil_iff.mp split.symm).2

theorem each_cons {event : ε} {events : List ε} :
    Each step start Safe (event :: events) ↔ Safe start event ∧ Each step (step start event) Safe events := by
  constructor
  · exact fun each => ⟨each [] event events rfl,
      fun front other back split => each (event :: front) other back (by rw [split]; rfl)⟩
  · rintro ⟨first, each⟩ front other back split
    cases front with
    | nil =>
      cases split
      exact first
    | cons _ front =>
      cases split
      exact each front other back rfl

/-- A property holds in every state when each event keeps it where what is given of the event holds. -/
theorem always_of_each {Given : σ → ε → Prop} (initial : Kept start)
    (kept : ∀ state event, Given state event → Kept state → Kept (step state event)) {events : List ε}
    (given : Each step start Given events) : Always step start Kept events := by
  induction events using List.reverseRecOn with
  | nil =>
    intro front back split
    obtain ⟨rfl, _⟩ := List.append_eq_nil_iff.mp split.symm
    exact initial
  | append_singleton events event ih =>
    obtain ⟨given, last⟩ := each_concat.mp given
    have always := ih given
    exact always_concat.mpr ⟨always, kept _ _ last always.last⟩

theorem always_of_step (initial : Kept start)
    (kept : ∀ state event, Kept state → Kept (step state event)) (events : List ε) :
    Always step start Kept events := by
  have given : Each step start (fun _ _ => True) events := fun _ _ _ _ => trivial
  exact always_of_each initial (fun state event _ => kept state event) given

/-- What is known of every state in which the property held up to here may be used for the next event, and what is given
of every event. -/
theorem always_iff_each_of {Given : σ → ε → Prop} (initial : Kept start) (knownInitial : Known start)
    (known : ∀ state event, Given state event → Known state → Kept state → Known (step state event))
    (exact : ∀ state event, Given state event → Known state → Kept state → (Kept (step state event) ↔ Safe state event))
    (events : List ε) (given : Each step start Given events) :
    (Always step start Kept events ↔ Each step start Safe events) ∧
      (Always step start Kept events → Always step start Known events) := by
  induction events using List.reverseRecOn with
  | nil =>
    refine ⟨iff_of_true ?_ ?_, fun _ => ?_⟩
    · intro front back split
      obtain ⟨rfl, _⟩ := List.append_eq_nil_iff.mp split.symm
      exact initial
    · exact each_nil
    · intro front back split
      obtain ⟨rfl, _⟩ := List.append_eq_nil_iff.mp split.symm
      exact knownInitial
  | append_singleton events event ih =>
    obtain ⟨given, last⟩ := each_concat.mp given
    obtain ⟨same, fact⟩ := ih given
    rw [always_concat, each_concat, ← same, always_concat]
    exact ⟨and_congr_right fun always => exact _ _ last (fact always).last always.last,
      fun ⟨always, _⟩ => ⟨fact always, known _ _ last (fact always).last always.last⟩⟩

/-- The same with nothing given. -/
theorem always_iff_each (initial : Kept start) (knownInitial : Known start)
    (known : ∀ state event, Known state → Kept state → Known (step state event))
    (exact : ∀ state event, Known state → Kept state → (Kept (step state event) ↔ Safe state event)) (events : List ε) :
    Always step start Kept events ↔ Each step start Safe events :=
  (@always_iff_each_of _ _ step start Kept Known Safe (fun _ _ => True) initial knownInitial
    (fun state event _ => known state event) (fun state event _ => exact state event) events
    fun _ _ _ _ => trivial).1

/-- Two properties of the events of a run agree at all of them when they agree in every known state, and what is known
is kept by an event that has the first. -/
theorem each_iff_each {First Second Given : σ → ε → Prop} (knownInitial : Known start)
    (known : ∀ state event, Given state event → Known state → First state event → Known (step state event))
    (exact : ∀ state event, Given state event → Known state → (First state event ↔ Second state event))
    (events : List ε) (given : Each step start Given events) :
    (Each step start First events ↔ Each step start Second events) ∧
      (Each step start First events → Known (events.foldl step start)) := by
  induction events using List.reverseRecOn with
  | nil => exact ⟨iff_of_true each_nil each_nil, fun _ => knownInitial⟩
  | append_singleton events event ih =>
    obtain ⟨given, last⟩ := each_concat.mp given
    obtain ⟨same, fact⟩ := ih given
    rw [each_concat, each_concat, foldl_concat, ← same]
    exact ⟨and_congr_right fun each => exact _ _ last (fact each),
      fun ⟨each, first⟩ => known _ _ last (fact each) first⟩

/-- An item of a list before and after one of them was changed. -/
theorem getElem?_modify_iff {α : Type*} {items : List α} {change : α → α} {place i : ℕ} {before item : α}
    (known : items[place]? = some before) : (items.modify place change)[i]? = some item ↔
      i = place ∧ item = change before ∨ i ≠ place ∧ items[i]? = some item := by
  rw [List.getElem?_modify]
  by_cases same : i = place
  · subst same
    simp [known, eq_comm]
  · simp [same, Ne.symm same]

/-- The items of a list after one was added. -/
theorem getElem?_concat {α : Type*} (items : List α) (item : α) (i : ℕ) :
    (items ++ [item])[i]? = if i = items.length then some item else items[i]? := by
  rw [List.getElem?_append, List.getElem?_singleton]
  grind

/-- The items of a list after one of them was replaced. -/
theorem getElem?_set_known {α : Type*} {items : List α} {place : ℕ} {before : α} (known : items[place]? = some before)
    (after : α) (i : ℕ) : (items.set place after)[i]? = if i = place then some after else items[i]? := by
  have inside := (List.getElem?_eq_some_iff.mp known).1
  rw [List.getElem?_set]
  by_cases same : i = place
  · simp [same, inside]
  · simp [same, Ne.symm same]

/-- How many items have a property after one of them was replaced. -/
theorem countP_set_add {α : Type*} {p : α → Bool} {items : List α} {place : ℕ} {before : α} (after : α)
    (known : items[place]? = some before) : (items.set place after).countP p + (if p before then 1 else 0) =
      items.countP p + if p after then 1 else 0 := by
  induction items generalizing place with
  | nil => cases known
  | cons first items ih =>
    cases place with
    | zero =>
      cases known
      rw [List.set_cons_zero, List.countP_cons, List.countP_cons]
      omega
    | succ place =>
      have rest := ih known
      rw [List.set_cons_succ, List.countP_cons, List.countP_cons]
      omega

end PolarCloud.Replay
