import Mathlib.Data.List.Induction
import Mathlib.Data.Option.Basic

/-! # Runs whose steps may fail

A run stops at the first step that fails. A property holds at the end of a run that did not stop when every step keeps
it; where a step keeps it only below a bound, it is enough that the end is below the bound, when no step comes back
below it.
-/

namespace PolarCloud.Attempts

universe u v

variable {σ : Type u} {ε : Type v} {step : σ → ε → Option σ} {start final : σ} {events : List ε}

theorem foldlM_concat {event : ε} : (events ++ [event]).foldlM step start = some final ↔
    ∃ before, events.foldlM step start = some before ∧ step before event = some final := by
  simp only [List.foldlM_append, List.foldlM_cons, List.foldlM_nil, bind_pure]
  exact Option.bind_eq_some_iff

theorem kept_below {Kept Bound : σ → Prop} {Given : ε → Prop} (initial : Kept start)
    (bound : ∀ before event after, step before event = some after → Bound after → Bound before)
    (kept : ∀ before event after, Given event → step before event = some after → Bound after → Kept before →
      Kept after)
    (given : ∀ event ∈ events, Given event) (run : events.foldlM step start = some final) (small : Bound final) :
    Kept final := by
  induction events using List.reverseRecOn generalizing final with
  | nil =>
    cases run
    exact initial
  | append_singleton events event ih =>
    obtain ⟨before, earlier, last⟩ := foldlM_concat.mp run
    apply kept before event final (given event (List.mem_append_right _ (List.mem_singleton_self _))) last small
    apply ih (fun other member => given other (List.mem_append_left _ member)) earlier
    exact bound before event final last small

theorem kept {Kept : σ → Prop} {Given : ε → Prop} (initial : Kept start)
    (kept : ∀ before event after, Given event → step before event = some after → Kept before → Kept after)
    (given : ∀ event ∈ events, Given event) (run : events.foldlM step start = some final) : Kept final :=
  @kept_below σ ε step start final events Kept (fun _ => True) Given initial (fun _ _ _ _ _ => trivial)
    (fun before event after given step _ => kept before event after given step) given run trivial

end PolarCloud.Attempts
