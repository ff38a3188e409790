import Mathlib.Data.List.Chain
import Mathlib.Data.List.Nodup

/-! # Runs of equal keys

A log whose entries carry keys is kept as its runs: items that arrive under the key of the last run
join it, and any other key opens a new run. Items of one run have different labels exactly when no
batch brought a label twice, or one that its run held already.
-/

namespace PolarCloud.Runs

universe u v w

variable {κ : Type u} {α : Type v} {β : Type w} [DecidableEq κ]

/-- Put items behind those of the last run, or into a run of their own. -/
def join (key : κ) (items : List α) : List (κ × List α) → List (κ × List α)
  | [] => [(key, items)]
  | [(last, before)] => if key = last then [(last, before ++ items)] else [(last, before), (key, items)]
  | run :: next :: rest => run :: join key items (next :: rest)

variable {key last : κ} {items before : List α} {runs : List (κ × List α)}

theorem join_concat : join key items (runs ++ [(last, before)]) =
    runs ++ if key = last then [(last, before ++ items)] else [(last, before), (key, items)] := by
  induction runs with
  | nil => rfl
  | cons run rest ih =>
    cases rest with
    | nil => exact congrArg (run :: ·) ih
    | cons next rest => exact congrArg (run :: ·) ih

/-- No two neighbouring runs have the same key. -/
def Alternating (runs : List (κ × List α)) : Prop := runs.IsChain fun run next => run.1 ≠ next.1

theorem Alternating.join (alternating : Alternating runs) (key : κ) (items : List α) :
    Alternating (join key items runs) := by
  rcases List.eq_nil_or_concat' runs with rfl | ⟨runs, ⟨last, before⟩, rfl⟩
  · exact List.isChain_singleton _
  · rw [join_concat]
    obtain ⟨old, -, apart⟩ := List.isChain_append.mp alternating
    have apart (run : κ × List α) (isLast : run ∈ runs.getLast?) : run.1 ≠ last := apart run isLast _ rfl
    split
    · refine List.isChain_append.mpr ⟨old, List.isChain_singleton _, fun run isLast next isFirst => ?_⟩
      cases isFirst
      exact apart run isLast
    · next other =>
      refine List.isChain_append.mpr ⟨old, List.isChain_pair.mpr (Ne.symm other), fun run isLast next isFirst => ?_⟩
      cases isFirst
      exact apart run isLast

/-- A property of the items that depends on the key holds after items with the property have joined. -/
theorem forall_join {P : κ → α → Prop} (holds : ∀ run ∈ runs, ∀ item ∈ run.2, P run.1 item)
    (new : ∀ item ∈ items, P key item) : ∀ run ∈ join key items runs, ∀ item ∈ run.2, P run.1 item := by
  rcases List.eq_nil_or_concat' runs with rfl | ⟨runs, ⟨last, before⟩, rfl⟩
  · exact List.forall_mem_singleton.mpr new
  · rw [join_concat]
    obtain ⟨old, atLast⟩ := List.forall_mem_append.mp holds
    refine List.forall_mem_append.mpr ⟨old, ?_⟩
    split
    · next same =>
      exact List.forall_mem_singleton.mpr (List.forall_mem_append.mpr
        ⟨List.forall_mem_singleton.mp atLast, same ▸ new⟩)
    · exact List.forall_mem_cons.mpr ⟨List.forall_mem_singleton.mp atLast, List.forall_mem_singleton.mpr new⟩

/-- A change of the items that respects concatenation commutes with joining. -/
theorem map_join {f : List α → List β} (append : ∀ before items, f (before ++ items) = f before ++ f items) :
    (join key items runs).map (Prod.map id f) = join key (f items) (runs.map (Prod.map id f)) := by
  rcases List.eq_nil_or_concat' runs with rfl | ⟨runs, ⟨last, before⟩, rfl⟩
  · rfl
  · rw [join_concat, List.map_append, List.map_append]
    change _ = join key (f items) (runs.map (Prod.map id f) ++ [(last, f before)])
    rw [join_concat]
    split
    · rw [← append]
      rfl
    · rfl

/-- Within each run the labels are different. -/
def Distinct (label : α → β) (runs : List (κ × List α)) : Prop := ∀ run ∈ runs, (run.2.map label).Nodup

/-- A batch brings no label twice, and none that the run it joins holds already. -/
def Fits (label : α → β) (key : κ) (items : List α) (runs : List (κ × List α)) : Prop :=
  (items.map label).Nodup ∧ ∀ run, runs.getLast? = some run → key = run.1 →
    ∀ old ∈ run.2, ∀ new ∈ items, label old ≠ label new

omit [DecidableEq κ] in
theorem distinct_append {label : α → β} {first second : List (κ × List α)} :
    Distinct label (first ++ second) ↔ Distinct label first ∧ Distinct label second := List.forall_mem_append

omit [DecidableEq κ] in
theorem nodup_append_iff {label : α → β} : ((before ++ items).map label).Nodup ↔
    (before.map label).Nodup ∧ (items.map label).Nodup ∧ ∀ old ∈ before, ∀ new ∈ items, label old ≠ label new := by
  rw [List.map_append, List.nodup_append]
  simp only [List.forall_mem_map]

theorem distinct_join_iff {label : α → β} :
    Distinct label (join key items runs) ↔ Distinct label runs ∧ Fits label key items runs := by
  rcases List.eq_nil_or_concat' runs with rfl | ⟨runs, ⟨last, before⟩, rfl⟩
  · simp [join, Distinct, Fits]
  · rw [join_concat, distinct_append, distinct_append, and_assoc]
    refine and_congr_right fun _ => ?_
    have isLast : (runs ++ [(last, before)]).getLast? = some (last, before) := List.getLast?_concat
    simp only [Fits, isLast, Option.some.injEq, forall_eq']
    split
    · next same =>
      simp only [Distinct, List.forall_mem_singleton, nodup_append_iff, same, true_imp_iff]
    · next other =>
      simp only [Distinct, List.forall_mem_cons, other, false_imp_iff, and_true, List.not_mem_nil,
        implies_true]

end PolarCloud.Runs
