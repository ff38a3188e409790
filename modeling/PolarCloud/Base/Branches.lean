import Mathlib.Data.List.Basic

/-! # Branches of a growing tree

Nodes are present, and a present node has successors. A branch of a given length starts at a node
and follows successors; attaching a leaf lengthens exactly the branches that lead to its parent.
-/

namespace PolarCloud.Branches

universe u

variable {κ : Type u}

/-- A branch of that many nodes starts here. -/
def Branch (present : κ → Prop) (next : κ → κ → Prop) : ℕ → κ → Prop
  | 0, _ => True
  | size + 1, h => present h ∧ (size = 0 ∨ ∃ h', next h h' ∧ Branch present next size h')

/-- The target lies that many successors below. -/
def Descends (next : κ → κ → Prop) : ℕ → κ → κ → Prop
  | 0, h, target => h = target
  | depth + 1, h, target => ∃ h', next h h' ∧ Descends next depth h' target

variable {present present' : κ → Prop} {next next' : κ → κ → Prop}

theorem Branch.mono (grown : ∀ h, present h → present' h) (more : ∀ h h', next h h' → next' h h') {size : ℕ}
    {h : κ} (branch : Branch present next size h) : Branch present' next' size h := by
  induction size generalizing h with
  | zero => trivial
  | succ size ih =>
    obtain ⟨here, rest⟩ := branch
    refine ⟨grown h here, rest.imp_right ?_⟩
    rintro ⟨h', step, below⟩
    exact ⟨h', more h h' step, ih below⟩

theorem Branch.shorten {size less : ℕ} {h : κ} (branch : Branch present next size h) (le : less ≤ size) :
    Branch present next less h := by
  induction size generalizing h less with
  | zero =>
    obtain rfl : less = 0 := Nat.le_zero.mp le
    trivial
  | succ size ih =>
    cases less with
    | zero => trivial
    | succ less =>
      obtain ⟨here, rest⟩ := branch
      refine ⟨here, ?_⟩
      rcases rest with rfl | ⟨h', step, below⟩
      · exact .inl (by omega)
      · exact .inr ⟨h', step, ih below (by omega)⟩

/-- Nodes that nothing leads to start no longer branches elsewhere. -/
theorem Branch.restrict (same : ∀ h h', next' h h' → next h h') (closed : ∀ h h', next h h' → present h') {size : ℕ}
    {h : κ} (here : present h) (branch : Branch present' next' size h) : Branch present next size h := by
  induction size generalizing h with
  | zero => trivial
  | succ size ih =>
    refine ⟨here, branch.2.imp_right ?_⟩
    rintro ⟨h', step, below⟩
    exact ⟨h', same h h' step, ih (closed h h' (same h h' step)) below⟩

/-- A leaf that was not there is attached to a node that was. -/
structure Attaches (present : κ → Prop) (next : κ → κ → Prop) (present' : κ → Prop) (next' : κ → κ → Prop)
    (parent leaf : κ) : Prop where
  attached : present parent
  fresh : ¬ present leaf
  present_iff : ∀ h, present' h ↔ present h ∨ h = leaf
  next_iff : ∀ h h', next' h h' ↔ next h h' ∨ (h = parent ∧ h' = leaf)
  closed : ∀ h h', next h h' → present h ∧ present h'

namespace Attaches

variable {parent leaf : κ} (attaches : Attaches present next present' next' parent leaf)

include attaches

/-- The branch that starts at the leaf is the leaf. -/
theorem branch_leaf {size : ℕ} (branch : Branch present' next' size leaf) : size ≤ 1 := by
  match size, branch with
  | 0, _ => omega
  | 1, _ => omega
  | size + 2, ⟨_, rest⟩ =>
    rcases rest with zero | ⟨h', step, -⟩
    · omega
    · rcases (attaches.next_iff leaf h').mp step with old | ⟨same, -⟩
      · exact absurd (attaches.closed leaf h' old).1 attaches.fresh
      · exact absurd (same ▸ attaches.attached) attaches.fresh

/-- A branch after the leaf is attached was there before, or leads to the leaf. -/
theorem branch_of {size : ℕ} {h : κ} (here : present h) (branch : Branch present' next' size h) :
    Branch present next size h ∨ ∃ depth, Descends next depth h parent ∧ size ≤ depth + 2 := by
  induction size generalizing h with
  | zero => exact .inl trivial
  | succ size ih =>
    obtain ⟨-, rest⟩ := branch
    rcases rest with rfl | ⟨h', step, below⟩
    · exact .inl ⟨here, .inl rfl⟩
    · rcases (attaches.next_iff h h').mp step with old | ⟨rfl, rfl⟩
      · rcases ih (attaches.closed h h' old).2 below with before | ⟨depth, down, bound⟩
        · exact .inl ⟨here, .inr ⟨h', old, before⟩⟩
        · exact .inr ⟨depth + 1, ⟨h', old, down⟩, by omega⟩
      · exact .inr ⟨0, rfl, by have := attaches.branch_leaf below; omega⟩

theorem branch_mono {size : ℕ} {h : κ} (branch : Branch present next size h) : Branch present' next' size h :=
  branch.mono (fun h here => (attaches.present_iff h).mpr (.inl here))
    (fun h h' step => (attaches.next_iff h h').mpr (.inl step))

end Attaches

end PolarCloud.Branches
