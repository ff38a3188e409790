import Mathlib.Data.List.Basic

/-! # Messages cut into numbered pieces

The pieces of a message are numbered down to zero, so that the piece with the number zero is its last one. Messages
that are sent one after the other come back from their pieces, as far as the pieces are there.
-/

namespace PolarCloud.Fragments

universe u

variable {α : Type u}

/-- The pieces of one message. -/
inductive Cut : List α → List (ℕ × List α) → Prop
  | last (data : List α) : Cut data [(0, data)]
  | more {message : List α} {part : List (ℕ × List α)} (data : List α) (rest : Cut message part) :
      Cut (data ++ message) ((part.length, data) :: part)

/-- The pieces of messages that follow each other. -/
inductive Cuts : List (List α) → List (ℕ × List α) → Prop
  | nil : Cuts [] []
  | cons {message : List α} {part : List (ℕ × List α)} {messages : List (List α)} {pieces : List (ℕ × List α)}
      (first : Cut message part) (rest : Cuts messages pieces) : Cuts (message :: messages) (part ++ pieces)

/-- The pieces up to the first that is numbered zero, and those behind it. -/
def split : List (ℕ × List α) → List (ℕ × List α) × List (ℕ × List α)
  | [] => ([], [])
  | piece :: rest =>
      if piece.1 = 0 then ([piece], rest)
      else
        let (front, behind) := split rest
        (piece :: front, behind)

theorem Cut.ne_nil {message : List α} {part : List (ℕ × List α)} (cut : Cut message part) : part ≠ [] := by
  cases cut with
  | last => exact List.cons_ne_nil _ _
  | more => exact List.cons_ne_nil _ _

/-- The first piece tells how many follow it. -/
theorem Cut.length_eq {message : List α} {piece : ℕ × List α} {rest : List (ℕ × List α)}
    (cut : Cut message (piece :: rest)) : rest.length = piece.1 := by
  cases cut with
  | last => rfl
  | more => rfl

theorem Cut.data {message : List α} {part : List (ℕ × List α)} (cut : Cut message part) :
    part.flatMap Prod.snd = message := by
  induction cut with
  | last data => exact List.append_nil data
  | more data rest ih => rw [List.flatMap_cons, ih]

/-- The pieces of the first message are found in front of whatever follows them. -/
theorem Cut.split_append {message : List α} {part : List (ℕ × List α)} (cut : Cut message part)
    (behind : List (ℕ × List α)) : split (part ++ behind) = (part, behind) := by
  induction cut with
  | last data => rfl
  | more data rest ih =>
    have follows := List.length_pos_iff.mpr rest.ne_nil
    rw [List.cons_append, split, if_neg (by omega), ih]

theorem Cuts.append {messages messages' : List (List α)} {pieces pieces' : List (ℕ × List α)}
    (cuts : Cuts messages pieces) (cuts' : Cuts messages' pieces') :
    Cuts (messages ++ messages') (pieces ++ pieces') := by
  induction cuts with
  | nil => exact cuts'
  | cons first rest ih =>
    rw [List.cons_append, List.append_assoc]
    exact .cons first ih

theorem Cuts.concat {messages : List (List α)} {message : List α} {pieces part : List (ℕ × List α)}
    (cuts : Cuts messages pieces) (cut : Cut message part) : Cuts (messages ++ [message]) (pieces ++ part) := by
  apply cuts.append
  rw [← List.append_nil part]
  exact .cons cut .nil

/-- Every message has pieces. -/
theorem Cuts.eq_nil {messages : List (List α)} (cuts : Cuts messages []) : messages = [] := by
  generalize none : ([] : List (ℕ × List α)) = pieces at cuts
  cases cuts with
  | nil => rfl
  | cons first rest => exact absurd (List.append_eq_nil_iff.mp none.symm).1 first.ne_nil

/-- Pieces that begin with those of some messages belong to messages that begin with them. -/
theorem Cuts.of_front {messages all : List (List α)} {pieces behind : List (ℕ × List α)}
    (cuts : Cuts messages pieces) (whole : Cuts all (pieces ++ behind)) :
    ∃ more, all = messages ++ more ∧ Cuts more behind := by
  induction cuts generalizing all with
  | nil => exact ⟨all, rfl, whole⟩
  | @cons message part messages pieces first rest ih =>
    rw [List.append_assoc] at whole
    generalize joined : part ++ (pieces ++ behind) = total at whole
    cases whole with
    | nil => exact absurd (List.append_eq_nil_iff.mp joined).1 first.ne_nil
    | @cons message' part' messages' pieces' first' rest' =>
      have ours := first.split_append (pieces ++ behind)
      rw [joined, first'.split_append] at ours
      obtain ⟨rfl, rfl⟩ := Prod.mk.injEq .. ▸ ours
      obtain ⟨more, rfl, left⟩ := ih rest'
      refine ⟨more, ?_, left⟩
      rw [← first.data, ← first'.data, List.cons_append]

/-- Where all pieces of the first message are there, they are its pieces, whatever is still to come. -/
theorem Cuts.first {messages : List (List α)} {piece : ℕ × List α} {queue behind : List (ℕ × List α)}
    (cuts : Cuts messages (piece :: queue ++ behind)) (complete : piece.1 ≤ queue.length) :
    ∃ message more, messages = message :: more ∧ Cut message (split (piece :: queue)).1 ∧
      (split (piece :: queue)).1 ++ (split (piece :: queue)).2 = piece :: queue ∧
      Cuts more ((split (piece :: queue)).2 ++ behind) := by
  generalize joined : piece :: queue ++ behind = total at cuts
  cases cuts with
  | nil => exact absurd joined (List.cons_ne_nil _ _)
  | @cons message part messages pieces first rest =>
    obtain ⟨head, tail, rfl⟩ := List.exists_cons_of_ne_nil first.ne_nil
    rw [List.cons_append, List.cons_append, List.cons.injEq] at joined
    obtain ⟨rfl, joined⟩ := joined
    have long : tail.length ≤ queue.length := first.length_eq ▸ complete
    have front : tail <+: queue :=
      List.prefix_of_prefix_length_le ⟨pieces, joined.symm⟩ ⟨behind, rfl⟩ long
    obtain ⟨left, rfl⟩ := front
    rw [List.append_assoc, List.append_cancel_left_eq] at joined
    subst joined
    rw [← List.cons_append, first.split_append]
    exact ⟨message, messages, rfl, first, rfl, rest⟩

end PolarCloud.Fragments
