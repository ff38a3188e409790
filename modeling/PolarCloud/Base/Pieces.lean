import Mathlib.Data.Nat.Basic

/-! # A stream that arrives in pieces

A stream is known by the pieces in which it arrives. A read hands out a piece, or the front of one
that is larger than the buffer; at the end of the stream it fails. Reading until there is enough
neither loses nor adds anything, and it gets enough whenever the stream has enough, however the
pieces were cut.
-/

namespace PolarCloud.Pieces

universe u

variable {α : Type u}

def read (size : ℕ) : List (List α) → Option (List α × List (List α))
  | [] => none
  | piece :: rest =>
      if piece.length ≤ size then some (piece, rest) else some (piece.take size, piece.drop size :: rest)

private def fillFrom (size need : ℕ) : ℕ → List α → List (List α) → List α × List (List α)
  | 0, got, pieces => (got, pieces)
  | fuel + 1, got, pieces =>
      if got.length < need then
        match read size pieces with
        | none => (got, pieces)
        | some (piece, rest) => fillFrom size need fuel (got ++ piece) rest
      else (got, pieces)

/-- Read until there are as many items as needed, or a read fails. Every read takes a piece or a part of
one, so there are at most as many reads as pieces and items. -/
def fill (size need : ℕ) (got : List α) (pieces : List (List α)) : List α × List (List α) :=
  fillFrom size need (pieces.flatten.length + pieces.length) got pieces

theorem read_flatten {size : ℕ} {pieces rest : List (List α)} {piece : List α}
    (reads : read size pieces = some (piece, rest)) : piece ++ rest.flatten = pieces.flatten := by
  cases pieces with
  | nil => cases reads
  | cons head tail =>
    rw [read] at reads
    split at reads
    · cases reads
      rfl
    · cases reads
      rw [List.flatten_cons, List.flatten_cons, ← List.append_assoc, List.take_append_drop]

/-- A read with a buffer leaves less to be read. -/
theorem read_shrinks {size : ℕ} (positive : 0 < size) {pieces rest : List (List α)} {piece : List α}
    (reads : read size pieces = some (piece, rest)) :
    rest.flatten.length + rest.length < pieces.flatten.length + pieces.length := by
  cases pieces with
  | nil => cases reads
  | cons head tail =>
    rw [read] at reads
    split at reads
    · cases reads
      simp only [List.flatten_cons, List.length_append, List.length_cons]
      omega
    · cases reads
      simp only [List.flatten_cons, List.length_append, List.length_cons, List.length_drop]
      omega

private theorem fillFrom_flatten (size need fuel : ℕ) (got : List α) (pieces : List (List α)) :
    (fillFrom size need fuel got pieces).1 ++ (fillFrom size need fuel got pieces).2.flatten =
      got ++ pieces.flatten := by
  induction fuel generalizing got pieces with
  | zero => rfl
  | succ fuel ih =>
    rw [fillFrom]
    split
    · cases reads : read size pieces with
      | none => rfl
      | some result => exact (ih _ _).trans (by rw [List.append_assoc, read_flatten reads])
    · rfl

private theorem fillFrom_enough {size need fuel : ℕ} (positive : 0 < size) {got : List α} {pieces : List (List α)}
    (fueled : pieces.flatten.length + pieces.length ≤ fuel) (enough : need ≤ (got ++ pieces.flatten).length) :
    need ≤ (fillFrom size need fuel got pieces).1.length := by
  induction fuel generalizing got pieces with
  | zero =>
    have none : pieces.flatten.length = 0 := by omega
    rw [List.length_append, none] at enough
    exact enough
  | succ fuel ih =>
    rw [fillFrom]
    split
    · next short =>
      cases reads : read size pieces with
      | none =>
        cases pieces with
        | nil => simpa using enough
        | cons head tail =>
          rw [read] at reads
          split at reads <;> cases reads
      | some result =>
        have shrinks := read_shrinks positive reads
        refine ih (by omega) ?_
        rwa [List.append_assoc, read_flatten reads]
    · next full => exact not_lt.mp full

/-- Nothing is lost and nothing is added. -/
theorem fill_flatten (size need : ℕ) (got : List α) (pieces : List (List α)) :
    (fill size need got pieces).1 ++ (fill size need got pieces).2.flatten = got ++ pieces.flatten :=
  fillFrom_flatten ..

/-- With a buffer, enough is read exactly when the stream has enough. -/
theorem fill_enough_iff {size need : ℕ} (positive : 0 < size) {got : List α} {pieces : List (List α)} :
    need ≤ (fill size need got pieces).1.length ↔ need ≤ (got ++ pieces.flatten).length := by
  constructor
  · intro enough
    rw [← fill_flatten size need, List.length_append]
    omega
  · exact fillFrom_enough positive le_rfl

private theorem fillFrom_singletons {size need fuel : ℕ} (positive : 0 < size) {got items : List α}
    (fueled : need ≤ got.length + fuel) (enough : need ≤ got.length + items.length) (below : got.length ≤ need) :
    fillFrom size need fuel got (items.map ([·])) =
      (got ++ items.take (need - got.length), (items.drop (need - got.length)).map ([·])) := by
  induction fuel generalizing got items with
  | zero =>
    have full : need - got.length = 0 := by omega
    rw [full, List.take_zero, List.append_nil, List.drop_zero, fillFrom]
  | succ fuel ih =>
    rw [fillFrom]
    split
    · next short =>
      cases items with
      | nil =>
        rw [List.length_nil] at enough
        omega
      | cons item items =>
        have one : read size ((item :: items).map ([·])) = some ([item], items.map ([·])) := if_pos positive
        have left : need - got.length = need - (got ++ [item]).length + 1 := by
          rw [List.length_append, List.length_singleton]
          omega
        rw [one, left, List.take_succ_cons, List.drop_succ_cons]
        rw [List.length_cons] at enough
        simp only
        rw [ih (by simp only [List.length_append, List.length_singleton]; omega)
          (by simp only [List.length_append, List.length_singleton]; omega)
          (by simp only [List.length_append, List.length_singleton]; omega), List.append_assoc, List.singleton_append]
    · next full =>
      have full : need - got.length = 0 := by omega
      rw [full, List.take_zero, List.append_nil, List.drop_zero]

/-- From a stream that arrives item by item no more is taken than needed. -/
theorem fill_singletons {size need : ℕ} (positive : 0 < size) {got items : List α}
    (enough : need ≤ got.length + items.length) (below : got.length ≤ need) :
    fill size need got (items.map ([·])) =
      (got ++ items.take (need - got.length), (items.drop (need - got.length)).map ([·])) := by
  refine fillFrom_singletons positive ?_ enough below
  rw [List.length_map]
  omega

end PolarCloud.Pieces
