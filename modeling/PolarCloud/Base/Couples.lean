import Mathlib.Data.List.Basic
import Mathlib.Tactic.Cases

/-! # Couples of a row

The items of a row are coupled with their neighbours, and the last item of an odd row with the first
one. A row of an odd length and the row in which its first item stands once more before its last one
have the same couples; apart from that the couples determine the row.
-/

namespace PolarCloud.Couples

universe u

variable {α : Type u}

theorem eq_of_map_eq_map {β : Type*} {f g : α → β} {row other : List α} (same : row.map f = other.map g)
    (injective : ∀ item ∈ row, ∀ item' ∈ other, f item = g item' → item = item') : row = other := by
  induction row generalizing other with
  | nil => exact (List.map_eq_nil_iff.mp same.symm).symm
  | cons item rest ih =>
    cases other with
    | nil => cases same
    | cons item' others =>
      obtain ⟨here, there⟩ := List.cons.inj same
      rw [injective _ List.mem_cons_self _ List.mem_cons_self here, ih there fun item member item' member' =>
        injective item (List.mem_cons_of_mem _ member) item' (List.mem_cons_of_mem _ member')]

/-- Neighbours, and a last one with the given first. -/
def coupled (first : α) : List α → List (α × α)
  | [] => []
  | [last] => [(first, last)]
  | item :: other :: rest => (item, other) :: coupled first rest

def couples : List α → List (α × α)
  | [] => []
  | first :: rest => coupled first (first :: rest)

variable {first : α} {row other : List α}

theorem mem_of_mem_coupled {couple : α × α} (member : couple ∈ coupled first row) :
    couple.1 ∈ first :: row ∧ couple.2 ∈ first :: row := by
  induction row using coupled.induct with
  | case1 => cases member
  | case2 last =>
    cases List.mem_singleton.mp member
    exact ⟨List.mem_cons_self, by simp⟩
  | case3 item other rest ih =>
    rcases List.mem_cons.mp member with rfl | member
    · exact ⟨by simp, by simp⟩
    · obtain ⟨left, right⟩ := ih member
      constructor
      · rcases List.mem_cons.mp left with here | there
        · simp [here]
        · simp [there]
      · rcases List.mem_cons.mp right with here | there
        · simp [here]
        · simp [there]

theorem mem_of_mem_couples {couple : α × α} (member : couple ∈ couples row) : couple.1 ∈ row ∧ couple.2 ∈ row := by
  cases row with
  | nil => cases member
  | cons first rest => simpa using mem_of_mem_coupled member

theorem length_coupled (first : α) (row : List α) : (coupled first row).length = (row.length + 1) / 2 := by
  induction row using coupled.induct with
  | case1 => simp [coupled]
  | case2 last => simp [coupled]
  | case3 item other rest ih =>
    simp only [coupled, List.length_cons, ih]
    omega

theorem length_couples (row : List α) : (couples row).length = (row.length + 1) / 2 := by
  cases row with
  | nil => simp [couples]
  | cons first rest => exact length_coupled first _

/-- The couples by their places. -/
theorem coupled_eq (first fill : α) (row : List α) : coupled first row =
    (List.range (row.length / 2)).map (fun i => (row.getD (i * 2) fill, row.getD ((i + 1) * 2 - 1) fill)) ++
      if row.length % 2 ≠ 0 then [(first, row.getLastD fill)] else [] := by
  induction row using coupled.induct with
  | case1 => simp [coupled]
  | case2 last => simp [coupled]
  | case3 item other rest ih =>
    have half : (item :: other :: rest).length / 2 = rest.length / 2 + 1 := by
      simp only [List.length_cons]
      omega
    have odd : (item :: other :: rest).length % 2 = rest.length % 2 := by
      simp only [List.length_cons]
      omega
    rw [coupled, ih, half, odd, List.range_succ_eq_map, List.map_cons, List.map_map, List.cons_append]
    congr 2
    · refine List.map_congr_left fun i _ => ?_
      simp only [Function.comp, Nat.succ_eq_add_one, Nat.add_mul, Nat.one_mul]
      rfl
    · cases rest with
      | nil => rfl
      | cons next rest => rfl

theorem couples_eq (fill : α) (row : List α) : couples row =
    (List.range (row.length / 2)).map (fun i => (row.getD (i * 2) fill, row.getD ((i + 1) * 2 - 1) fill)) ++
      if row.length % 2 ≠ 0 then [(row.headD fill, row.getLastD fill)] else [] := by
  cases row with
  | nil => simp [couples]
  | cons first rest => exact coupled_eq first fill _

/-- A couple of neighbours. -/
theorem coupled_neighbours {i : ℕ} (inside : 2 * i + 1 < row.length) :
    ∃ left right, row[2 * i]? = some left ∧ row[2 * i + 1]? = some right ∧
      (coupled first row)[i]? = some (left, right) := by
  induction row using coupled.induct generalizing i with
  | case1 => cases inside
  | case2 last => simp at inside
  | case3 item other rest ih =>
    cases i with
    | zero => exact ⟨item, other, rfl, rfl, rfl⟩
    | succ i =>
      simp only [List.length_cons] at inside
      exact ih (by omega)

/-- The first item stands once more before the last one. -/
def Longer (first : α) (row longer : List α) : Prop :=
  ∃ front last, row = front ++ [last] ∧ longer = front ++ [first, last]

theorem Longer.cons {item other' : α} (longer : Longer first row other) :
    Longer first (item :: other' :: row) (item :: other' :: other) := by
  obtain ⟨front, last, rfl, rfl⟩ := longer
  exact ⟨item :: other' :: front, last, rfl, rfl⟩

/-- Rows with the same couples: the same rows, or one has its first item once more. -/
theorem coupled_inj (same : coupled first row = coupled first other) :
    row = other ∨ Longer first row other ∨ Longer first other row := by
  induction row using coupled.induct generalizing other with
  | case1 =>
    cases other with
    | nil => exact .inl rfl
    | cons item rest => cases rest <;> cases same
  | case2 last =>
    cases other with
    | nil => cases same
    | cons item rest =>
      cases rest with
      | nil =>
        cases same
        exact .inl rfl
      | cons next rest =>
        obtain ⟨couple, rest_eq⟩ := List.cons.inj same
        cases couple
        have none : rest = [] := by
          have size := congrArg List.length rest_eq
          rw [List.length_nil, length_coupled] at size
          exact List.length_eq_zero_iff.mp (by omega)
        rw [none]
        exact .inr (.inl ⟨[], last, rfl, rfl⟩)
  | case3 item next rest ih =>
    cases other with
    | nil => cases same
    | cons item' others =>
      cases others with
      | nil =>
        obtain ⟨couple, rest_eq⟩ := List.cons.inj same
        cases couple
        have none : rest = [] := by
          have size := congrArg List.length rest_eq
          rw [length_coupled, List.length_nil] at size
          exact List.length_eq_zero_iff.mp (by omega)
        rw [none]
        exact .inr (.inr ⟨[], next, rfl, rfl⟩)
      | cons next' others =>
        obtain ⟨couple, rest_eq⟩ := List.cons.inj same
        cases couple
        rcases ih rest_eq with rfl | longer | longer
        · exact .inl rfl
        · exact .inr (.inl longer.cons)
        · exact .inr (.inr longer.cons)

/-- The first item stands again, at another place than the last. -/
def Recurs (row : List α) : Prop := ∃ i, 0 < i ∧ i + 1 < row.length ∧ row[i]? = row[0]?

theorem Longer.recurs {rest longer : List α} (isLonger : Longer first (first :: rest) longer) (several : rest ≠ []) :
    (first :: rest).length < longer.length ∧ Recurs longer := by
  obtain ⟨front, last, split, rfl⟩ := isLonger
  cases front with
  | nil => exact absurd (List.cons.inj split).2 several
  | cons head front =>
    obtain ⟨rfl, -⟩ := List.cons.inj split
    refine ⟨by simp [split], front.length + 1, by omega, by simp, by simp⟩

theorem Recurs.of_map {β : Type*} {f : α → β} (recurs : Recurs (row.map f))
    (injective : ∀ item ∈ row, ∀ other ∈ row, f item = f other → item = other) : Recurs row := by
  obtain ⟨i, positive, inside, again⟩ := recurs
  rw [List.length_map] at inside
  refine ⟨i, positive, inside, ?_⟩
  have present : row[i]? = some row[i] := List.getElem?_eq_getElem (by omega)
  have first : row[0]? = some row[0] := List.getElem?_eq_getElem (by omega)
  rw [List.getElem?_map, List.getElem?_map, present, first] at again
  rw [present, first]
  exact congrArg some (injective _ (List.getElem_mem _) _ (List.getElem_mem _) (Option.some.inj again))

/-- A first couple that stands again is a first item that stands again. -/
theorem recurs_of_couples (recurs : Recurs (couples row)) : Recurs row := by
  obtain ⟨i, positive, inside, again⟩ := recurs
  rw [length_couples] at inside
  cases row with
  | nil => simp at inside
  | cons first rest =>
    obtain ⟨left, right, isLeft, -, there⟩ := @coupled_neighbours _ first (first :: rest) i (by omega)
    obtain ⟨left', right', isLeft', -, here⟩ := @coupled_neighbours _ first (first :: rest) 0 (by omega)
    rw [couples, there, here] at again
    refine ⟨2 * i, by omega, by omega, isLeft.trans ?_⟩
    rw [(Prod.mk.inj (Option.some.inj again)).1]
    exact isLeft'.symm

/-- The couples determine the first item. -/
theorem head?_eq_of_couples (same : couples row = couples other) : row.head? = other.head? := by
  have heads (row : List α) : row.head? = (couples row).head?.map Prod.fst := by
    cases row with
    | nil => rfl
    | cons first rest => cases rest <;> rfl
  rw [heads, heads, same]

/-- Rows of several items with the same couples are the same, unless one is longer and has its first item again. -/
theorem couples_inj (several : 2 ≤ row.length) (several' : 2 ≤ other.length) (same : couples row = couples other) :
    row = other ∨ (row.length < other.length ∧ Recurs other) ∨ (other.length < row.length ∧ Recurs row) := by
  have heads := head?_eq_of_couples same
  cases row with
  | nil => simp at several
  | cons first rest =>
    cases other with
    | nil => cases heads
    | cons first' rest' =>
      cases heads
      have more : rest ≠ [] := by
        rintro rfl
        simp at several
      have more' : rest' ≠ [] := by
        rintro rfl
        simp at several'
      rcases coupled_inj same with equal | longer | longer
      · exact .inl equal
      · exact .inr (.inl (longer.recurs more))
      · exact .inr (.inr (longer.recurs more'))

end PolarCloud.Couples
