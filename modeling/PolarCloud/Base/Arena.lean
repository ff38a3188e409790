import Mathlib.Data.List.Basic
import Mathlib.Tactic.Cases

/-! # Doubly linked cells in an arena

Cells live in a list and refer to each other by position, through two link functions. The cells
of an arena are `Chained` when the links follow the order of the list; then a walk along the
forward links from any cell ends at the last one, a walk along the backward links ends at the
first one, and the forward walk from the first cell visits the whole arena.
-/

namespace PolarCloud.Arena

universe u

variable {α : Type u}

/-- Follow a link until a cell without it; the fuel bounds the number of cells visited. -/
def lastRef (link : α → Option ℕ) (cells : List α) : ℕ → ℕ → Option ℕ
  | 0, _ => none
  | fuel + 1, ref =>
      match cells[ref]? with
      | none => none
      | some cell =>
          match link cell with
          | none => some ref
          | some next => lastRef link cells fuel next

/-- The cells visited when a link is followed. -/
def traverse (link : α → Option ℕ) (cells : List α) : ℕ → ℕ → List α
  | 0, _ => []
  | fuel + 1, ref =>
      match cells[ref]? with
      | none => []
      | some cell =>
          match link cell with
          | none => [cell]
          | some next => cell :: traverse link cells fuel next

/-- The references passed when a link is followed until a cell without it. -/
inductive Path (link : α → Option ℕ) (cells : List α) : Option ℕ → List ℕ → Prop
  | nil : Path link cells none []
  | cons {ref : ℕ} {cell : α} {refs : List ℕ} (found : cells[ref]? = some cell)
      (rest : Path link cells (link cell) refs) : Path link cells (some ref) (ref :: refs)

/-- Each of two links leads back where the other one comes from. -/
def Inverse (pre next : α → Option ℕ) (cells : List α) : Prop :=
  ∀ ref other, cells[ref]?.bind next = some other ↔ cells[other]?.bind pre = some ref

/-- Every cell is linked to its neighbours in the list and to nothing else. -/
structure Chained (pre next : α → Option ℕ) (cells : List α) : Prop where
  pre_eq : ∀ ref cell, cells[ref]? = some cell → pre cell = if ref = 0 then none else some (ref - 1)
  next_eq : ∀ ref cell, cells[ref]? = some cell →
    next cell = if ref + 1 < cells.length then some (ref + 1) else none

variable {pre next : α → Option ℕ} {cells : List α}

theorem chained_nil : Chained pre next ([] : List α) :=
  ⟨fun ref cell present => by simp at present, fun ref cell present => by simp at present⟩

theorem Chained.lastRef_next (chained : Chained pre next cells) {fuel ref : ℕ} (inside : ref < cells.length)
    (enough : cells.length ≤ fuel + ref) : lastRef next cells fuel ref = some (cells.length - 1) := by
  induction fuel generalizing ref with
  | zero => omega
  | succ fuel ih =>
    have present : cells[ref]? = some cells[ref] := List.getElem?_eq_getElem inside
    rw [lastRef, present]
    simp only [chained.next_eq ref _ present]
    by_cases more : ref + 1 < cells.length
    · rw [if_pos more]
      exact ih more (by omega)
    · rw [if_neg more]
      exact congrArg some (by omega)

theorem Chained.lastRef_pre (chained : Chained pre next cells) {fuel ref : ℕ} (inside : ref < cells.length)
    (enough : ref < fuel) : lastRef pre cells fuel ref = some 0 := by
  induction fuel generalizing ref with
  | zero => omega
  | succ fuel ih =>
    have present : cells[ref]? = some cells[ref] := List.getElem?_eq_getElem inside
    rw [lastRef, present]
    simp only [chained.pre_eq ref _ present]
    cases ref with
    | zero => rfl
    | succ before => exact ih (by omega) (by omega)

theorem Chained.traverse_drop (chained : Chained pre next cells) {fuel ref : ℕ}
    (inside : ref < cells.length) (enough : cells.length ≤ fuel + ref) :
    traverse next cells fuel ref = cells.drop ref := by
  induction fuel generalizing ref with
  | zero => omega
  | succ fuel ih =>
    have present : cells[ref]? = some cells[ref] := List.getElem?_eq_getElem inside
    rw [traverse, present, List.drop_eq_getElem_cons inside]
    simp only [chained.next_eq ref _ present]
    by_cases more : ref + 1 < cells.length
    · rw [if_pos more]
      exact congrArg _ (ih more (by omega))
    · rw [if_neg more, List.drop_eq_nil_of_le (by omega)]

/-- The forward walk from the first cell visits the arena in order. -/
theorem Chained.traverse_all (chained : Chained pre next cells) (present : cells ≠ []) :
    traverse next cells cells.length 0 = cells := by
  rw [chained.traverse_drop (List.length_pos_iff.mpr present) (by omega), List.drop_zero]

theorem Chained.path_from (chained : Chained pre next cells) {ref more : ℕ} (size : ref + more + 1 = cells.length) :
    Path next cells (some ref) (List.range' ref (more + 1)) := by
  have present : cells[ref]? = some cells[ref] := List.getElem?_eq_getElem (by omega)
  have link := chained.next_eq ref _ present
  rw [List.range'_succ]
  induction more generalizing ref with
  | zero =>
    rw [if_neg (by omega)] at link
    exact .cons present (link ▸ .nil)
  | succ more ih =>
    rw [if_pos (by omega)] at link
    have present' : cells[ref + 1]? = some cells[ref + 1] := List.getElem?_eq_getElem (by omega)
    refine .cons present (link ▸ ?_)
    rw [List.range'_succ]
    exact ih (by omega) present' (chained.next_eq _ _ present')

/-- The forward links from the first cell pass every cell in order. -/
theorem Chained.path_all (chained : Chained pre next cells) :
    Path next cells (if cells = [] then none else some 0) (List.range cells.length) := by
  split
  · next empty =>
    rw [empty]
    exact .nil
  · next present =>
    obtain ⟨more, size⟩ : ∃ more, cells.length = more + 1 :=
      ⟨cells.length - 1, by have := List.length_pos_iff.mpr present; omega⟩
    rw [List.range_eq_range', size]
    exact chained.path_from (by omega)

theorem map_getElem?_range (cells : List α) : (List.range cells.length).map (cells[·]?) = cells.map some := by
  apply List.ext_getElem
  · simp
  · intro ref inside inside'
    simp only [List.length_map, List.length_range] at inside
    simp [inside]

theorem Chained.inverse (chained : Chained pre next cells) : Inverse pre next cells := by
  intro ref other
  constructor
  · intro linked
    obtain ⟨cell, found, linked⟩ := Option.bind_eq_some_iff.mp linked
    rw [chained.next_eq ref cell found] at linked
    split at linked
    · next more =>
      cases linked
      have present : cells[ref + 1]? = some cells[ref + 1] := List.getElem?_eq_getElem more
      rw [present, Option.bind_some, chained.pre_eq _ _ present, if_neg (Nat.succ_ne_zero ref), Nat.add_sub_cancel]
    · cases linked
  · intro back
    obtain ⟨after, there, back⟩ := Option.bind_eq_some_iff.mp back
    have within := (List.getElem?_eq_some_iff.mp there).1
    rw [chained.pre_eq other after there] at back
    split at back
    · cases back
    · cases back
      have present : cells[other - 1]? = some cells[other - 1] := List.getElem?_eq_getElem (by omega)
      rw [present, Option.bind_some, chained.next_eq _ _ present, if_pos (by omega)]
      exact congrArg some (by omega)

theorem chained_single {cell : α} (first : pre cell = none) (last : next cell = none) :
    Chained pre next [cell] := by
  constructor <;> intro ref other present
  · obtain ⟨rfl, rfl⟩ : ref = 0 ∧ cell = other := by
      cases ref <;> simp_all
    simpa using first
  · obtain ⟨rfl, rfl⟩ : ref = 0 ∧ cell = other := by
      cases ref <;> simp_all
    simpa using last

/-- A change that keeps the links keeps the arena chained. -/
theorem Chained.modify (chained : Chained pre next cells) {change : α → α}
    (samePre : ∀ cell, pre (change cell) = pre cell) (sameNext : ∀ cell, next (change cell) = next cell)
    (position : ℕ) : Chained pre next (cells.modify position change) := by
  have lookup (ref : ℕ) (cell : α) (found : (cells.modify position change)[ref]? = some cell) :
      ∃ old, cells[ref]? = some old ∧ pre cell = pre old ∧ next cell = next old := by
    rw [List.getElem?_modify, Option.map_eq_map] at found
    obtain ⟨old, here, rfl⟩ := Option.map_eq_some_iff.mp found
    refine ⟨old, here, ?_, ?_⟩
    · split
      · exact samePre old
      · rfl
    · split
      · exact sameNext old
      · rfl
  constructor <;> intro ref cell found
  · obtain ⟨old, here, same, -⟩ := lookup ref cell found
    rw [same]
    exact chained.pre_eq ref old here
  · obtain ⟨old, here, -, same⟩ := lookup ref cell found
    rw [same, List.length_modify]
    exact chained.next_eq ref old here

/-- Linking a new cell behind the last one keeps the arena chained. -/
theorem Chained.append (chained : Chained pre next cells) (present : cells ≠ []) {link : α → α}
    (linkPre : ∀ cell, pre (link cell) = pre cell) (linkNext : ∀ cell, next (link cell) = some cells.length)
    {cell : α} (cellPre : pre cell = some (cells.length - 1)) (cellNext : next cell = none) :
    Chained pre next (cells.modify (cells.length - 1) link ++ [cell]) := by
  have positive := List.length_pos_iff.mpr present
  have lookup (ref : ℕ) (other : α)
      (found : (cells.modify (cells.length - 1) link ++ [cell])[ref]? = some other) :
      (ref = cells.length ∧ other = cell) ∨ (ref < cells.length - 1 ∧ cells[ref]? = some other) ∨
        (ref = cells.length - 1 ∧ ∃ old, cells[ref]? = some old ∧ other = link old) := by
    rcases Nat.lt_trichotomy ref (cells.length - 1) with before | last | behind
    · rw [List.getElem?_append_left (by rw [List.length_modify]; omega), List.getElem?_modify] at found
      simp only [if_neg (show cells.length - 1 ≠ ref by omega), Option.map_eq_map, Option.map_id'] at found
      exact .inr (.inl ⟨before, found⟩)
    · rw [List.getElem?_append_left (by rw [List.length_modify]; omega), List.getElem?_modify] at found
      simp only [if_pos last.symm, Option.map_eq_map] at found
      obtain ⟨old, here, same⟩ := Option.map_eq_some_iff.mp found
      exact .inr (.inr ⟨last, old, here, same.symm⟩)
    · rw [List.getElem?_append_right (by rw [List.length_modify]; omega), List.length_modify] at found
      obtain ⟨position, same⟩ : ref - cells.length = 0 ∧ other = cell := by
        cases at_ : ref - cells.length <;> simp_all
      exact .inl ⟨by omega, same⟩
  have length : (cells.modify (cells.length - 1) link ++ [cell]).length = cells.length + 1 := by
    rw [List.length_append, List.length_modify, List.length_singleton]
  constructor <;> intro ref other found
  · rcases lookup ref other found with ⟨rfl, rfl⟩ | ⟨before, here⟩ | ⟨rfl, old, here, rfl⟩
    · rw [cellPre, if_neg (by omega)]
    · exact chained.pre_eq ref other here
    · rw [linkPre]
      exact chained.pre_eq _ old here
  · rw [length]
    rcases lookup ref other found with ⟨rfl, rfl⟩ | ⟨before, here⟩ | ⟨rfl, old, here, rfl⟩
    · rw [cellNext, if_neg (by omega)]
    · rw [chained.next_eq ref other here, if_pos (by omega), if_pos (by omega)]
    · rw [linkNext, if_pos (by omega)]
      congr 1
      omega

/-- The same for any arena, also an empty one. -/
theorem Chained.snoc (chained : Chained pre next cells) {link : α → α} (linkPre : ∀ cell, pre (link cell) = pre cell)
    (linkNext : ∀ cell, next (link cell) = some cells.length) {cell : α}
    (cellPre : pre cell = (List.range cells.length).getLast?) (cellNext : next cell = none) :
    Chained pre next (cells.modify (cells.length - 1) link ++ [cell]) := by
  rw [List.getLast?_range] at cellPre
  cases cells with
  | nil => exact chained_single cellPre cellNext
  | cons first rest => exact chained.append (by simp) linkPre linkNext cellPre cellNext

/-- What a change leaves alone is the same in every cell. -/
theorem map_getElem?_modify {β : Type*} {shown : α → β} {change : α → α}
    (same : ∀ cell, shown (change cell) = shown cell) (position ref : ℕ) :
    ((cells.modify position change)[ref]?).map shown = cells[ref]?.map shown := by
  rw [List.getElem?_modify]
  cases cells[ref]? with
  | none => rfl
  | some cell => by_cases here : position = ref <;> simp [here, same]

theorem map_modify {β : Type*} {shown : α → β} {change : α → α} (same : ∀ cell, shown (change cell) = shown cell)
    (position : ℕ) : (cells.modify position change).map shown = cells.map shown := by
  apply List.ext_getElem?
  intro ref
  rw [List.getElem?_map, List.getElem?_map]
  exact map_getElem?_modify same position ref

/-- The cells at consecutive references. -/
theorem filterMap_getElem?_range' {start count : ℕ} (enough : start + count ≤ cells.length) :
    (List.range' start count).filterMap (cells[·]?) = (cells.drop start).take count := by
  induction count generalizing start with
  | zero => rfl
  | succ count ih =>
    have inside : start < cells.length := by omega
    rw [List.range'_succ, List.filterMap_cons, List.getElem?_eq_getElem inside, List.drop_eq_getElem_cons inside,
      List.take_succ_cons]
    exact congrArg _ (ih (by omega))

/-- The backward links from the last cell end at the first one. -/
theorem Chained.first_eq (chained : Chained pre next cells) :
    (List.range cells.length).getLast?.bind (lastRef pre cells cells.length) = if cells = [] then none else some 0 := by
  rw [List.getLast?_range]
  split
  · next empty =>
    rw [if_pos (List.length_eq_zero_iff.mp empty)]
    rfl
  · next present =>
    rw [if_neg fun empty => present (List.length_eq_zero_iff.mpr empty)]
    exact chained.lastRef_pre (by omega) (by omega)

end PolarCloud.Arena
