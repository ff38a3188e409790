import Mathlib.Data.List.Pairwise
import PolarCloud.Base.Replay
import PolarCloud.Model.Utils.TimeTask

/-! # Every scheduled command runs once

The heap of groups, the sorted array and the map by time stand for one queue of groups in the order of their times, into
which `Add` puts its command. What is pending is what the loop has still to pass to the callback: the whole queue, or,
while it ranges over the first group, the rest of that range and the other groups.
-/

namespace PolarCloud.TimeTask

/-! ## The queue -/

/-- The groups stand in the order of their times, one for each. -/
def Ordered (queue : List Ticks) : Prop := queue.Pairwise (·.tick < ·.tick)

/-- A command joins the group of its time, or makes one where it belongs. -/
def put (one : Tick) : List Ticks → List Ticks
  | [] => [newTicks one]
  | ticks :: queue =>
      if one.tick < ticks.tick then newTicks one :: ticks :: queue
      else if one.tick = ticks.tick then { ticks with ticks := ticks.ticks ++ [one] } :: queue
      else ticks :: put one queue

/-- All commands of a queue. -/
def entries (queue : List Ticks) : List Tick := queue.flatMap Ticks.ticks

/-- A group holds commands of its own time. -/
def Ticks.Own (ticks : Ticks) : Prop := ∀ one ∈ ticks.ticks, one.tick = ticks.tick

section Queue

variable {one : Tick} {ticks : Ticks} {queue : List Ticks}

theorem put_cons_of_lt (earlier : one.tick < ticks.tick) : put one (ticks :: queue) = newTicks one :: ticks :: queue :=
  if_pos earlier

theorem put_cons_of_eq (same : one.tick = ticks.tick) :
    put one (ticks :: queue) = { ticks with ticks := ticks.ticks ++ [one] } :: queue := by
  rw [put, if_neg same.not_lt, if_pos same]

theorem put_cons_of_gt (later : ticks.tick < one.tick) : put one (ticks :: queue) = ticks :: put one queue := by
  rw [put, if_neg later.not_gt, if_neg later.ne']

theorem entries_cons : entries (ticks :: queue) = ticks.ticks ++ entries queue := List.flatMap_cons

theorem entries_put : (entries (put one queue)).Perm (entries queue ++ [one]) := by
  induction queue with
  | nil => exact .refl _
  | cons ticks queue ih =>
    rcases lt_trichotomy one.tick ticks.tick with earlier | same | later
    · rw [put_cons_of_lt earlier, entries_cons]
      exact List.perm_append_comm
    · rw [put_cons_of_eq same, entries_cons, entries_cons, List.append_assoc, List.append_assoc]
      exact List.perm_append_comm.append_left _
    · rw [put_cons_of_gt later, entries_cons, entries_cons, List.append_assoc]
      exact ih.append_left _

theorem forall_mem_put {Holds : Ticks → Prop} (fresh : Holds (newTicks one))
    (joined : ∀ ticks ∈ queue, one.tick = ticks.tick → Holds ticks → Holds { ticks with ticks := ticks.ticks ++ [one] })
    (holds : ∀ ticks ∈ queue, Holds ticks) : ∀ ticks ∈ put one queue, Holds ticks := by
  induction queue with
  | nil => exact List.forall_mem_singleton.mpr fresh
  | cons ticks queue ih =>
    obtain ⟨head, tail⟩ := List.forall_mem_cons.mp holds
    rcases lt_trichotomy one.tick ticks.tick with earlier | same | later
    · rw [put_cons_of_lt earlier]
      exact List.forall_mem_cons.mpr ⟨fresh, holds⟩
    · rw [put_cons_of_eq same]
      exact List.forall_mem_cons.mpr ⟨joined _ (List.mem_cons_self ..) same head, tail⟩
    · rw [put_cons_of_gt later]
      exact List.forall_mem_cons.mpr ⟨head, ih (fun other member => joined other (List.mem_cons_of_mem _ member)) tail⟩

theorem put_own (own : ∀ ticks ∈ queue, ticks.Own) : ∀ ticks ∈ put one queue, ticks.Own := by
  refine forall_mem_put (List.forall_mem_singleton.mpr rfl) (fun ticks _ same own => ?_) own
  exact List.forall_mem_append.mpr ⟨own, List.forall_mem_singleton.mpr same⟩

theorem put_ordered (ordered : Ordered queue) : Ordered (put one queue) := by
  induction queue with
  | nil => exact List.pairwise_singleton _ _
  | cons ticks queue ih =>
    obtain ⟨first, rest⟩ := List.pairwise_cons.mp ordered
    rcases lt_trichotomy one.tick ticks.tick with earlier | same | later
    · rw [put_cons_of_lt earlier]
      refine List.pairwise_cons.mpr ⟨List.forall_mem_cons.mpr ⟨earlier, fun other member => ?_⟩, ordered⟩
      exact earlier.trans (first other member)
    · rw [put_cons_of_eq same]
      exact List.pairwise_cons.mpr ⟨first, rest⟩
    · rw [put_cons_of_gt later]
      exact List.pairwise_cons.mpr ⟨forall_mem_put later (fun other member _ later => later) first, ih rest⟩

/-- Where no group has its time, a command makes a new one. -/
theorem put_perm (fresh : ∀ ticks ∈ queue, ticks.tick ≠ one.tick) : (put one queue).Perm (queue ++ [newTicks one]) := by
  induction queue with
  | nil => exact .refl _
  | cons ticks queue ih =>
    obtain ⟨head, tail⟩ := List.forall_mem_cons.mp fresh
    rcases lt_trichotomy one.tick ticks.tick with earlier | same | later
    · rw [put_cons_of_lt earlier]
      exact (List.perm_append_singleton ..).symm
    · exact absurd same.symm head
    · rw [put_cons_of_gt later]
      exact (ih tail).cons _

/-- Sorting brings the new group to its place. -/
theorem insertionSort_eq_put (ordered : Ordered queue) (fresh : ∀ ticks ∈ queue, ticks.tick ≠ one.tick) :
    (queue ++ [newTicks one]).insertionSort (fun left right : Ticks => left.tick ≤ right.tick) = put one queue := by
  have total : Std.Total fun left right : Ticks => left.tick ≤ right.tick := ⟨fun left right => le_total _ _⟩
  have transitive : IsTrans Ticks fun left right => left.tick ≤ right.tick := ⟨fun _ _ _ => le_trans⟩
  have sorted := List.pairwise_insertionSort (fun left right : Ticks => left.tick ≤ right.tick)
    (queue ++ [newTicks one])
  have placed : Ordered (put one queue) := put_ordered ordered
  have same := (List.perm_insertionSort (fun left right : Ticks => left.tick ≤ right.tick) _).trans
    (put_perm fresh).symm
  refine same.eq_of_pairwise (fun left right inLeft inRight before after => ?_) sorted (placed.imp le_of_lt)
  by_contra apart
  have symmetric : Std.Symm fun left right : Ticks => left.tick ≠ right.tick := ⟨fun _ _ apart => apart.symm⟩
  exact (placed.imp ne_of_lt).forall (same.mem_iff.mp inLeft) inRight apart (le_antisymm before after)

/-- A command never brings the first time back. -/
theorem put_head (first : queue.head? = some ticks) :
    ∃ front, (put one queue).head? = some front ∧ front.tick ≤ ticks.tick := by
  obtain ⟨queue, rfl⟩ := List.head?_eq_some_iff.mp first
  rcases lt_trichotomy one.tick ticks.tick with earlier | same | later
  · exact ⟨_, by rw [put_cons_of_lt earlier, List.head?_cons], earlier.le⟩
  · exact ⟨{ ticks with ticks := ticks.ticks ++ [one] }, by rw [put_cons_of_eq same, List.head?_cons], le_refl _⟩
  · exact ⟨_, by rw [put_cons_of_gt later, List.head?_cons], le_refl _⟩

/-- Behind the first group exactly the command is new if it is of a later time, and only then. -/
theorem entries_tail_put_iff (own : ticks.Own) :
    (entries (put one (ticks :: queue)).tail).Perm (entries queue ++ [one]) ↔ ticks.tick < one.tick := by
  rcases lt_trichotomy one.tick ticks.tick with earlier | same | later
  · rw [put_cons_of_lt earlier, List.tail_cons, entries_cons]
    refine iff_of_false (fun perm => ?_) earlier.not_gt
    have alone := (List.perm_append_left_iff _).mp (List.perm_append_comm.trans perm)
    exact earlier.ne (own one (alone.mem_iff.mpr (List.mem_singleton_self one)))
  · rw [put_cons_of_eq same, List.tail_cons]
    refine iff_of_false (fun perm => ?_) same.le.not_gt
    have length := perm.length_eq
    rw [List.length_append, List.length_singleton] at length
    omega
  · rw [put_cons_of_gt later, List.tail_cons]
    exact iff_of_true entries_put later

end Queue

/-! ## The heap, the array and the map stand for a queue -/

namespace Task

variable {task : Task} {tick : ℤ} {class_ params : String}

/-- The groups of the array. -/
def queue (task : Task) : List Ticks := task.task.map task.ticksAt

theorem first_eq : task.first = task.queue.head? := List.head?_map.symm

end Task

/-- The array is in order, the map names its groups and no others, and each group holds commands of its own time. -/
structure Stored (task : Task) : Prop where
  allocated : ∀ p ∈ task.task, p < task.heap.length
  ordered : Ordered task.queue
  mapped : ∀ tick p, task.taskMap tick = some p ↔ p ∈ task.task ∧ (task.ticksAt p).tick = tick
  own : ∀ ticks ∈ task.queue, ticks.Own

section Add

variable {task : Task} {one : Tick} {p : ℕ}

/-- The map names the group a command joins. -/
theorem store_queue_of_some (stored : Stored task) (found : task.taskMap one.tick = some p) :
    (task.store one).sort.task = task.task ∧ (task.store one).sort.queue = put one task.queue ∧
      ∀ q, ((task.store one).ticksAt q).tick = (task.ticksAt q).tick := by
  obtain ⟨member, tickAt⟩ := (stored.mapped one.tick p).mp found
  have heap : (task.store one).heap = task.heap.modify p fun ticks => { ticks with ticks := ticks.ticks ++ [one] } := by
    rw [Task.store, found]
  have array : (task.store one).task = task.task := by rw [Task.store, found]
  have joined : (task.store one).ticksAt p = { task.ticksAt p with ticks := (task.ticksAt p).ticks ++ [one] } := by
    simp only [Task.ticksAt, heap, List.getD_eq_getElem?_getD, List.getElem?_modify, if_true,
      List.getElem?_eq_getElem (stored.allocated p member)]
    rfl
  have other {q : ℕ} (apart : q ≠ p) : (task.store one).ticksAt q = task.ticksAt q := by
    simp only [Task.ticksAt, heap, List.getD_eq_getElem?_getD, List.getElem?_modify, if_neg apart.symm]
    cases task.heap[q]? <;> rfl
  have times (q : ℕ) : ((task.store one).ticksAt q).tick = (task.ticksAt q).tick := by
    by_cases is : q = p
    · rw [is, joined]
    · rw [other is]
  have sorted : (task.store one).sort.task = task.task := by
    show ((task.store one).task.insertionSort _) = _
    rw [array]
    refine List.Pairwise.insertionSort_eq ?_
    simp only [times]
    exact (List.pairwise_map.mp stored.ordered).imp le_of_lt
  refine ⟨sorted, ?_, times⟩
  have places : ∀ pointers : List ℕ, Ordered (pointers.map task.ticksAt) → p ∈ pointers →
      pointers.map (task.store one).ticksAt = put one (pointers.map task.ticksAt) := by
    intro pointers ordered within
    induction pointers with
    | nil => cases within
    | cons q pointers ih =>
      obtain ⟨first, rest⟩ := List.pairwise_cons.mp ordered
      rw [List.map_cons, List.map_cons]
      by_cases is : q = p
      · have apart : ∀ r ∈ pointers, r ≠ p := by
          rintro r inside rfl
          exact lt_irrefl _ (is ▸ first _ (List.mem_map_of_mem inside))
        rw [put_cons_of_eq (is ▸ tickAt.symm), is, joined, List.map_congr_left fun r inside => other (apart r inside)]
      · have inside := (List.mem_cons.mp within).resolve_left (Ne.symm is)
        have later : (task.ticksAt q).tick < one.tick := tickAt ▸ first _ (List.mem_map_of_mem inside)
        rw [put_cons_of_gt later, other is, ih rest inside]
  have ends := places task.task stored.ordered member
  show ((task.store one).sort.task.map _) = _
  rw [sorted]
  exact ends

/-- The map has no group of its time. -/
theorem store_queue_of_none (stored : Stored task) (found : task.taskMap one.tick = none) :
    (task.store one).sort.task.Perm (task.task ++ [task.heap.length]) ∧
    (task.store one).sort.queue = put one task.queue ∧
      (task.store one).ticksAt task.heap.length = newTicks one ∧
      ∀ q < task.heap.length, (task.store one).ticksAt q = task.ticksAt q := by
  have heap : (task.store one).heap = task.heap ++ [newTicks one] := by rw [Task.store, found]
  have array : (task.store one).task = task.task ++ [task.heap.length] := by rw [Task.store, found]
  have made : (task.store one).ticksAt task.heap.length = newTicks one := by
    simp [Task.ticksAt, heap, List.getD_eq_getElem?_getD]
  have kept {q : ℕ} (old : q < task.heap.length) : (task.store one).ticksAt q = task.ticksAt q := by
    simp [Task.ticksAt, heap, List.getD_eq_getElem?_getD, List.getElem?_append_left old]
  have fresh : ∀ ticks ∈ task.queue, ticks.tick ≠ one.tick := by
    intro ticks member is
    obtain ⟨q, inside, rfl⟩ := List.mem_map.mp member
    cases found.symm.trans ((stored.mapped _ _).mpr ⟨inside, is⟩)
  refine ⟨?_, ?_, made, fun q => kept⟩
  · show ((task.store one).task.insertionSort _).Perm _
    rw [array]
    exact List.perm_insertionSort _ _
  · show ((task.store one).task.insertionSort _).map (task.store one).ticksAt = _
    rw [List.map_insertionSort _ (fun left right : Ticks => left.tick ≤ right.tick) _ _ fun _ _ _ _ => Iff.rfl, array,
      List.map_append, List.map_singleton, made, List.map_congr_left fun q inside => kept (stored.allocated q inside)]
    exact insertionSort_eq_put stored.ordered fresh

theorem add_queue (stored : Stored task) : (task.store one).sort.queue = put one task.queue := by
  cases found : task.taskMap one.tick with
  | some p => exact (store_queue_of_some stored found).2.1
  | none => exact (store_queue_of_none stored found).2.1

theorem store_stored (stored : Stored task) : Stored (task.store one).sort := by
  have held : (task.store one).sort.queue = put one task.queue := add_queue stored
  cases found : task.taskMap one.tick with
  | some p =>
    obtain ⟨array, -, times⟩ := store_queue_of_some stored found
    refine ⟨fun q inside => ?_, held ▸ put_ordered stored.ordered, fun tick q => ?_, held ▸ put_own stored.own⟩
    · have size : (task.store one).sort.heap.length = task.heap.length := by
        show (task.store one).heap.length = _
        rw [Task.store, found]
        exact List.length_modify ..
      exact size ▸ stored.allocated q (array ▸ inside)
    · have map : (task.store one).sort.taskMap = task.taskMap := by
        show (task.store one).taskMap = _
        rw [Task.store, found]
      rw [map, array]
      show _ ↔ _ ∧ ((task.store one).ticksAt q).tick = _
      rw [times]
      exact stored.mapped tick q
  | none =>
    obtain ⟨array, -, made, kept⟩ := store_queue_of_none stored found
    have size : (task.store one).sort.heap.length = task.heap.length + 1 := by
      show (task.store one).heap.length = _
      rw [Task.store, found]
      exact List.length_append
    have old {q : ℕ} (inside : q ∈ task.task) : (task.store one).sort.ticksAt q = task.ticksAt q :=
      kept q (stored.allocated q inside)
    refine ⟨fun q inside => ?_, held ▸ put_ordered stored.ordered, fun tick q => ?_, held ▸ put_own stored.own⟩
    · rw [size]
      rcases List.mem_append.mp (array.mem_iff.mp inside) with inside | is
      · exact (stored.allocated q inside).trans (Nat.lt_succ_self _)
      · exact (List.mem_singleton.mp is) ▸ Nat.lt_succ_self _
    · have map : (task.store one).sort.taskMap = Function.update task.taskMap one.tick (some task.heap.length) := by
        show (task.store one).taskMap = _
        rw [Task.store, found]
      rw [map, array.mem_iff, List.mem_append, List.mem_singleton, Function.update_apply]
      constructor
      · intro named
        split_ifs at named with is
        · cases named
          exact ⟨.inr rfl, is ▸ congrArg Ticks.tick made⟩
        · obtain ⟨inside, tickAt⟩ := (stored.mapped tick q).mp named
          exact ⟨.inl inside, (old inside) ▸ tickAt⟩
      · rintro ⟨inside | rfl, tickAt⟩
        · rw [old inside] at tickAt
          have named := (stored.mapped tick q).mpr ⟨inside, tickAt⟩
          have apart : tick ≠ one.tick := by
            rintro rfl
            cases found.symm.trans named
          rwa [if_neg apart]
        · have is : tick = one.tick := tickAt.symm.trans (congrArg Ticks.tick made)
          rw [if_pos is]

end Add

/-! ## What holds at each point -/

/-- What the loop knows of the queue and of the clock. -/
def Placed (task : Task) : Prop :=
  match task.point with
  | .top | .asleep _ | .panicked => True
  | .now => task.queue ≠ []
  | .compare now | .arm now => task.queue ≠ [] ∧ now ≤ task.unix
  | .due => ∃ ticks, task.first = some ticks ∧ ticks.tick ≤ task.unix
  | .waiting deadline => ∃ ticks, task.first = some ticks ∧ ticks.tick * second ≤ deadline
  | .running rest => task.queue ≠ [] ∧ ∀ one ∈ rest, one.tick ≤ task.unix

/-- What is known in every state. -/
structure Coherent (task : Task) : Prop where
  stored : Stored task
  placed : Placed task

/-- What the loop has still to pass to the callback. -/
def Task.pending (task : Task) : List Tick :=
  match task.point with
  | .running rest => rest ++ entries task.queue.tail
  | _ => entries task.queue

/-- Nothing is lost and nothing runs twice or too early. -/
structure Kept (task : Task) : Prop where
  goes : task.point ≠ .panicked
  once : (task.called.map Prod.fst ++ task.pending).Perm task.added
  onTime : ∀ call ∈ task.called, call.1.tick ≤ call.2

/-- The time to a group fits into 64 bits of nanoseconds when the ticker for it is made. -/
def Fits (task : Task) : Event → Prop
  | .loop => ∀ now, task.point = .arm now → ∀ ticks, task.first = some ticks →
      -2 ^ 63 ≤ second * (ticks.tick - now) ∧ second * (ticks.tick - now) < 2 ^ 63
  | _ => True

/-- While the loop ranges over the first group and until it deletes it, only commands of a later time are added, and
none that is due is added between the comparison with the clock and the making of the ticker. -/
def Safe (task : Task) : Event → Prop
  | .add tick _ _ => ∀ rest, task.point = .running rest → ∀ ticks, task.first = some ticks → ticks.tick < tick
  | .loop => ∀ now, task.point = .arm now → ∀ ticks, task.first = some ticks → now < ticks.tick
  | _ => True

theorem duration_eq {tick now : ℤ} (low : -2 ^ 63 ≤ second * (tick - now)) (high : second * (tick - now) < 2 ^ 63) :
    duration tick now = second * (tick - now) := by
  rw [second] at *
  have inner : (tick - now).bmod (2 ^ 64) = tick - now := Int.bmod_eq_of_le (by omega) (by omega)
  rw [duration, inner, second]
  exact Int.bmod_eq_of_le (by omega) (by omega)

theorem first_cons {task : Task} (nonempty : task.queue ≠ []) :
    ∃ ticks more, task.queue = ticks :: more ∧ task.first = some ticks := by
  obtain ⟨ticks, more, split⟩ := List.exists_cons_of_ne_nil nonempty
  exact ⟨ticks, more, split, by rw [Task.first_eq, split, List.head?_cons]⟩

theorem queue_cons {task : Task} {ticks : Ticks} (first : task.first = some ticks) :
    ∃ more, task.queue = ticks :: more := by
  rw [Task.first_eq] at first
  exact List.head?_eq_some_iff.mp first

/-! ## One step -/

section Step

variable {task other : Task}

theorem Stored.congr (stored : Stored task) (heap : other.heap = task.heap) (array : other.task = task.task)
    (map : other.taskMap = task.taskMap) : Stored other := by
  have held : other.queue = task.queue := by rw [Task.queue, Task.queue, array]; unfold Task.ticksAt; rw [heap]
  refine ⟨?_, held ▸ stored.ordered, ?_, held ▸ stored.own⟩
  · rw [heap, array]
    exact stored.allocated
  · unfold Task.ticksAt
    rw [map, array, heap]
    exact stored.mapped

/-- Where nothing is called or added, all depends on what is pending. -/
theorem Kept.move (kept : Kept task) (goes : other.point ≠ .panicked) (called : other.called = task.called)
    (added : other.added = task.added) (pending : other.pending = task.pending) : Kept other :=
  ⟨goes, by rw [called, added, pending]; exact kept.once, called ▸ kept.onTime⟩

theorem unix_mono (later : task.clock ≤ other.clock) : task.unix ≤ other.unix :=
  Int.ediv_le_ediv (by decide) later

theorem store_point (task : Task) (one : Tick) :
    (task.store one).point = task.point ∧ (task.store one).clock = task.clock ∧
    (task.store one).called = task.called := by
  rw [Task.store]
  split
  · exact ⟨rfl, rfl, rfl⟩
  · exact ⟨rfl, rfl, rfl⟩

theorem put_ne_nil {one : Tick} {queue : List Ticks} (nonempty : queue ≠ []) : put one queue ≠ [] := by
  obtain ⟨ticks, more, rfl⟩ := List.exists_cons_of_ne_nil nonempty
  obtain ⟨front, first, _⟩ := @put_head one ticks (ticks :: more) List.head?_cons
  exact List.ne_nil_of_mem (List.mem_of_mem_head? first)

theorem add_coherent (known : Coherent task) (tick : ℤ) (class_ params : String) :
    Coherent (task.add tick class_ params) := by
  obtain ⟨stored, placed⟩ := known
  let one : Tick := { tick, class_, params }
  obtain ⟨point, clock, _⟩ := store_point task one
  have held : (task.add tick class_ params).queue = put one task.queue := @add_queue task one stored
  have point' : (task.add tick class_ params).point = task.point := point
  have unix : (task.add tick class_ params).unix = task.unix := congrArg (· / second) clock
  have front {ticks : Ticks} (first : task.first = some ticks) :
      ∃ front, (task.add tick class_ params).first = some front ∧ front.tick ≤ ticks.tick := by
    rw [Task.first_eq] at first
    rw [Task.first_eq, held]
    exact put_head first
  refine ⟨(@store_stored task one stored).congr rfl rfl rfl, ?_⟩
  unfold Placed at placed ⊢
  rw [point', unix, held]
  cases at_ : task.point with
  | top | asleep deadline | panicked => exact trivial
  | now =>
    rw [at_] at placed
    exact put_ne_nil placed
  | compare now | arm now | running rest =>
    rw [at_] at placed
    exact ⟨put_ne_nil placed.1, placed.2⟩
  | due =>
    rw [at_] at placed
    obtain ⟨ticks, first, due⟩ := placed
    obtain ⟨ticks', first', sooner⟩ := front first
    exact ⟨ticks', first', sooner.trans due⟩
  | waiting deadline =>
    rw [at_] at placed
    obtain ⟨ticks, first, due⟩ := placed
    obtain ⟨ticks', first', sooner⟩ := front first
    exact ⟨ticks', first', (Int.mul_le_mul_of_nonneg_right sooner (by decide)).trans due⟩

/-- A command is not lost when it is added exactly if it is safe. -/
theorem add_kept_iff (known : Coherent task) (kept : Kept task) (tick : ℤ) (class_ params : String) :
    Kept (task.add tick class_ params) ↔ Safe task (.add tick class_ params) := by
  let one : Tick := { tick, class_, params }
  obtain ⟨point, -, called⟩ := store_point task one
  have held : (task.add tick class_ params).queue = put one task.queue := @add_queue task one known.stored
  have grows : Kept (task.add tick class_ params) ↔
      ((task.add tick class_ params).pending).Perm (task.pending ++ [one]) := by
    have before := kept.once.append_right [one]
    rw [List.append_assoc] at before
    have called' : (task.add tick class_ params).called = task.called := called
    refine ⟨fun right => ?_, fun perm => ⟨fun stops => kept.goes (point.symm.trans stops), ?_, called ▸ kept.onTime⟩⟩
    · have after := right.once
      rw [called'] at after
      exact (List.perm_append_left_iff _).mp (after.trans before.symm)
    · rw [called']
      exact (perm.append_left _).trans before
  have pending' : (task.add tick class_ params).pending =
      match task.point with
      | .running rest => rest ++ entries (put one task.queue).tail
      | _ => entries (put one task.queue) := by
    rw [Task.pending, held, show (task.add tick class_ params).point = task.point from point]
  rw [grows, pending', Task.pending]
  cases at_ : task.point with
  | running rest =>
    have placed := known.placed
    rw [Placed, at_] at placed
    obtain ⟨ticks, more, split, first⟩ := first_cons placed.1
    have own := known.stored.own ticks (split ▸ List.mem_cons_self ..)
    dsimp only
    rw [split, List.tail_cons, List.append_assoc, List.perm_append_left_iff, entries_tail_put_iff own]
    refine ⟨fun later rest' _ ticks' first' => ?_, fun safe => safe rest at_ ticks first⟩
    cases first.symm.trans first'
    exact later
  | top | asleep deadline | now | compare now | due | arm now | waiting deadline | panicked =>
    refine iff_of_true entries_put fun rest running => ?_
    cases at_.symm.trans running

/-- The loop goes to another point with what it knows there. -/
theorem move_spec (known : Coherent task) (kept : Kept task) (point : Point) (placed : Placed { task with point })
    (goes : point ≠ .panicked) (pending : ({ task with point } : Task).pending = task.pending) :
    Coherent { task with point } ∧ Kept { task with point } :=
  ⟨⟨known.stored.congr rfl rfl rfl, placed⟩, kept.move goes rfl rfl pending⟩

/-- Outside of a range all groups are pending. -/
theorem pending_eq {point : Point} (at_ : task.point = point) (calm : ∀ rest, point ≠ .running rest) :
    task.pending = entries task.queue := by
  rw [Task.pending, at_]
  cases point with
  | running rest => exact absurd rfl (calm rest)
  | top | asleep | now | compare | due | arm | waiting | panicked => rfl

/-- The loop goes from one point outside of a range to another. -/
theorem move_calm {old point : Point} (known : Coherent task) (kept : Kept task) (at_ : task.point = old)
    (calm : ∀ rest, old ≠ .running rest) (calm' : ∀ rest, point ≠ .running rest) (placed : Placed { task with point })
    (goes : point ≠ .panicked) : Coherent { task with point } ∧ Kept { task with point } :=
  move_spec known kept point placed goes ((pending_eq rfl calm').trans (pending_eq at_ calm).symm)

/-- After the range the first group is deleted, from the array and from the map. -/
theorem delete_stored {p : ℕ} {more : List ℕ} (stored : Stored task) (array : task.task = p :: more) (point : Point) :
    Stored { task with taskMap := Function.update task.taskMap (task.ticksAt p).tick none, task := more, point } := by
  have ordered := stored.ordered
  have own := stored.own
  rw [Task.queue, array, List.map_cons] at ordered own
  obtain ⟨first, rest⟩ := List.pairwise_cons.mp ordered
  refine ⟨fun q inside => stored.allocated q (array ▸ List.mem_cons_of_mem _ inside), rest, fun tick q => ?_,
    (List.forall_mem_cons.mp own).2⟩
  show Function.update task.taskMap (task.ticksAt p).tick none tick = some q ↔ q ∈ more ∧ (task.ticksAt q).tick = tick
  rw [Function.update_apply]
  constructor
  · intro named
    split_ifs at named with is
    obtain ⟨inside, tickAt⟩ := (stored.mapped tick q).mp named
    refine ⟨(List.mem_cons.mp (array ▸ inside)).resolve_left ?_, tickAt⟩
    rintro rfl
    exact is tickAt.symm
  · rintro ⟨inside, tickAt⟩
    have later := first _ (List.mem_map_of_mem inside)
    rw [if_neg (tickAt ▸ later.ne')]
    exact (stored.mapped tick q).mpr ⟨array ▸ List.mem_cons_of_mem _ inside, tickAt⟩

/-- The ticker is made, or there is no time left to wait. -/
theorem arm_spec (known : Coherent task) (kept : Kept task) (fits : Fits task .loop) {now : ℤ}
    (at_ : task.point = .arm now) : Coherent task.loop ∧ (Kept task.loop ↔ Safe task .loop) := by
  have placed := known.placed
  rw [Placed, at_] at placed
  obtain ⟨ticks, more, split, first⟩ := first_cons placed.1
  obtain ⟨low, high⟩ := fits now at_ ticks first
  have long := duration_eq low high
  have safe : Safe task .loop ↔ now < ticks.tick := by
    refine ⟨fun safe => safe now at_ ticks first, fun later now' at' ticks' first' => ?_⟩
    cases at_.symm.trans at'
    cases first.symm.trans first'
    exact later
  rw [safe, Task.loop, at_]
  dsimp only
  rw [first]
  dsimp only
  rw [long]
  rw [second] at *
  split_ifs with stops
  · refine ⟨⟨known.stored.congr rfl rfl rfl, trivial⟩, iff_of_false (fun right => right.goes rfl) (by omega)⟩
  · have read : now ≤ task.clock / 10 ^ 9 := placed.2
    have moved := @move_calm task _ (.waiting (task.clock + 10 ^ 9 * (ticks.tick - now))) known kept at_ nofun nofun
      ⟨ticks, first, by rw [second]; omega⟩ nofun
    exact ⟨moved.1, iff_of_true moved.2 (by omega)⟩

/-- A command of the range is called, or the first group is deleted. -/
theorem running_spec (known : Coherent task) (kept : Kept task) {rest : List Tick} (at_ : task.point = .running rest) :
    Coherent task.loop ∧ Kept task.loop := by
  obtain ⟨stored, placed⟩ := id known
  rw [Placed, at_] at placed
  have before := kept.once
  rw [Task.pending, at_] at before
  cases rest with
  | cons one rest =>
    obtain ⟨due, others⟩ := List.forall_mem_cons.mp placed.2
    rw [Task.loop, at_]
    refine ⟨⟨stored.congr rfl rfl rfl, placed.1, others⟩, nofun, ?_, ?_⟩
    · show ((task.called ++ [(one, task.unix)]).map Prod.fst ++ (rest ++ entries task.queue.tail)).Perm task.added
      rw [List.map_append, List.append_assoc]
      exact before
    · exact List.forall_mem_append.mpr ⟨kept.onTime, List.forall_mem_singleton.mpr due⟩
  | nil =>
    obtain ⟨p, more, array⟩ := List.exists_cons_of_ne_nil (mt List.map_eq_nil_iff.mpr placed.1)
    have first : task.first = some (task.ticksAt p) := by rw [Task.first, array]; rfl
    have tail : task.queue.tail = more.map task.ticksAt := by rw [Task.queue, array]; rfl
    rw [Task.loop, at_]
    dsimp only
    rw [first]
    dsimp only
    rw [array, List.tail_cons]
    refine ⟨⟨delete_stored stored array .top, trivial⟩, nofun, ?_, kept.onTime⟩
    show (task.called.map Prod.fst ++ entries (more.map task.ticksAt)).Perm task.added
    rw [← tail]
    exact before

/-- A step of the loop keeps everything, unless a command that is due came between the comparison and the ticker. -/
theorem loop_spec (known : Coherent task) (kept : Kept task) (fits : Fits task .loop) :
    Coherent task.loop ∧ (Kept task.loop ↔ Safe task .loop) := by
  obtain ⟨stored, placed⟩ := id known
  rw [Placed] at placed
  have calm {point : Point} (at_ : task.point = point) (apart : ∀ now, point ≠ .arm now)
    (spec : Coherent task.loop ∧ Kept task.loop) :
      Coherent task.loop ∧ (Kept task.loop ↔ Safe task .loop) :=
    ⟨spec.1, iff_of_true spec.2 fun now here => absurd (at_.symm.trans here) (apart now)⟩
  cases at_ : task.point with
  | top =>
    refine calm at_ nofun ?_
    by_cases empty : task.task = []
    · rw [Task.loop, at_]
      dsimp only
      rw [if_pos empty]
      exact move_calm known kept at_ nofun nofun trivial nofun
    · rw [Task.loop, at_]
      dsimp only
      rw [if_neg empty]
      exact move_calm known kept at_ nofun nofun (mt List.map_eq_nil_iff.mp empty) nofun
  | asleep deadline | waiting deadline | panicked =>
    refine calm at_ nofun ?_
    rw [Task.loop, at_]
    exact ⟨known, kept⟩
  | now =>
    refine calm at_ nofun ?_
    rw [at_] at placed
    rw [Task.loop, at_]
    exact move_calm known kept at_ nofun nofun ⟨placed, le_refl _⟩ nofun
  | compare now =>
    refine calm at_ nofun ?_
    rw [at_] at placed
    obtain ⟨ticks, more, split, first⟩ := first_cons placed.1
    rw [Task.loop, at_]
    dsimp only
    rw [first]
    dsimp only
    split_ifs with due
    · exact move_calm known kept at_ nofun nofun ⟨ticks, first, due.trans placed.2⟩ nofun
    · exact move_calm known kept at_ nofun nofun placed nofun
  | due =>
    refine calm at_ nofun ?_
    rw [at_] at placed
    obtain ⟨ticks, first, due⟩ := placed
    obtain ⟨more, split⟩ := queue_cons first
    have nonempty : task.queue ≠ [] := by simp [split]
    have own := stored.own ticks (split ▸ List.mem_cons_self ..)
    rw [Task.loop, at_]
    dsimp only
    rw [first]
    refine move_spec known kept _ ⟨nonempty, fun one member => (own one member).le.trans due⟩ nofun ?_
    show ticks.ticks ++ entries task.queue.tail = task.pending
    rw [Task.pending, at_, split]
    exact entries_cons.symm
  | arm now => exact arm_spec known kept fits at_
  | running rest => exact calm at_ nofun (running_spec known kept at_)

theorem ticker_spec (known : Coherent task) (kept : Kept task) : Coherent task.ticker ∧ Kept task.ticker := by
  have placed := known.placed
  rw [Placed] at placed
  rw [Task.ticker]
  cases at_ : task.point with
  | asleep deadline =>
    dsimp only
    split_ifs
    · exact move_calm known kept at_ nofun nofun trivial nofun
    · exact ⟨known, kept⟩
  | waiting deadline =>
    rw [at_] at placed
    obtain ⟨ticks, first, before⟩ := placed
    dsimp only
    split_ifs with off
    · exact move_calm known kept at_ nofun nofun ⟨ticks, first,
        Int.le_ediv_of_mul_le (by decide) (before.trans off)⟩ nofun
    · exact ⟨known, kept⟩
  | top | now | compare now | due | arm now | running rest | panicked => exact ⟨known, kept⟩

theorem wake_spec (known : Coherent task) (kept : Kept task) : Coherent task.wake ∧ Kept task.wake := by
  have woken (pending : task.pending = entries task.queue) :
      Coherent { task with update := false, point := .top } ∧ Kept { task with update := false, point := .top } :=
    ⟨⟨known.stored.congr rfl rfl rfl, trivial⟩, kept.move nofun rfl rfl pending.symm⟩
  rw [Task.wake]
  split
  · next at_ _ => exact woken (pending_eq at_ nofun)
  · next at_ _ => exact woken (pending_eq at_ nofun)
  · exact ⟨known, kept⟩

theorem elapse_spec (known : Coherent task) (kept : Kept task) (nanoseconds : ℕ) :
    Coherent (task.step (.elapse nanoseconds)) ∧ Kept (task.step (.elapse nanoseconds)) := by
  have later : task.unix ≤ (task.step (.elapse nanoseconds)).unix := unix_mono (by show _ ≤ _ + _; omega)
  refine ⟨⟨known.stored.congr rfl rfl rfl, ?_⟩, kept.goes, kept.once, kept.onTime⟩
  have placed := known.placed
  rw [Placed] at placed ⊢
  show match task.point with
    | .top | .asleep _ | .panicked => True
    | .now => task.queue ≠ []
    | .compare now | .arm now => task.queue ≠ [] ∧ now ≤ (task.step (.elapse nanoseconds)).unix
    | .due => ∃ ticks, task.first = some ticks ∧ ticks.tick ≤ (task.step (.elapse nanoseconds)).unix
    | .waiting deadline => ∃ ticks, task.first = some ticks ∧ ticks.tick * second ≤ deadline
    | .running rest => task.queue ≠ [] ∧ ∀ one ∈ rest, one.tick ≤ (task.step (.elapse nanoseconds)).unix
  cases at_ : task.point with
  | top | asleep deadline | panicked => exact trivial
  | now | waiting deadline =>
    rw [at_] at placed
    exact placed
  | compare now | arm now =>
    rw [at_] at placed
    exact ⟨placed.1, placed.2.trans later⟩
  | due =>
    rw [at_] at placed
    obtain ⟨ticks, first, due⟩ := placed
    exact ⟨ticks, first, due.trans later⟩
  | running rest =>
    rw [at_] at placed
    exact ⟨placed.1, fun one member => (placed.2 one member).trans later⟩

theorem step_coherent (event : Event) (fits : Fits task event) (known : Coherent task) (kept : Kept task) :
    Coherent (task.step event) := by
  cases event with
  | add tick class_ params => exact add_coherent known tick class_ params
  | loop => exact (loop_spec known kept fits).1
  | ticker => exact (ticker_spec known kept).1
  | wake => exact (wake_spec known kept).1
  | elapse nanoseconds => exact (elapse_spec known kept nanoseconds).1

theorem step_kept_iff (event : Event) (fits : Fits task event) (known : Coherent task) (kept : Kept task) :
    Kept (task.step event) ↔ Safe task event := by
  cases event with
  | add tick class_ params => exact add_kept_iff known kept tick class_ params
  | loop => exact (loop_spec known kept fits).2
  | ticker => exact iff_of_true (ticker_spec known kept).2 trivial
  | wake => exact iff_of_true (wake_spec known kept).2 trivial
  | elapse nanoseconds => exact iff_of_true (elapse_spec known kept nanoseconds).2 trivial

end Step

/-! ## The loop comes to every command -/

/-- How far a point is from the next deletion. -/
def Point.rank : Point → ℕ
  | .asleep _ => 8
  | .top => 7
  | .now => 6
  | .compare _ => 5
  | .arm _ => 4
  | .waiting _ => 3
  | .due => 2
  | .running _ => 1
  | .panicked => 0

/-- A bound on the turns until nothing is pending. -/
def Task.turnsLeft (task : Task) : ℕ :=
  task.pending.length + 10 * task.queue.length + (if task.update then 10 else 0) + task.point.rank

/-- The event is a turn of the loop. -/
def Task.moves (task : Task) : Event → Bool
  | .loop => match task.point with
    | .asleep _ | .waiting _ | .panicked => false
    | _ => true
  | .ticker => match task.point with
    | .asleep deadline | .waiting deadline => deadline ≤ task.clock
    | _ => false
  | .wake => match task.point, task.update with
    | .asleep _, true | .waiting _, true => true
    | _, _ => false
  | .add .. | .elapse _ => false

/-- The turns of the loop in a run. -/
def Task.turns (task : Task) : List Event → ℕ
  | [] => 0
  | event :: events => (if task.moves event then 1 else 0) + (task.step event).turns events

/-- The event adds no command. -/
def Event.Quiet : Event → Prop
  | .add .. => False
  | _ => True

section Turns

variable {task : Task}

/-- A turn that leads to another point, with the same queue and the same pending commands. -/
theorem nearer {old point : Point} (turn : Bool) (at_ : task.point = old) (rank : point.rank < old.rank)
    (same : ({ task with point } : Task).pending = task.pending) :
    ({ task with point } : Task).pending <:+ task.pending ∧ (({ task with point } : Task).pending = [] ∨
      ({ task with point } : Task).turnsLeft + (if turn then 1 else 0) ≤ task.turnsLeft) := by
  refine ⟨same ▸ List.suffix_refl _, .inr ?_⟩
  have one : (if turn then 1 else 0) ≤ 1 := by split <;> omega
  rw [Task.turnsLeft, Task.turnsLeft, same, at_]
  show _ + 10 * task.queue.length + (if task.update then 10 else 0) + point.rank + _ ≤ _
  omega

/-- Outside of a range the pending commands are the same anyway. -/
theorem nearer_calm {old point : Point} (turn : Bool) (at_ : task.point = old) (calm : ∀ rest, old ≠ .running rest)
    (calm' : ∀ rest, point ≠ .running rest) (rank : point.rank < old.rank) :
    ({ task with point } : Task).pending <:+ task.pending ∧ (({ task with point } : Task).pending = [] ∨
      ({ task with point } : Task).turnsLeft + (if turn then 1 else 0) ≤ task.turnsLeft) :=
  nearer turn at_ rank ((pending_eq rfl calm').trans (pending_eq at_ calm).symm)

/-- A command of the range is passed to the callback, or the first group is deleted. -/
theorem running_turn {rest : List Tick} (at_ : task.point = .running rest) :
    (task.loop).pending <:+ task.pending ∧ ((task.loop).pending = [] ∨
      (task.loop).turnsLeft + 1 ≤ task.turnsLeft) := by
  cases rest with
  | cons one rest =>
    have pending : task.pending = one :: (rest ++ entries task.queue.tail) := by rw [Task.pending, at_]; rfl
    rw [Task.loop, at_]
    refine ⟨pending ▸ List.suffix_cons _ _, .inr ?_⟩
    show (rest ++ entries task.queue.tail).length + 10 * task.queue.length +
      (if task.update then 10 else 0) + 1 + 1 ≤ _
    rw [Task.turnsLeft, pending, at_, List.length_cons]
    show _ ≤ _ + 1 + _ + _ + 1
    omega
  | nil =>
    have pending : task.pending = entries task.queue.tail := by rw [Task.pending, at_]; rfl
    rw [Task.loop, at_]
    dsimp only
    split
    · next first =>
      have empty : task.queue = [] := List.head?_eq_none_iff.mp (Task.first_eq ▸ first)
      have none : entries task.queue = [] := by rw [empty]; rfl
      refine ⟨?_, .inl none⟩
      show entries task.queue <:+ _
      rw [none]
      exact List.nil_suffix
    · next ticks first =>
      obtain ⟨more, split⟩ := queue_cons first
      have tail : task.task.tail.map task.ticksAt = more := by rw [List.map_tail]; exact congrArg List.tail split
      have same : task.pending = entries more := by rw [pending, split, List.tail_cons]
      refine ⟨?_, .inr ?_⟩
      · have whole : entries (task.task.tail.map task.ticksAt) = task.pending := by rw [tail, same]
        exact whole ▸ List.suffix_refl _
      · show (entries (task.task.tail.map task.ticksAt)).length + 10 * (task.task.tail.map task.ticksAt).length +
          (if task.update then 10 else 0) + 7 + 1 ≤ _
        rw [tail, Task.turnsLeft, same, split, List.length_cons]
        omega

theorem loop_turn : (task.loop).pending <:+ task.pending ∧ ((task.loop).pending = [] ∨
    (task.loop).turnsLeft + (if task.moves .loop then 1 else 0) ≤ task.turnsLeft) := by
  cases at_ : task.point with
  | asleep deadline | waiting deadline | panicked =>
    have rests : task.moves .loop = false := by rw [Task.moves, at_]
    rw [Task.loop, at_, rests]
    exact ⟨List.suffix_refl _, .inr (le_refl _)⟩
  | top =>
    generalize task.moves .loop = turn
    by_cases empty : task.task = []
    · have whole : task.pending = entries task.queue := pending_eq at_ nofun
      rw [Task.loop, at_]
      dsimp only
      rw [if_pos empty]
      exact ⟨whole ▸ List.suffix_refl _, .inl (by show entries task.queue = []; rw [Task.queue, empty]; rfl)⟩
    · rw [Task.loop, at_]
      dsimp only
      rw [if_neg empty]
      exact nearer_calm turn at_ nofun nofun (by simp [Point.rank])
  | now =>
    rw [Task.loop, at_]
    exact nearer_calm _ at_ nofun nofun (by simp [Point.rank])
  | compare now =>
    generalize task.moves .loop = turn
    rw [Task.loop, at_]
    dsimp only
    split
    · exact nearer_calm turn at_ nofun nofun (by simp [Point.rank])
    · split
      · exact nearer_calm turn at_ nofun nofun (by simp [Point.rank])
      · exact nearer_calm turn at_ nofun nofun (by simp [Point.rank])
  | due =>
    generalize task.moves .loop = turn
    rw [Task.loop, at_]
    dsimp only
    split
    · exact nearer_calm turn at_ nofun nofun (by simp [Point.rank])
    · next ticks first =>
      obtain ⟨more, split⟩ := queue_cons first
      have whole : task.pending = entries task.queue := pending_eq at_ nofun
      refine nearer turn at_ (by simp [Point.rank]) ?_
      rw [whole, split]
      show ticks.ticks ++ entries task.queue.tail = _
      rw [split]
      exact entries_cons.symm
  | arm now =>
    generalize task.moves .loop = turn
    rw [Task.loop, at_]
    dsimp only
    split
    · exact nearer_calm turn at_ nofun nofun (by simp [Point.rank])
    · split
      · exact nearer_calm turn at_ nofun nofun (by simp [Point.rank])
      · exact nearer_calm turn at_ nofun nofun (by simp [Point.rank])
  | running rest =>
    have moves : task.moves .loop = true := by rw [Task.moves, at_]
    rw [if_pos moves]
    exact running_turn at_

theorem step_turn (event : Event) (quiet : event.Quiet) : (task.step event).pending <:+ task.pending ∧
    ((task.step event).pending = [] ∨
      (task.step event).turnsLeft + (if task.moves event then 1 else 0) ≤ task.turnsLeft) := by
  have rests (moves : task.moves event = false)
    (same : task.step event = task) : (task.step event).pending <:+ task.pending ∧
      ((task.step event).pending = [] ∨
        (task.step event).turnsLeft + (if task.moves event then 1 else 0) ≤ task.turnsLeft) := by
    rw [moves, same]
    exact ⟨List.suffix_refl _, .inr (le_refl _)⟩
  cases event with
  | add tick class_ params => exact quiet.elim
  | elapse nanoseconds => exact ⟨List.suffix_refl _, .inr (le_refl _)⟩
  | loop => exact loop_turn
  | ticker =>
    cases at_ : task.point with
    | asleep deadline | waiting deadline =>
      by_cases off : deadline ≤ task.clock
      · generalize task.moves .ticker = turn
        rw [Task.step, Task.ticker, at_]
        dsimp only
        rw [if_pos off]
        exact nearer_calm turn at_ nofun nofun (by simp [Point.rank])
      · exact rests (by rw [Task.moves, at_]; exact decide_eq_false off)
          (by rw [Task.step, Task.ticker, at_]; exact if_neg off)
    | top | now | compare now | due | arm now | running rest | panicked =>
      exact rests (by rw [Task.moves, at_]) (by rw [Task.step, Task.ticker, at_])
  | wake =>
    cases at_ : task.point with
    | asleep deadline | waiting deadline =>
      have whole : task.pending = entries task.queue := pending_eq at_ nofun
      cases updated : task.update with
      | true =>
        have moves : task.moves .wake = true := by rw [Task.moves, at_, updated]
        rw [if_pos moves, Task.step, Task.wake, at_, updated]
        refine ⟨whole ▸ List.suffix_refl _, .inr ?_⟩
        show (entries task.queue).length + 10 * task.queue.length + 0 + 7 + 1 ≤ _
        rw [Task.turnsLeft, whole, if_pos updated]
        omega
      | false => exact rests (by rw [Task.moves, at_, updated]) (by rw [Task.step, Task.wake, at_, updated])
    | top | now | compare now | due | arm now | running rest | panicked =>
      exact rests (by rw [Task.moves, at_]) (by rw [Task.step, Task.wake, at_])

/-- After enough turns without a new command nothing is pending. -/
theorem pending_turns (events : List Event) (quiet : ∀ event ∈ events, event.Quiet)
    (enough : task.turnsLeft ≤ task.turns events) :
    (events.foldl Task.step task).pending = [] := by
  have stays : ∀ (events : List Event) (task : Task), (∀ event ∈ events, event.Quiet) → task.pending = [] →
      (events.foldl Task.step task).pending = [] := by
    intro events
    induction events with
    | nil => exact fun _ _ none => none
    | cons event events ih =>
      intro task quiet none
      obtain ⟨quietly, others⟩ := List.forall_mem_cons.mp quiet
      exact ih _ others (List.suffix_nil.mp (none ▸ (step_turn event quietly).1))
  induction events generalizing task with
  | nil =>
    rw [Task.turns, Task.turnsLeft] at enough
    show task.pending = []
    exact List.eq_nil_of_length_eq_zero (by omega)
  | cons event events ih =>
    obtain ⟨quietly, others⟩ := List.forall_mem_cons.mp quiet
    rcases (@step_turn task event quietly).2 with none | nearer
    · exact stays events _ others none
    · refine ih others ?_
      rw [Task.turns] at enough
      omega

/-- If it has not panicked, a turn comes with time. -/
theorem goes_on (goes : task.point ≠ .panicked) : ∃ nanoseconds : ℕ,
    (task.step (.elapse nanoseconds)).moves .loop ∨ (task.step (.elapse nanoseconds)).moves .ticker := by
  cases at_ : task.point with
  | panicked => exact absurd at_ goes
  | asleep deadline | waiting deadline =>
    refine ⟨(deadline - task.clock).toNat, .inr ?_⟩
    have late : deadline ≤ task.clock + ((deadline - task.clock).toNat : ℤ) := by omega
    rw [Task.moves, show (task.step (.elapse _)).point = task.point from rfl, at_]
    exact decide_eq_true late
  | top | now | compare now | due | arm now | running rest =>
    refine ⟨0, .inl ?_⟩
    rw [Task.moves, show (task.step (.elapse _)).point = task.point from rfl, at_]

end Turns

/-! ## Every run -/

/-- In every state of a run each command that was added has been passed to the callback once, not before its time, or
is still pending; the loop goes on, and after enough of its turns without a new command every command has been passed
to the callback. -/
structure RunsOnce (events : List Event) : Prop where
  kept : Replay.Always Task.step {} Kept events
  goesOn : Replay.Always Task.step {} (fun task => ∃ nanoseconds : ℕ,
    (task.step (.elapse nanoseconds)).moves .loop ∨ (task.step (.elapse nanoseconds)).moves .ticker) events
  allCalled : ∀ front back, events = front ++ back → (∀ event ∈ back, event.Quiet) →
    (run front).turnsLeft ≤ (run front).turns back → ((run events).called.map Prod.fst).Perm (run events).added

theorem start_kept : Kept {} := ⟨nofun, .refl _, nofun⟩

theorem start_coherent : Coherent {} :=
  ⟨⟨nofun, .nil, fun _ _ => ⟨nofun, fun named => nomatch named.1⟩, nofun⟩, trivial⟩

/-- In a run whose times to wait fit into the timer, every command runs exactly once if and only if each event is safe
where it happens. -/
theorem runs_once_iff (events : List Event) (fits : Replay.Each Task.step {} Fits events) :
    RunsOnce events ↔ Replay.Each Task.step {} Safe events := by
  have exact : Replay.Always Task.step {} Kept events ↔ Replay.Each Task.step {} Safe events :=
    (Replay.always_iff_each_of start_kept start_coherent (fun _ event => step_coherent event)
      (fun _ event => step_kept_iff event) events fits).1
  refine ⟨fun right => exact.mp right.kept, fun safe => ?_⟩
  have kept := exact.mpr safe
  refine ⟨kept, fun front back split => goes_on (kept front back split).goes, fun front back split quiet enough => ?_⟩
  have last := kept.last.once
  have none : (run events).pending = [] := by
    rw [split, run, List.foldl_append]
    exact pending_turns back quiet enough
  rwa [show events.foldl Task.step {} = run events from rfl, none, List.append_nil] at last

/-- Of the command that runs no other is added before its group is deleted: one of its time is. -/
def sameTime : List Event :=
  [.add 0 "first" "", .loop, .loop, .loop, .loop, .loop, .add 0 "second" "", .loop]

/-- One of an earlier time is. -/
def earlierTime : List Event :=
  [.add 0 "first" "", .loop, .loop, .loop, .loop, .loop, .add (-1) "second" "", .loop, .loop, .loop, .loop, .loop,
    .loop]

/-- In both cases the second command is deleted without having run, and in the other one the first runs again. -/
theorem meanwhile_dropped : ¬ RunsOnce sameTime ∧ ¬ RunsOnce earlierTime ∧
    (run sameTime).called.map (·.1.class_) = ["first"] ∧ (run sameTime).task = [] ∧
    (run earlierTime).called.map (·.1.class_) = ["first", "first"] ∧
    (run earlierTime).added.map (·.class_) = ["first", "second"] ∧ (run earlierTime).heap.length = 2 := by
  refine ⟨fun right => ?_, fun right => ?_, by decide, by decide, by decide, by decide, by decide⟩
  · exact absurd right.kept.last.once (by decide)
  · exact absurd right.kept.last.once (by decide)

/-- The ticker is set for a command of the next second, and the command runs. -/
theorem nextSecond_runs : RunsOnce [.add 1 "first" "", .loop, .loop, .loop, .loop, .elapse (10 ^ 9), .ticker, .loop,
    .loop] ↔
    Replay.Each Task.step {} Safe [.add 1 "first" "", .loop, .loop, .loop, .loop, .elapse (10 ^ 9), .ticker, .loop,
      .loop] := by
  refine runs_once_iff _ ?_
  simp only [Replay.each_cons]
  refine ⟨trivial, fun _ here => (by cases here), fun _ here => (by cases here), fun _ here => (by cases here),
    fun _ here ticks first => ?_, trivial, trivial, fun _ here => (by cases here), fun _ here => (by cases here),
      Replay.each_nil⟩
  cases here
  cases first
  decide

end PolarCloud.TimeTask
