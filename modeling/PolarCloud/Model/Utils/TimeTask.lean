import Mathlib.Data.List.Sort
import Mathlib.Algebra.Ring.Int.Defs
import Mathlib.Algebra.Ring.Nat

/-! # Scheduled commands

`Task` keeps the commands that wait for their time, grouped by time and sorted. One goroutine runs them, `start`; any
other, and the callback itself, may call `Add` in between. The groups are pointers: the sorted array and the map by time
hold the same ones. `Remove` is not modelled.
-/

namespace PolarCloud.TimeTask

/-- A command, the second at which it is to run, and its argument. -/
structure Tick where
  tick : ℤ
  class_ : String
  params : String
deriving DecidableEq

/-- The commands of one second. -/
structure Ticks where
  tick : ℤ
  ticks : List Tick
deriving DecidableEq

def newTicks (tick : Tick) : Ticks := { tick := tick.tick, ticks := [tick] }

/-- Where `start` is. -/
inductive Point
  /-- at the head of the loop -/
  | top
  /-- nothing is scheduled: in the select with a ticker of 24 hours -/
  | asleep (deadline : ℤ)
  /-- about to read the clock -/
  | now
  /-- about to compare the first time with what the clock said -/
  | compare (now : ℤ)
  /-- about to range over the commands of the first group -/
  | due
  /-- the first group is not due: about to make the ticker for it -/
  | arm (now : ℤ)
  /-- in the select with that ticker -/
  | waiting (deadline : ℤ)
  /-- in the range, over the slice as it was at its beginning; afterwards the first group is deleted -/
  | running (rest : List Tick)
  | panicked
deriving DecidableEq

/-- The scheduler, with the clock in nanoseconds, what was added so far, and what was passed to the callback and at
which second. -/
structure Task where
  heap : List Ticks := []
  task : List ℕ := []
  taskMap : ℤ → Option ℕ := fun _ => none
  update : Bool := false
  point : Point := .top
  clock : ℤ := 0
  added : List Tick := []
  called : List (Tick × ℤ) := []

/-- Nanoseconds in a second. -/
def second : ℤ := 10 ^ 9

/-- `time.Second * time.Duration(tick - now)` in 64 bits. -/
def duration (tick now : ℤ) : ℤ := (second * (tick - now).bmod (2 ^ 64)).bmod (2 ^ 64)

namespace Task

/-- `time.Now().Unix()` -/
def unix (task : Task) : ℤ := task.clock / second

/-- What a pointer refers to. -/
def ticksAt (task : Task) (p : ℕ) : Ticks := task.heap.getD p { tick := 0, ticks := [] }

/-- `task[0]`, where the array is not empty. -/
def first (task : Task) : Option Ticks := task.task.head?.map task.ticksAt

/-- `sort.Sort` with `Less` -/
def sort (task : Task) : Task :=
  { task with task := task.task.insertionSort fun p q => (task.ticksAt p).tick ≤ (task.ticksAt q).tick }

/-- A command joins the group of its second. -/
def store (task : Task) (newTick : Tick) : Task :=
  match task.taskMap newTick.tick with
  | some p => { task with heap := task.heap.modify p fun ticks => { ticks with ticks := ticks.ticks ++ [newTick] } }
  | none =>
      { task with
        heap := task.heap ++ [newTicks newTick]
        task := task.task ++ [task.heap.length]
        taskMap := Function.update task.taskMap newTick.tick (some task.heap.length) }

def add (task : Task) (tick : ℤ) (class_ params : String) : Task :=
  let newTick : Tick := { tick, class_, params }
  { (task.store newTick).sort with update := true, added := task.added ++ [newTick] }

/-- The next step of the loop outside the two selects. -/
def loop (task : Task) : Task :=
  match task.point with
  | .top => { task with point := if task.task = [] then .asleep (task.clock + 24 * 3600 * second) else .now }
  | .now => { task with point := .compare task.unix }
  | .compare now =>
      match task.first with
      | none => { task with point := .panicked }
      | some ticks => { task with point := if ticks.tick ≤ now then .due else .arm now }
  | .due =>
      match task.first with
      | none => { task with point := .panicked }
      | some ticks => { task with point := .running ticks.ticks }
  | .arm now =>
      match task.first with
      | none => { task with point := .panicked }
      | some ticks =>
          -- `NewTicker` panics when it is given no time
          if duration ticks.tick now ≤ 0 then { task with point := .panicked }
          else { task with point := .waiting (task.clock + duration ticks.tick now) }
  | .running (one :: rest) => { task with called := task.called ++ [(one, task.unix)], point := .running rest }
  | .running [] =>
      match task.first with
      | none => { task with point := .panicked }
      | some ticks =>
          { task with taskMap := Function.update task.taskMap ticks.tick none, task := task.task.tail, point := .top }
  | .asleep _ | .waiting _ | .panicked => task

/-- The ticker of a select goes off. -/
def ticker (task : Task) : Task :=
  match task.point with
  | .asleep deadline => if deadline ≤ task.clock then { task with point := .top } else task
  | .waiting deadline => if deadline ≤ task.clock then { task with point := .due } else task
  | _ => task

/-- A select receives from `update`. -/
def wake (task : Task) : Task :=
  match task.point, task.update with
  | .asleep _, true | .waiting _, true => { task with update := false, point := .top }
  | _, _ => task

end Task

/-- What can happen to a scheduler. -/
inductive Event
  | add (tick : ℤ) (class_ params : String)
  | loop
  | ticker
  | wake
  | elapse (nanoseconds : ℕ)
deriving DecidableEq

def Task.step (task : Task) : Event → Task
  | .add tick class_ params => task.add tick class_ params
  | .loop => task.loop
  | .ticker => task.ticker
  | .wake => task.wake
  | .elapse nanoseconds => { task with clock := task.clock + nanoseconds }

/-- The scheduler after a run. -/
def run (events : List Event) : Task := events.foldl Task.step {}

end PolarCloud.TimeTask
