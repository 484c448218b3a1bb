/-!
# Pool: tasks of which only so many run at a time

Tasks start in their order, and a task starts when fewer than the limit run. Which of the running
tasks ends next is up to the `pick`: `completions` lists the tasks in the order in which they end.
-/

namespace TourMap

/-- Tasks of which some run. -/
structure Pool (α : Type) where
  /-- The tasks that did not start, the next one first. -/
  waiting : List α
  /-- The tasks that run, the one that started last at the end. -/
  running : List α
  /-- The tasks that ended, the last one first. -/
  ended : List α

namespace Pool

variable {α : Type}

def new (tasks : List α) : Pool α := ⟨tasks, [], []⟩

/-- Starts tasks as long as fewer than `limit` run. -/
def fill (limit : Nat) (p : Pool α) : Pool α :=
  let free := limit - p.running.length
  { p with waiting := p.waiting.drop free, running := p.running ++ p.waiting.take free }

/-- Ends the running task with the given number; a number too great counts from the start again. -/
def endOne (number : Nat) (p : Pool α) : Pool α :=
  let i := number % p.running.length
  match p.running[i]? with
  | some task => { p with running := p.running.eraseIdx i, ended := task :: p.ended }
  | none => p

/-- Runs until so many more tasks have ended. -/
def run (limit : Nat) (pick : Nat → Nat) : (count : Nat) → Pool α → Pool α
  | 0, p => p
  | n + 1, p => run limit pick n ((p.fill limit).endOne (pick n))

end Pool

/-- The tasks in the order in which they end. Of a pool for no task at all one task runs anyway. -/
def completions {α : Type} (limit : Nat) (pick : Nat → Nat) (tasks : List α) : List α :=
  ((Pool.new tasks).run (max limit 1) pick tasks.length).ended.reverse

end TourMap
