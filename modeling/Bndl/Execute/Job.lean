import Mathlib.Data.List.Nodup
import Mathlib.Logic.Function.Basic
/-!
# The two execution modes of a stage

`Stage._execute_onebyone` runs the tasks one after the other, each on the first
worker its hints name.  `Stage._execute_eagerly` runs them in parallel: a
semaphore with one permit per worker bounds the tasks in flight, the set
`occupied` keeps one task per worker, and the results are yielded in task
order.  Its loop runs on one thread; each task's future completes on another,
where the `task_done` callback then runs in two steps,
`workers_available.release()` and `occupied.remove(worker)`.

A task is its index in `self.tasks`.  What `task.execute(worker)`'s future ends
with, a result or an exception, is a function of the worker: since the eager
loop starts each task at most once, this covers every outcome of a run.  The
state of the loop is `Eager`; a step is one of the loop (`Label.main`) or one of
a future and its callback.  `executed` counts the calls of `Task.execute`,
which the code does not keep.
-/

namespace Bndl.Execute.Job

/-- A task: its worker hints, where `None` and an empty list are both `[]`, and
what the future of `task.execute(worker)` ends with. -/
structure Task where
  preferredWorkers : List Nat
  allowedWorkers : List Nat
  execute : Nat → Except Nat Nat

instance : Inhabited Task := ⟨⟨[], [], fun _ => .ok 0⟩⟩

/-- A stage's tasks and the workers it is executed on, at least one. -/
structure Stage where
  workers : List Nat
  workers_ne : workers ≠ []
  tasks : List Task

/-- `self.tasks[i]`. -/
def Stage.task (sp : Stage) (i : Nat) : Task := sp.tasks.getD i default

namespace Task

/-- `chain.from_iterable((task.preferred_workers or (), task.allowed_workers or workers))`. -/
def candidates (t : Task) (workers : List Nat) : List Nat :=
  t.preferredWorkers ++ if t.allowedWorkers = [] then workers else t.allowedWorkers

/-- The worker `_execute_onebyone` runs a task on. -/
def onebyoneWorker (t : Task) (workers : List Nat) (hw : workers ≠ []) : Nat :=
  match t.preferredWorkers, t.allowedWorkers with
  | w :: _, _ => w
  | [], w :: _ => w
  | [], [] => workers.head hw

end Task

/-- `Stage._execute_onebyone`: the results it yields, and the exception it ends
with, if any. -/
def executeOnebyone (workers : List Nat) (hw : workers ≠ []) :
    List Task → List Nat × Option Nat
  | [] => ([], none)
  | t :: ts =>
    match t.execute (t.onebyoneWorker workers hw) with
    | .ok v => let r := executeOnebyone workers hw ts; (v :: r.1, r.2)
    | .error e => ([], some e)

/-- A task's `future` together with its `task_done` callback. -/
inductive Future where
  /-- `task.future is None`. -/
  | unstarted
  | running (worker : Nat)
  /-- `done()`, and `task_done` has not run. -/
  | done (worker : Nat)
  /-- `task_done` has released its permit. -/
  | released (worker : Nat)
  /-- `task_done` has removed the worker from `occupied`. -/
  | removed (worker : Nat)
  deriving DecidableEq, Repr

/-- The worker a started task runs on. -/
def Future.worker? : Future → Option Nat
  | .unstarted => none
  | .running w | .done w | .released w | .removed w => some w

/-- The worker of a task whose future is `done()`. -/
def Future.finished? : Future → Option Nat
  | .done w | .released w | .removed w => some w
  | _ => none

theorem Future.worker?_eq_none {f : Future} : f.worker? = none ↔ f = .unstarted := by
  cases f <;> simp [Future.worker?]

theorem Future.worker?_of_finished? {f : Future} {w : Nat} (h : f.finished? = some w) :
    f.worker? = some w := by
  cases f <;> simp_all [Future.finished?, Future.worker?]

/-- Where the loop of `_execute_eagerly` is. -/
inductive Pc where
  /-- `workers_available.acquire()`. -/
  | acquire
  /-- The `for worker in ...` loop placing `task`, with the candidates left. -/
  | scan (task : Nat) (candidates : List Nat)
  /-- `if to_yield[-1].future:`. -/
  | yieldCheck
  /-- `to_yield.pop().result()` with nothing left to schedule: `result()`
  waits for the future. -/
  | waitResult
  | ended
  | raised (e : Nat)
  deriving DecidableEq, Repr

/-- The locals of `_execute_eagerly` and the tasks' futures. -/
structure Eager where
  pc : Pc
  /-- The counter of `workers_available`. -/
  permits : Nat
  occupied : List Nat
  toSchedule : List Nat
  toYield : List Nat
  futures : Nat → Future
  executed : Nat → Nat
  /-- The results yielded so far. -/
  out : List Nat

namespace Eager

variable (s : Eager)

/-- `while to_yield:` and `if to_schedule:`, at the head of the loop. -/
def loopHead : Eager :=
  { s with
    pc := if s.toYield = [] then .ended else if s.toSchedule = [] then .yieldCheck else .acquire }

section LoopHead

variable {s}

@[simp] theorem loopHead_permits : s.loopHead.permits = s.permits := rfl
@[simp] theorem loopHead_occupied : s.loopHead.occupied = s.occupied := rfl
@[simp] theorem loopHead_toSchedule : s.loopHead.toSchedule = s.toSchedule := rfl
@[simp] theorem loopHead_toYield : s.loopHead.toYield = s.toYield := rfl
@[simp] theorem loopHead_futures : s.loopHead.futures = s.futures := rfl
@[simp] theorem loopHead_executed : s.loopHead.executed = s.executed := rfl
@[simp] theorem loopHead_out : s.loopHead.out = s.out := rfl

theorem loopHead_pc_eq_ended : s.loopHead.pc = .ended ↔ s.toYield = [] := by
  unfold loopHead; split_ifs <;> simp [*]

theorem loopHead_pc_ne_raised (e : Nat) : s.loopHead.pc ≠ .raised e := by
  unfold loopHead; split_ifs <;> simp

theorem loopHead_pc_ne_scan (t : Nat) (ws : List Nat) : s.loopHead.pc ≠ .scan t ws := by
  unfold loopHead; split_ifs <;> simp

end LoopHead

/-- `start_task(worker, task)`: `occupied.add(worker)`, `task.execute(worker)`. -/
def startTask (t w : Nat) : Eager :=
  { s with
    occupied := w :: s.occupied
    futures := Function.update s.futures t (.running w)
    executed := Function.update s.executed t (s.executed t + 1)
    pc := .yieldCheck }

/-- `yield to_yield.pop().result()` once the future of task `h`, run on `w`, is
done: the result is yielded, or its exception ends the loop. -/
def yieldResult (sp : Stage) (h w : Nat) : Eager :=
  match (sp.task h).execute w with
  | .ok v => loopHead { s with toYield := s.toYield.dropLast, out := s.out ++ [v] }
  | .error e => { s with toYield := s.toYield.dropLast, pc := .raised e }

/-- What the future of task `i` ends with, once the task has a worker. -/
def outcome (sp : Stage) (i : Nat) : Option (Except Nat Nat) :=
  (s.futures i).worker?.map (sp.task i).execute

/-- One step of the loop. -/
def main (sp : Stage) : Option Eager :=
  match s.pc with
  | .acquire =>
    if s.permits = 0 then none
    else match s.toSchedule.getLast? with
      | some t => some { s with
          permits := s.permits - 1
          toSchedule := s.toSchedule.dropLast
          pc := .scan t ((sp.task t).candidates sp.workers) }
      | none => none
  | .scan t [] => some { s with toSchedule := t :: s.toSchedule, pc := .yieldCheck }
  | .scan t (w :: ws) =>
    if w ∈ s.occupied then some { s with pc := .scan t ws } else some (s.startTask t w)
  | .yieldCheck =>
    match s.toYield.getLast? with
    | some h =>
      match s.futures h with
      | .unstarted => some s.loopHead
      | f =>
        if s.toSchedule = [] then some { s with pc := .waitResult }
        else match f.finished? with
          | some w => some (s.yieldResult sp h w)
          | none => some s.loopHead
    | none => none
  | .waitResult =>
    match s.toYield.getLast? with
    | some h => (s.futures h).finished?.map (s.yieldResult sp h)
    | none => none
  | .ended | .raised _ => none

/-- The future of task `t` completes. -/
def complete (t : Nat) : Option Eager :=
  match s.futures t with
  | .running w => some { s with futures := Function.update s.futures t (.done w) }
  | _ => none

/-- `workers_available.release()` in `task_done`. -/
def release (t : Nat) : Option Eager :=
  match s.futures t with
  | .done w => some { s with
      futures := Function.update s.futures t (.released w)
      permits := s.permits + 1 }
  | _ => none

/-- `occupied.remove(worker)` in `task_done`, a missing worker tolerated. -/
def remove (t : Nat) : Option Eager :=
  match s.futures t with
  | .released w => some { s with
      futures := Function.update s.futures t (.removed w)
      occupied := s.occupied.erase w }
  | _ => none

end Eager

/-- The transitions of the loop, each with its guard. -/
inductive MainStep (sp : Stage) (s : Eager) : Eager → Prop
  /-- `acquire()` succeeds and `to_schedule.pop()` takes task `t`. -/
  | acquire {t : Nat} : s.pc = .acquire → s.permits ≠ 0 → s.toSchedule.getLast? = some t →
      MainStep sp s { s with
        permits := s.permits - 1
        toSchedule := s.toSchedule.dropLast
        pc := .scan t ((sp.task t).candidates sp.workers) }
  | skip {t w : Nat} {ws : List Nat} : s.pc = .scan t (w :: ws) → w ∈ s.occupied →
      MainStep sp s { s with pc := .scan t ws }
  | start {t w : Nat} {ws : List Nat} : s.pc = .scan t (w :: ws) → w ∉ s.occupied →
      MainStep sp s (s.startTask t w)
  | pushBack {t : Nat} : s.pc = .scan t [] →
      MainStep sp s { s with toSchedule := t :: s.toSchedule, pc := .yieldCheck }
  /-- The head of `to_yield` is unstarted, or not done while tasks are left to
  schedule: back to the head of the loop. -/
  | next {j : Nat} : s.pc = .yieldCheck → s.toYield.getLast? = some j →
      s.futures j = .unstarted ∨ s.toSchedule ≠ [] ∧ (s.futures j).finished? = none →
      MainStep sp s s.loopHead
  | wait {j : Nat} : s.pc = .yieldCheck → s.toYield.getLast? = some j →
      s.futures j ≠ .unstarted → s.toSchedule = [] → MainStep sp s { s with pc := .waitResult }
  | yield {j w : Nat} : s.pc = .yieldCheck ∧ s.toSchedule ≠ [] ∨ s.pc = .waitResult →
      s.toYield.getLast? = some j → (s.futures j).finished? = some w →
      MainStep sp s (s.yieldResult sp j w)

/-- What one step of the loop can do. -/
theorem main_cases {sp : Stage} {s s' : Eager} (h : s.main sp = some s') : MainStep sp s s' := by
  unfold Eager.main at h
  split at h
  · split_ifs at h with h0
    split at h <;> cases h
    exact .acquire ‹_› h0 ‹_›
  · cases h; exact .pushBack ‹_›
  · split_ifs at h <;> cases h
    exacts [.skip ‹_› ‹_›, .start ‹_› ‹_›]
  · split at h
    · split at h
      · cases h; exact .next ‹_› ‹_› (.inl ‹_›)
      · split_ifs at h
        · cases h; exact .wait ‹_› ‹_› ‹_› ‹_›
        · split at h <;> cases h
          · exact .yield (.inl ⟨‹_›, ‹_›⟩) ‹_› ‹_›
          · exact .next ‹_› ‹_› (.inr ⟨‹_›, ‹_›⟩)
    · cases h
  · split at h
    · obtain ⟨w, hw, rfl⟩ := Option.map_eq_some'.1 h
      exact .yield (.inr ‹_›) ‹_› hw
    · cases h
  all_goals cases h

/-- Every transition is a step of the loop. -/
theorem MainStep.main_eq {sp : Stage} {s s' : Eager} (h : MainStep sp s s') :
    s.main sp = some s' := by
  cases h with
  | acquire hp h0 ht => simp [Eager.main, hp, h0, ht]
  | skip hp hw | start hp hw => simp [Eager.main, hp, hw]
  | pushBack hp => simp [Eager.main, hp]
  | @next j hp hj hg =>
    rcases hg with hu | ⟨hsch, hf⟩
    · simp [Eager.main, hp, hj, hu]
    · cases hu : s.futures j <;> simp_all [Eager.main, Future.finished?]
  | @wait j hp hj hu hsch => cases hf : s.futures j <;> simp_all [Eager.main]
  | @yield j w hpc hj hw =>
    rcases hpc with ⟨hp, hsch⟩ | hp
    · cases hf : s.futures j <;> simp_all [Eager.main, Future.finished?]
    · simp [Eager.main, hp, hj, hw]

theorem main_eq_some_iff {sp : Stage} {s s' : Eager} : s.main sp = some s' ↔ MainStep sp s s' :=
  ⟨main_cases, MainStep.main_eq⟩

namespace Eager

variable {s s' : Eager} {t : Nat}

theorem complete_eq_some (h : s.complete t = some s') :
    ∃ w, s.futures t = .running w ∧
      s' = { s with futures := Function.update s.futures t (.done w) } := by
  unfold complete at h; split at h <;> cases h; exact ⟨_, ‹_›, rfl⟩

theorem release_eq_some (h : s.release t = some s') :
    ∃ w, s.futures t = .done w ∧ s' = { s with
      futures := Function.update s.futures t (.released w), permits := s.permits + 1 } := by
  unfold release at h; split at h <;> cases h; exact ⟨_, ‹_›, rfl⟩

theorem remove_eq_some (h : s.remove t = some s') :
    ∃ w, s.futures t = .released w ∧ s' = { s with
      futures := Function.update s.futures t (.removed w), occupied := s.occupied.erase w } := by
  unfold remove at h; split at h <;> cases h; exact ⟨_, ‹_›, rfl⟩

end Eager

/-- A started future that moves on stays started, and the others do not move. -/
theorem update_eq_unstarted {f : Nat → Future} {t : Nat} {v : Future}
    (hf : f t ≠ .unstarted) (hv : v ≠ .unstarted) (i : Nat) :
    Function.update f t v i = .unstarted ↔ f i = .unstarted := by
  by_cases hi : i = t
  · subst hi; simp [hf, hv]
  · simp [Function.update_noteq hi]

/-- The future of a started task that still holds its permit. -/
def Future.holdsPermit : Future → Bool
  | .running _ | .done _ => true
  | _ => false

/-- The loop waits in `acquire()` with no permit left and no task that will
release one. -/
def Blocked (s : Eager) : Prop :=
  s.pc = .acquire ∧ s.permits = 0 ∧ ∀ t, Future.holdsPermit (s.futures t) = false

/-- The steps of a run. -/
inductive Label where
  | main
  | complete (t : Nat)
  | release (t : Nat)
  | remove (t : Nat)
  deriving DecidableEq, Repr

/-- One step. -/
def step (sp : Stage) (s : Eager) : Label → Option Eager
  | .main => s.main sp
  | .complete t => s.complete t
  | .release t => s.release t
  | .remove t => s.remove t

/-- The states reachable from `s₀`. -/
inductive Reachable (sp : Stage) (s₀ : Eager) : Eager → Prop
  | refl : Reachable sp s₀ s₀
  | tail {s s' : Eager} {l : Label} : Reachable sp s₀ s → step sp s l = some s' →
      Reachable sp s₀ s'

/-- Running a list of labels. -/
def run (sp : Stage) (s : Eager) : List Label → Option Eager
  | [] => some s
  | l :: ls => (step sp s l).bind fun s' => run sp s' ls

theorem reachable_of_run {sp : Stage} {s₀ : Eager} :
    ∀ {ls : List Label} {s s' : Eager}, Reachable sp s₀ s → run sp s ls = some s' →
      Reachable sp s₀ s'
  | [], _, _, hs, h => by cases h; exact hs
  | l :: ls, s, s', hs, h => by
    simp only [run, Option.bind_eq_some] at h
    obtain ⟨s₁, h₁, h₂⟩ := h
    exact reachable_of_run (.tail hs h₁) h₂

/-- `_execute_eagerly` as it enters its loop: `to_schedule` and `to_yield` are
`self.tasks[::-1]`, with one permit per worker. -/
def start (sp : Stage) : Eager :=
  Eager.loopHead
    { pc := .acquire
      permits := sp.workers.length
      occupied := []
      toSchedule := (List.range sp.tasks.length).reverse
      toYield := (List.range sp.tasks.length).reverse
      futures := fun _ => .unstarted
      executed := fun _ => 0
      out := [] }

/-- One worker and two tasks without hints, which succeed with `0` and `1`. -/
def oneWorker : Stage :=
  ⟨[0], by decide, [⟨[], [], fun _ => .ok 0⟩, ⟨[], [], fun _ => .ok 1⟩]⟩

end Bndl.Execute.Job
