import Bndl.Execute.Job
/-!
# The eager loop can block for good

`task_done` releases its permit before it removes its worker from `occupied`.
Between the two steps the loop can take the permit, find every candidate
worker still occupied, and push the task back to `to_schedule` without giving
the permit back.  Once no future is left to release one, the next
`workers_available.acquire()` blocks forever.

`Blocked` is that state, and `blocked_forever` says that no run leaves it.
`execute_eagerly_deadlocks` reaches it with one worker and two tasks.
-/

namespace Bndl.Execute.Deadlock

open Bndl.Execute.Job

section Steps

variable {sp : Stage} {s : Eager}

/-- A step from a blocked state is a `remove`, which changes only `occupied`
and the callback's progress. -/
theorem Blocked.step (hb : Blocked s) {l : Label} {s' : Eager} (h : Job.step sp s l = some s') :
    Blocked s' ∧ s'.toSchedule = s.toSchedule ∧ s'.toYield = s.toYield ∧ s'.out = s.out := by
  obtain ⟨hpc, hper, hhold⟩ := hb
  cases l with
  | main => simp [Job.step, Eager.main, hpc, hper] at h
  | complete t | release t =>
    have := hhold t
    simp only [Job.step, Eager.complete, Eager.release] at h
    split at h <;> simp_all [Future.holdsPermit]
  | remove t =>
    simp only [Job.step, Eager.remove] at h
    split at h
    · cases h
      refine ⟨⟨hpc, hper, fun t' => ?_⟩, rfl, rfl, rfl⟩
      by_cases ht : t' = t
      · subst ht; simp [Future.holdsPermit]
      · simpa [Function.update_noteq ht] using hhold t'
    · cases h

/-- No run leaves a blocked state: the loop stays in `acquire()` with the same
tasks to schedule and to yield. -/
theorem blocked_forever (hb : Blocked s) {s' : Eager} (h : Reachable sp s s') :
    Blocked s' ∧ s'.toSchedule = s.toSchedule ∧ s'.toYield = s.toYield ∧ s'.out = s.out := by
  induction h with
  | refl => exact ⟨hb, rfl, rfl, rfl⟩
  | tail _ hstep ih =>
    obtain ⟨h₁, h₂, h₃, h₄⟩ := Blocked.step ih.1 hstep
    exact ⟨h₁, h₂.trans ih.2.1, h₃.trans ih.2.2.1, h₄.trans ih.2.2.2⟩

end Steps

/-- Task `0` starts on worker `0` and completes; its `task_done` releases the
permit; the loop takes it, finds worker `0` occupied, pushes task `1` back and
yields task `0`'s result; `task_done` then removes worker `0`. -/
def deadlockRun : List Label :=
  [.main, .main, .main, .complete 0, .release 0, .main, .main, .main, .main, .remove 0]

def deadlocked : Eager := (run oneWorker (start oneWorker) deadlockRun).getD (start oneWorker)

/-- The run ends in `acquire()` with no permit, task `1` still to schedule and
no future left to release a permit, and no run from there ever leaves
`acquire()`. -/
theorem execute_eagerly_deadlocks :
    run oneWorker (start oneWorker) deadlockRun = some deadlocked ∧ Blocked deadlocked ∧
      deadlocked.toSchedule = [1] ∧ deadlocked.out = [0] ∧
      ∀ s, Reachable oneWorker deadlocked s → s.pc = .acquire ∧ s.permits = 0 ∧
        s.toSchedule = [1] ∧ s.out = [0] := by
  have hb : Blocked deadlocked := ⟨rfl, rfl, fun t => by rcases t with _ | _ | t <;> rfl⟩
  refine ⟨rfl, hb, rfl, rfl, fun s hs => ?_⟩
  obtain ⟨⟨hpc, hper, -⟩, hsch, -, hout⟩ := blocked_forever hb hs
  exact ⟨hpc, hper, hsch, hout⟩

end Bndl.Execute.Deadlock
