import Bndl.Execute.Progress
/-!
# No worker runs two tasks, and no more tasks run than there are workers

`_execute_eagerly` starts a task only on a worker outside `occupied` and adds
the worker there; the task's `task_done` callback removes it once the future is
done.  Each task takes a permit of `workers_available`, which starts with
`len(workers)`, before it is placed, and gives it back in `task_done`.

`execute_eagerly_bounded`: along every run, whatever the worker hints and the
order of the callbacks, no worker has two tasks running, and of any set of tasks
at most `len(workers)` are running.  The invariant `OccupancyInv` says that the
worker of each task whose callback has not removed it is in `occupied` and is
that task's alone, and that the free permits, the tasks holding one and the task
being placed are at most `len(workers)`: a task pushed back to `to_schedule`
keeps the permit it took, so the sum can fall below it.
-/

namespace Bndl.Execute.Occupancy

open Bndl.Execute.Job Bndl.Execute.Progress

/-- The task's future is running on its worker. -/
def running : Future → Bool
  | .running _ => true
  | _ => false

/-- The worker a started task keeps in `occupied`, from `start_task` until its
`task_done` removes it. -/
def occupyingWorker : Future → Option Nat
  | .running w | .done w | .released w => some w
  | _ => none

/-- `1` for a task that holds a permit. -/
def held (f : Future) : Nat := if f.holdsPermit then 1 else 0

/-- `1` while the loop places a task with the permit it took. -/
def placing : Pc → Nat
  | .scan _ _ => 1
  | _ => 0

/-- The invariant of the eager loop's workers and permits. -/
structure OccupancyInv (sp : Stage) (s : Eager) : Prop where
  occupied : ∀ t w, occupyingWorker (s.futures t) = some w → w ∈ s.occupied
  unique : ∀ t t' w, occupyingWorker (s.futures t) = some w →
    occupyingWorker (s.futures t') = some w → t = t'
  permits : s.permits + (∑ t in Finset.range sp.tasks.length, held (s.futures t)) +
    placing s.pc ≤ sp.workers.length

section Steps

variable {sp : Stage} {s : Eager}

/-- A step of the loop that leaves the futures and `occupied` alone and takes no
permit it does not place a task with. -/
theorem OccupancyInv.loop (hs : OccupancyInv sp s) {s' : Eager} (hf : s'.futures = s.futures)
    (ho : s'.occupied = s.occupied) (hp : s'.permits + placing s'.pc ≤ s.permits + placing s.pc) :
    OccupancyInv sp s' :=
  ⟨hf ▸ ho ▸ hs.occupied, hf ▸ hs.unique, by have := hs.permits; rw [hf]; omega⟩

theorem placing_loopHead (s : Eager) : placing s.loopHead.pc = 0 := by
  unfold Eager.loopHead; split_ifs <;> rfl

theorem OccupancyInv.startTask (hl : LiveInv sp s) (hs : OccupancyInv sp s) {t w : Nat}
    {ws : List Nat} (hp : s.pc = .scan t (w :: ws)) (hw : w ∉ s.occupied) :
    OccupancyInv sp (s.startTask t w) := by
  have hnew : ∀ t' w', occupyingWorker ((s.startTask t w).futures t') = some w' →
      t' = t ∧ w' = w ∨ t' ≠ t ∧ occupyingWorker (s.futures t') = some w' := fun t' w' h => by
    by_cases ht : t' = t
    · subst ht; simp [Eager.startTask, occupyingWorker] at h; exact .inl ⟨rfl, h.symm⟩
    · simpa [Eager.startTask, Function.update_noteq ht, ht] using h
  have hsum := sum_update held s.futures (hl.scan_lt t _ hp) (.running w)
  refine ⟨fun t' w' h => ?_, fun t₁ t₂ w' h₁ h₂ => ?_, ?_⟩
  · rcases hnew t' w' h with ⟨-, rfl⟩ | ⟨-, h⟩
    · exact List.mem_cons_self _ _
    · exact List.mem_cons_of_mem _ (hs.occupied t' w' h)
  · rcases hnew t₁ w' h₁ with ⟨e₁, ew⟩ | ⟨-, h₁⟩ <;>
      rcases hnew t₂ w' h₂ with ⟨e₂, ew⟩ | ⟨-, h₂⟩
    · exact e₁.trans e₂.symm
    · exact absurd (hs.occupied _ _ h₂) (ew ▸ hw)
    · exact absurd (hs.occupied _ _ h₁) (ew ▸ hw)
    · exact hs.unique _ _ _ h₁ h₂
  · have hperm := hs.permits
    have hle : held (s.futures t) ≤ 1 := by unfold held; split_ifs <;> omega
    have hrun : held (.running w) = 1 := rfl
    simp only [Eager.startTask, placing, hp] at hperm ⊢
    omega

/-- A future or its callback moves task `t` on, keeping its worker or freeing it. -/
theorem OccupancyInv.update (hl : LiveInv sp s) (hs : OccupancyInv sp s) {t : Nat} {v : Future}
    {m : Nat} {o : List Nat} (hne : s.futures t ≠ .unstarted)
    (hv : ∀ w, occupyingWorker v = some w → occupyingWorker (s.futures t) = some w)
    (hperm : m + held v ≤ s.permits + held (s.futures t))
    (hocc : ∀ t' w, occupyingWorker (Function.update s.futures t v t') = some w → w ∈ o) :
    OccupancyInv sp
      { s with futures := Function.update s.futures t v, permits := m, occupied := o } := by
  have hold : ∀ t' w, occupyingWorker (Function.update s.futures t v t') = some w →
      occupyingWorker (s.futures t') = some w := fun t' w h => by
    by_cases ht : t' = t
    · subst ht; exact hv w (by simpa using h)
    · simpa [Function.update_noteq ht] using h
  have ht : t < sp.tasks.length := by by_contra h; exact hne (hl.beyond t (by omega))
  have hsum := sum_update held s.futures ht v
  have := hs.permits
  exact ⟨hocc, fun t₁ t₂ w h₁ h₂ => hs.unique t₁ t₂ w (hold _ _ h₁) (hold _ _ h₂), by
    simp only at this ⊢; omega⟩

/-- A callback that keeps the task's worker: `set_result`, or the release of the
permit in `task_done`. -/
theorem OccupancyInv.keepWorker (hl : LiveInv sp s) (hs : OccupancyInv sp s) {t w m : Nat}
    {v : Future} (ho : occupyingWorker (s.futures t) = some w) (hv : occupyingWorker v = some w)
    (hperm : m + held v ≤ s.permits + held (s.futures t)) :
    OccupancyInv sp { s with futures := Function.update s.futures t v, permits := m } := by
  refine hs.update hl (fun h => by simp [h, occupyingWorker] at ho)
    (fun w' h => ho.trans (hv.symm.trans h)) hperm fun t' w' h => ?_
  by_cases ht : t' = t
  · subst ht; rw [Function.update_same, hv] at h; cases h; exact hs.occupied _ _ ho
  · rw [Function.update_noteq ht] at h; exact hs.occupied _ _ h

theorem OccupancyInv.main (hl : LiveInv sp s) (hs : OccupancyInv sp s) {s' : Eager}
    (h : MainStep sp s s') : OccupancyInv sp s' := by
  cases h with
  | acquire hp h0 => exact hs.loop rfl rfl (by simp [placing, hp]; omega)
  | skip hp => exact hs.loop rfl rfl (by simp [placing, hp])
  | start hp hw => exact hs.startTask hl hp hw
  | pushBack hp => exact hs.loop rfl rfl (by simp [placing, hp])
  | next hp => exact hs.loop rfl rfl (by rw [placing_loopHead, hp]; simp [placing])
  | wait hp => exact hs.loop rfl rfl (by simp [placing, hp])
  | yield hpc =>
    have h0 : placing s.pc = 0 := by rcases hpc with ⟨h, -⟩ | h <;> simp [h, placing]
    unfold Eager.yieldResult
    split
    · exact hs.loop rfl rfl (by simp [placing_loopHead, h0])
    · exact hs.loop rfl rfl (by simp [placing, h0])

/-- Every step keeps the invariant. -/
theorem OccupancyInv.step (hl : LiveInv sp s) (hs : OccupancyInv sp s) {l : Label} {s' : Eager}
    (h : Job.step sp s l = some s') : OccupancyInv sp s' := by
  cases l with
  | main => exact hs.main hl (main_cases h)
  | complete t =>
    obtain ⟨w, hw, rfl⟩ := Eager.complete_eq_some h
    exact hs.keepWorker hl (by simp [hw, occupyingWorker]) rfl
      (by simp [hw, held, Future.holdsPermit])
  | release t =>
    obtain ⟨w, hw, rfl⟩ := Eager.release_eq_some h
    exact hs.keepWorker hl (by simp [hw, occupyingWorker]) rfl
      (by simp [hw, held, Future.holdsPermit])
  | remove t =>
    obtain ⟨w, hw, rfl⟩ := Eager.remove_eq_some h
    refine hs.update hl (by simp [hw]) (by simp [occupyingWorker])
      (by simp [hw, held, Future.holdsPermit]) fun t' w' h' => ?_
    have ht : t' ≠ t := by rintro rfl; simp [occupyingWorker] at h'
    rw [Function.update_noteq ht] at h'
    have hw' : w' ≠ w := by
      rintro rfl; exact ht (hs.unique _ _ _ h' (by simp [hw, occupyingWorker]))
    exact (List.mem_erase_of_ne hw').2 (hs.occupied _ _ h')

theorem OccupancyInv.reachable (hl : LiveInv sp s) (hs : OccupancyInv sp s) {s' : Eager}
    (h : Reachable sp s s') : OccupancyInv sp s' := by
  induction h with
  | refl => exact hs
  | tail hr hstep ih => exact ih.step (hl.reachable hr) hstep

theorem occupancyInv_start (sp : Stage) : OccupancyInv sp (start sp) :=
  ⟨fun _ _ h => by simp [start, occupyingWorker] at h, fun _ _ _ h => by
    simp [start, occupyingWorker] at h, by simp [start, held, Future.holdsPermit, placing_loopHead]⟩

end Steps

/-- Along every run of `_execute_eagerly`: no worker has two tasks running, and
of any set of tasks at most `len(workers)` are running. -/
theorem execute_eagerly_bounded (sp : Stage) {s : Eager} (h : Reachable sp (start sp) s) :
    (∀ t t' w, s.futures t = .running w → s.futures t' = .running w → t = t') ∧
    ∀ T : Finset Nat, (T.filter fun t => running (s.futures t)).card ≤ sp.workers.length := by
  have hl := (liveInv_start sp).reachable h
  have hs := (occupancyInv_start sp).reachable (liveInv_start sp) h
  refine ⟨fun t t' w h₁ h₂ => hs.unique t t' w (by simp [h₁, occupyingWorker])
    (by simp [h₂, occupyingWorker]), fun T => ?_⟩
  have hsub : T.filter (fun t => running (s.futures t)) ⊆
      (Finset.range sp.tasks.length).filter fun t => (s.futures t).holdsPermit := fun t ht => by
    simp only [Finset.mem_filter, Finset.mem_range] at ht ⊢
    have hlt : t < sp.tasks.length := by
      by_contra hn; have := hl.beyond t (by omega); simp [this, running] at ht
    refine ⟨hlt, ?_⟩
    cases hf : s.futures t <;> simp_all [running, Future.holdsPermit]
  calc (T.filter fun t => running (s.futures t)).card
      ≤ ((Finset.range sp.tasks.length).filter fun t => (s.futures t).holdsPermit).card :=
        Finset.card_le_card hsub
    _ = ∑ t in Finset.range sp.tasks.length, held (s.futures t) := Finset.card_filter _ _
    _ ≤ sp.workers.length := by have := hs.permits; omega

/-- One worker and two tasks: task `0` is running on worker `0`. -/
def placed : Eager := (run oneWorker (start oneWorker) [.main, .main, .main]).getD (start oneWorker)

theorem execute_eagerly_bounded_example :
    placed.futures 0 = .running 0 ∧
      (∀ t t' w, placed.futures t = .running w → placed.futures t' = .running w → t = t') ∧
      ∀ T : Finset Nat, (T.filter fun t => running (placed.futures t)).card ≤
        oneWorker.workers.length :=
  ⟨rfl, execute_eagerly_bounded oneWorker (reachable_of_run .refl
    (rfl : run oneWorker (start oneWorker) [.main, .main, .main] = some placed))⟩

end Bndl.Execute.Occupancy
