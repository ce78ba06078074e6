import Mathlib.Data.List.GetD
import Bndl.Execute.Job
/-!
# The eager mode yields the results in task order

Along every run of `_execute_eagerly`, whatever the completion order of the
futures and however often tasks are pushed back to `to_schedule`, each task is
executed at most once, the `i`-th result yielded is task `i`'s, the loop ends
only after the last task's result, and it raises only the exception of the
task after the ones yielded.  `_execute_onebyone` yields and raises what the
tasks do on the workers it picks (`executeOnebyone_eq_ok`,
`executeOnebyone_eq_error`), so when no task's outcome depends on its worker, a
run that ends or raises yields and raises what `_execute_onebyone` does
(`executeOnebyone_of_ok`, `executeOnebyone_of_error`).

The invariant `OrderInv` keeps `to_yield` equal to the indices not yet yielded,
in reverse, and every task in `to_schedule`, or being placed, unstarted.
-/

namespace Bndl.Execute.Ordering

open Bndl.Execute.Job

/-- The invariant of the eager loop. -/
structure OrderInv (sp : Stage) (s : Eager) : Prop where
  out_le : s.out.length ≤ sp.tasks.length
  toYield : (∀ e, s.pc ≠ .raised e) →
    s.toYield = (List.range' s.out.length (sp.tasks.length - s.out.length)).reverse
  ended : s.pc = .ended → s.toYield = []
  results : ∀ i v, s.out[i]? = some v → s.outcome sp i = some (.ok v)
  raised : ∀ e, s.pc = .raised e →
    s.out.length < sp.tasks.length ∧ s.outcome sp s.out.length = some (.error e)
  executed : ∀ t, s.executed t = if s.futures t = .unstarted then 0 else 1
  unstarted : ∀ t ∈ s.toSchedule, s.futures t = .unstarted
  nodup : s.toSchedule.Nodup
  scan : ∀ t ws, s.pc = .scan t ws → t ∉ s.toSchedule ∧ s.futures t = .unstarted

section Steps

variable {sp : Stage} {s : Eager}

theorem OrderInv.loopHead (hs : OrderInv sp s) (hnr : ∀ e, s.pc ≠ .raised e) :
    OrderInv sp s.loopHead :=
  ⟨hs.out_le, fun _ => hs.toYield hnr, Eager.loopHead_pc_eq_ended.1, hs.results,
    fun e h => absurd h (Eager.loopHead_pc_ne_raised e), hs.executed, hs.unstarted, hs.nodup,
    fun t ws h => absurd h (Eager.loopHead_pc_ne_scan t ws)⟩

/-- Moving the loop to another point with nothing else changed. -/
theorem OrderInv.withPc (hs : OrderInv sp s) (hnr : ∀ e, s.pc ≠ .raised e) {p : Pc}
    (hend : p ≠ .ended) (hr : ∀ e, p ≠ .raised e)
    (hscan : ∀ t ws, p = .scan t ws → t ∉ s.toSchedule ∧ s.futures t = .unstarted) :
    OrderInv sp { s with pc := p } :=
  ⟨hs.out_le, fun _ => hs.toYield hnr, fun h => absurd h hend, hs.results,
    fun e h => absurd h (hr e), hs.executed, hs.unstarted, hs.nodup, hscan⟩

/-- `acquire()` and `to_schedule.pop()`. -/
theorem OrderInv.acquire (hs : OrderInv sp s) (hp : s.pc = .acquire) {t : Nat}
    (ht : s.toSchedule.getLast? = some t) (m : Nat) (cands : List Nat) :
    OrderInv sp
      { s with permits := m, toSchedule := s.toSchedule.dropLast, pc := .scan t cands } := by
  have hsplit := List.dropLast_append_getLast? t ht
  have hnd := hsplit ▸ hs.nodup
  rw [List.nodup_append] at hnd
  have hmem : ∀ t', t' ∈ s.toSchedule.dropLast ∨ t' = t → t' ∈ s.toSchedule :=
    fun t' h => by rw [← hsplit]; simpa using h
  refine ⟨hs.out_le, fun _ => hs.toYield (by simp [hp]), (fun h => nomatch h), hs.results,
    (fun e h => nomatch h), hs.executed, fun t' h => hs.unstarted t' (hmem t' (.inl h)), hnd.1,
    fun t' ws h => ?_⟩
  cases h
  exact ⟨fun h => hnd.2.2 h (List.mem_singleton_self t), hs.unstarted t (hmem t (.inr rfl))⟩

/-- `to_schedule.insert(0, task)`: no worker was free. -/
theorem OrderInv.pushBack (hs : OrderInv sp s) {t : Nat} (hp : s.pc = .scan t []) :
    OrderInv sp { s with toSchedule := t :: s.toSchedule, pc := .yieldCheck } := by
  obtain ⟨hnot, hun⟩ := hs.scan t [] hp
  refine ⟨hs.out_le, fun _ => hs.toYield (by simp [hp]), (fun h => nomatch h), hs.results,
    (fun e h => nomatch h), hs.executed, fun t' h => ?_, List.nodup_cons.2 ⟨hnot, hs.nodup⟩,
    fun t' ws h => by cases h⟩
  rcases List.mem_cons.1 h with rfl | h
  exacts [hun, hs.unstarted t' h]

/-- Another task's future changes nothing of task `i`'s outcome. -/
theorem outcome_congr {s' : Eager} {i : Nat} (h : (s'.futures i).worker? = (s.futures i).worker?) :
    s'.outcome sp i = s.outcome sp i := by
  simp only [Eager.outcome, h]

theorem OrderInv.startTask (hs : OrderInv sp s) {t w : Nat} {ws : List Nat}
    (hp : s.pc = .scan t (w :: ws)) : OrderInv sp (s.startTask t w) := by
  obtain ⟨hnot, hun⟩ := hs.scan t _ hp
  have hother : ∀ t', t' ≠ t → (s.startTask t w).futures t' = s.futures t' := fun t' h => by
    simp [Eager.startTask, Function.update_noteq h]
  refine ⟨hs.out_le, fun _ => hs.toYield (by simp [hp]), (fun h => nomatch h),
    fun i v h => ?_, (fun e h => nomatch h), fun t' => ?_, fun t' h => ?_, hs.nodup,
    fun t' ws h => by cases h⟩
  · have hi := hs.results i v h
    have hit : i ≠ t := by
      rintro rfl; simp [Eager.outcome, hun, Future.worker?] at hi
    exact (outcome_congr (by rw [hother i hit]) :
      (s.startTask t w).outcome sp i = s.outcome sp i).trans hi
  · by_cases ht : t' = t
    · subst ht; simp [Eager.startTask, hs.executed t', hun]
    · simp only [Eager.startTask, Function.update_noteq ht]; exact hs.executed t'
  · exact (hother t' (fun h' => hnot (h' ▸ h))).trans (hs.unstarted t' h)

/-- `yield to_yield.pop().result()`. -/
theorem OrderInv.yieldResult (hs : OrderInv sp s) (hpc : s.pc = .yieldCheck ∨ s.pc = .waitResult)
    {j w : Nat} (hj : s.toYield.getLast? = some j) (hw : (s.futures j).finished? = some w) :
    OrderInv sp (s.yieldResult sp j w) := by
  have hnr : ∀ e, s.pc ≠ .raised e := by rcases hpc with h | h <;> simp [h]
  have hty := hs.toYield hnr
  rw [hty, List.getLast?_reverse, List.head?_range'] at hj
  split_ifs at hj with hn
  cases hj
  have hdrop : s.toYield.dropLast =
      (List.range' (s.out.length + 1) (sp.tasks.length - (s.out.length + 1))).reverse := by
    obtain ⟨m, hm⟩ := Nat.exists_eq_succ_of_ne_zero hn
    rw [hty, List.dropLast_reverse, hm, List.range'_succ]
    simp only [List.tail_cons]
    congr 2; omega
  have hout : s.outcome sp s.out.length = some ((sp.task s.out.length).execute w) := by
    simp [Eager.outcome, Future.worker?_of_finished? hw]
  unfold Eager.yieldResult
  split
  · rename_i v hv
    refine OrderInv.loopHead ⟨by simp; omega, fun _ => by simpa using hdrop,
      fun h => by rcases hpc with h' | h' <;> simp [h'] at h, fun i v' h => ?_,
      fun e h => by rcases hpc with h' | h' <;> simp [h'] at h, hs.executed, hs.unstarted,
      hs.nodup, fun t ws h => by rcases hpc with h' | h' <;> simp [h'] at h⟩ hnr
    rcases Nat.lt_trichotomy i s.out.length with hi | rfl | hi
    · rw [List.getElem?_append_left hi] at h; exact hs.results i v' h
    · simp only [List.getElem?_concat_length, Option.some.injEq] at h
      exact h ▸ hout.trans (congrArg some hv)
    · rw [List.getElem?_eq_none (by simp; omega)] at h; cases h
  · rename_i e he
    exact ⟨hs.out_le, fun h => absurd rfl (h e), (fun h => nomatch h), hs.results,
      fun e' h => by
        cases h
        exact ⟨show s.out.length < sp.tasks.length by omega, hout.trans (congrArg some he)⟩,
      hs.executed, hs.unstarted, hs.nodup, fun t ws h => by cases h⟩

/-- A future or its callback moves, the task keeping its worker. -/
theorem OrderInv.futures (hs : OrderInv sp s) {f : Nat → Future}
    (hf : ∀ t, (f t).worker? = (s.futures t).worker?) (m : Nat) (o : List Nat) :
    OrderInv sp { s with futures := f, permits := m, occupied := o } := by
  have hun : ∀ t, f t = .unstarted ↔ s.futures t = .unstarted := fun t => by
    rw [← Future.worker?_eq_none, ← Future.worker?_eq_none, hf t]
  refine ⟨hs.out_le, hs.toYield, hs.ended, fun i v h => ?_, fun e h => ?_, fun t => ?_,
    fun t h => (hun t).2 (hs.unstarted t h), hs.nodup, fun t ws h => ?_⟩
  · rw [outcome_congr (hf i)]; exact hs.results i v h
  · rw [outcome_congr (hf _)]; exact hs.raised e h
  · simp only [hun t]; exact hs.executed t
  · exact ⟨(hs.scan t ws h).1, (hun t).2 (hs.scan t ws h).2⟩

theorem OrderInv.main (hs : OrderInv sp s) {s' : Eager} (h : MainStep sp s s') :
    OrderInv sp s' := by
  cases h with
  | acquire hp _ ht => exact hs.acquire hp ht _ _
  | skip hp _ =>
    exact hs.withPc (by simp [hp]) (by simp) (by simp) fun t' ws' h => by
      cases h; exact hs.scan _ _ hp
  | start hp _ => exact hs.startTask hp
  | pushBack hp => exact hs.pushBack hp
  | next hp => exact hs.loopHead (by simp [hp])
  | wait hp => exact hs.withPc (by simp [hp]) (by simp) (by simp) (by simp)
  | yield hpc hj hw => exact hs.yieldResult (hpc.imp_left And.left) hj hw

/-- Every step keeps the invariant. -/
theorem OrderInv.step (hs : OrderInv sp s) {l : Label} {s' : Eager} (h : step sp s l = some s') :
    OrderInv sp s' := by
  have hupd : ∀ t g, (∀ w, (s.futures t).worker? = some w → (g : Future).worker? = some w) →
      s.futures t ≠ .unstarted → ∀ t', (Function.update s.futures t g t').worker? =
        (s.futures t').worker? := fun t g hg hne t' => by
    by_cases ht : t' = t
    · subst ht
      obtain ⟨w, hw⟩ := Option.ne_none_iff_exists'.1 (mt Future.worker?_eq_none.1 hne)
      simp [hg w hw, hw]
    · simp [Function.update_noteq ht]
  cases l with
  | main => exact hs.main (main_cases h)
  | complete t | release t | remove t =>
    simp only [Job.step, Eager.complete, Eager.release, Eager.remove] at h
    split at h <;> cases h
    rename_i w hw
    exact hs.futures (hupd t _ (by simp [hw, Future.worker?]) (by simp [hw])) _ _

theorem OrderInv.reachable (hs : OrderInv sp s) {s' : Eager} (h : Reachable sp s s') :
    OrderInv sp s' := by
  induction h with
  | refl => exact hs
  | tail _ hstep ih => exact ih.step hstep

theorem orderInv_start (sp : Stage) : OrderInv sp (start sp) := by
  refine OrderInv.loopHead ⟨by simp, fun _ => by simp [List.range_eq_range'],
    (fun h => nomatch h),
    fun i v h => by simp at h, (fun e h => nomatch h), fun t => by simp, fun t _ => rfl,
    List.nodup_reverse.2 (List.nodup_range _), fun t ws h => by cases h⟩ (by simp)

end Steps

/-! ## `_execute_onebyone` on the same outcomes -/

section Onebyone

variable {workers : List Nat} (hw : workers ≠ [])

/-- `_execute_onebyone` yields `out` and ends when each task succeeded with its
result on the worker it picks. -/
theorem executeOnebyone_eq_ok {tasks : List Task} {out : List Nat}
    (hlen : out.length = tasks.length)
    (hres : ∀ i v, out[i]? = some v → (tasks.getD i default).execute
      ((tasks.getD i default).onebyoneWorker workers hw) = .ok v) :
    executeOnebyone workers hw tasks = (out, none) := by
  induction tasks generalizing out with
  | nil => cases out <;> simp_all [executeOnebyone]
  | cons t ts ih =>
    obtain ⟨v, out, rfl⟩ : ∃ v out', out = v :: out' := by
      cases out with
      | nil => simp at hlen
      | cons v out' => exact ⟨v, out', rfl⟩
    have hv := hres 0 v (by simp)
    have hr := ih (by simpa using hlen) fun i v' h => hres (i + 1) v' (by simpa using h)
    simp only [List.getD_cons_zero] at hv
    simp [executeOnebyone, hv, hr]

/-- `_execute_onebyone` yields `out` and raises `e` when the tasks before index
`out.length` succeeded with `out` and that task fails with `e`, each on the
worker it picks. -/
theorem executeOnebyone_eq_error {tasks : List Task} {out : List Nat} {e : Nat}
    (hres : ∀ i v, out[i]? = some v → (tasks.getD i default).execute
      ((tasks.getD i default).onebyoneWorker workers hw) = .ok v)
    (herr : (tasks.getD out.length default).execute
      ((tasks.getD out.length default).onebyoneWorker workers hw) = .error e)
    (hlen : out.length < tasks.length) :
    executeOnebyone workers hw tasks = (out, some e) := by
  induction tasks generalizing out with
  | nil => simp at hlen
  | cons t ts ih =>
    cases out with
    | nil =>
      simp only [List.getD_cons_zero, List.length_nil] at herr
      simp [executeOnebyone, herr]
    | cons v out =>
      have hv := hres 0 v (by simp)
      have hr := ih (fun i v' h => hres (i + 1) v' (by simpa using h)) (by simpa using herr)
        (by simpa using hlen)
      simp only [List.getD_cons_zero] at hv
      simp [executeOnebyone, hv, hr]

/-- A task whose outcome does not depend on its worker has, on the worker
`_execute_onebyone` picks, the outcome it has on any worker. -/
theorem execute_onebyoneWorker {tasks : List Task}
    (hind : ∀ t ∈ tasks, ∀ w w', t.execute w = t.execute w') {i : Nat} (hi : i < tasks.length)
    {r : Except Nat Nat} (h : ∃ w, (tasks.getD i default).execute w = r) :
    (tasks.getD i default).execute ((tasks.getD i default).onebyoneWorker workers hw) = r := by
  obtain ⟨w, hw'⟩ := h
  rw [List.getD_eq_getElem _ _ hi] at hw' ⊢
  exact (hind _ (List.getElem_mem hi) _ w).trans hw'

/-- If every task has succeeded with the results `out`, `_execute_onebyone`
yields them and ends. -/
theorem executeOnebyone_of_ok {tasks : List Task}
    (hind : ∀ t ∈ tasks, ∀ w w', t.execute w = t.execute w') {out : List Nat}
    (hlen : out.length = tasks.length)
    (hres : ∀ i v, out[i]? = some v → ∃ w, (tasks.getD i default).execute w = .ok v) :
    executeOnebyone workers hw tasks = (out, none) :=
  executeOnebyone_eq_ok hw hlen fun i v h => execute_onebyoneWorker hw hind
    (hlen ▸ (List.getElem?_eq_some_iff.1 h).1) (hres i v h)

/-- If the tasks before index `out.length` have succeeded with the results
`out` and that task fails with `e`, `_execute_onebyone` yields them and raises
`e`. -/
theorem executeOnebyone_of_error {tasks : List Task}
    (hind : ∀ t ∈ tasks, ∀ w w', t.execute w = t.execute w') {out : List Nat} {e : Nat}
    (hres : ∀ i v, out[i]? = some v → ∃ w, (tasks.getD i default).execute w = .ok v)
    (herr : ∃ w, (tasks.getD out.length default).execute w = .error e)
    (hlen : out.length < tasks.length) :
    executeOnebyone workers hw tasks = (out, some e) :=
  executeOnebyone_eq_error hw (fun i v h => execute_onebyoneWorker hw hind
      (Nat.lt_trans (List.getElem?_eq_some_iff.1 h).1 hlen) (hres i v h))
    (execute_onebyoneWorker hw hind hlen herr) hlen

end Onebyone

theorem outcome_ok {sp : Stage} {s : Eager} {i v : Nat} (h : s.outcome sp i = some (.ok v)) :
    ∃ w, (sp.tasks.getD i default).execute w = .ok v := by
  obtain ⟨w, -, hw⟩ := Option.map_eq_some'.1 h
  exact ⟨w, hw⟩

end Bndl.Execute.Ordering
