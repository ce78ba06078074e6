import Mathlib.Algebra.BigOperators.Group.Finset
import Mathlib.Algebra.Order.BigOperators.Group.List
import Mathlib.Algebra.Order.Ring.Nat
import Mathlib.Data.List.GetD
import Bndl.Execute.Ordering
/-!
# The eager loop ends, raises or blocks

`Ordering` says what a run of `_execute_eagerly` yields once it ends or raises.
This module shows that it gets there unless it blocks: from every state of a
run, every run is finite, and a state in which no step is possible has ended,
has raised, or is `Blocked` in `acquire()`.

The invariant `LiveInv` says that each task of `to_yield` is still to schedule,
being placed or started, and that `acquire()` and `result()` are reached only
with something to take.  The bound `bound` counts the permits the loop can
still take, weighted by the longest scan of candidates, and then the tasks left
to yield, the steps the futures and callbacks have left, and the distance to
the next `acquire()` or yield.  Every step lowers it (`bound_lt`).
-/

namespace Bndl.Execute.Progress

open Bndl.Execute.Job Bndl.Execute.Ordering

/-- What keeps the loop moving. -/
structure LiveInv (sp : Stage) (s : Eager) : Prop where
  toSchedule_lt : ∀ t ∈ s.toSchedule, t < sp.tasks.length
  scan_lt : ∀ t ws, s.pc = .scan t ws → t < sp.tasks.length
  beyond : ∀ t, sp.tasks.length ≤ t → s.futures t = .unstarted
  pending : ∀ i ∈ s.toYield,
    i ∈ s.toSchedule ∨ (∃ ws, s.pc = .scan i ws) ∨ s.futures i ≠ .unstarted
  acquire : s.pc = .acquire → s.toSchedule ≠ []
  waiting : s.pc = .waitResult → s.toSchedule = []
  busy : s.toYield = [] → s.pc = .ended ∨ ∃ e, s.pc = .raised e

section Steps

variable {sp : Stage} {s : Eager}

/-- Outside the placing of a task, each task of `to_yield` is to schedule or started. -/
theorem LiveInv.pending_of_not_scan (hs : LiveInv sp s) (hp : ∀ t ws, s.pc ≠ .scan t ws) :
    ∀ i ∈ s.toYield, i ∈ s.toSchedule ∨ s.futures i ≠ .unstarted := fun i hi =>
  (hs.pending i hi).imp_right fun h => h.resolve_left fun ⟨ws, h⟩ => hp i ws h

/-- While task `t` is being placed, each task of `to_yield` is `t`, to schedule or started. -/
theorem LiveInv.pending_of_scan (hs : LiveInv sp s) {t : Nat} {ws : List Nat}
    (hp : s.pc = .scan t ws) :
    ∀ i ∈ s.toYield, i ∈ s.toSchedule ∨ i = t ∨ s.futures i ≠ .unstarted := fun i hi =>
  (hs.pending i hi).imp_right fun h => h.imp_left fun ⟨_, h⟩ => by rw [hp] at h; cases h; rfl

theorem LiveInv.not_busy (hs : LiveInv sp s) (he : s.pc ≠ .ended) (hr : ∀ e, s.pc ≠ .raised e) :
    s.toYield ≠ [] := fun h => (hs.busy h).elim he fun ⟨e, h⟩ => hr e h

/-- The head of the loop, reached while no task is being placed. -/
theorem liveInv_loopHead (hlt : ∀ t ∈ s.toSchedule, t < sp.tasks.length)
    (hbeyond : ∀ t, sp.tasks.length ≤ t → s.futures t = .unstarted)
    (hpend : ∀ i ∈ s.toYield, i ∈ s.toSchedule ∨ s.futures i ≠ .unstarted) :
    LiveInv sp s.loopHead := by
  refine ⟨hlt, fun t ws h => absurd h (Eager.loopHead_pc_ne_scan t ws), hbeyond,
    fun i hi => (hpend i hi).imp_right .inr, fun h => ?_, fun h => ?_,
    fun h => .inl (Eager.loopHead_pc_eq_ended.2 h)⟩
  all_goals unfold Eager.loopHead at h; split_ifs at h <;> simp_all

theorem LiveInv.acquire_step (hs : LiveInv sp s) (hp : s.pc = .acquire) {t : Nat}
    (ht : s.toSchedule.getLast? = some t) (m : Nat) (cands : List Nat) :
    LiveInv sp
      { s with permits := m, toSchedule := s.toSchedule.dropLast, pc := .scan t cands } := by
  have hsplit := List.dropLast_append_getLast? t ht
  refine ⟨fun t' h => hs.toSchedule_lt t' (List.mem_of_mem_dropLast h),
    fun t' ws h => ?_, hs.beyond, fun i hi => ?_, (fun h => nomatch h), (fun h => nomatch h),
    fun h => absurd (hs.busy h) (by simp [hp])⟩
  · cases h; exact hs.toSchedule_lt t (List.mem_of_mem_getLast? ht)
  · rcases hs.pending_of_not_scan (by simp [hp]) i hi with h | h
    · rw [← hsplit, List.mem_append, List.mem_singleton] at h
      rcases h with h | rfl
      exacts [.inl h, .inr (.inl ⟨cands, rfl⟩)]
    · exact .inr (.inr h)

theorem LiveInv.startTask (hs : LiveInv sp s) {t w : Nat} {ws : List Nat}
    (hp : s.pc = .scan t (w :: ws)) : LiveInv sp (s.startTask t w) := by
  have ht := hs.scan_lt t _ hp
  refine ⟨hs.toSchedule_lt, (fun _ _ h => nomatch h), fun t' h' => ?_, fun i hi => ?_,
    (fun h => nomatch h), (fun h => nomatch h), fun h => absurd (hs.busy h) (by simp [hp])⟩
  · simp [Eager.startTask, Function.update_noteq (show t' ≠ t by omega), hs.beyond t' h']
  · by_cases hit : i = t
    · subst hit; simp [Eager.startTask]
    · rcases hs.pending_of_scan hp i hi with h | h | h
      · exact .inl h
      · exact absurd h hit
      · exact .inr (.inr (by simpa [Eager.startTask, Function.update_noteq hit] using h))

theorem LiveInv.yieldResult (hs : LiveInv sp s) (hpc : s.pc = .yieldCheck ∨ s.pc = .waitResult)
    (j w : Nat) : LiveInv sp (s.yieldResult sp j w) := by
  have hpend : ∀ i ∈ s.toYield.dropLast, i ∈ s.toSchedule ∨ s.futures i ≠ .unstarted :=
    fun i hi => hs.pending_of_not_scan (by rcases hpc with h | h <;> simp [h]) i
      (List.mem_of_mem_dropLast hi)
  unfold Eager.yieldResult
  split
  · exact liveInv_loopHead hs.toSchedule_lt hs.beyond hpend
  · exact ⟨hs.toSchedule_lt, (fun _ _ h => nomatch h), hs.beyond,
      fun i hi => (hpend i hi).imp_right .inr, (fun h => nomatch h), (fun h => nomatch h),
      fun _ => .inr ⟨_, rfl⟩⟩

/-- A future or its callback moves, every task staying started or unstarted. -/
theorem LiveInv.futures (hs : LiveInv sp s) {f : Nat → Future}
    (hf : ∀ t, f t = .unstarted ↔ s.futures t = .unstarted) (m : Nat) (o : List Nat) :
    LiveInv sp { s with futures := f, permits := m, occupied := o } :=
  ⟨hs.toSchedule_lt, hs.scan_lt, fun t h => (hf t).2 (hs.beyond t h),
    fun i hi => (hs.pending i hi).imp_right (.imp_right fun h h' => h ((hf i).1 h')),
    hs.acquire, hs.waiting, hs.busy⟩

theorem LiveInv.main (hs : LiveInv sp s) {s' : Eager} (h : MainStep sp s s') :
    LiveInv sp s' := by
  cases h with
  | acquire hp _ ht => exact hs.acquire_step hp ht _ _
  | @skip t w ws hp _ =>
    refine ⟨hs.toSchedule_lt, fun t' ws' h => ?_, hs.beyond, fun i hi => ?_,
      (fun h => nomatch h), (fun h => nomatch h), fun h => absurd (hs.busy h) (by simp [hp])⟩
    · cases h; exact hs.scan_lt _ _ hp
    · exact (hs.pending_of_scan hp i hi).imp_right (.imp_left fun h => ⟨ws, by rw [h]⟩)
  | start hp _ => exact hs.startTask hp
  | @pushBack t hp =>
    refine ⟨fun t' h => ?_, (fun _ _ h => nomatch h), hs.beyond, fun i hi => ?_,
      (fun h => nomatch h), (fun h => nomatch h), fun h => absurd (hs.busy h) (by simp [hp])⟩
    · rcases List.mem_cons.1 h with rfl | h
      exacts [hs.scan_lt _ _ hp, hs.toSchedule_lt t' h]
    · rcases hs.pending_of_scan hp i hi with h | rfl | h
      · exact .inl (List.mem_cons_of_mem _ h)
      · exact .inl (List.mem_cons_self _ _)
      · exact .inr (.inr h)
  | next hp =>
    exact liveInv_loopHead hs.toSchedule_lt hs.beyond (hs.pending_of_not_scan (by simp [hp]))
  | wait hp _ _ hsch =>
    exact ⟨hs.toSchedule_lt, (fun _ _ h => nomatch h), hs.beyond,
      fun i hi => (hs.pending_of_not_scan (by simp [hp]) i hi).imp_right .inr,
      (fun h => nomatch h), fun _ => hsch, fun h => absurd (hs.busy h) (by simp [hp])⟩
  | yield hpc => exact hs.yieldResult (hpc.imp_left And.left) _ _

/-- Every step keeps the invariant. -/
theorem LiveInv.step (hs : LiveInv sp s) {l : Label} {s' : Eager}
    (h : Job.step sp s l = some s') :
    LiveInv sp s' := by
  cases l with
  | main => exact hs.main (main_cases h)
  | complete t =>
    obtain ⟨w, hw, rfl⟩ := Eager.complete_eq_some h
    exact hs.futures (update_eq_unstarted (by simp [hw]) (by simp)) _ _
  | release t =>
    obtain ⟨w, hw, rfl⟩ := Eager.release_eq_some h
    exact hs.futures (update_eq_unstarted (by simp [hw]) (by simp)) _ _
  | remove t =>
    obtain ⟨w, hw, rfl⟩ := Eager.remove_eq_some h
    exact hs.futures (update_eq_unstarted (by simp [hw]) (by simp)) _ _

theorem LiveInv.reachable (hs : LiveInv sp s) {s' : Eager} (h : Reachable sp s s') :
    LiveInv sp s' := by
  induction h with
  | refl => exact hs
  | tail _ hstep ih => exact ih.step hstep

theorem liveInv_start (sp : Stage) : LiveInv sp (start sp) :=
  liveInv_loopHead (fun t h => by simpa using h) (fun _ _ => rfl) fun _ hi => .inl hi

/-- A state with no step left has ended, has raised, or is blocked in `acquire()`. -/
theorem LiveInv.dead_end (hs : LiveInv sp s) (hdead : ∀ l, Job.step sp s l = none) :
    s.pc = .ended ∨ (∃ e, s.pc = .raised e) ∨ Blocked s := by
  have hmain : ∀ {s'}, MainStep sp s s' → False := fun h => by
    simpa [Job.step, h.main_eq] using hdead .main
  have hhold : ∀ t, Future.holdsPermit (s.futures t) = false := fun t => by
    have hc := hdead (.complete t)
    have hr := hdead (.release t)
    cases hf : s.futures t <;>
      simp [Job.step, Eager.complete, Eager.release, hf, Future.holdsPermit] at hc hr ⊢
  have hlast : s.pc ≠ .ended → (∀ e, s.pc ≠ .raised e) → ∃ j, s.toYield.getLast? = some j :=
    fun he hr => Option.ne_none_iff_exists'.1 (mt List.getLast?_eq_none_iff.1 (hs.not_busy he hr))
  match hp : s.pc with
  | .ended => exact .inl rfl
  | .raised e => exact .inr (.inl ⟨e, rfl⟩)
  | .acquire =>
    refine .inr (.inr ⟨hp, by_contra fun h0 => ?_, hhold⟩)
    obtain ⟨t, ht⟩ := Option.ne_none_iff_exists'.1 (mt List.getLast?_eq_none_iff.1 (hs.acquire hp))
    exact hmain (.acquire hp h0 ht)
  | .scan t [] => exact (hmain (.pushBack hp)).elim
  | .scan t (w :: ws) =>
    by_cases hw : w ∈ s.occupied
    exacts [(hmain (.skip hp hw)).elim, (hmain (.start hp hw)).elim]
  | .yieldCheck =>
    obtain ⟨j, hj⟩ := hlast (by simp [hp]) (by simp [hp])
    refine (?_ : False).elim
    by_cases hu : s.futures j = .unstarted
    · exact hmain (.next hp hj (.inl hu))
    by_cases hsch : s.toSchedule = []
    · exact hmain (.wait hp hj hu hsch)
    cases hf : (s.futures j).finished? with
    | none => exact hmain (.next hp hj (.inr ⟨hsch, hf⟩))
    | some w => exact hmain (.yield (.inl ⟨hp, hsch⟩) hj hf)
  | .waitResult =>
    obtain ⟨j, hj⟩ := hlast (by simp [hp]) (by simp [hp])
    refine (?_ : False).elim
    cases hf : (s.futures j).finished? with
    | some w => exact hmain (.yield (.inr hp) hj hf)
    | none =>
      rcases hs.pending_of_not_scan (by simp [hp]) j (List.mem_of_mem_getLast? hj) with h | h
      · simp [hs.waiting hp] at h
      · have hh := hhold j
        cases hj' : s.futures j <;> simp [hj', Future.finished?, Future.holdsPermit] at h hf hh

end Steps

/-! ## A bound on the steps left -/

/-- The steps a task's future and its callback have left. -/
def stepsLeft : Future → Nat
  | .unstarted => 4
  | .running _ => 3
  | .done _ => 2
  | .released _ => 1
  | .removed _ => 0

/-- The permit a task has still to give back, once started. -/
def permitDue : Future → Nat
  | .unstarted | .running _ | .done _ => 1
  | .released _ | .removed _ => 0

/-- How far the loop is from its next `acquire()` or yield. -/
def pcRank : Pc → Nat
  | .scan _ ws => ws.length + 2
  | .yieldCheck => 1
  | _ => 0

/-- The permits the loop can still take: the free ones and one for each task
that has not released its own. -/
def permitsLeft (sp : Stage) (s : Eager) : Nat :=
  s.permits + ∑ t in Finset.range sp.tasks.length, permitDue (s.futures t)

/-- The steps left between two `acquire()`s. -/
def movesLeft (sp : Stage) (s : Eager) : Nat :=
  2 * s.toYield.length + (∑ t in Finset.range sp.tasks.length, stepsLeft (s.futures t)) +
    pcRank s.pc

/-- More than the steps of any task's scan of its candidates. -/
def scanBound (sp : Stage) : Nat :=
  (sp.tasks.map fun tk => (tk.candidates sp.workers).length).sum + 3

/-- Each `acquire()` uses up a permit the loop can take, and the steps in
between lower `movesLeft`. -/
def bound (sp : Stage) (s : Eager) : Nat :=
  scanBound sp * permitsLeft sp s + movesLeft sp s

section Bound

variable {sp : Stage} {s s' : Eager}

/-- Moving one future changes a sum over the futures by that future's term. -/
theorem sum_update (g : Future → Nat) (f : Nat → Future) {t n : Nat} (ht : t < n)
    (v : Future) :
    (∑ i in Finset.range n, g (Function.update f t v i)) + g (f t) =
      (∑ i in Finset.range n, g (f i)) + g v := by
  have hmem : t ∈ Finset.range n := Finset.mem_range.2 ht
  rw [← Finset.add_sum_erase _ _ hmem, ← Finset.add_sum_erase _ (fun i => g (f i)) hmem,
    Finset.sum_congr rfl fun i hi => by rw [Function.update_noteq (Finset.ne_of_mem_erase hi)],
    Function.update_same]
  omega

theorem candidates_length_lt {t : Nat} (ht : t < sp.tasks.length) :
    ((sp.task t).candidates sp.workers).length + 2 < scanBound sp := by
  have hmem : sp.task t ∈ sp.tasks := by
    rw [Stage.task, List.getD_eq_getElem _ _ ht]; exact List.getElem_mem ht
  have : ((sp.task t).candidates sp.workers).length ≤
      (sp.tasks.map fun tk => (tk.candidates sp.workers).length).sum :=
    List.le_sum_of_mem (List.mem_map_of_mem _ hmem)
  unfold scanBound
  omega

theorem pcRank_loopHead_le (s : Eager) : pcRank s.loopHead.pc ≤ 1 := by
  unfold Eager.loopHead; split_ifs <;> simp [pcRank]

theorem pcRank_loopHead_of_ne (h : s.toSchedule ≠ []) : pcRank s.loopHead.pc = 0 := by
  unfold Eager.loopHead; split_ifs <;> simp_all [pcRank]

theorem bound_lt_of_acquire (hp : permitsLeft sp s' + 1 = permitsLeft sp s)
    (hm : movesLeft sp s' < movesLeft sp s + scanBound sp) : bound sp s' < bound sp s := by
  unfold bound; rw [← hp, Nat.mul_succ]; omega

theorem bound_lt_of_moves (hp : permitsLeft sp s' = permitsLeft sp s)
    (hm : movesLeft sp s' < movesLeft sp s) : bound sp s' < bound sp s := by
  unfold bound; rw [hp]; omega

/-- A future or its callback moves task `t` one step on, giving back a permit
if it releases one. -/
theorem bound_lt_of_future (hs : LiveInv sp s) {t : Nat} {v : Future}
    (hne : s.futures t ≠ .unstarted) (hsteps : stepsLeft v < stepsLeft (s.futures t)) {m : Nat}
    (hdue : m + permitDue v = s.permits + permitDue (s.futures t)) (o : List Nat) :
    bound sp { s with futures := Function.update s.futures t v, permits := m, occupied := o } <
      bound sp s := by
  have ht : t < sp.tasks.length := by
    by_contra h; exact hne (hs.beyond t (by omega))
  have h₁ := sum_update permitDue s.futures ht v
  have h₂ := sum_update stepsLeft s.futures ht v
  apply bound_lt_of_moves
  · simp only [permitsLeft]; omega
  · simp only [movesLeft]; omega

theorem bound_lt_main (ho : OrderInv sp s) (hs : LiveInv sp s) (h : MainStep sp s s') :
    bound sp s' < bound sp s := by
  cases h with
  | @acquire t hp h0 ht =>
    have := candidates_length_lt (hs.toSchedule_lt t (List.mem_of_mem_getLast? ht))
    apply bound_lt_of_acquire
    · simp only [permitsLeft]; omega
    · simp only [movesLeft, pcRank, hp]; omega
  | skip hp => exact bound_lt_of_moves rfl (by simp [movesLeft, pcRank, hp])
  | @start t w ws hp =>
    have ht := hs.scan_lt t _ hp
    have hu := (ho.scan t _ hp).2
    have h₁ := sum_update permitDue s.futures ht (.running w)
    have h₂ := sum_update stepsLeft s.futures ht (.running w)
    rw [hu] at h₁ h₂
    have : permitDue .unstarted = permitDue (.running w) := rfl
    have : stepsLeft .unstarted = stepsLeft (.running w) + 1 := rfl
    apply bound_lt_of_moves
    · simp only [permitsLeft, Eager.startTask]; omega
    · simp only [movesLeft, Eager.startTask, pcRank, hp]; omega
  | pushBack hp => exact bound_lt_of_moves rfl (by simp [movesLeft, pcRank, hp])
  | @next j hp hj hg =>
    have hsch : s.toSchedule ≠ [] := by
      rcases hg with hu | ⟨hsch, -⟩
      · rcases hs.pending_of_not_scan (by simp [hp]) j (List.mem_of_mem_getLast? hj) with h | h
        exacts [List.ne_nil_of_mem h, absurd hu h]
      · exact hsch
    have h₁ := pcRank_loopHead_of_ne hsch
    have h₂ : pcRank s.pc = 1 := by rw [hp]; rfl
    refine bound_lt_of_moves rfl ?_
    simp only [movesLeft, Eager.loopHead_toYield, Eager.loopHead_futures]
    omega
  | wait hp => exact bound_lt_of_moves rfl (by simp [movesLeft, pcRank, hp])
  | @yield j w hpc hj =>
    have hY : s.toYield.length ≠ 0 := fun h => by simp [List.length_eq_zero.1 h] at hj
    unfold Eager.yieldResult
    split
    · have := pcRank_loopHead_le { s with toYield := s.toYield.dropLast, out := s.out ++ [‹_›] }
      refine bound_lt_of_moves rfl ?_
      simp only [movesLeft, Eager.loopHead_toYield, Eager.loopHead_futures,
        List.length_dropLast] at this ⊢
      omega
    · refine bound_lt_of_moves rfl ?_
      simp only [movesLeft, List.length_dropLast, pcRank]
      omega

/-- Every step lowers the bound. -/
theorem bound_lt (ho : OrderInv sp s) (hs : LiveInv sp s) {l : Label}
    (h : step sp s l = some s') : bound sp s' < bound sp s := by
  cases l with
  | main => exact bound_lt_main ho hs (main_cases h)
  | complete t =>
    obtain ⟨w, hw, rfl⟩ := Eager.complete_eq_some h
    exact bound_lt_of_future hs (by simp [hw]) (by simp [hw, stepsLeft])
      (by simp [hw, permitDue]) _
  | release t =>
    obtain ⟨w, hw, rfl⟩ := Eager.release_eq_some h
    exact bound_lt_of_future hs (by simp [hw]) (by simp [hw, stepsLeft])
      (by simp [hw, permitDue]) _
  | remove t =>
    obtain ⟨w, hw, rfl⟩ := Eager.remove_eq_some h
    exact bound_lt_of_future hs (by simp [hw]) (by simp [hw, stepsLeft])
      (by simp [hw, permitDue]) _

/-- No run from a state of the invariants is longer than its bound. -/
theorem run_length_le : ∀ {ls : List Label} {s s' : Eager}, OrderInv sp s → LiveInv sp s →
    run sp s ls = some s' → ls.length ≤ bound sp s
  | [], _, _, _, _, _ => Nat.zero_le _
  | l :: ls, s, s', ho, hs, h => by
    simp only [run, Option.bind_eq_some] at h
    obtain ⟨s₁, h₁, h₂⟩ := h
    have := run_length_le (ho.step h₁) (hs.step h₁) h₂
    have := bound_lt ho hs h₁
    simp only [List.length_cons]; omega

end Bound

/-! ## Order, progress and termination -/

/-- Along every run of `_execute_eagerly`: each task is executed at most once;
the `i`-th result yielded is task `i`'s; the loop ends only after all results,
and raises only the exception of the task after the results yielded.  If no
task's outcome depends on its worker, a run that ends or raises yields and
raises what `_execute_onebyone` does.  A state with no step left has ended,
raised, or is blocked in `acquire()`, and the runs from a state are no longer
than a bound: a run that does not block ends or raises. -/
theorem execute_eagerly_in_order (sp : Stage) {s : Eager} (h : Reachable sp (start sp) s) :
    (∀ t, s.executed t ≤ 1) ∧
    (∀ i v, s.out[i]? = some v → s.outcome sp i = some (.ok v)) ∧
    (s.pc = .ended → s.out.length = sp.tasks.length) ∧
    (∀ e, s.pc = .raised e →
      s.out.length < sp.tasks.length ∧ s.outcome sp s.out.length = some (.error e)) ∧
    ((∀ t ∈ sp.tasks, ∀ w w', t.execute w = t.execute w') →
      (s.pc = .ended → executeOnebyone sp.workers sp.workers_ne sp.tasks = (s.out, none)) ∧
      (∀ e, s.pc = .raised e →
        executeOnebyone sp.workers sp.workers_ne sp.tasks = (s.out, some e))) ∧
    ((∀ l, step sp s l = none) → s.pc = .ended ∨ (∃ e, s.pc = .raised e) ∨ Blocked s) ∧
    ∃ B, ∀ ls s', run sp s ls = some s' → ls.length ≤ B := by
  have hs := (orderInv_start sp).reachable h
  have hl := (liveInv_start sp).reachable h
  have hend : s.pc = .ended → s.out.length = sp.tasks.length := fun he => by
    have := (hs.toYield (by simp [he])).symm.trans (hs.ended he)
    simp only [List.reverse_eq_nil_iff, List.range'_eq_nil] at this
    have := hs.out_le; omega
  have hres : ∀ i v, s.out[i]? = some v → ∃ w, (sp.tasks.getD i default).execute w = .ok v :=
    fun i v hi => outcome_ok (hs.results i v hi)
  refine ⟨fun t => by rw [hs.executed t]; split_ifs <;> omega, hs.results, hend, hs.raised,
    fun hind => ⟨fun he => executeOnebyone_of_ok _ hind (hend he) hres, fun e he => ?_⟩,
    hl.dead_end, bound sp s, fun _ _ hr => run_length_le hs hl hr⟩
  obtain ⟨hlt, hout⟩ := hs.raised e he
  obtain ⟨w, -, hw⟩ := Option.map_eq_some'.1 hout
  exact executeOnebyone_of_error _ hind hres ⟨w, hw⟩ hlt

/-- Task `0` runs and its callback finishes before task `1` is placed; both
results are yielded and the loop ends. -/
def finishingRun : List Label :=
  [.main, .main, .main, .complete 0, .release 0, .remove 0, .main, .main, .main, .main, .main,
    .complete 1, .main]

def finished : Eager := (run oneWorker (start oneWorker) finishingRun).getD (start oneWorker)

theorem execute_eagerly_in_order_example :
    finished.pc = .ended ∧ finished.out = [0, 1] ∧
      ((∀ t, finished.executed t ≤ 1) ∧
      (∀ i v, finished.out[i]? = some v → finished.outcome oneWorker i = some (.ok v)) ∧
      (finished.pc = .ended → finished.out.length = oneWorker.tasks.length) ∧
      (∀ e, finished.pc = .raised e → finished.out.length < oneWorker.tasks.length ∧
        finished.outcome oneWorker finished.out.length = some (.error e)) ∧
      ((∀ t ∈ oneWorker.tasks, ∀ w w', t.execute w = t.execute w') →
        (finished.pc = .ended →
          executeOnebyone oneWorker.workers oneWorker.workers_ne oneWorker.tasks =
            (finished.out, none)) ∧
        (∀ e, finished.pc = .raised e →
          executeOnebyone oneWorker.workers oneWorker.workers_ne oneWorker.tasks =
            (finished.out, some e))) ∧
      ((∀ l, step oneWorker finished l = none) → finished.pc = .ended ∨
        (∃ e, finished.pc = .raised e) ∨ Blocked finished) ∧
      ∃ B, ∀ ls s', run oneWorker finished ls = some s' → ls.length ≤ B) :=
  ⟨rfl, rfl, execute_eagerly_in_order oneWorker (reachable_of_run .refl
    (rfl : run oneWorker (start oneWorker) finishingRun = some finished))⟩

end Bndl.Execute.Progress
