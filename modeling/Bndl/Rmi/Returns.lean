import Mathlib.Algebra.Order.BigOperators.Group.Finset
import Bndl.Rmi.Coalesce
import Bndl.Rmi.Invariants
/-!
# Every `get_blocks` call on a node returns

The progress half of coalescing.  Calls of `get_blocks` run on node `x`, with
anything the other nodes do interleaved and no removal reaching `x`.

* Each call has a number of steps left (`callSteps`): a turn of the
  download loop takes the replies of the `k` worker peers, the end of
  `as_completed` and a candidate loop over at most `k + 1` candidates
  (`nextDownload_candidates_length`), so every step of the call lowers it
  (`step_progress`).  Steps of other calls and removals leave the calls on `x`
  alone, so a run makes at most `stepsOn` steps of calls on `x`
  (`run_steps_le`).
* A world where no call on `x` can move has them all returned, unless a
  download on `x` raised (`dead_end`): a call before the lock can take it or
  its holder can leave it, a waiting call's event is set or its downloader can
  move (`LiveInv.pending`), and a call past `available.wait()` reads a cache
  entry that is there (`LiveInv.cached`).

`get_blocks_coalesce` puts the two halves together.
-/

namespace Bndl.Rmi.Returns

open Bndl.Rmi.Slots Bndl.Rmi.NextDownload Bndl.Rmi.BlockManager Bndl.Rmi.Invariants
open Bndl.Rmi.Coalesce

/-! ## Steps left -/

/-- The steps a call in phase `p` has left at most, on a node with `k` worker
peers, for a list of `b` blocks. -/
def phaseSteps (k b : Nat) : Phase → Nat
  | .start => (2 * k + 4) * b + 6
  | .locked _ => (2 * k + 4) * b + 5
  | .store _ => (2 * k + 4) * b + 4
  | .loop _ _ n => (2 * k + 4) * n + 3
  | .collect _ _ n _ pending _ => pending.length + k + 3 + ((2 * k + 4) * n + 3)
  | .fetch _ _ n _ ls rs => ls.length + rs.length + 1 + ((2 * k + 4) * n + 3)
  | .wait _ | .setEvent _ => 2
  | .read => 1
  | .done _ | .raised => 0

def callSteps (net : Net) (c : Call) : Nat :=
  phaseSteps (net.workers c.node).length c.spec.numBlocks c.phase

/-- In `as_completed`, the workers that answered and those still asked make up
the `k` worker peers, and no answer names an index twice. -/
def RepliesOk (k : Nat) : Phase → Prop
  | .collect _ _ _ _ pending answers => answers.length + pending.length = k ∧ AnswersNodup answers
  | _ => True

/-- A failed request drops the candidate asked from its list. -/
theorem erase_candidate_length {ls rs : List Nat} {src : Nat}
    (hsrc : src ∈ (if ls ≠ [] then ls else rs)) :
    (if ls ≠ [] then ls.erase src else ls).length +
      (if ls ≠ [] then rs else rs.erase src).length < ls.length + rs.length := by
  split_ifs at hsrc ⊢ <;>
  · have := List.length_erase_of_mem hsrc
    have := List.length_pos_of_mem hsrc
    omega

theorem answersNodup_append {answers : List (Nat × Option (List Nat))} (h : AnswersNodup answers)
    (w : World) (src : Nat) (ok : Bool) :
    AnswersNodup (answers ++ [(src, if ok then some (w.getBlocksAvailable src) else none)]) := by
  intro a ha idxs hi
  rcases List.mem_append.1 ha with ha | ha
  · exact h a ha idxs hi
  · simp only [List.mem_singleton] at ha
    subst ha
    split_ifs at hi
    cases hi
    unfold World.getBlocksAvailable
    split
    · exact List.nodup_nil
    · exact filled_nodup _

section Progress

variable {net : Net} {w w' : World} {t : Nat}

/-- Every step of a call lowers its steps left and keeps its replies in order. -/
theorem step_progress {l : Label} (hl : l.caller = some t)
    (hok : RepliesOk (net.workers (w.calls t).node).length (w.calls t).phase)
    (h : step net w l = some w') :
    RepliesOk (net.workers (w.calls t).node).length (w'.calls t).phase ∧
      phaseSteps (net.workers (w.calls t).node).length (w.calls t).spec.numBlocks
          (w'.calls t).phase <
        phaseSteps (net.workers (w.calls t).node).length (w.calls t).spec.numBlocks
          (w.calls t).phase := by
  cases l <;> simp only [Label.caller, Option.some.injEq, reduceCtorEq] at hl <;> subst hl <;>
    simp only [step] at h
  · unfold World.checkEvent at h
    split at h
    · split_ifs at h
      cases h
      simp_all [World.takeLock, phaseSteps, RepliesOk]
    · cases h
  · unfold World.leaveLock at h
    split at h <;> cases h
    · simp_all [phaseSteps, RepliesOk]
    · simp_all [World.registerEvent_calls, phaseSteps, RepliesOk]
  · unfold World.wakeUp at h
    split at h
    · split_ifs at h
      cases h
      simp_all [phaseSteps, RepliesOk]
    · cases h
  · unfold World.returnCache at h
    split at h <;> cases h <;> simp_all [phaseSteps, RepliesOk]
  · unfold World.downloadStart at h
    split at h
    · split_ifs at h <;> cases h
      · simp_all [phaseSteps, RepliesOk]
      · simp_all [World.storeList_calls, phaseSteps, RepliesOk]
    · cases h
  · unfold World.nextIteration at h
    dsimp only at h
    split at h
    · cases h
      simp_all [phaseSteps, RepliesOk]
    · split at h <;> cases h
      · simp_all [phaseSteps, RepliesOk, AnswersNodup, Nat.mul_succ]
        omega
      · simp_all [phaseSteps, RepliesOk]
    · cases h
  · rename_i t src ok
    unfold World.answer at h
    split at h
    · rename_i e o n cur pending answers hp
      by_cases hsrc : src ∈ pending
      · rw [if_pos hsrc] at h
        cases h
        simp only [hp, RepliesOk] at hok
        have := List.length_erase_of_mem hsrc
        have := List.length_pos_of_mem hsrc
        refine ⟨?_, ?_⟩
        · simp only [World.setPhase_calls_self, RepliesOk, List.length_append,
            List.length_singleton]
          exact ⟨by omega, answersNodup_append hok.2 w src ok⟩
        · simp only [World.setPhase_calls_self, hp, phaseSteps]
          omega
      · rw [if_neg hsrc] at h; cases h
    · cases h
  · rename_i t r
    unfold World.collect at h
    dsimp only at h
    split at h
    · rename_i e o n cur pending answers hp
      simp only [hp, RepliesOk] at hok
      split at h <;> cases h
      · rename_i idx cands hnext
        have hc := nextDownload_candidates_length hok.2 hnext
        have hsplit := @List.length_eq_length_filter_add _ cands (net.isLocal (w.calls t).node)
        simp only [World.setPhase_calls_self, hp, phaseSteps, RepliesOk, true_and]
        omega
      · simp [hp, phaseSteps, RepliesOk]
    · cases h
  · unfold World.fetch at h
    dsimp only at h
    split at h
    · rename_i e o n idx ls rs hp
      by_cases hne : ls ≠ [] ∨ rs ≠ []
      · rw [if_pos hne] at h
        split at h
        · cases h
        · rename_i src hsrc
          have hlt := erase_candidate_length (List.getElem?_mem hsrc)
          split at h <;> cases h
          · simp [hp, phaseSteps, RepliesOk]
          · simp only [World.setPhase_calls_self, hp, phaseSteps, RepliesOk, true_and]
            omega
      · rw [if_neg hne] at h
        split at h <;> cases h <;> simp [hp, phaseSteps, RepliesOk]
    · cases h
  · unfold World.setAvailable at h
    split at h
    · cases h
      simp_all [phaseSteps, RepliesOk]
    · cases h

/-- What a step does to one call: if it is the step's caller, it stays on its
node and has fewer steps left; otherwise nothing. -/
theorem call_step {l : Label}
    (hrep : ∀ t, RepliesOk (net.workers (w.calls t).node).length (w.calls t).phase)
    (h : step net w l = some w') (t : Nat) :
    (l.caller = some t → (w'.calls t).node = (w.calls t).node ∧
      callSteps net (w'.calls t) < callSteps net (w.calls t)) ∧
    (l.caller ≠ some t → w'.calls t = w.calls t) := by
  rcases l.caller_or_removes with ⟨t₀, hc⟩ | ⟨y, hr⟩
  · have hf := step_frame hc h
    rw [hc]
    refine ⟨fun ht => ?_, fun ht => hf.others t fun h' => ht (by rw [h'])⟩
    cases Option.some.inj ht
    refine ⟨hf.node, ?_⟩
    simpa only [callSteps, hf.node, hf.spec] using (step_progress hc (hrep _) h).2
  · have hnone : l.caller = none := by cases l <;> simp_all [Label.removes, Label.caller]
    exact ⟨fun ht => by simp [hnone] at ht, fun _ => by rw [(step_removes hr h).1]⟩

theorem step_node {l : Label} (h : step net w l = some w') (t : Nat) :
    (w'.calls t).node = (w.calls t).node := by
  rcases l.caller_or_removes with ⟨t₀, hc⟩ | ⟨y, hr⟩
  · have hf := step_frame hc h
    by_cases ht : t = t₀
    · subst ht; exact hf.node
    · rw [hf.others t ht]
  · rw [(step_removes hr h).1]

theorem replies_step {l : Label}
    (hrep : ∀ t, RepliesOk (net.workers (w.calls t).node).length (w.calls t).phase)
    (h : step net w l = some w') (t : Nat) :
    RepliesOk (net.workers (w'.calls t).node).length (w'.calls t).phase := by
  rcases l.caller_or_removes with ⟨t₀, hc⟩ | ⟨y, hr⟩
  · have hf := step_frame hc h
    by_cases ht : t = t₀
    · subst ht; rw [hf.node]; exact (step_progress hc (hrep t) h).1
    · rw [hf.others t ht]; exact hrep t
  · rw [(step_removes hr h).1]; exact hrep t

end Progress

/-- The label moves a call on node `x`. -/
def movesOn (calls : Nat → Call) (x : Nat) (l : Label) : Bool :=
  match l.caller with
  | some t => decide ((calls t).node = x)
  | none => false

/-- The steps the calls on node `x` among the first `N` have left. -/
def stepsOn (net : Net) (x N : Nat) (w : World) : Nat :=
  ∑ t in Finset.range N, if (w.calls t).node = x then callSteps net (w.calls t) else 0

section Bound

variable {net : Net} {x N : Nat} {w w' : World}

/-- A step of a call on `x` lowers `stepsOn`, any other step keeps it. -/
theorem stepsOn_step {l : Label}
    (hrep : ∀ t, RepliesOk (net.workers (w.calls t).node).length (w.calls t).phase)
    (hfin : ∀ t, (w.calls t).node = x → t < N) (h : step net w l = some w') :
    stepsOn net x N w' + (if movesOn w.calls x l then 1 else 0) ≤ stepsOn net x N w := by
  have hle : ∀ t ∈ Finset.range N,
      (if (w'.calls t).node = x then callSteps net (w'.calls t) else 0) ≤
        (if (w.calls t).node = x then callSteps net (w.calls t) else 0) := fun t _ => by
    by_cases hc : l.caller = some t
    · obtain ⟨hn, hlt⟩ := (call_step hrep h t).1 hc
      rw [hn]; split_ifs <;> omega
    · rw [(call_step hrep h t).2 hc]
  split_ifs with hmv
  · unfold movesOn at hmv
    split at hmv
    · rename_i t hc
      have hx : (w.calls t).node = x := of_decide_eq_true hmv
      obtain ⟨hn, hlt⟩ := (call_step hrep h t).1 hc
      have : stepsOn net x N w' < stepsOn net x N w :=
        Finset.sum_lt_sum hle ⟨t, Finset.mem_range.2 (hfin t hx), by
          rw [hn, if_pos hx, if_pos hx]; exact hlt⟩
      omega
    · cases hmv
  · exact Nat.add_zero _ ▸ Finset.sum_le_sum hle

/-- No run from a world makes more steps of calls on `x` than `stepsOn`. -/
theorem run_steps_le : ∀ {ls : List Label} {w w' : World},
    (∀ t, RepliesOk (net.workers (w.calls t).node).length (w.calls t).phase) →
    (∀ t, (w.calls t).node = x → t < N) → run net w ls = some w' →
    (ls.filter (movesOn w.calls x)).length ≤ stepsOn net x N w
  | [], _, _, _, _, _ => by simp
  | l :: ls, w, w', hrep, hfin, h => by
    simp only [run, Option.bind_eq_some] at h
    obtain ⟨w₁, h₁, h₂⟩ := h
    have hnode := step_node h₁
    have hmv : movesOn w₁.calls x = movesOn w.calls x := by
      funext l'
      unfold movesOn
      cases l'.caller <;> simp [hnode]
    have ih := run_steps_le (replies_step hrep h₁) (fun t ht => hfin t (hnode t ▸ ht)) h₂
    rw [hmv] at ih
    have := stepsOn_step hrep hfin h₁
    rw [List.filter_cons]
    split_ifs at this ⊢
    · rw [List.length_cons]; omega
    · omega

end Bound

/-! ## What keeps the calls moving -/

/-- What keeps the calls on node `x` moving: an unset event of `x` has its
downloader on `x`, still at work or raised; a set event, a downloader past
`store` and a call past `available.wait()` all find `x`'s list in the cache;
and only a downloader raises. -/
structure LiveInv (x : Nat) (w : World) : Prop where
  owned : ∀ t e, w.events x = some e → (w.calls t).phase.activeEv = some e →
    (w.calls t).node = x
  loaded : ∀ t e, (w.calls t).node = x → (w.calls t).phase.activeEv = some e →
    (w.calls t).phase ≠ .store e → w.cache x ≠ none
  pending : ∀ e, w.events x = some e → w.isSet e = false → ∃ t, (w.calls t).node = x ∧
    ((w.calls t).phase.activeEv = some e ∨
      ((w.calls t).phase = .raised ∧ (w.calls t).downloaded = true))
  set_cached : ∀ e, w.events x = some e → w.isSet e = true → w.cache x ≠ none
  cached : ∀ t, (w.calls t).node = x → (w.calls t).phase = .read → w.cache x ≠ none
  raised : ∀ t, (w.calls t).node = x → (w.calls t).phase = .raised →
    (w.calls t).downloaded = true

section Live

variable {x : Nat} {w₀ w w' : World}

theorem LiveInv.congr (hv : LiveInv x w) (hev : w'.events x = w.events x)
    (hcache : w'.cache x = w.cache x) (hcalls : w'.calls = w.calls) (hset : w'.isSet = w.isSet) :
    LiveInv x w' := by
  obtain ⟨h₁, h₂, h₃, h₄, h₅, h₆⟩ := hv
  exact ⟨by rw [hev, hcalls]; exact h₁, by rw [hcache, hcalls]; exact h₂,
    by rw [hev, hset, hcalls]; exact h₃, by rw [hev, hset, hcache]; exact h₄,
    by rw [hcache, hcalls]; exact h₅, by rw [hcalls]; exact h₆⟩

/-- The call that found no event registers the next id, which no entry and no
call holds yet. -/
theorem LiveInv.registerEvent (hv : LiveInv x w) (hw : WellFormed w) {t : Nat} :
    LiveInv x (w.registerEvent t) := by
  have hcall : ∀ t', t' ≠ t → (w.registerEvent t).calls t' = w.calls t' := fun t' h => by
    simp [World.registerEvent_calls, h]
  have hself : (w.registerEvent t).calls t =
      { w.calls t with phase := .store w.fresh, downloaded := true } := by
    simp [World.registerEvent_calls]
  have hev : ∀ e, (w.registerEvent t).events x = some e →
      (x = (w.calls t).node ∧ e = w.fresh) ∨
        (x ≠ (w.calls t).node ∧ w.events x = some e ∧ e < w.fresh) := fun e he => by
    rw [World.registerEvent_events, Function.update_apply] at he
    split_ifs at he with hx
    · exact .inl ⟨hx, (Option.some.inj he).symm⟩
    · exact .inr ⟨hx, he, hw.events_lt x e he⟩
  have hset : ∀ e, e < w.fresh → (w.registerEvent t).isSet e = w.isSet e := fun e he => by
    rw [World.registerEvent_isSet, Function.update_noteq he.ne]
  refine ⟨fun t' e he ha => ?_, fun t' e hx ha hs => ?_, fun e he hs => ?_, fun e he hs => ?_,
    fun t' hx hr => ?_, fun t' hx hr => ?_⟩
  · by_cases ht : t' = t
    · subst ht
      rw [hself] at ha ⊢
      cases Option.some.inj ha
      rcases hev _ he with ⟨hx, -⟩ | ⟨-, -, hlt⟩
      · exact hx.symm
      · omega
    · rw [hcall t' ht] at ha ⊢
      have hlt := (hw.ids t').activeEv_lt ha
      rcases hev e he with ⟨-, rfl⟩ | ⟨-, he', -⟩
      · omega
      · exact hv.owned t' e he' ha
  · by_cases ht : t' = t
    · subst ht
      rw [hself] at ha hs
      cases Option.some.inj ha
      exact absurd rfl hs
    · rw [hcall t' ht] at hx ha hs
      exact hv.loaded t' e hx ha hs
  · rcases hev e he with ⟨hx, rfl⟩ | ⟨hx, he', hlt⟩
    · exact ⟨t, by rw [hself]; exact hx.symm, .inl (by rw [hself]; rfl)⟩
    · rw [hset e hlt] at hs
      obtain ⟨t'', h₁, h₂⟩ := hv.pending e he' hs
      have ht : t'' ≠ t := by rintro rfl; exact hx h₁.symm
      exact ⟨t'', by rw [hcall t'' ht]; exact h₁, by rw [hcall t'' ht]; exact h₂⟩
  · rcases hev e he with ⟨-, rfl⟩ | ⟨-, he', hlt⟩
    · simp [World.registerEvent_isSet] at hs
    · rw [hset e hlt] at hs
      exact hv.set_cached e he' hs
  · by_cases ht : t' = t
    · subst ht; simp [hself] at hr
    · rw [hcall t' ht] at hx hr
      exact hv.cached t' hx hr
  · by_cases ht : t' = t
    · subst ht; simp [hself] at hr
    · rw [hcall t' ht] at hx hr ⊢
      exact hv.raised t' hx hr

/-- The downloader stores its new list, which fills `x`'s cache if it runs there. -/
theorem LiveInv.storeList (hv : LiveInv x w) {t e : Nat} (hp : (w.calls t).phase = .store e) :
    LiveInv x (w.storeList t e) := by
  have hcall : ∀ t', t' ≠ t → (w.storeList t e).calls t' = w.calls t' := fun t' h => by
    simp [World.storeList_calls, h]
  have hself : (w.storeList t e).calls t =
      { w.calls t with phase := .loop e w.fresh (w.calls t).spec.numBlocks } := by
    simp [World.storeList_calls]
  have hact : ((w.storeList t e).calls t).phase.activeEv = (w.calls t).phase.activeEv := by
    simp [hself, hp, Phase.activeEv]
  have hcache : w.cache x ≠ none → (w.storeList t e).cache x ≠ none := fun h => by
    rw [World.storeList_cache, Function.update_apply]; split_ifs <;> simp [h]
  refine ⟨fun t' e' he ha => ?_, fun t' e' hx ha hs => ?_, fun e' he hs => ?_,
    fun e' he hs => hcache (hv.set_cached e' he hs), fun t' hx hr => ?_, fun t' hx hr => ?_⟩
  · by_cases ht : t' = t
    · subst ht
      rw [hact] at ha
      rw [hself]; exact hv.owned t' e' he ha
    · rw [hcall t' ht] at ha ⊢
      exact hv.owned t' e' he ha
  · by_cases ht : t' = t
    · subst ht
      have hx' : (w.calls t').node = x := by rw [hself] at hx; exact hx
      rw [World.storeList_cache, hx', Function.update_same]
      exact Option.some_ne_none _
    · rw [hcall t' ht] at hx ha hs
      exact hcache (hv.loaded t' e' hx ha hs)
  · obtain ⟨t'', h₁, h₂⟩ := hv.pending e' he hs
    by_cases ht : t'' = t
    · subst ht
      refine ⟨t'', by rw [hself]; exact h₁, .inl ?_⟩
      rcases h₂ with h₂ | ⟨h₂, -⟩
      · rw [hact]; exact h₂
      · simp [hp] at h₂
    · exact ⟨t'', by rw [hcall t'' ht]; exact h₁, by rw [hcall t'' ht]; exact h₂⟩
  · by_cases ht : t' = t
    · subst ht; simp [hself] at hr
    · rw [hcall t' ht] at hx hr
      exact hcache (hv.cached t' hx hr)
  · by_cases ht : t' = t
    · subst ht; simp [hself] at hr
    · rw [hcall t' ht] at hx hr ⊢
      exact hv.raised t' hx hr

/-- A move of any call; `available.set()` is the one that sets an event, and
it is the downloader on `x` that sets `x`'s. -/
theorem LiveInv.move (hv : LiveInv x w) (hco : CoalesceInv w₀ x w) {t : Nat}
    (hmv : Moved w t w') : LiveInv x w' := by
  obtain ⟨p, hm, hev, hcache, hcalls, -, -, hset, hsetp⟩ := hmv
  have hcall : ∀ t', t' ≠ t → w'.calls t' = w.calls t' := fun t' h => by
    rw [hcalls]; exact World.setPhase_calls_of_ne w h
  have hself : w'.calls t = { w.calls t with phase := p } := by rw [hcalls]; simp
  have hunset : ∀ e, w'.isSet e = false → w.isSet e = false := fun e he => by
    by_contra hne
    obtain ⟨hs, hp⟩ := hset e (by rw [he]; exact Ne.symm hne)
    rw [hsetp e hs hp] at he; cases he
  refine ⟨fun t' e he ha => ?_, fun t' e hx ha hs => ?_, fun e he hs => ?_, fun e he hs => ?_,
    fun t' hx hr => ?_, fun t' hx hr => ?_⟩
  · rw [hev] at he
    by_cases ht : t' = t
    · subst ht
      rw [hself] at ha ⊢
      exact hv.owned t' e he (hm.active e ha)
    · rw [hcall t' ht] at ha ⊢
      exact hv.owned t' e he ha
  · rw [hcache]
    by_cases ht : t' = t
    · subst ht
      rw [hself] at hx ha
      refine hv.loaded t' e hx (hm.active e ha) fun hst => ?_
      rw [hm.from_store e hst] at ha
      cases ha
    · rw [hcall t' ht] at hx ha hs
      exact hv.loaded t' e hx ha hs
  · rw [hev] at he
    obtain ⟨t'', h₁, h₂⟩ := hv.pending e he (hunset e hs)
    by_cases ht : t'' = t
    · subst ht
      refine ⟨t'', by rw [hself]; exact h₁, ?_⟩
      rw [hself]
      rcases h₂ with h₂ | ⟨h₂, -⟩
      · rcases hm.leave e h₂ with h₃ | h₃ | ⟨h₃, h₄⟩
        · exact .inl h₃
        · exact .inr ⟨h₃, hco.downloader t'' h₁ (by rw [h₂]; rfl)⟩
        · rw [hsetp e h₃ h₄] at hs; cases hs
      · exact absurd h₂ hm.not_raised
    · exact ⟨t'', by rw [hcall t'' ht]; exact h₁, by rw [hcall t'' ht]; exact h₂⟩
  · rw [hev] at he
    rw [hcache]
    by_cases hs' : w.isSet e = true
    · exact hv.set_cached e he hs'
    · obtain ⟨hp, -⟩ := hset e (by rw [hs]; exact Ne.symm hs')
      have ha : (w.calls t).phase.activeEv = some e := by rw [hp]; rfl
      exact hv.loaded t e (hv.owned t e he ha) ha (by rw [hp]; simp)
  · rw [hcache]
    by_cases ht : t' = t
    · subst ht
      rw [hself] at hx hr
      rcases hm.to_read hr with ⟨e, hw⟩ | ⟨e, hs⟩
      · exact hv.set_cached e (hco.found t' e hx (.inr hw)) (hm.from_wait e hw).1
      · exact hv.loaded t' e hx (by rw [hs]; rfl) (by rw [hs]; simp)
    · rw [hcall t' ht] at hx hr
      exact hv.cached t' hx hr
  · by_cases ht : t' = t
    · subst ht
      rw [hself] at hx hr ⊢
      rcases hm.to_raised hr with ha | ⟨hr', hc⟩
      · exact hco.downloader t' hx ha
      · exact (hv.cached t' hx hr' (by rw [← show (w.calls t').node = x from hx]; exact hc)).elim
    · rw [hcall t' ht] at hx hr ⊢
      exact hv.raised t' hx hr

/-- Every step without a removal at `x` keeps the invariant. -/
theorem LiveInv.step (hv : LiveInv x w) (hw : WellFormed w) (hco : CoalesceInv w₀ x w)
    {net : Net} {l : Label} (hl : NoRemovalAt x l) (h : BlockManager.step net w l = some w') :
    LiveInv x w' := by
  rcases l.caller_or_removes with ⟨t, hc⟩ | ⟨y, hr⟩
  · rcases step_cases hc h with ⟨-, -, rfl⟩ | ⟨e, hp, rfl⟩ | ⟨hm, -⟩
    · exact hv.registerEvent hw
    · exact hv.storeList hp
    · exact hv.move hco hm
  · have hyx := hl.ne hr
    obtain ⟨hcalls, -, hset, -, hev, hcache⟩ := step_removes hr h
    exact hv.congr (by simp [hev, Ne.symm hyx]) (by simp [hcache, Ne.symm hyx]) hcalls hset

/-- Before any step, with `x` either without the name or served it. -/
theorem liveInv_start (hstart : ∀ t, (w₀.calls t).phase = .start)
    (hserved : (w₀.events x = none ∧ w₀.cache x = none) ∨
      ∃ e o, w₀.events x = some e ∧ w₀.isSet e = true ∧ w₀.cache x = some o) :
    LiveInv x w₀ := by
  refine ⟨fun t e _ ha => ?_, fun t e _ ha => ?_, fun e he hs => ?_, fun e he _ => ?_,
    fun t _ hr => ?_, fun t _ hr => ?_⟩
  · simp [hstart t, Phase.activeEv] at ha
  · simp [hstart t, Phase.activeEv] at ha
  · rcases hserved with ⟨hn, -⟩ | ⟨e', o, he', hs', -⟩
    · simp [hn] at he
    · rw [he'] at he; cases he; simp [hs'] at hs
  · rcases hserved with ⟨hn, -⟩ | ⟨-, o, -, -, hc⟩
    · simp [hn] at he
    · simp [hc]
  · simp [hstart t] at hr
  · simp [hstart t] at hr

end Live

/-! ## Dead ends -/

section DeadEnd

variable {net : Net} {x : Nat} {w₀ w : World}

/-- A call inside the locked block, past `available.wait()` or inside
`_download` can always take a step. -/
theorem step_enabled (net : Net) (w : World) (t : Nat)
    (hp : (w.calls t).phase.holdsLock = true ∨ (w.calls t).phase = .read ∨
      (w.calls t).phase.activeEv.isSome) :
    ∃ l, l.caller = some t ∧ step net w l ≠ none := by
  cases hph : (w.calls t).phase with
  | locked r => exact ⟨.leaveLock t, rfl, by cases r <;> simp [step, World.leaveLock, hph]⟩
  | read =>
    refine ⟨.returnCache t, rfl, ?_⟩
    cases hc : w.cache (w.calls t).node <;> simp [step, World.returnCache, hph, hc]
  | store e =>
    refine ⟨.downloadStart t, rfl, ?_⟩
    simp only [step, World.downloadStart, hph]
    split_ifs <;> simp
  | loop e o n =>
    refine ⟨.nextIteration t, rfl, ?_⟩
    cases n
    · simp [step, World.nextIteration, hph]
    · cases hc : w.cache (w.calls t).node <;> simp [step, World.nextIteration, hph, hc]
  | collect e o n cur pending answers =>
    refine ⟨.collect t 0, rfl, ?_⟩
    simp only [step, World.collect, hph]
    split <;> simp
  | fetch e o n idx ls rs =>
    refine ⟨.fetch t 0 true, rfl, ?_⟩
    simp only [step, World.fetch, hph]
    rcases ls with _ | ⟨a, ls⟩ <;> rcases rs with _ | ⟨b, rs⟩ <;> simp <;> split <;> simp
  | setEvent e => exact ⟨.setAvailable t, rfl, by simp [step, World.setAvailable, hph]⟩
  | _ => simp [hph, Phase.holdsLock, Phase.activeEv] at hp

/-- Where no call on `x` can take a step and no download on `x` raised, every
call on `x` has returned `x`'s list: the lock is free or its holder can leave
it, and a waiting call's event is set or its downloader can move. -/
theorem dead_end (hw : WellFormed w) (hco : CoalesceInv w₀ x w) (hv : LiveInv x w)
    (hstuck : ∀ t l, (w.calls t).node = x → l.caller = some t → step net w l = none)
    (hok : ∀ t, (w.calls t).node = x → (w.calls t).downloaded = true →
      (w.calls t).phase ≠ .raised)
    {t : Nat} (hx : (w.calls t).node = x) :
    ∃ o, (w.calls t).phase = .done o ∧ w.cache x = some o := by
  have hmoves : ∀ t, (w.calls t).node = x → ¬((w.calls t).phase.holdsLock = true ∨
      (w.calls t).phase = .read ∨ (w.calls t).phase.activeEv.isSome) := fun t ht hp => by
    obtain ⟨l, hl, hs⟩ := step_enabled net w t hp
    exact hs (hstuck t l ht hl)
  cases hph : (w.calls t).phase with
  | start =>
    cases hlk : w.lock x
    · have := hstuck t (.checkEvent t) hx rfl
      simp [step, World.checkEvent, hph, hx, hlk] at this
    · obtain ⟨t', ht', hh⟩ := hw.lock.owner x hlk
      exact absurd (.inl hh) (hmoves t' ht')
  | wait e =>
    cases hs : w.isSet e
    · obtain ⟨t', ht', h'⟩ := hv.pending e (hco.found t e hx (.inr hph)) hs
      rcases h' with ha | ⟨hr, hd⟩
      · exact absurd (.inr (.inr (by rw [ha]; rfl))) (hmoves t' ht')
      · exact absurd hr (hok t' ht' hd)
    · have := hstuck t (.wakeUp t) hx rfl
      simp [step, World.wakeUp, hph, hs] at this
  | done o => exact ⟨o, rfl, hco.returned t o hx hph⟩
  | raised => exact absurd hph (hok t hx (hv.raised t hx hph))
  | _ => exact absurd (by simp [hph, Phase.holdsLock, Phase.activeEv]) (hmoves t hx)

end DeadEnd

/-! ## Every call returns -/

section Returns

variable {net : Net} {x : Nat} {w₀ w : World}

/-- The invariants of the calls on `x`, in every world of a run without
removals at `x`, from a world where every call is about to take the lock. -/
theorem live_reachable (h₀ : WellFormed w₀)
    (hstart : ∀ t, (w₀.calls t).phase = .start ∧ (w₀.calls t).downloaded = false)
    (hserved : (w₀.events x = none ∧ w₀.cache x = none) ∨
      ∃ e o, w₀.events x = some e ∧ w₀.isSet e = true ∧ w₀.cache x = some o)
    (hw : Reachable net (NoRemovalAt x) w₀ w) :
    WellFormed w ∧ CoalesceInv w₀ x w ∧ LiveInv x w ∧
      (∀ t, RepliesOk (net.workers (w.calls t).node).length (w.calls t).phase) ∧
      ∀ t, (w.calls t).node = (w₀.calls t).node := by
  induction hw with
  | refl =>
    have hcache : w₀.events x = none → w₀.cache x = none := fun he => by
      rcases hserved with ⟨-, hc⟩ | ⟨e, o, he', -⟩
      · exact hc
      · simp [he] at he'
    exact ⟨h₀, coalesceInv_start hstart hcache, liveInv_start (fun t => (hstart t).1) hserved,
      fun t => by simp [(hstart t).1, RepliesOk], fun _ => rfl⟩
  | tail _ hl hs ih =>
    obtain ⟨hw, hco, hv, hrep, hnode⟩ := ih
    exact ⟨hw.step hs, hco.step hw.lock hl hs, hv.step hw hco hl hs, replies_step hrep hs,
      fun t => (step_node hs t).trans (hnode t)⟩

/-- Calls of `get_blocks` on node `x`, finitely many, from a world where `x`
has no entry for the name or has been served it, in any interleaving with the
other nodes and no removal at `x`: at most one of them downloads, none if the
name was served; once one has left the locked block there is a downloader if it
was not;
every call that returns returns the list in `x`'s cache, which then stays;
every run makes a bounded number of steps of the calls on `x`; and where none
of them can move and no download on `x` raised, all of them have returned that
list, and one of them downloaded it if it was not served. -/
theorem get_blocks_coalesce (net : Net) (x N : Nat) {w₀ w : World} (h₀ : WellFormed w₀)
    (hstart : ∀ t, (w₀.calls t).phase = .start ∧ (w₀.calls t).downloaded = false)
    (hserved : (w₀.events x = none ∧ w₀.cache x = none) ∨
      ∃ e o, w₀.events x = some e ∧ w₀.isSet e = true ∧ w₀.cache x = some o)
    (hfin : ∀ t, (w₀.calls t).node = x → t < N)
    (hw : Reachable net (NoRemovalAt x) w₀ w) :
    (∀ t t', (w.calls t).node = x → (w.calls t').node = x → (w.calls t).downloaded = true →
      (w.calls t').downloaded = true → t = t') ∧
    (w₀.events x ≠ none → ∀ t, (w.calls t).node = x → (w.calls t).downloaded = false) ∧
    (w₀.events x = none → (∃ t, (w.calls t).node = x ∧ (w.calls t).phase ≠ .start ∧
      (w.calls t).phase.holdsLock = false) →
      ∃ t, (w.calls t).node = x ∧ (w.calls t).downloaded = true) ∧
    (∀ t o, (w.calls t).node = x → (w.calls t).phase = .done o → w.cache x = some o) ∧
    (∀ o w', w.cache x = some o → Reachable net (NoRemovalAt x) w w' →
      w'.cache x = some o) ∧
    (∃ B, ∀ ls w', run net w ls = some w' → (ls.filter (movesOn w.calls x)).length ≤ B) ∧
    ((∀ t l, (w.calls t).node = x → l.caller = some t → step net w l = none) →
      (∀ t, (w.calls t).node = x → (w.calls t).downloaded = true →
        (w.calls t).phase ≠ .raised) →
      ∀ t, (w.calls t).node = x →
        (∃ o, (w.calls t).phase = .done o ∧ w.cache x = some o) ∧
        (w₀.events x = none →
          ∃ t', (w.calls t').node = x ∧ (w.calls t').downloaded = true)) := by
  obtain ⟨hwf, hco, hv, hrep, hnode⟩ := live_reachable h₀ hstart hserved hw
  have hdl : w₀.events x = none → (∃ t, (w.calls t).node = x ∧
      (w.calls t).phase ≠ .start ∧ (w.calls t).phase.holdsLock = false) →
      ∃ t, (w.calls t).node = x ∧ (w.calls t).downloaded = true := by
    rintro h₀ ⟨t, ht, hp, hl⟩
    have hreg : w.events x ≠ none := fun he => by
      rcases ((hco.unregistered he).2 t ht).1 with h | h
      · exact hp h
      · simp [h, Phase.holdsLock] at hl
    exact (hco.origin hreg).resolve_left (not_not.2 h₀)
  refine ⟨hco.unique, fun h₀ t ht => ?_, hdl, hco.returned, fun o w' ho hw' => ?_,
    ⟨stepsOn net x N w, fun ls w' h => run_steps_le hrep
      (fun t ht => hfin t (hnode t ▸ ht)) h⟩, fun hstuck hok t ht => ?_⟩
  · cases hd : (w.calls t).downloaded
    · rfl
    · exact absurd (hco.served t ht hd) h₀
  · suffices WellFormed w' ∧ CoalesceInv w₀ x w' ∧ w'.cache x = some o from this.2.2
    induction hw' with
    | refl => exact ⟨hwf, hco, ho⟩
    | tail _ hl hs ih =>
      exact ⟨ih.1.step hs, ih.2.1.step ih.1.lock hl hs, ih.2.1.cache_stable hl hs ih.2.2⟩
  · obtain ⟨o, hp, hc⟩ := dead_end hwf hco hv hstuck hok ht
    exact ⟨⟨o, hp, hc⟩,
      fun h₀ => hdl h₀ ⟨t, ht, by simp [hp], by simp [hp, Phase.holdsLock]⟩⟩

end Returns

/-- Calls `0` and `1` run on node `1`, the others on node `2`. -/
def pairCalls (t : Nat) : Call := ⟨if t < 2 then 1 else 2, ⟨0, 1⟩, .start, false⟩

/-- Node `0` serves the single block `[7]`. -/
def pairStart : World := (World.empty pairCalls).serveBlocks 0 [[7]]

/-- Call `0` takes the lock and registers the event, call `1` then finds it and
waits while call `0` downloads the seeder's block; both return. -/
def pairLabels : List Label :=
  [.checkEvent 0, .leaveLock 0, .checkEvent 1, .leaveLock 1, .downloadStart 0,
    .nextIteration 0, .collect 0 0, .fetch 0 0 true, .nextIteration 0, .setAvailable 0,
    .returnCache 0, .wakeUp 1, .returnCache 1]

def pairEnd : World := (run exampleNet pairStart pairLabels).getD pairStart

theorem get_blocks_coalesce_example :
    (∀ t t', (pairEnd.calls t).node = 1 → (pairEnd.calls t').node = 1 →
      (pairEnd.calls t).downloaded = true → (pairEnd.calls t').downloaded = true → t = t') ∧
    (pairStart.events 1 ≠ none →
      ∀ t, (pairEnd.calls t).node = 1 → (pairEnd.calls t).downloaded = false) ∧
    (pairStart.events 1 = none → (∃ t, (pairEnd.calls t).node = 1 ∧
      (pairEnd.calls t).phase ≠ .start ∧ (pairEnd.calls t).phase.holdsLock = false) →
      ∃ t, (pairEnd.calls t).node = 1 ∧ (pairEnd.calls t).downloaded = true) ∧
    (∀ t o, (pairEnd.calls t).node = 1 → (pairEnd.calls t).phase = .done o →
      pairEnd.cache 1 = some o) ∧
    (∀ o w', pairEnd.cache 1 = some o → Reachable exampleNet (NoRemovalAt 1) pairEnd w' →
      w'.cache 1 = some o) ∧
    (∃ B, ∀ ls w', run exampleNet pairEnd ls = some w' →
      (ls.filter (movesOn pairEnd.calls 1)).length ≤ B) ∧
    ((∀ t l, (pairEnd.calls t).node = 1 → l.caller = some t →
        step exampleNet pairEnd l = none) →
      (∀ t, (pairEnd.calls t).node = 1 → (pairEnd.calls t).downloaded = true →
        (pairEnd.calls t).phase ≠ .raised) →
      ∀ t, (pairEnd.calls t).node = 1 →
        (∃ o, (pairEnd.calls t).phase = .done o ∧ pairEnd.cache 1 = some o) ∧
        (pairStart.events 1 = none →
          ∃ t', (pairEnd.calls t').node = 1 ∧ (pairEnd.calls t').downloaded = true)) :=
  get_blocks_coalesce exampleNet 1 2 (wellFormed_start (fun _ => rfl) 0 [[7]])
    (fun _ => ⟨rfl, rfl⟩) (.inl ⟨rfl, rfl⟩)
    (fun t h => by
      by_contra hn
      simp [pairStart, pairCalls, World.serveBlocks, World.empty, hn] at h)
    (reachable_of_run .refl (by simp [pairLabels, NoRemovalAt])
      (rfl : run exampleNet pairStart pairLabels = some pairEnd))

example : (pairEnd.calls 0).phase = .done 3 ∧ (pairEnd.calls 1).phase = .done 3 ∧
    (pairEnd.calls 0).downloaded = true := ⟨rfl, rfl, rfl⟩

end Bndl.Rmi.Returns
