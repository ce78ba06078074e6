import Bndl.Rmi.Invariants
/-!
# A failed download leaves its event behind

`get_blocks` registers a fresh, unset event for the name before it calls
`_download`, and sets it only after `_download` returns.  If `_download` raises
(the assertion that the node is not the seeder, a `KeyError` when the list is
gone, no seeder in the peer table, a failed fetch from the seeder), nothing
removes or sets the event.

`failed_download_keeps_event`: after such a raise, and for as long as no
removal reaches the node, the event stays registered and unset, and every call
on the node that had not yet passed `available.wait()` stays before it, so the
calls of the node hang.  The run invariant is `Stuck`; it rests on
`WellFormed`, which says that the failed call was the only one downloading
under the event and that a call holding the lock and finding no event finds
none still.
-/

namespace Bndl.Rmi.Failure

open Bndl.Rmi.BlockManager Bndl.Rmi.Invariants

/-- A call that has not got past `available.wait()` on the event `e`: it is
before the lock, holds it having found `e`, or waits on `e`. -/
def BeforeWait (e : Nat) (p : Phase) : Prop :=
  p = .start ∨ p = .locked (some e) ∨ p = .wait e

/-- What holds on node `x` once the download under `e` has failed, with
`waiting` the calls that were before `available.wait()` at that time. -/
structure Stuck (x e : Nat) (waiting : Nat → Prop) (w : World) : Prop where
  wf : WellFormed w
  registered : w.events x = some e
  unset : w.isSet e = false
  orphan : ∀ t, (w.calls t).phase.activeEv ≠ some e
  waiting : ∀ t, waiting t → (w.calls t).node = x ∧ BeforeWait e (w.calls t).phase

section Steps

variable {x e : Nat} {W : Nat → Prop} {w : World}

theorem Stuck.registerEvent (hs : Stuck x e W w) {t : Nat}
    (hp : (w.calls t).phase = .locked none) : Stuck x e W (w.registerEvent t) := by
  have hnone := hs.wf.lock.read t hp
  have hx : (w.calls t).node ≠ x := fun hx => by simp [hx, hs.registered] at hnone
  have hlt : e < w.fresh := hs.wf.events_lt x e hs.registered
  have hf : CallFrame w t (w.registerEvent t) := .registerEvent
  refine ⟨hs.wf.registerEvent hp, ?_, ?_, fun t' => ?_, fun t' ht' => ?_⟩
  · rw [World.registerEvent_events, Function.update_noteq (Ne.symm hx), hs.registered]
  · rw [World.registerEvent_isSet, Function.update_noteq hlt.ne, hs.unset]
  · by_cases ht : t' = t
    · subst ht; simp [World.registerEvent_calls, Phase.activeEv, hlt.ne']
    · rw [hf.others t' ht]; exact hs.orphan t'
  · have hne : t' ≠ t := fun h => hx (h ▸ (hs.waiting t' ht').1)
    rw [hf.others t' hne]; exact hs.waiting t' ht'

theorem Stuck.storeList (hs : Stuck x e W w) {t e' : Nat} (hp : (w.calls t).phase = .store e') :
    Stuck x e W (w.storeList t e') := by
  have hf : CallFrame w t (w.storeList t e') := .storeList e'
  refine ⟨hs.wf.storeList hp, hs.registered, hs.unset, fun t' => ?_, fun t' ht' => ?_⟩
  · by_cases ht : t' = t
    · subst ht
      have := hs.orphan t'
      simp only [World.storeList_calls, Function.update_same, hp, Phase.activeEv] at this ⊢
      exact this
    · rw [hf.others t' ht]; exact hs.orphan t'
  · have hne : t' ≠ t := by
      rintro rfl; rcases (hs.waiting t' ht').2 with h | h | h <;> simp [hp] at h
    rw [hf.others t' hne]; exact hs.waiting t' ht'

theorem Stuck.move (hs : Stuck x e W w) {t : Nat} {w' : World} (hw' : WellFormed w')
    (hf : CallFrame w t w') (hmv : Moved w t w') : Stuck x e W w' := by
  obtain ⟨p, hm, hev, -, hcalls, -, -, hset, -⟩ := hmv
  refine ⟨hw', hev ▸ hs.registered, ?_, fun t' => ?_, fun t' ht' => ?_⟩
  · by_contra hne
    have := hs.orphan t
    rw [(hset e (by rw [hs.unset]; exact hne)).1] at this
    exact this rfl
  · by_cases ht : t' = t
    · subst ht
      intro h
      rw [hcalls, World.setPhase_calls_self] at h
      exact hs.orphan t' (hm.active e h)
    · rw [hf.others t' ht]; exact hs.orphan t'
  · obtain ⟨hx, hp⟩ := hs.waiting t' ht'
    by_cases ht : t' = t
    · subst ht
      refine ⟨hf.node ▸ hx, ?_⟩
      rw [hcalls, World.setPhase_calls_self]
      rcases hp with hp | hp | hp
      · have := hm.from_start hp
        rw [hx, hs.registered] at this
        exact .inr (.inl this)
      · obtain ⟨e', he', rfl⟩ := hm.from_locked _ hp
        cases he'
        exact .inr (.inr rfl)
      · exact absurd (hm.from_wait e hp).1 (by simp [hs.unset])
    · rw [hf.others t' ht]; exact ⟨hx, hp⟩

/-- Every step without a removal at `x` keeps the failed download's traces. -/
theorem Stuck.step (hs : Stuck x e W w) {net : Net} {l : Label} (hl : NoRemovalAt x l)
    {w' : World} (h : BlockManager.step net w l = some w') : Stuck x e W w' := by
  rcases l.caller_or_removes with ⟨t, hc⟩ | ⟨y, hr⟩
  · rcases step_cases hc h with ⟨-, hp, rfl⟩ | ⟨e', hp, rfl⟩ | ⟨hmv, -, -⟩
    · exact hs.registerEvent hp
    · exact hs.storeList hp
    · exact hs.move (hs.wf.step h) (step_frame hc h) hmv
  · have hyx := hl.ne hr
    obtain ⟨hcalls, -, hset, -, hev, -⟩ := step_removes hr h
    refine ⟨hs.wf.removes hr h, ?_, hset ▸ hs.unset, hcalls ▸ hs.orphan,
      hcalls ▸ hs.waiting⟩
    rw [hev, Function.update_noteq hyx.symm, hs.registered]

theorem Stuck.reachable (hs : Stuck x e W w) {net : Net} {w' : World}
    (h : Reachable net (NoRemovalAt x) w w') : Stuck x e W w' := by
  induction h with
  | refl => exact hs
  | tail _ hl hstep ih => exact ih.step hl hstep

/-- The step in which the download under `e` raises starts `Stuck`. -/
theorem stuck_of_raise (hw : WellFormed w) {net : Net} {t : Nat} {l : Label} {w' : World}
    (he : (w.calls t).phase.activeEv = some e) (hreg : w.events (w.calls t).node = some e)
    (h : BlockManager.step net w l = some w') (hraise : (w'.calls t).phase = .raised) :
    Stuck (w.calls t).node e (fun t' => (w'.calls t').node = (w.calls t).node ∧
      BeforeWait e (w'.calls t').phase) w' := by
  have hmoved : (w'.calls t).phase ≠ (w.calls t).phase := by
    rw [hraise]; intro h; rw [← h] at he; simp [Phase.activeEv] at he
  rcases l.caller_or_removes with ⟨t₁, hc⟩ | ⟨y, hr⟩
  · have ht₁ : t₁ = t := by
      by_contra hne; exact hmoved (by rw [(step_frame hc h).others t (Ne.symm hne)])
    subst ht₁
    rcases step_cases hc h with ⟨-, hp, rfl⟩ | ⟨e', hp, rfl⟩ |
      ⟨⟨p, -, hev, -, hcalls, -, -, hset, -⟩, -⟩
    · simp [hp, Phase.activeEv] at he
    · simp [World.storeList_calls] at hraise
    · have hp : p = .raised := by simpa [hcalls] using hraise
      subst hp
      refine ⟨hw.step h, hev ▸ hreg, ?_, fun t' => ?_, fun t' ht' => ht'⟩
      · by_contra hne
        exact absurd (hset e (by rw [hw.unset t₁ e he]; exact hne)).2 (by simp)
      · by_cases ht : t' = t₁
        · subst ht; simp [hcalls, Phase.activeEv]
        · rw [hcalls, World.setPhase_calls_of_ne _ ht]
          exact fun h' => ht (hw.active t' t₁ e h' he)
  · exact absurd (by rw [(step_removes hr h).1]) hmoved

end Steps

/-- If the download of call `t` under its event `e` raises while `e` is still
the node's entry, then until a removal reaches the node the entry stays, unset,
and no call of the node that was before `available.wait()` gets past it. -/
theorem failed_download_keeps_event (net : Net) {w₀ w w' w'' : World} (h₀ : WellFormed w₀)
    (hw : Reachable net (fun _ => True) w₀ w) {t e : Nat} {l : Label}
    (he : (w.calls t).phase.activeEv = some e) (hreg : w.events (w.calls t).node = some e)
    (h : step net w l = some w') (hraise : (w'.calls t).phase = .raised)
    (hw' : Reachable net (NoRemovalAt (w.calls t).node) w' w'') :
    w''.events (w.calls t).node = some e ∧ w''.isSet e = false ∧
      ∀ t', (w'.calls t').node = (w.calls t).node → BeforeWait e (w'.calls t').phase →
        BeforeWait e (w''.calls t').phase := by
  have hs := (stuck_of_raise (h₀.reachable hw) he hreg h hraise).reachable hw'
  exact ⟨hs.registered, hs.unset, fun t' hx hp => (hs.waiting t' ⟨hx, hp⟩).2⟩

/-- Call `0` on node `1` downloads node `0`'s list under event `2`, and its
fetch from the seeder, the only candidate, has just failed once. -/
def failingRun : List Label :=
  [.checkEvent 0, .leaveLock 0, .downloadStart 0, .nextIteration 0, .collect 0 0,
    .fetch 0 0 false]

def beforeFailure : World := (run exampleNet exampleStart failingRun).getD exampleStart

/-- The fallback fetch from the seeder fails too, and `_download` raises. -/
def afterFailure : World := (step exampleNet beforeFailure (.fetch 0 0 false)).getD exampleStart

/-- Call `1` on node `1` then takes the lock, finds event `2` and waits on it. -/
def laterCall : World :=
  (run exampleNet afterFailure [.checkEvent 1, .leaveLock 1]).getD exampleStart

theorem failed_download_keeps_event_example :
    exampleStart.events 1 = none ∧ (beforeFailure.calls 0).phase.activeEv = some 2 ∧
      (afterFailure.calls 0).phase = .raised ∧ (laterCall.calls 1).phase = .wait 2 ∧
      laterCall.events (beforeFailure.calls 0).node = some 2 ∧ laterCall.isSet 2 = false ∧
      ∀ t', (afterFailure.calls t').node = (beforeFailure.calls 0).node →
        BeforeWait 2 (afterFailure.calls t').phase → BeforeWait 2 (laterCall.calls t').phase :=
  ⟨rfl, rfl, rfl, rfl,
    failed_download_keeps_event exampleNet (wellFormed_start (fun _ => rfl) 0 [[7]])
    (reachable_of_run .refl (by simp [failingRun])
      (rfl : run exampleNet exampleStart failingRun = some beforeFailure))
    (rfl : (beforeFailure.calls 0).phase.activeEv = some 2) rfl
    (rfl : step exampleNet beforeFailure (.fetch 0 0 false) = some afterFailure) rfl
    (reachable_of_run .refl (by simp [NoRemovalAt])
      (rfl : run exampleNet afterFailure [.checkEvent 1, .leaveLock 1] = some laterCall))⟩

end Bndl.Rmi.Failure
