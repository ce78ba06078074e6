import Bndl.Rmi.BlockManager
/-!
# Ids and downloaders in every reachable world

Whatever the interleaving, removals included, the object ids a world refers to
are below its `fresh` counter, no two calls download under the same event, the
event of a downloading call is unset, and `_available_lock` keeps `LockInv`.
`WellFormed` collects these facts.
`WellFormed.step` derives them for every step from the three shapes a call's
step can take (`step_cases`) and from what a removal does (`step_removes`), and
`WellFormed.reachable` carries them over whole runs.
-/

namespace Bndl.Rmi.Invariants

open Bndl.Rmi.Slots Bndl.Rmi.BlockManager

/-- No two calls hold the same event while they download. -/
def ActiveUnique (calls : Nat → Call) : Prop :=
  ∀ t t' e, (calls t).phase.activeEv = some e → (calls t').phase.activeEv = some e → t = t'

/-- Changing one call keeps the downloaders apart if the changed call holds no
event another call holds. -/
theorem ActiveUnique.update {calls : Nat → Call} (h : ActiveUnique calls) {t : Nat} {c : Call}
    (hc : ∀ e t', c.phase.activeEv = some e → (calls t').phase.activeEv = some e → t' = t) :
    ActiveUnique (Function.update calls t c) := by
  intro t₁ t₂ e h₁ h₂
  by_cases ht₁ : t₁ = t <;> by_cases ht₂ : t₂ = t
  · rw [ht₁, ht₂]
  · rw [ht₁, Function.update_same] at h₁
    rw [Function.update_noteq ht₂] at h₂
    exact ht₁.trans (hc e t₂ h₁ h₂).symm
  · rw [Function.update_noteq ht₁] at h₁
    rw [ht₂, Function.update_same] at h₂
    exact (hc e t₁ h₂ h₁).trans ht₂.symm
  · rw [Function.update_noteq ht₁] at h₁
    rw [Function.update_noteq ht₂] at h₂
    exact h t₁ t₂ e h₁ h₂

/-- A call that keeps downloading under the event it held stays apart. -/
theorem ActiveUnique.keep {calls : Nat → Call} (h : ActiveUnique calls) {t : Nat} {c : Call}
    (hc : ∀ e, c.phase.activeEv = some e → (calls t).phase.activeEv = some e) :
    ActiveUnique (Function.update calls t c) :=
  h.update fun e t' h₁ h₂ => h t' t e h₂ (hc e h₁)

/-- The facts every reachable world keeps. -/
structure WellFormed (w : World) : Prop where
  events_lt : ∀ x e, w.events x = some e → e < w.fresh
  cache_lt : ∀ x o, w.cache x = some o → o < w.fresh
  ids : ∀ t, (w.calls t).phase.IdsBelow w.fresh
  active : ActiveUnique w.calls
  unset : ∀ t e, (w.calls t).phase.activeEv = some e → w.isSet e = false
  lock : LockInv w

section Steps

variable {w : World}

theorem WellFormed.registerEvent (hw : WellFormed w) {t : Nat}
    (hp : (w.calls t).phase = .locked none) : WellFormed (w.registerEvent t) := by
  have hne : ∀ t' e, (w.calls t').phase.activeEv = some e → e ≠ w.fresh :=
    fun t' e he => ((hw.ids t').activeEv_lt he).ne
  refine ⟨fun x e he => ?_, fun x o ho => ?_, fun t' => ?_, ?_, fun t' e he => ?_,
    hw.lock.registerEvent hp⟩
  · simp only [World.registerEvent_events, World.registerEvent_fresh,
      Function.update_apply] at he ⊢
    split_ifs at he
    · cases he; omega
    · have := hw.events_lt x e he; omega
  · have := hw.cache_lt x o ho; simp only [World.registerEvent_fresh]; omega
  · simp only [World.registerEvent_calls, World.registerEvent_fresh, Function.update_apply]
    split_ifs
    · simp [Phase.IdsBelow]
    · exact (hw.ids t').mono (Nat.le_succ _)
  · rw [World.registerEvent_calls]
    exact hw.active.update fun e t' h h' =>
      absurd (by simpa [Phase.activeEv] using h.symm) (hne t' e h')
  · simp only [World.registerEvent_calls, World.registerEvent_isSet,
      Function.update_apply] at he ⊢
    split_ifs at he with ht
    · simp only [Phase.activeEv, Option.some.injEq] at he; simp [he]
    · rw [if_neg (hne t' e he)]; exact hw.unset t' e he

theorem WellFormed.storeList (hw : WellFormed w) {t e : Nat} (hp : (w.calls t).phase = .store e) :
    WellFormed (w.storeList t e) := by
  have hkeep : ∀ e', (Phase.loop e w.fresh (w.calls t).spec.numBlocks).activeEv = some e' →
      (w.calls t).phase.activeEv = some e' := by simp [hp, Phase.activeEv]
  refine ⟨fun x e' he => ?_, fun x o ho => ?_, fun t' => ?_, ?_, fun t' e' he => ?_,
    hw.lock.keep (CallFrame.storeList e).others (CallFrame.storeList e).node
      (by simp [hp, Phase.holdsLock]) (by simp [World.storeList_calls, Phase.holdsLock]) rfl
      fun _ _ _ => rfl⟩
  · have := hw.events_lt x e' he; simp only [World.storeList_fresh]; omega
  · simp only [World.storeList_cache, World.storeList_fresh, Function.update_apply] at ho ⊢
    split_ifs at ho
    · cases ho; omega
    · have := hw.cache_lt x o ho; omega
  · simp only [World.storeList_calls, World.storeList_fresh, Function.update_apply]
    split_ifs
    · have := hw.ids t; simp only [hp, Phase.IdsBelow] at this ⊢; omega
    · exact (hw.ids t').mono (Nat.le_succ _)
  · rw [World.storeList_calls]; exact hw.active.keep hkeep
  · simp only [World.storeList_calls, World.storeList_isSet, Function.update_apply] at he ⊢
    split_ifs at he with ht
    · exact hw.unset t e' (hkeep e' he)
    · exact hw.unset t' e' he

/-- A move keeps the world well formed. -/
theorem WellFormed.move (hw : WellFormed w) {t : Nat} {w' : World} (hmv : Moved w t w')
    (hl : LockMove w t w') : WellFormed w' := by
  obtain ⟨p, hm, hev, hcache, hcalls, hfresh, -, hset, -⟩ := id hmv
  have hsame : ∀ t' e, (w'.calls t').phase.activeEv = some e → w'.isSet e = w.isSet e := by
    intro t' e he
    by_contra hne
    obtain ⟨hs, rfl⟩ := hset e hne
    by_cases ht : t' = t
    · subst ht; simp [hcalls, Phase.activeEv] at he
    · rw [hcalls, World.setPhase_calls_of_ne _ ht] at he
      exact ht (hw.active t' t e he (by rw [hs]; rfl))
  refine ⟨fun x e he => ?_, fun x o ho => ?_, fun t' => ?_, ?_, fun t' e he => ?_,
    hw.lock.move hmv hl⟩
  · rw [hev] at he; rw [hfresh]; exact hw.events_lt x e he
  · rw [hcache] at ho; rw [hfresh]; exact hw.cache_lt x o ho
  · rw [hcalls, hfresh]
    by_cases ht : t' = t
    · subst ht
      simpa using hm.ids _ (hw.ids t') (hw.cache_lt _) (hw.events_lt _)
    · rw [World.setPhase_calls_of_ne _ ht]; exact hw.ids t'
  · rw [hcalls]; exact hw.active.keep hm.active
  · rw [hsame t' e he]
    rw [hcalls] at he
    by_cases ht : t' = t
    · subst ht; exact hw.unset t' e (hm.active e (by simpa using he))
    · rw [World.setPhase_calls_of_ne _ ht] at he; exact hw.unset t' e he

/-- A removal keeps the world well formed. -/
theorem WellFormed.removes (hw : WellFormed w) {net : Net} {l : Label} {y : Nat}
    (hl : l.removes = some y) {w' : World} (h : step net w l = some w') : WellFormed w' := by
  obtain ⟨hcalls, -, hset, hfresh, hev, hcache⟩ := step_removes hl h
  refine ⟨fun x e he => ?_, fun x o ho => ?_, fun t => ?_, ?_, fun t e he => ?_,
    hw.lock.step h⟩
  · rw [hev, Function.update_apply] at he
    split_ifs at he
    rw [hfresh]; exact hw.events_lt x e he
  · rw [hcache, Function.update_apply] at ho
    split_ifs at ho
    rw [hfresh]; exact hw.cache_lt x o ho
  · rw [hcalls, hfresh]; exact hw.ids t
  · rw [hcalls]; exact hw.active
  · rw [hcalls] at he; rw [hset]; exact hw.unset t e he

/-- Every step keeps the world well formed. -/
theorem WellFormed.step (hw : WellFormed w) {net : Net} {l : Label} {w' : World}
    (h : BlockManager.step net w l = some w') : WellFormed w' := by
  rcases l.caller_or_removes with ⟨t, hc⟩ | ⟨y, hr⟩
  · rcases step_cases hc h with ⟨-, hp, rfl⟩ | ⟨e, hp, rfl⟩ | ⟨hm, hl, -⟩
    · exact hw.registerEvent hp
    · exact hw.storeList hp
    · exact hw.move hm hl
  · exact hw.removes hr h

theorem WellFormed.reachable (hw : WellFormed w) {net : Net} {allowed : Label → Prop}
    {w' : World} (h : Reachable net allowed w w') : WellFormed w' := by
  induction h with
  | refl => exact hw
  | tail _ _ hs ih => exact ih.step hs

/-- Before any step, with every call about to take the lock and the seeder's
list served, the world is well formed. -/
theorem wellFormed_start {calls : Nat → Call} (hstart : ∀ t, (calls t).phase = .start)
    (S : Nat) (L : List Block) : WellFormed ((World.empty calls).serveBlocks S L) := by
  refine ⟨fun x e he => ?_, fun x o ho => ?_, fun t => ?_, fun t t' e h _ => ?_,
    fun t e he => ?_, lockInv_of_free (fun t => by simp [World.serveBlocks, World.empty, hstart,
      Phase.holdsLock]) fun _ => rfl⟩
  · simp only [World.serveBlocks, World.empty, Function.update_apply] at he ⊢
    split_ifs at he; cases he; omega
  · simp only [World.serveBlocks, World.empty, Function.update_apply] at ho ⊢
    split_ifs at ho; cases ho; omega
  · simp [World.serveBlocks, World.empty, hstart, Phase.IdsBelow]
  · simp [World.serveBlocks, World.empty, hstart, Phase.activeEv] at h
  · simp [World.serveBlocks, World.empty, hstart, Phase.activeEv] at he

end Steps

end Bndl.Rmi.Invariants
