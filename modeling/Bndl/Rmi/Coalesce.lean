import Bndl.Rmi.BlockManager
/-!
# Concurrent `get_blocks` calls on one node share one download

Any number of calls run `get_blocks` for the name on node `x`, interleaved with
anything the other nodes do, while no removal reaches `x`.  The read of
`self._available_events.get(name)` and the registration of a new event happen
under `_available_lock`, and nothing but a removal changes `x`'s entry between
them, so the first call to take the lock becomes the only downloader and every
later one finds its event (`CoalesceInv`): at most one call on `x` runs
`_download`, none if the name was already there, every call that holds the
lock or waits has found the node's event, every call that returns returns the
list in `x`'s cache, and that entry, once set, never changes.

Only node `x`'s two entries and the calls on `x` matter; a step of a call on
another node leaves them alone.
-/

namespace Bndl.Rmi.Coalesce

open Bndl.Rmi.Slots Bndl.Rmi.BlockManager

/-- What holds of node `x` in a run from `w₀`. -/
structure CoalesceInv (w₀ : World) (x : Nat) (w : World) : Prop where
  unregistered : w.events x = none →
    w.cache x = none ∧ ∀ t, (w.calls t).node = x →
      ((w.calls t).phase = .start ∨ (w.calls t).phase = .locked none) ∧
        (w.calls t).downloaded = false
  registered : w₀.events x ≠ none → w.events x ≠ none
  found : ∀ t e, (w.calls t).node = x →
    ((w.calls t).phase = .locked (some e) ∨ (w.calls t).phase = .wait e) → w.events x = some e
  downloader : ∀ t, (w.calls t).node = x → (w.calls t).phase.activeEv.isSome →
    (w.calls t).downloaded = true
  unique : ∀ t t', (w.calls t).node = x → (w.calls t').node = x →
    (w.calls t).downloaded = true → (w.calls t').downloaded = true → t = t'
  store_empty : ∀ t e, (w.calls t).node = x → (w.calls t).phase = .store e → w.cache x = none
  returned : ∀ t o, (w.calls t).node = x → (w.calls t).phase = .done o → w.cache x = some o
  served : ∀ t, (w.calls t).node = x → (w.calls t).downloaded = true → w₀.events x = none
  origin : w.events x ≠ none →
    w₀.events x ≠ none ∨ ∃ t, (w.calls t).node = x ∧ (w.calls t).downloaded = true

section Steps

variable {w₀ w : World} {x : Nat}

/-- A step of a call on another node. -/
theorem CoalesceInv.frame (hw : CoalesceInv w₀ x w) {w' : World} {t : Nat}
    (hx : (w.calls t).node ≠ x) (hev : w'.events x = w.events x)
    (hcache : w'.cache x = w.cache x)
    (hcalls : ∀ t', t' ≠ t → w'.calls t' = w.calls t')
    (hnode : (w'.calls t).node = (w.calls t).node) : CoalesceInv w₀ x w' := by
  have hon : ∀ t', (w'.calls t').node = x → w'.calls t' = w.calls t' := by
    intro t' h
    by_cases ht : t' = t
    · subst ht; exact absurd (hnode ▸ h) hx
    · exact hcalls t' ht
  refine ⟨fun he => ?_, fun h => hev ▸ hw.registered h, fun t' e h hp => ?_, fun t' h => ?_,
    fun t₁ t₂ h₁ h₂ => ?_, fun t' e h => ?_, fun t' o h => ?_, fun t' h => ?_,
    fun he => ?_⟩
  · obtain ⟨hc, hall⟩ := hw.unregistered (hev ▸ he)
    exact ⟨hcache ▸ hc, fun t' h => hon t' h ▸ hall t' (hon t' h ▸ h)⟩
  · rw [hon t' h] at hp; rw [hev]; exact hw.found t' e (hon t' h ▸ h) hp
  · rw [hon t' h]; exact hw.downloader t' (hon t' h ▸ h)
  · rw [hon t₁ h₁, hon t₂ h₂]
    exact hw.unique t₁ t₂ (hon t₁ h₁ ▸ h₁) (hon t₂ h₂ ▸ h₂)
  · rw [hon t' h, hcache]; exact hw.store_empty t' e (hon t' h ▸ h)
  · rw [hon t' h, hcache]; exact hw.returned t' o (hon t' h ▸ h)
  · rw [hon t' h]; exact hw.served t' (hon t' h ▸ h)
  · rcases hw.origin (hev ▸ he) with h | ⟨t', h₁, h₂⟩
    · exact .inl h
    · refine .inr ⟨t', ?_, ?_⟩ <;> by_cases ht : t' = t
      · subst ht; exact absurd h₁ hx
      · rwa [hcalls t' ht]
      · subst ht; exact absurd h₁ hx
      · rwa [hcalls t' ht]

/-- A move of a call on `x`. -/
theorem CoalesceInv.move (hw : CoalesceInv w₀ x w) {t : Nat} {p : Phase} (hm : PhaseMove w t p)
    (hx : (w.calls t).node = x) : CoalesceInv w₀ x (w.setPhase t p) := by
  have hcall : ∀ t', (w.setPhase t p).calls t' = w.calls t' ∨
      (t' = t ∧ (w.setPhase t p).calls t' = { w.calls t with phase := p }) := by
    intro t'
    by_cases h : t' = t
    · exact .inr ⟨h, h ▸ World.setPhase_calls_self w⟩
    · exact .inl (World.setPhase_calls_of_ne w h)
  refine ⟨fun he => ?_, hw.registered, fun t' e h hp => ?_, fun t' h ha => ?_,
    fun t₁ t₂ h₁ h₂ d₁ d₂ => ?_, fun t' e h hp => ?_, fun t' o h hp => ?_,
    fun t' h d => ?_, fun he => ?_⟩
  · obtain ⟨hc, hall⟩ := hw.unregistered he
    refine ⟨hc, fun t' h => ?_⟩
    rcases hcall t' with h' | ⟨rfl, h'⟩ <;> rw [h'] at h ⊢
    · exact hall t' h
    · refine ⟨?_, (hall t' h).2⟩
      have he' : w.events x = none := he
      rcases (hall t' h).1 with hp | hp
      · exact .inr (by rw [hm.from_start hp, hx, he'])
      · obtain ⟨e, he', -⟩ := hm.from_locked none hp
        cases he'
  · rcases hcall t' with h' | ⟨rfl, h'⟩ <;> rw [h'] at h hp
    · exact hw.found t' e h hp
    · dsimp only at hp
      rcases hp with hp | hp
      · have := hm.from_start (hm.to_locked (by simp [hp, Phase.holdsLock]))
        rw [hp, hx] at this
        exact (Phase.locked.inj this).symm
      · exact hw.found t' e hx (.inl (hm.to_wait e hp))
  · rcases hcall t' with h' | ⟨rfl, h'⟩ <;> rw [h'] at h ha ⊢
    · exact hw.downloader t' h ha
    · obtain ⟨e, he⟩ := Option.isSome_iff_exists.1 ha
      exact hw.downloader t' hx (by rw [hm.active e he]; rfl)
  · rcases hcall t₁ with h₁' | ⟨rfl, h₁'⟩ <;>
      rcases hcall t₂ with h₂' | ⟨rfl, h₂'⟩ <;>
      rw [h₁'] at h₁ d₁ <;> rw [h₂'] at h₂ d₂ <;>
      exact hw.unique _ _ h₁ h₂ d₁ d₂
  · rcases hcall t' with h' | ⟨rfl, h'⟩ <;> rw [h'] at h hp
    · exact hw.store_empty t' e h hp
    · exact absurd hp (hm.not_store e)
  · rcases hcall t' with h' | ⟨rfl, h'⟩ <;> rw [h'] at h hp
    · exact hw.returned t' o h hp
    · exact hx ▸ hm.done o hp
  · rcases hcall t' with h' | ⟨rfl, h'⟩ <;> rw [h'] at h d <;> exact hw.served _ h d
  · rcases hw.origin he with h | ⟨t', h₁, h₂⟩
    · exact .inl h
    · refine .inr ⟨t', ?_⟩
      rcases hcall t' with h' | ⟨rfl, h'⟩ <;> rw [h'] <;> exact ⟨h₁, h₂⟩

theorem CoalesceInv.congr (hw : CoalesceInv w₀ x w) {w' : World} (hev : w'.events x = w.events x)
    (hcache : w'.cache x = w.cache x) (hcalls : w'.calls = w.calls) : CoalesceInv w₀ x w' := by
  obtain ⟨h₁, h₂, h₃, h₄, h₅, h₆, h₇, h₈, h₉⟩ := hw
  exact ⟨by rw [hev, hcache, hcalls]; exact h₁, by rw [hev]; exact h₂,
    by rw [hev, hcalls]; exact h₃, by rw [hcalls]; exact h₄, by rw [hcalls]; exact h₅,
    by rw [hcalls, hcache]; exact h₆, by rw [hcalls, hcache]; exact h₇,
    by rw [hcalls]; exact h₈, by rw [hev, hcalls]; exact h₉⟩

/-- The call on `x` that found no event registers one and becomes the downloader. -/
theorem CoalesceInv.registerEvent (hw : CoalesceInv w₀ x w) {t : Nat}
    (hx : (w.calls t).node = x) (hnone : w.events x = none) :
    CoalesceInv w₀ x (w.registerEvent t) := by
  obtain ⟨hc, hall⟩ := hw.unregistered hnone
  have hcall : ∀ t', (w.registerEvent t).calls t' = w.calls t' ∨ (t' = t ∧
      (w.registerEvent t).calls t' =
        { w.calls t with phase := .store w.fresh, downloaded := true }) := by
    intro t'
    by_cases h : t' = t
    · subst h; exact .inr ⟨rfl, by simp [World.registerEvent_calls]⟩
    · exact .inl (by simp [World.registerEvent_calls, h])
  have hev : (w.registerEvent t).events x = some w.fresh := by
    rw [World.registerEvent_events, hx, Function.update_same]
  have hw₀ : w₀.events x = none := by
    by_contra h
    exact hw.registered h hnone
  refine ⟨fun he => by simp [hev] at he, fun _ => by simp [hev], fun t' e h hp => ?_,
    fun t' h ha => ?_, fun t₁ t₂ h₁ h₂ d₁ d₂ => ?_, fun t' e h hp => ?_,
    fun t' o h hp => ?_, fun _ _ _ => hw₀, fun _ => .inr ⟨t, by simp [World.registerEvent_calls, hx]⟩⟩
  · rcases hcall t' with h' | ⟨rfl, h'⟩ <;> rw [h'] at h hp
    · rcases (hall t' h).1 with h₀ | h₀ <;> rcases hp with hp | hp <;> simp [h₀] at hp
    · simp at hp
  · rcases hcall t' with h' | ⟨rfl, h'⟩ <;> rw [h'] at h ha ⊢
    rcases (hall t' h).1 with h₀ | h₀ <;> simp [h₀, Phase.activeEv] at ha
  · rcases hcall t₁ with h₁' | ⟨rfl, h₁'⟩ <;>
      rcases hcall t₂ with h₂' | ⟨rfl, h₂'⟩ <;>
      rw [h₁'] at h₁ d₁ <;> rw [h₂'] at h₂ d₂
    · exact absurd d₁ (by simp [(hall t₁ h₁).2])
    · exact absurd d₁ (by simp [(hall t₁ h₁).2])
    · exact absurd d₂ (by simp [(hall t₂ h₂).2])
  · rcases hcall t' with h' | ⟨rfl, h'⟩ <;> rw [h'] at h hp
    · rcases (hall t' h).1 with h₀ | h₀ <;> simp [h₀] at hp
    · simpa using hc
  · rcases hcall t' with h' | ⟨rfl, h'⟩ <;> rw [h'] at h hp
    · rcases (hall t' h).1 with h₀ | h₀ <;> simp [h₀] at hp
    · simp at hp

/-- The downloader on `x` stores its new list in the empty cache. -/
theorem CoalesceInv.storeList (hw : CoalesceInv w₀ x w) {t e : Nat}
    (hx : (w.calls t).node = x) (hp : (w.calls t).phase = .store e) :
    CoalesceInv w₀ x (w.storeList t e) := by
  have hempty := hw.store_empty t e hx hp
  have hdl : (w.calls t).downloaded = true := hw.downloader t hx (by simp [hp, Phase.activeEv])
  have hcall : ∀ t', (t' ≠ t ∧ (w.storeList t e).calls t' = w.calls t') ∨ (t' = t ∧
      (w.storeList t e).calls t' =
        { w.calls t with phase := .loop e w.fresh (w.calls t).spec.numBlocks }) := by
    intro t'
    by_cases h : t' = t
    · subst h; exact .inr ⟨rfl, by simp [World.storeList_calls]⟩
    · exact .inl ⟨h, by simp [World.storeList_calls, h]⟩
  have hreg : w.events x ≠ none := fun he => by
    rcases ((hw.unregistered he).2 t hx).1 with h | h <;> simp [hp] at h
  refine ⟨fun he => absurd he hreg, hw.registered, fun t' e' h hp' => ?_, fun t' h ha => ?_,
    fun t₁ t₂ h₁ h₂ d₁ d₂ => ?_, fun t' e' h hp' => ?_, fun t' o h hp' => ?_,
    fun t' h d => ?_, fun he => ?_⟩
  · rcases hcall t' with ⟨-, h'⟩ | ⟨rfl, h'⟩ <;> rw [h'] at h hp'
    · exact hw.found t' e' h hp'
    · simp at hp'
  · rcases hcall t' with ⟨-, h'⟩ | ⟨rfl, h'⟩ <;> rw [h'] at h ha ⊢
    · exact hw.downloader t' h ha
    · exact hdl
  · rcases hcall t₁ with ⟨-, h₁'⟩ | ⟨rfl, h₁'⟩ <;>
      rcases hcall t₂ with ⟨-, h₂'⟩ | ⟨rfl, h₂'⟩ <;>
      rw [h₁'] at h₁ d₁ <;> rw [h₂'] at h₂ d₂ <;>
      exact hw.unique _ _ h₁ h₂ d₁ d₂
  · rcases hcall t' with ⟨hne, h'⟩ | ⟨rfl, h'⟩ <;> rw [h'] at h hp'
    · exact absurd (hw.unique t' t h hx
        (hw.downloader t' h (by simp [hp', Phase.activeEv])) hdl) hne
    · simp at hp'
  · rcases hcall t' with ⟨-, h'⟩ | ⟨rfl, h'⟩ <;> rw [h'] at h hp'
    · simp [hw.returned t' o h hp'] at hempty
    · simp at hp'
  · rcases hcall t' with ⟨-, h'⟩ | ⟨rfl, h'⟩ <;> rw [h'] at h d <;> exact hw.served _ h d
  · rcases hw.origin he with h | ⟨t', h₁, h₂⟩
    · exact .inl h
    · refine .inr ⟨t', ?_⟩
      rcases hcall t' with ⟨-, h'⟩ | ⟨rfl, h'⟩ <;> rw [h'] <;> exact ⟨h₁, h₂⟩

/-- Every step without a removal at `x` keeps the invariant. -/
theorem CoalesceInv.step (hw : CoalesceInv w₀ x w) (hlk : LockInv w) {net : Net} {l : Label}
    (hl : NoRemovalAt x l) {w' : World} (h : BlockManager.step net w l = some w') :
    CoalesceInv w₀ x w' := by
  rcases l.caller_or_removes with ⟨t, hc⟩ | ⟨y, hr⟩
  · by_cases hx : (w.calls t).node = x
    · rcases step_cases hc h with ⟨-, hp, rfl⟩ | ⟨e, hp, rfl⟩ |
        ⟨⟨p, hm, hev, hcache, hcalls, -⟩, -⟩
      · exact hw.registerEvent hx (hx ▸ hlk.read t hp)
      · exact hw.storeList hx hp
      · exact (hw.move hm hx).congr (by rw [hev]; rfl) (by rw [hcache]; rfl) hcalls
    · have hf := step_frame hc h
      exact hw.frame hx (hf.entries x (Ne.symm hx)).1 (hf.entries x (Ne.symm hx)).2 hf.others
        hf.node
  · have hyx := hl.ne hr
    obtain ⟨hcalls, -, -, -, hev, hcache⟩ := step_removes hr h
    exact hw.congr (by simp [hev, Ne.symm hyx]) (by simp [hcache, Ne.symm hyx]) hcalls

/-- Once node `x` has a list in its cache, no step without a removal at `x`
replaces it. -/
theorem CoalesceInv.cache_stable (hw : CoalesceInv w₀ x w) {net : Net} {l : Label}
    (hl : NoRemovalAt x l) {w' : World} (h : BlockManager.step net w l = some w') {o : Nat}
    (ho : w.cache x = some o) : w'.cache x = some o := by
  rcases l.caller_or_removes with ⟨t, hc⟩ | ⟨y, hr⟩
  · by_cases hx : (w.calls t).node = x
    · rcases step_cases hc h with ⟨-, -, rfl⟩ | ⟨e, hp, rfl⟩ |
        ⟨⟨p, -, -, hcache, -⟩, -⟩
      · exact ho
      · simp [hw.store_empty t e hx hp] at ho
      · rw [hcache, ho]
    · rw [((step_frame hc h).entries x (Ne.symm hx)).2, ho]
  · have hyx := hl.ne hr
    simp [(step_removes hr h).2.2.2.2.2, Ne.symm hyx, ho]

theorem coalesceInv_start
    (hstart : ∀ t, (w₀.calls t).phase = .start ∧ (w₀.calls t).downloaded = false)
    (hcache : w₀.events x = none → w₀.cache x = none) : CoalesceInv w₀ x w₀ :=
  ⟨fun he => ⟨hcache he, fun t _ => ⟨.inl (hstart t).1, (hstart t).2⟩⟩, id,
    fun t e _ hp => by rcases hp with hp | hp <;> simp [(hstart t).1] at hp,
    fun t _ ha => by simp [(hstart t).1, Phase.activeEv] at ha,
    fun t _ _ _ d => by simp [(hstart t).2] at d,
    fun t e _ hp => by simp [(hstart t).1] at hp,
    fun t o _ hp => by simp [(hstart t).1] at hp,
    fun t _ d => by simp [(hstart t).2] at d, .inl⟩

end Steps

end Bndl.Rmi.Coalesce
