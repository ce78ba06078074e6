import Bndl.Rmi.Invariants
/-!
# Block exchange delivers the seeder's blocks

A seeder `S` has served the list `L`, and any number of calls on any nodes run
`get_blocks` on `S`'s `BlockSpec`, with every interleaving of their steps, of
the availability replies (a responder's filled indices at the time it
answers, or a failure, or none before the timeout) and of the block fetches
(a responder's slot at the time it is asked, or a failure).  No removal runs.

`block_exchange`: every filled slot of every node's list holds the block of `L`
at its index, and every call that returns returns `L` itself, slot by slot.

The invariant `ExchangeInv` has two parts.  `Agree L` holds of every list
object, since a fetch only copies a filled slot of some list at the same
index.  The rest follows each call through its phase (`CallOk`): while it
downloads it owns its node's unset event and the list in the cache, whose
holes are at most the turns of the loop left; an event is set only once that
list is complete.  Fills by other calls only remove holes (`HeapStep`), so the
bounds are monotone and no exact count has to be kept.  The ids below `fresh`
and the single downloader of each event come from `WellFormed`, which holds
along every run.
-/

namespace Bndl.Rmi.Exchange

open Bndl.Rmi.Slots Bndl.Rmi.NextDownload Bndl.Rmi.BlockManager Bndl.Rmi.Invariants

/-- What a call's phase says of the world, for the served list `L`. -/
def CallOk (L : List Block) (w : World) (c : Call) : Prop :=
  match c.phase with
  | .start | .raised => True
  | .locked found => w.events c.node = found
  | .wait e => w.events c.node = some e
  | .read => ∃ e, w.events c.node = some e ∧ w.isSet e = true
  | .store e => w.events c.node = some e ∧ w.isSet e = false
  | .loop e o n => w.events c.node = some e ∧ w.isSet e = false ∧ w.cache c.node = some o ∧
      (w.heap o).length = L.length ∧ holes (w.heap o) ≤ n
  | .collect e o n cur _ _ => w.events c.node = some e ∧ w.isSet e = false ∧
      w.cache c.node = some o ∧ cur = o ∧ (w.heap o).length = L.length ∧
      holes (w.heap o) ≤ n + 1
  | .fetch e o n idx _ _ => w.events c.node = some e ∧ w.isSet e = false ∧
      w.cache c.node = some o ∧ (w.heap o).length = L.length ∧
      ∀ b, L[idx]? = some b → holes ((w.heap o).set idx (some b)) ≤ n
  | .setEvent e => w.events c.node = some e ∧
      ∃ o, w.cache c.node = some o ∧ w.heap o = L.map some
  | .done o => w.heap o = L.map some

/-- The invariant of a run without removals, from `S` serving `L`, on top of
`WellFormed`. -/
structure ExchangeInv (S : Nat) (L : List Block) (w : World) : Prop where
  agree : ∀ o, Agree L (w.heap o)
  set_full : ∀ x e, w.events x = some e → w.isSet e = true →
    ∃ o, w.cache x = some o ∧ w.heap o = L.map some
  events_inj : ∀ x y e, w.events x = some e → w.events y = some e → x = y
  spec : ∀ t, (w.calls t).spec = ⟨S, L.length⟩
  calls : ∀ t, CallOk L w (w.calls t)

/-- A list object after a step: unchanged, or one slot filled with `L`'s block. -/
def HeapStep (L : List Block) (l l' : List (Option Block)) : Prop :=
  l' = l ∨ ∃ i b, L[i]? = some b ∧ l' = l.set i (some b)

section HeapStep

variable {L : List Block} {l l' : List (Option Block)}

theorem HeapStep.length (h : HeapStep L l l') : l'.length = l.length := by
  rcases h with rfl | ⟨i, b, -, rfl⟩ <;> simp

theorem HeapStep.holes_le (h : HeapStep L l l') : holes l' ≤ holes l := by
  rcases h with rfl | ⟨i, b, -, rfl⟩
  · exact le_refl _
  · exact holes_set_le _ _ _

theorem HeapStep.holes_set_le (h : HeapStep L l l') (idx : Nat) (b : Block) :
    holes (l'.set idx (some b)) ≤ holes (l.set idx (some b)) := by
  rcases h with rfl | ⟨i, c, -, rfl⟩
  · exact le_refl _
  · exact holes_set_set_le _ _ _ _ _

theorem HeapStep.full (h : HeapStep L l l') (hl : l = L.map some) : l' = L.map some := by
  rcases h with rfl | ⟨i, b, hb, rfl⟩
  · exact hl
  · rw [hl, map_some_set hb]

end HeapStep

/-- A call's facts survive a step that leaves its node's entries, the flags of
its events and (but for fills) its lists alone. -/
theorem CallOk.mono {L : List Block} {w w' : World} {c : Call} (h : CallOk L w c)
    (hids : c.phase.IdsBelow w.fresh)
    (hev : w'.events c.node = w.events c.node)
    (hcache : c.phase.activeEv.isSome → w'.cache c.node = w.cache c.node)
    (hset : ∀ e, w.events c.node = some e → w.isSet e = true → w'.isSet e = true)
    (hunset : ∀ e, c.phase.activeEv = some e → w'.isSet e = w.isSet e)
    (hheap : ∀ o, o < w.fresh → HeapStep L (w.heap o) (w'.heap o))
    (hcl : ∀ o, w.cache c.node = some o → o < w.fresh) :
    CallOk L w' c := by
  obtain ⟨x, spec, phase, d⟩ := c
  simp only at hev hcache hset hunset hids hcl ⊢
  cases phase with
  | start | raised => trivial
  | locked r => exact hev.trans h
  | wait e => exact hev.trans h
  | read =>
    obtain ⟨e, he, hs⟩ := h
    exact ⟨e, hev.trans he, hset e he hs⟩
  | store e => exact ⟨hev.trans h.1, (hunset e rfl).trans h.2⟩
  | loop e o n =>
    obtain ⟨he, hs, hc, hlen, hh⟩ := h
    have hst := hheap o hids.2
    exact ⟨hev.trans he, (hunset e rfl).trans hs, (hcache rfl).trans hc,
      hst.length.trans hlen, hst.holes_le.trans hh⟩
  | collect e o n cur pending answers =>
    obtain ⟨he, hs, hc, hcur, hlen, hh⟩ := h
    have hst := hheap o hids.2.1
    exact ⟨hev.trans he, (hunset e rfl).trans hs, (hcache rfl).trans hc, hcur,
      hst.length.trans hlen, hst.holes_le.trans hh⟩
  | fetch e o n idx ls rs =>
    obtain ⟨he, hs, hc, hlen, hh⟩ := h
    have hst := hheap o hids.2
    exact ⟨hev.trans he, (hunset e rfl).trans hs, (hcache rfl).trans hc,
      hst.length.trans hlen, fun b hb => (hst.holes_set_le idx b).trans (hh b hb)⟩
  | setEvent e =>
    obtain ⟨he, o, hc, hfull⟩ := h
    exact ⟨hev.trans he, o, (hcache rfl).trans hc, (hheap o (hcl o hc)).full hfull⟩
  | done o => exact (hheap o hids).full h

/-- A call that downloads holds its node's registered event. -/
theorem CallOk.events_of_active {L : List Block} {w : World} {c : Call} (h : CallOk L w c)
    {e : Nat} (he : c.phase.activeEv = some e) : w.events c.node = some e := by
  obtain ⟨x, spec, phase, d⟩ := c
  cases phase <;> simp only [Phase.activeEv, Option.some.injEq, reduceCtorEq] at he <;>
    subst he <;> exact h.1

/-- With no event registered on its node, a call has not started, holds the
lock having found none, or has ended. -/
theorem CallOk.of_events_none {L : List Block} {w : World} {c : Call} (h : CallOk L w c)
    (hnone : w.events c.node = none) :
    c.phase = .start ∨ c.phase = .locked none ∨ c.phase = .raised ∨
      ∃ o, c.phase = .done o ∧ w.heap o = L.map some := by
  obtain ⟨x, spec, phase, d⟩ := c
  cases phase <;> simp_all [CallOk]

section Steps

variable {S : Nat} {L : List Block} {w : World}

/-- A step that only moves call `t` to a phase whose facts hold keeps the
invariant. -/
theorem ExchangeInv.setPhase (hw : ExchangeInv S L w) {t : Nat} {p : Phase}
    (hok : CallOk L w { w.calls t with phase := p }) : ExchangeInv S L (w.setPhase t p) := by
  have hcall : ∀ t', (w.setPhase t p).calls t' = w.calls t' ∨
      t' = t ∧ (w.setPhase t p).calls t' = { w.calls t with phase := p } := by
    intro t'
    by_cases h : t' = t
    · exact .inr ⟨h, h ▸ World.setPhase_calls_self w⟩
    · exact .inl (World.setPhase_calls_of_ne w h)
  refine ⟨hw.agree, hw.set_full, hw.events_inj, fun t' => ?_, fun t' => ?_⟩ <;>
    rcases hcall t' with h | ⟨-, h⟩ <;> rw [h]
  exacts [hw.spec t', hw.spec t, hw.calls t', hok]

theorem heapStep_writeSlot {o idx : Nat} {b : Block} (hb : L[idx]? = some b) (o' : Nat) :
    HeapStep L (w.heap o') ((w.writeSlot o idx b).heap o') := by
  by_cases h : o' = o
  · subst h
    exact .inr ⟨idx, b, hb, by simp [World.writeSlot]⟩
  · exact .inl (by simp [World.writeSlot, h])

/-- Filling a slot of any list with `L`'s block keeps the invariant. -/
theorem ExchangeInv.writeSlot (hw : ExchangeInv S L w) (hwf : WellFormed w) {o idx : Nat}
    {b : Block} (hb : L[idx]? = some b) : ExchangeInv S L (w.writeSlot o idx b) := by
  have hstep : ∀ o', HeapStep L (w.heap o') ((w.writeSlot o idx b).heap o') :=
    heapStep_writeSlot hb
  refine ⟨fun o' => ?_, fun x e he hs => ?_, hw.events_inj, hw.spec,
    fun t => (hw.calls t).mono (hwf.ids t) rfl (fun _ => rfl) (fun _ _ h => h) (fun _ _ => rfl)
      (fun o' _ => hstep o') (hwf.cache_lt _)⟩
  · by_cases h : o' = o
    · subst h
      simpa [World.writeSlot] using (hw.agree o').set hb
    · simpa [World.writeSlot, h] using hw.agree o'
  · obtain ⟨o', hc, hfull⟩ := hw.set_full x e he hs
    exact ⟨o', hc, (hstep o').full hfull⟩

/-- Only the locks changed. -/
theorem ExchangeInv.lock (hw : ExchangeInv S L w) (l : Nat → Bool) :
    ExchangeInv S L { w with lock := l } :=
  ⟨hw.agree, hw.set_full, hw.events_inj, hw.spec, hw.calls⟩

/-- `leaveLock` registering a new event for a node without one. -/
theorem ExchangeInv.registerEvent (hw : ExchangeInv S L w) (hwf : WellFormed w) {t : Nat}
    (hp : (w.calls t).phase = .locked none) : ExchangeInv S L (w.registerEvent t) := by
  have hnone : w.events (w.calls t).node = none := hwf.lock.read t hp
  obtain ⟨x, hx⟩ : ∃ x, (w.calls t).node = x := ⟨_, rfl⟩
  rw [hx] at hnone
  have hne : ∀ y e, w.events y = some e → e ≠ w.fresh := fun y e h => (hwf.events_lt y e h).ne
  have hev : ∀ y e, (w.registerEvent t).events y = some e ↔
      (y = x ∧ e = w.fresh) ∨ (y ≠ x ∧ w.events y = some e) := by
    intro y e
    rw [World.registerEvent_events, hx]
    by_cases hy : y = x
    · subst hy; simp [eq_comm]
    · simp [hy]
  refine ⟨hw.agree, fun y e he hs => ?_, fun y₁ y₂ e h₁ h₂ => ?_, fun t' => ?_,
    fun t' => ?_⟩
  · rcases (hev y e).1 he with ⟨-, rfl⟩ | ⟨-, he⟩
    · simp [World.registerEvent_isSet] at hs
    · rw [World.registerEvent_isSet, Function.update_noteq (hne y e he)] at hs
      exact hw.set_full y e he hs
  · rcases (hev y₁ e).1 h₁ with ⟨rfl, rfl⟩ | ⟨-, h₁⟩
    · rcases (hev y₂ _).1 h₂ with ⟨rfl, -⟩ | ⟨-, h₂⟩
      · rfl
      · exact absurd rfl (hne y₂ _ h₂)
    · rcases (hev y₂ e).1 h₂ with ⟨rfl, rfl⟩ | ⟨-, h₂⟩
      · exact absurd rfl (hne y₁ _ h₁)
      · exact hw.events_inj y₁ y₂ e h₁ h₂
  · by_cases ht : t' = t
    · subst ht; simpa [World.registerEvent_calls] using hw.spec t'
    · simpa [World.registerEvent_calls, ht] using hw.spec t'
  · by_cases ht : t' = t
    · subst ht
      simp [CallOk, World.registerEvent_calls, World.registerEvent_events,
        World.registerEvent_isSet]
    · rw [World.registerEvent_calls, Function.update_noteq ht]
      have hok := hw.calls t'
      by_cases hy : (w.calls t').node = x
      · rcases hok.of_events_none (hy ▸ hnone) with h | h | h | ⟨o, h, hfull⟩
        · simp [CallOk, h]
        · exact absurd (hwf.lock.unique t' t (by simp [h, Phase.holdsLock])
            (by simp [hp, Phase.holdsLock]) (hy.trans hx.symm)) ht
        · simp [CallOk, h]
        · simpa [CallOk, h] using hfull
      · refine hok.mono (hwf.ids t') (by simp [World.registerEvent_events, hx, hy])
          (fun _ => rfl) (fun e he hs => ?_) (fun e he => ?_) (fun o _ => .inl rfl)
          (hwf.cache_lt _)
        · simpa [World.registerEvent_isSet, Function.update_noteq (hne _ e he)] using hs
        · simp [World.registerEvent_isSet, ((hwf.ids t').activeEv_lt he).ne]

theorem holes_replicate (n : Nat) : holes (List.replicate n none) = n := by
  simp [holes, List.count_replicate]

/-- `downloadStart` storing a fresh list for the call `t` holding `e`. -/
theorem ExchangeInv.storeList (hw : ExchangeInv S L w) (hwf : WellFormed w) {t e : Nat}
    (hp : (w.calls t).phase = .store e) : ExchangeInv S L (w.storeList t e) := by
  have hok : w.events (w.calls t).node = some e ∧ w.isSet e = false := by
    simpa [CallOk, hp] using hw.calls t
  have heap_old : ∀ o, o < w.fresh → (w.storeList t e).heap o = w.heap o := fun o ho => by
    simp [World.storeList_heap, ho.ne]
  have hact : ∀ t', (w.calls t').phase.activeEv = some e → t' = t := fun t' h =>
    hwf.active t' t e h (by simp [hp, Phase.activeEv])
  refine ⟨fun o => ?_, fun y e' he hs => ?_, hw.events_inj, fun t' => ?_, fun t' => ?_⟩
  · by_cases ho : o = w.fresh
    · subst ho; simpa [World.storeList_heap] using agree_replicate L _
    · simpa [World.storeList_heap, ho] using hw.agree o
  · by_cases hy : y = (w.calls t).node
    · subst hy
      simp only [World.storeList_events, World.storeList_isSet, hok.1] at he hs
      cases he
      simp [hok.2] at hs
    · obtain ⟨o, hc, hfull⟩ := hw.set_full y e' he hs
      exact ⟨o, by simp [World.storeList_cache, hy, hc],
        (heap_old o (hwf.cache_lt y o hc)).trans hfull⟩
  · by_cases ht : t' = t
    · subst ht; simpa [World.storeList_calls] using hw.spec t'
    · simpa [World.storeList_calls, ht] using hw.spec t'
  · by_cases ht : t' = t
    · subst ht
      simp [CallOk, World.storeList_calls, World.storeList_cache, World.storeList_heap, hok,
        hw.spec t', holes_replicate]
    · rw [World.storeList_calls, Function.update_noteq ht]
      refine (hw.calls t').mono (hwf.ids t') rfl (fun hsome => ?_) (fun _ _ h => h)
        (fun _ _ => rfl) (fun o ho => .inl (heap_old o ho)) (hwf.cache_lt _)
      obtain ⟨e', he'⟩ := Option.isSome_iff_exists.1 hsome
      have hy : (w.calls t').node ≠ (w.calls t).node := fun hy => ht (hact t' (by
        have := (hw.calls t').events_of_active he'
        rw [hy, hok.1] at this
        cases this
        exact he'))
      simp [World.storeList_cache, hy]

/-- `available.set()` by the call `t` holding `e`. -/
theorem ExchangeInv.setEvent (hw : ExchangeInv S L w) (hwf : WellFormed w) {t e : Nat}
    (hp : (w.calls t).phase = .setEvent e) :
    ExchangeInv S L { w with isSet := Function.update w.isSet e true } := by
  have hok : w.events (w.calls t).node = some e ∧
      ∃ o, w.cache (w.calls t).node = some o ∧ w.heap o = L.map some := by
    simpa [CallOk, hp] using hw.calls t
  refine ⟨hw.agree, fun y e' he hs => ?_, hw.events_inj, hw.spec, fun t' => ?_⟩
  · by_cases he' : e' = e
    · subst he'
      rw [hw.events_inj y _ e' he hok.1]
      exact hok.2
    · exact hw.set_full y e' he (by simpa [Function.update_noteq he'] using hs)
  · by_cases ht : t' = t
    · subst ht
      simpa [CallOk, hp] using hok
    · refine (hw.calls t').mono (hwf.ids t') rfl (fun _ => rfl) (fun e' _ h => ?_)
        (fun e' he' => ?_) (fun _ _ => .inl rfl) (hwf.cache_lt _)
      · by_cases h' : e' = e
        · subst h'; simp
        · simpa [Function.update_noteq h'] using h
      · have : e' ≠ e := fun h' => ht (hwf.active t' t e' he' (by simp [hp, Phase.activeEv, h']))
        simp [Function.update_noteq this]

theorem getBlock_agree (hw : ExchangeInv S L w) {src idx : Nat} {ok : Bool} {b : Block}
    (h : w.getBlock src idx ok = some b) : L[idx]? = some b := by
  unfold World.getBlock at h
  split_ifs at h
  split at h
  · cases h
  · exact hw.agree _ idx b (Option.join_eq_some.1 h)

theorem ExchangeInv.checkEvent (hw : ExchangeInv S L w) {t : Nat} {w' : World}
    (h : w.checkEvent t = some w') : ExchangeInv S L w' := by
  unfold World.checkEvent at h
  split at h
  · split_ifs at h
    cases h
    have hok : CallOk L w { w.calls t with phase := .locked (w.events (w.calls t).node) } :=
      rfl
    exact (hw.setPhase hok).lock _
  · cases h

theorem ExchangeInv.leaveLock (hw : ExchangeInv S L w) (hwf : WellFormed w) {t : Nat}
    {w' : World} (h : w.leaveLock t = some w') : ExchangeInv S L w' := by
  unfold World.leaveLock at h
  split at h
  · rename_i e hp
    cases h
    exact (hw.setPhase (by simpa [CallOk, hp] using hw.calls t)).lock _
  · cases h
    exact hw.registerEvent hwf ‹_›
  · cases h

theorem ExchangeInv.wakeUp (hw : ExchangeInv S L w) {t : Nat} {w' : World}
    (h : w.wakeUp t = some w') : ExchangeInv S L w' := by
  unfold World.wakeUp at h
  split at h
  · rename_i e hp
    split_ifs at h with hs
    cases h
    have he : w.events (w.calls t).node = some e := by simpa [CallOk, hp] using hw.calls t
    exact hw.setPhase ⟨e, he, hs⟩
  · cases h

theorem ExchangeInv.returnCache (hw : ExchangeInv S L w) {t : Nat} {w' : World}
    (h : w.returnCache t = some w') : ExchangeInv S L w' := by
  unfold World.returnCache at h
  split at h
  · rename_i o hp hc
    cases h
    obtain ⟨e, he, hs⟩ : ∃ e, w.events (w.calls t).node = some e ∧ w.isSet e = true := by
      simpa [CallOk, hp] using hw.calls t
    obtain ⟨o', hc', hfull⟩ := hw.set_full _ e he hs
    rw [hc] at hc'
    cases hc'
    exact hw.setPhase hfull
  · cases h
    exact hw.setPhase trivial
  · cases h

theorem ExchangeInv.downloadStart (hw : ExchangeInv S L w) (hwf : WellFormed w) {t : Nat}
    {w' : World} (h : w.downloadStart t = some w') : ExchangeInv S L w' := by
  unfold World.downloadStart at h
  split at h
  · split_ifs at h <;> cases h
    · exact hw.setPhase trivial
    · exact hw.storeList hwf ‹_›
  · cases h

theorem ExchangeInv.nextIteration (hw : ExchangeInv S L w) {net : Net} {t : Nat} {w' : World}
    (h : w.nextIteration net t = some w') : ExchangeInv S L w' := by
  unfold World.nextIteration at h
  dsimp only at h
  split at h
  · rename_i e o hp
    cases h
    obtain ⟨he, -, hc, hlen, hh⟩ : w.events (w.calls t).node = some e ∧ w.isSet e = false ∧
        w.cache (w.calls t).node = some o ∧ (w.heap o).length = L.length ∧
        holes (w.heap o) ≤ 0 := by
      simpa [CallOk, hp] using hw.calls t
    exact hw.setPhase ⟨he, o, hc, eq_map_some_of_agree (hw.agree o) hlen (by omega)⟩
  · rename_i e o n hp
    have hok : w.events (w.calls t).node = some e ∧ w.isSet e = false ∧
        w.cache (w.calls t).node = some o ∧ (w.heap o).length = L.length ∧
        holes (w.heap o) ≤ n + 1 := by
      simpa [CallOk, hp] using hw.calls t
    split at h <;> cases h
    · rename_i cur hc
      rw [hok.2.2.1] at hc
      cases hc
      exact hw.setPhase ⟨hok.1, hok.2.1, hok.2.2.1, rfl, hok.2.2.2⟩
    · exact hw.setPhase trivial
  · cases h

theorem ExchangeInv.answer (hw : ExchangeInv S L w) {t src : Nat} {ok : Bool} {w' : World}
    (h : w.answer t src ok = some w') : ExchangeInv S L w' := by
  unfold World.answer at h
  split at h
  · rename_i e o n cur pending answers hp
    have hok := hw.calls t
    simp only [CallOk, hp] at hok
    split_ifs at h <;> cases h <;> exact hw.setPhase hok
  · cases h

theorem ExchangeInv.collect (hw : ExchangeInv S L w) {net : Net} {t r : Nat} {w' : World}
    (h : w.collect net t r = some w') : ExchangeInv S L w' := by
  unfold World.collect at h
  dsimp only at h
  split at h
  · rename_i e o n cur pending answers hp
    obtain ⟨he, hs, hc, rfl, hlen, hh⟩ :
        w.events (w.calls t).node = some e ∧ w.isSet e = false ∧
        w.cache (w.calls t).node = some o ∧ cur = o ∧ (w.heap o).length = L.length ∧
        holes (w.heap o) ≤ n + 1 := by
      simpa [CallOk, hp] using hw.calls t
    split at h <;> cases h
    · rename_i idx cands hnext
      have hmiss := nextDownload_missing hnext
      refine hw.setPhase ⟨he, hs, hc, hlen, fun b _ => ?_⟩
      have := holes_set_of_none hmiss b
      omega
    · exact hw.setPhase trivial
  · cases h

/-- The fill of a fetch, and the call's return to its loop. -/
theorem ExchangeInv.fill (hw : ExchangeInv S L w) (hwf : WellFormed w) {t e o n idx : Nat}
    {ls rs : List Nat}
    (hp : (w.calls t).phase = .fetch e o n idx ls rs) {b : Block} (hb : L[idx]? = some b) :
    ExchangeInv S L ((w.writeSlot o idx b).setPhase t (.loop e o n)) := by
  obtain ⟨he, hs, hc, hlen, hh⟩ : w.events (w.calls t).node = some e ∧ w.isSet e = false ∧
      w.cache (w.calls t).node = some o ∧ (w.heap o).length = L.length ∧
      ∀ b, L[idx]? = some b → holes ((w.heap o).set idx (some b)) ≤ n := by
    simpa [CallOk, hp] using hw.calls t
  refine (hw.writeSlot hwf hb).setPhase ?_
  simpa [CallOk, World.writeSlot, he, hs, hc, hlen] using hh b hb

theorem ExchangeInv.fetch (hw : ExchangeInv S L w) (hwf : WellFormed w) {net : Net} {t r : Nat}
    {ok : Bool} {w' : World} (h : w.fetch net t r ok = some w') : ExchangeInv S L w' := by
  obtain ⟨e, o, n, idx, ls, rs, hp, ⟨src, b, hb, rfl⟩ | ⟨ls', rs', rfl⟩ | rfl⟩ :=
    w.fetch_cases h
  · exact hw.fill hwf hp (getBlock_agree hw hb)
  · have hok := hw.calls t
    simp only [CallOk, hp] at hok
    exact hw.setPhase hok
  · exact hw.setPhase trivial

theorem ExchangeInv.setAvailable (hw : ExchangeInv S L w) (hwf : WellFormed w) {t : Nat}
    {w' : World} (h : w.setAvailable t = some w') : ExchangeInv S L w' := by
  unfold World.setAvailable at h
  split at h
  · rename_i e hp
    cases h
    have hset := hw.setEvent hwf hp
    have he : w.events (w.calls t).node = some e := by
      simpa [CallOk, hp] using (hw.calls t).events_of_active (e := e) (by simp [hp, Phase.activeEv])
    exact hset.setPhase ⟨e, he, by simp⟩
  · cases h

/-- Every step of a run without removals keeps the invariant. -/
theorem ExchangeInv.step (hw : ExchangeInv S L w) (hwf : WellFormed w) {net : Net} {l : Label}
    (hl : NoRemoval l) {w' : World} (h : BlockManager.step net w l = some w') :
    ExchangeInv S L w' := by
  cases l with
  | checkEvent t => exact hw.checkEvent h
  | leaveLock t => exact hw.leaveLock hwf h
  | wakeUp t => exact hw.wakeUp h
  | returnCache t => exact hw.returnCache h
  | downloadStart t => exact hw.downloadStart hwf h
  | nextIteration t => exact hw.nextIteration h
  | answer t src ok => exact hw.answer h
  | collect t r => exact hw.collect h
  | fetch t r ok => exact hw.fetch hwf h
  | setAvailable t => exact hw.setAvailable hwf h
  | removeBlocks x fromPeers => exact hl.elim
  | deliverRemove x i => exact hl.elim

theorem exchangeInv_serveBlocks {S : Nat} {L : List Block} {calls : Nat → Call}
    (hcalls : ∀ t, (calls t).phase = .start ∧ (calls t).spec = ⟨S, L.length⟩) :
    ExchangeInv S L ((World.empty calls).serveBlocks S L) := by
  have hev : ∀ x e, ((World.empty calls).serveBlocks S L).events x = some e →
      x = S ∧ e = 1 := by
    intro x e h
    by_cases hx : x = S
    · subst hx; simp [World.serveBlocks, World.empty] at h; exact ⟨rfl, h.symm⟩
    · simp [World.serveBlocks, World.empty, hx] at h
  refine ⟨fun o => ?_, fun x e he _ => ?_, fun x y e hx hy => ?_, fun t => (hcalls t).2,
    fun t => ?_⟩
  · by_cases ho : o = 0
    · subst ho; simpa [World.serveBlocks, World.empty] using agree_map_some L
    · simpa [World.serveBlocks, World.empty, ho] using agree_replicate L 0
  · obtain ⟨rfl, rfl⟩ := hev x e he
    exact ⟨0, by simp [World.serveBlocks, World.empty]⟩
  · rw [(hev x e hx).1, (hev y e hy).1]
  · simp [World.serveBlocks, World.empty, CallOk, (hcalls t).1]

end Steps

/-- Block exchange from the seeder `S` of `L`: with no removal, every filled slot
of every node's list holds `L`'s block, and every `get_blocks` call that has
returned has returned `L`, slot for slot. -/
theorem block_exchange (net : Net) (S : Nat) (L : List Block) (calls : Nat → Call)
    (hcalls : ∀ t, (calls t).phase = .start ∧ (calls t).spec = ⟨S, L.length⟩) {w : World}
    (hw : Reachable net NoRemoval ((World.empty calls).serveBlocks S L) w) :
    (∀ x o, w.cache x = some o → Agree L (w.heap o)) ∧
      ∀ t o, (w.calls t).phase = .done o → w.heap o = L.map some := by
  have hinv : ExchangeInv S L w ∧ WellFormed w := by
    induction hw with
    | refl =>
      exact ⟨exchangeInv_serveBlocks hcalls, wellFormed_start (fun t => (hcalls t).1) S L⟩
    | tail _ hl hstep ih => exact ⟨ih.1.step ih.2 hl hstep, ih.2.step hstep⟩
  refine ⟨fun _ o _ => hinv.1.agree o, fun t o hd => ?_⟩
  simpa [CallOk, hd] using hinv.1.calls t

/-- One whole download by call `0` on node `1`: it finds the block only at the
seeder, fetches it and returns. -/
def exchangeLabels : List Label :=
  [.checkEvent 0, .leaveLock 0, .downloadStart 0, .nextIteration 0, .collect 0 0,
    .fetch 0 0 true, .nextIteration 0, .setAvailable 0, .returnCache 0]

def exchangeEnd : World := (run exampleNet exampleStart exchangeLabels).getD exampleStart

theorem block_exchange_example :
    (∀ x o, exchangeEnd.cache x = some o → Agree [[7]] (exchangeEnd.heap o)) ∧
      ∀ t o, (exchangeEnd.calls t).phase = .done o → exchangeEnd.heap o = [[7]].map some :=
  block_exchange exampleNet 0 [[7]] exampleCalls (fun _ => ⟨rfl, rfl⟩)
    (reachable_of_run .refl (by simp [exchangeLabels, NoRemoval]) (rfl : run exampleNet
      exampleStart exchangeLabels = some exchangeEnd))

end Bndl.Rmi.Exchange
