import Bndl.Rmi.NextDownload
/-!
# The block manager of a set of nodes

The state of every node's `BlockManager` for one block name, with the
`get_blocks` calls running on worker threads.  Names do not interact (every
method reads and writes only the entries under its own name), so one name is
followed.  Lists and events are objects: `_blocks_cache` and
`_available_events` map a node to an object id, `heap` holds the lists' slots
and `isSet` the events' flags, and a call keeps the ids it holds in local
variables, as the Python code does.

A call of `get_blocks` runs through `Phase`; each step of `step` is one
statement of `blocks.py` that touches shared state, or a reply arriving:

* `checkEvent`, `leaveLock`: the block under `_available_lock`, in two steps,
  since `remove_blocks` and `_remove_blocks` take no lock and can land between
  them: the lock is taken and `self._available_events.get(name)` read, then the
  call registers a new event or keeps the one it found, and releases the lock;
* `wakeUp`, `returnCache`: `available.wait()` and `return self._blocks_cache[name]`;
* `downloadStart`: the head of `_download`;
* `nextIteration`, `answer`, `collect`: one turn of `for _ in blocks`, with
  `_next_download` sending the availability requests, the replies arriving, and
  `as_completed` ending (all answered, or the timeout);
* `fetch`: one `download(source)` in the candidate loop, or the seeder fallback;
* `setAvailable`: `available.set()`;
* `removeBlocks`, `deliverRemove`: `remove_blocks` and an incoming
  `_remove_blocks`.
-/

namespace Bndl.Rmi.BlockManager

open Bndl.Rmi.Slots Bndl.Rmi.NextDownload

/-- The network the nodes run on, fixed during a run. -/
structure Net where
  /-- `self.peers.filter(node_type='worker')`, in table order. -/
  workers : Nat → List Nat
  /-- The peer table, `self.peers`. -/
  peers : Nat → List Nat
  /-- `bool(c.ip_addresses & local_ips)`: the candidate `c` runs on a host of the node. -/
  isLocal : Nat → Nat → Bool
  /-- `PeerNode`'s `<`. -/
  lt : Nat → Nat → Bool

/-- Where a `get_blocks` call is, with the object ids in its locals: `ev` is
`available`, `blocks` the list `_download` fills, `n` the turns of
`for _ in blocks` still to run after the current one. -/
inductive Phase where
  | start
  /-- Inside `with self._available_lock:`, holding what
  `self._available_events.get(name)` returned. -/
  | locked (found : Option Nat)
  | wait (ev : Nat)
  | read
  | store (ev : Nat)
  | loop (ev blocks n : Nat)
  /-- `_next_download` waits in `as_completed`: `cur` is its own read of
  `self._blocks_cache[name]`, `pending` the workers not answered yet. -/
  | collect (ev blocks n cur : Nat) (pending : List Nat)
      (answers : List (Nat × Option (List Nat)))
  /-- The candidate loop for block `idx`, with the candidates left. -/
  | fetch (ev blocks n idx : Nat) (locals remotes : List Nat)
  | setEvent (ev : Nat)
  | done (ret : Nat)
  | raised
  deriving DecidableEq, Repr

/-- The event a call holds while it runs `_download`. -/
def Phase.activeEv : Phase → Option Nat
  | .store e | .loop e _ _ | .collect e _ _ _ _ _ | .fetch e _ _ _ _ _ | .setEvent e => some e
  | _ => none

/-- The call is inside the block under `_available_lock`. -/
def Phase.holdsLock : Phase → Bool
  | .locked _ => true
  | _ => false

/-- The call is past `available.wait()`, or inside `_download`. -/
def Phase.pastWait : Phase → Bool
  | .start | .locked _ | .wait _ => false
  | _ => true

/-- The object ids held by a phase are below `n`. -/
def Phase.IdsBelow (n : Nat) : Phase → Prop
  | .start | .read | .raised => True
  | .locked found => ∀ e, found = some e → e < n
  | .wait e | .store e | .setEvent e => e < n
  | .loop e o _ | .fetch e o _ _ _ _ => e < n ∧ o < n
  | .collect e o _ cur _ _ => e < n ∧ o < n ∧ cur < n
  | .done o => o < n

theorem Phase.IdsBelow.mono {p : Phase} {n m : Nat} (h : p.IdsBelow n) (hnm : n ≤ m) :
    p.IdsBelow m := by
  cases p <;> simp only [Phase.IdsBelow] at h ⊢
  all_goals first | omega | exact fun e he => Nat.lt_of_lt_of_le (h e he) hnm

theorem Phase.IdsBelow.activeEv_lt {p : Phase} {n e : Nat} (h : p.IdsBelow n)
    (he : p.activeEv = some e) : e < n := by
  cases p <;>
    simp only [Phase.IdsBelow, Phase.activeEv, Option.some.injEq, reduceCtorEq] at h he <;>
    omega

/-- A `get_blocks(block_spec)` call on a node; `downloaded` records whether the
call went into `_download`. -/
structure Call where
  node : Nat
  spec : BlockSpec
  phase : Phase
  downloaded : Bool
  deriving DecidableEq, Repr

/-- All nodes' block managers for the followed name. -/
structure World where
  /-- `_blocks_cache[name]` of each node. -/
  cache : Nat → Option Nat
  /-- `_available_events[name]` of each node. -/
  events : Nat → Option Nat
  heap : Nat → List (Option Block)
  isSet : Nat → Bool
  /-- Whether each node's `_available_lock` is held. -/
  lock : Nat → Bool
  /-- The next unused object id. -/
  fresh : Nat
  calls : Nat → Call
  /-- `_remove_blocks` requests on their way, by target node. -/
  removals : List Nat

/-- The steps of a run. -/
inductive Label where
  /-- `with self._available_lock:` and `available = self._available_events.get(name)`. -/
  | checkEvent (t : Nat)
  /-- `if available:` and the end of the `with` block. -/
  | leaveLock (t : Nat)
  | wakeUp (t : Nat)
  | returnCache (t : Nat)
  | downloadStart (t : Nat)
  | nextIteration (t : Nat)
  /-- Worker `src` answers the availability request of call `t`; `ok = false`
  is a request that raised. -/
  | answer (t src : Nat) (ok : Bool)
  /-- `r` is the draw of `random.choice` if the seeder fallback is taken. -/
  | collect (t r : Nat)
  /-- `r` is the draw of `random.choice(candidates)`; `ok = false` is a failed
  request. -/
  | fetch (t r : Nat) (ok : Bool)
  | setAvailable (t : Nat)
  | removeBlocks (x : Nat) (fromPeers : Bool)
  /-- The request `i` in flight, for node `x`, lands. -/
  | deliverRemove (x i : Nat)
  deriving DecidableEq, Repr

namespace World

variable (w : World)

def setPhase (t : Nat) (p : Phase) : World :=
  { w with calls := Function.update w.calls t { w.calls t with phase := p } }

section SetPhase

variable {t : Nat} {p : Phase}

@[simp] theorem setPhase_cache : (w.setPhase t p).cache = w.cache := rfl
@[simp] theorem setPhase_events : (w.setPhase t p).events = w.events := rfl
@[simp] theorem setPhase_heap : (w.setPhase t p).heap = w.heap := rfl
@[simp] theorem setPhase_isSet : (w.setPhase t p).isSet = w.isSet := rfl
@[simp] theorem setPhase_lock : (w.setPhase t p).lock = w.lock := rfl
@[simp] theorem setPhase_fresh : (w.setPhase t p).fresh = w.fresh := rfl
@[simp] theorem setPhase_removals : (w.setPhase t p).removals = w.removals := rfl

@[simp] theorem setPhase_calls_self : (w.setPhase t p).calls t = { w.calls t with phase := p } := by
  simp [setPhase]

theorem setPhase_calls_of_ne {t' : Nat} (h : t' ≠ t) :
    (w.setPhase t p).calls t' = w.calls t' := by
  simp [setPhase, h]

end SetPhase

/-- `_get_blocks_available` at node `x`: the filled indices, `()` for no entry. -/
def getBlocksAvailable (x : Nat) : List Nat :=
  match w.cache x with
  | none => []
  | some o => filled (w.heap o)

/-- What `source._get_block(name, idx).result().block` gives, or `none` if it
raises: no entry, an index out of range, a failed request (`ok = false`), or a
`None` slot, which `_Block.__getstate__` cannot send (`len(None)`). -/
def getBlock (src idx : Nat) (ok : Bool) : Option Block :=
  if ok then
    match w.cache src with
    | none => none
    | some o => (w.heap o)[idx]?.join
  else none

/-- `blocks[idx] = ...` on the list object `o`. -/
def writeSlot (o idx : Nat) (b : Block) : World :=
  { w with heap := Function.update w.heap o ((w.heap o).set idx (some b)) }

section WriteSlot

variable {o idx : Nat} {b : Block}

@[simp] theorem writeSlot_cache : (w.writeSlot o idx b).cache = w.cache := rfl
@[simp] theorem writeSlot_events : (w.writeSlot o idx b).events = w.events := rfl
@[simp] theorem writeSlot_isSet : (w.writeSlot o idx b).isSet = w.isSet := rfl
@[simp] theorem writeSlot_lock : (w.writeSlot o idx b).lock = w.lock := rfl
@[simp] theorem writeSlot_fresh : (w.writeSlot o idx b).fresh = w.fresh := rfl
@[simp] theorem writeSlot_calls : (w.writeSlot o idx b).calls = w.calls := rfl
@[simp] theorem writeSlot_removals : (w.writeSlot o idx b).removals = w.removals := rfl

end WriteSlot

/-- `serve_blocks(name, blocks)` on node `x`. -/
def serveBlocks (x : Nat) (blocks : List Block) : World :=
  { w with
    cache := Function.update w.cache x (some w.fresh)
    heap := Function.update w.heap w.fresh (blocks.map some)
    events := Function.update w.events x (some (w.fresh + 1))
    isSet := Function.update w.isSet (w.fresh + 1) true
    fresh := w.fresh + 2 }

/-- The `else` branch under `_available_lock`: a new, unset event is registered
for the node, the call becomes the downloader, and the lock is released. -/
def registerEvent (t : Nat) : World :=
  { w with
    events := Function.update w.events (w.calls t).node (some w.fresh)
    isSet := Function.update w.isSet w.fresh false
    lock := Function.update w.lock (w.calls t).node false
    fresh := w.fresh + 1
    calls := Function.update w.calls t
      { w.calls t with phase := .store w.fresh, downloaded := true } }

section RegisterEvent

variable {t : Nat}

@[simp] theorem registerEvent_cache : (w.registerEvent t).cache = w.cache := rfl
@[simp] theorem registerEvent_heap : (w.registerEvent t).heap = w.heap := rfl
@[simp] theorem registerEvent_fresh : (w.registerEvent t).fresh = w.fresh + 1 := rfl
@[simp] theorem registerEvent_removals : (w.registerEvent t).removals = w.removals := rfl

theorem registerEvent_events :
    (w.registerEvent t).events = Function.update w.events (w.calls t).node (some w.fresh) := rfl

theorem registerEvent_isSet :
    (w.registerEvent t).isSet = Function.update w.isSet w.fresh false := rfl

theorem registerEvent_lock :
    (w.registerEvent t).lock = Function.update w.lock (w.calls t).node false := rfl

theorem registerEvent_calls : (w.registerEvent t).calls =
    Function.update w.calls t { w.calls t with phase := .store w.fresh, downloaded := true } := rfl

end RegisterEvent

/-- The call takes its node's `_available_lock` and reads
`self._available_events.get(name)`. -/
def takeLock (t : Nat) : World :=
  { w.setPhase t (.locked (w.events (w.calls t).node)) with
    lock := Function.update w.lock (w.calls t).node true }

/-- The head of `get_blocks`: it waits while another call of the node holds the lock. -/
def checkEvent (t : Nat) : Option World :=
  match (w.calls t).phase with
  | .start => if w.lock (w.calls t).node then none else some (w.takeLock t)
  | _ => none

/-- `if available:`: a call that found an event keeps it to wait on, one that
found none registers a new one; the `with` block then releases the lock. -/
def leaveLock (t : Nat) : Option World :=
  match (w.calls t).phase with
  | .locked (some e) =>
    some { w.setPhase t (.wait e) with lock := Function.update w.lock (w.calls t).node false }
  | .locked none => some (w.registerEvent t)
  | _ => none

/-- `available.wait()` returns once the event is set. -/
def wakeUp (t : Nat) : Option World :=
  match (w.calls t).phase with
  | .wait e => if w.isSet e then some (w.setPhase t .read) else none
  | _ => none

/-- `return self._blocks_cache[name]`, or `KeyError`. -/
def returnCache (t : Nat) : Option World :=
  match (w.calls t).phase, w.cache (w.calls t).node with
  | .read, some o => some (w.setPhase t (.done o))
  | .read, none => some (w.setPhase t .raised)
  | _, _ => none

/-- `blocks = [None] * block_spec.num_blocks`, stored in `_blocks_cache`; the
call enters its loop. -/
def storeList (t : Nat) (e : Nat) : World :=
  { w with
    cache := Function.update w.cache (w.calls t).node (some w.fresh)
    heap := Function.update w.heap w.fresh (List.replicate (w.calls t).spec.numBlocks none)
    fresh := w.fresh + 1
    calls := Function.update w.calls t
      { w.calls t with phase := .loop e w.fresh (w.calls t).spec.numBlocks } }

section StoreList

variable {t e : Nat}

@[simp] theorem storeList_events : (w.storeList t e).events = w.events := rfl
@[simp] theorem storeList_isSet : (w.storeList t e).isSet = w.isSet := rfl
@[simp] theorem storeList_lock : (w.storeList t e).lock = w.lock := rfl
@[simp] theorem storeList_fresh : (w.storeList t e).fresh = w.fresh + 1 := rfl
@[simp] theorem storeList_removals : (w.storeList t e).removals = w.removals := rfl

theorem storeList_cache :
    (w.storeList t e).cache = Function.update w.cache (w.calls t).node (some w.fresh) := rfl

theorem storeList_heap : (w.storeList t e).heap =
    Function.update w.heap w.fresh (List.replicate (w.calls t).spec.numBlocks none) := rfl

theorem storeList_calls : (w.storeList t e).calls = Function.update w.calls t
    { w.calls t with phase := .loop e w.fresh (w.calls t).spec.numBlocks } := rfl

end StoreList

/-- The head of `_download`: `assert block_spec.seeder != self.name`, then the
new list. -/
def downloadStart (t : Nat) : Option World :=
  match (w.calls t).phase with
  | .store e =>
    if (w.calls t).spec.seeder = (w.calls t).node then some (w.setPhase t .raised)
    else some (w.storeList t e)
  | _ => none

/-- The next turn of `for _ in blocks`, or its end.  A turn starts
`_next_download`: the requests go to every worker peer, and
`blocks = self._blocks_cache[block_spec.name]` is read (`KeyError` if gone). -/
def nextIteration (net : Net) (t : Nat) : Option World :=
  let c := w.calls t
  match c.phase with
  | .loop e _ 0 => some (w.setPhase t (.setEvent e))
  | .loop e o (n + 1) =>
    match w.cache c.node with
    | some cur => some (w.setPhase t (.collect e o n cur (net.workers c.node) []))
    | none => some (w.setPhase t .raised)
  | _ => none

/-- The reply of worker `src` to the availability request of call `t`. -/
def answer (t src : Nat) (ok : Bool) : Option World :=
  match (w.calls t).phase with
  | .collect e o n cur pending answers =>
    if src ∈ pending then
      some (w.setPhase t (.collect e o n cur (pending.erase src)
        (answers ++ [(src, if ok then some (w.getBlocksAvailable src) else none)])))
    else none
  | _ => none

/-- `as_completed` ends; `_next_download` returns its choice, which
`split(candidates, ...)` divides into local and remote candidates. -/
def collect (net : Net) (t r : Nat) : Option World :=
  let c := w.calls t
  match c.phase with
  | .collect e o n cur _ answers =>
    match nextDownload net.lt (net.peers c.node) c.spec (w.heap cur) answers r with
    | some (idx, cands) => some (w.setPhase t (.fetch e o n idx
        (cands.filter (net.isLocal c.node)) (cands.filter fun d => !net.isLocal c.node d)))
    | none => some (w.setPhase t .raised)
  | _ => none

/-- One pass of `while local or remote:`: a candidate drawn from `local or
remote` is removed and asked for the block; when both are empty, the seeder
(`self.peers[block_spec.seeder]`) is asked, and a failure there raises. -/
def fetch (net : Net) (t r : Nat) (ok : Bool) : Option World :=
  let c := w.calls t
  match c.phase with
  | .fetch e o n idx ls rs =>
    if ls ≠ [] ∨ rs ≠ [] then
      let cands := if ls ≠ [] then ls else rs
      match cands[r % cands.length]? with
      | none => none
      | some src =>
        match w.getBlock src idx ok with
        | some b => some ((w.writeSlot o idx b).setPhase t (.loop e o n))
        | none => some (w.setPhase t (.fetch e o n idx
            (if ls ≠ [] then ls.erase src else ls) (if ls ≠ [] then rs else rs.erase src)))
    else
      match (if c.spec.seeder ∈ net.peers c.node then w.getBlock c.spec.seeder idx ok
        else none) with
      | some b => some ((w.writeSlot o idx b).setPhase t (.loop e o n))
      | none => some (w.setPhase t .raised)
  | _ => none

/-- What a pass of the candidate loop can do: fill the slot from some node and
go back to the loop, try the next candidate, or raise. -/
theorem fetch_cases {net : Net} {t r : Nat} {ok : Bool} {w' : World}
    (h : w.fetch net t r ok = some w') :
    ∃ e o n idx ls rs, (w.calls t).phase = .fetch e o n idx ls rs ∧
      ((∃ src b, w.getBlock src idx ok = some b ∧
          w' = (w.writeSlot o idx b).setPhase t (.loop e o n)) ∨
        (∃ ls' rs', w' = w.setPhase t (.fetch e o n idx ls' rs')) ∨
        w' = w.setPhase t .raised) := by
  unfold fetch at h
  dsimp only at h
  split at h
  · rename_i e o n idx ls rs hp
    refine ⟨e, o, n, idx, ls, rs, hp, ?_⟩
    by_cases hne : ls ≠ [] ∨ rs ≠ []
    · rw [if_pos hne] at h
      split at h
      · cases h
      · split at h <;> cases h
        · exact .inl ⟨_, _, ‹_›, rfl⟩
        · exact .inr (.inl ⟨_, _, rfl⟩)
    · rw [if_neg hne] at h
      split at h <;> cases h
      · rename_i b hb
        split_ifs at hb
        exact .inl ⟨_, b, hb, rfl⟩
      · exact .inr (.inr rfl)
  · cases h

/-- `available.set()`, after the loop. -/
def setAvailable (t : Nat) : Option World :=
  match (w.calls t).phase with
  | .setEvent e => some { w.setPhase t .read with isSet := Function.update w.isSet e true }
  | _ => none

/-- The two deletions of `remove_blocks` and `_remove_blocks` (a missing entry
is tolerated). -/
def dropEntries (x : Nat) : World :=
  { w with cache := Function.update w.cache x none, events := Function.update w.events x none }

/-- `remove_blocks(name, from_peers)` on node `x`: with `from_peers`, a
`_remove_blocks` request to every peer, not waited for. -/
def removeBlocks (net : Net) (x : Nat) (fromPeers : Bool) : World :=
  { w.dropEntries x with
    removals := w.removals ++ if fromPeers then net.peers x else [] }

/-- The `_remove_blocks` request `i` reaches its node `x`. -/
def deliverRemove (x i : Nat) : Option World :=
  if w.removals[i]? = some x then some { w.dropEntries x with removals := w.removals.eraseIdx i }
  else none

end World

/-- One step of the system. -/
def step (net : Net) (w : World) : Label → Option World
  | .checkEvent t => w.checkEvent t
  | .leaveLock t => w.leaveLock t
  | .wakeUp t => w.wakeUp t
  | .returnCache t => w.returnCache t
  | .downloadStart t => w.downloadStart t
  | .nextIteration t => w.nextIteration net t
  | .answer t src ok => w.answer t src ok
  | .collect t r => w.collect net t r
  | .fetch t r ok => w.fetch net t r ok
  | .setAvailable t => w.setAvailable t
  | .removeBlocks x fromPeers => some (w.removeBlocks net x fromPeers)
  | .deliverRemove x i => w.deliverRemove x i

/-- The call a label moves, if any. -/
def Label.caller : Label → Option Nat
  | .checkEvent t | .leaveLock t | .wakeUp t | .returnCache t | .downloadStart t
  | .nextIteration t | .answer t _ _ | .collect t _ | .fetch t _ _ | .setAvailable t => some t
  | .removeBlocks _ _ | .deliverRemove _ _ => none

/-- A step of call `t` leaves the other calls, the other nodes' entries and the
requests in flight alone. -/
structure CallFrame (w : World) (t : Nat) (w' : World) : Prop where
  others : ∀ t', t' ≠ t → w'.calls t' = w.calls t'
  node : (w'.calls t).node = (w.calls t).node
  spec : (w'.calls t).spec = (w.calls t).spec
  downloaded : (w.calls t).downloaded = true → (w'.calls t).downloaded = true
  entries : ∀ y, y ≠ (w.calls t).node → w'.events y = w.events y ∧ w'.cache y = w.cache y
  removals : w'.removals = w.removals

section Frame

variable {w : World} {t : Nat}

theorem CallFrame.registerEvent : CallFrame w t (w.registerEvent t) :=
  ⟨fun _ h => by simp [World.registerEvent_calls, h], by simp [World.registerEvent_calls],
    by simp [World.registerEvent_calls], by simp [World.registerEvent_calls],
    fun y hy => ⟨by simp [World.registerEvent_events, hy], rfl⟩, rfl⟩

theorem CallFrame.storeList (e : Nat) : CallFrame w t (w.storeList t e) :=
  ⟨fun _ h => by simp [World.storeList_calls, h], by simp [World.storeList_calls],
    by simp [World.storeList_calls], by simp [World.storeList_calls],
    fun y hy => ⟨rfl, by simp [World.storeList_cache, hy]⟩, rfl⟩

/-- What a step that only moves call `t` to phase `p` can do: take the lock at
`start` with what `.get` returns, leave the lock only to wait on the event
found, leave `wait` only once its event is set, leave `store` only by raising,
enter `read` only from `wait` or `setEvent`, never enter `store`, keep the
event of a download until it
raises or sets it, return only the list in the cache, raise only in
`_download` or on a missing entry, and hold only ids it held or read from its
node's entries. -/
structure PhaseMove (w : World) (t : Nat) (p : Phase) : Prop where
  from_start : (w.calls t).phase = .start → p = .locked (w.events (w.calls t).node)
  from_locked : ∀ r, (w.calls t).phase = .locked r → ∃ e, r = some e ∧ p = .wait e
  from_wait : ∀ e, (w.calls t).phase = .wait e → w.isSet e = true ∧ p = .read
  from_store : ∀ e, (w.calls t).phase = .store e → p = .raised
  not_raised : (w.calls t).phase ≠ .raised
  to_locked : p.holdsLock = true → (w.calls t).phase = .start
  to_wait : ∀ e, p = .wait e → (w.calls t).phase = .locked (some e)
  to_read : p = .read →
    (∃ e, (w.calls t).phase = .wait e) ∨ ∃ e, (w.calls t).phase = .setEvent e
  to_raised : p = .raised → (w.calls t).phase.activeEv.isSome ∨
    ((w.calls t).phase = .read ∧ w.cache (w.calls t).node = none)
  not_store : ∀ e, p ≠ .store e
  active : ∀ e, p.activeEv = some e → (w.calls t).phase.activeEv = some e
  leave : ∀ e, (w.calls t).phase.activeEv = some e →
    p.activeEv = some e ∨ p = .raised ∨ ((w.calls t).phase = .setEvent e ∧ p = .read)
  done : ∀ o, p = .done o → w.cache (w.calls t).node = some o
  ids : ∀ n, (w.calls t).phase.IdsBelow n →
    (∀ o, w.cache (w.calls t).node = some o → o < n) →
    (∀ e, w.events (w.calls t).node = some e → e < n) → p.IdsBelow n

theorem Phase.pastWait_of_activeEv {p : Phase} {e : Nat} (h : p.activeEv = some e) :
    p.pastWait = true := by
  cases p <;> simp_all [Phase.activeEv, Phase.pastWait]

theorem Phase.holdsLock_of_pastWait {p : Phase} (h : p.pastWait = true) : p.holdsLock = false := by
  cases p <;> simp_all [Phase.pastWait, Phase.holdsLock]

/-- `with self._available_lock:` and the read of `.get(name)`. -/
theorem PhaseMove.take (hp : (w.calls t).phase = .start) :
    PhaseMove w t (.locked (w.events (w.calls t).node)) where
  from_start _ := rfl
  from_locked r h := by simp [hp] at h
  from_wait e h := by simp [hp] at h
  from_store e h := by simp [hp] at h
  not_raised := by simp [hp]
  to_locked _ := hp
  to_wait e h := by cases h
  to_read h := by cases h
  to_raised h := by cases h
  not_store e h := by cases h
  active e h := by simp [Phase.activeEv] at h
  leave e h := by simp [hp, Phase.activeEv] at h
  done o h := by cases h
  ids _ _ _ hev := hev

/-- `in_progress = True`: the call keeps the event it found. -/
theorem PhaseMove.found {e : Nat} (hp : (w.calls t).phase = .locked (some e)) :
    PhaseMove w t (.wait e) where
  from_start h := by simp [hp] at h
  from_locked r h := ⟨e, by cases hp ▸ h; rfl, rfl⟩
  from_wait e h := by simp [hp] at h
  from_store e h := by simp [hp] at h
  not_raised := by simp [hp]
  to_locked h := by simp [Phase.holdsLock] at h
  to_wait e' h := by cases h; exact hp
  to_read h := by cases h
  to_raised h := by cases h
  not_store e h := by cases h
  active e h := by simp [Phase.activeEv] at h
  leave e h := by simp [hp, Phase.activeEv] at h
  done o h := by cases h
  ids n h _ _ := by simpa [hp, Phase.IdsBelow] using h

/-- `available.wait()` returns once the event is set. -/
theorem PhaseMove.wake {e : Nat} (hp : (w.calls t).phase = .wait e) (hs : w.isSet e = true) :
    PhaseMove w t .read where
  from_start h := by simp [hp] at h
  from_locked r h := by simp [hp] at h
  from_wait e' h := ⟨by cases hp ▸ h; exact hs, rfl⟩
  from_store e h := by simp [hp] at h
  not_raised := by simp [hp]
  to_locked h := by simp [Phase.holdsLock] at h
  to_wait e h := by cases h
  to_read _ := .inl ⟨e, hp⟩
  to_raised h := by cases h
  not_store e h := by cases h
  active e h := by simp [Phase.activeEv] at h
  leave e h := by simp [hp, Phase.activeEv] at h
  done o h := by cases h
  ids _ _ _ _ := trivial

/-- `return self._blocks_cache[name]` finds the list `o`. -/
theorem PhaseMove.ret {o : Nat} (hp : (w.calls t).phase = .read)
    (hc : w.cache (w.calls t).node = some o) : PhaseMove w t (.done o) where
  from_start h := by simp [hp] at h
  from_locked r h := by simp [hp] at h
  from_wait e h := by simp [hp] at h
  from_store e h := by simp [hp] at h
  not_raised := by simp [hp]
  to_locked h := by simp [Phase.holdsLock] at h
  to_wait e h := by cases h
  to_read h := by cases h
  to_raised h := by cases h
  not_store e h := by cases h
  active e h := by simp [Phase.activeEv] at h
  leave e h := by simp [hp, Phase.activeEv] at h
  done o' h := by cases h; exact hc
  ids _ _ hcl _ := hcl o hc

/-- `available.set()` by the downloader, which goes on to its return. -/
theorem PhaseMove.set {e : Nat} (hp : (w.calls t).phase = .setEvent e) : PhaseMove w t .read where
  from_start h := by simp [hp] at h
  from_locked r h := by simp [hp] at h
  from_wait e h := by simp [hp] at h
  from_store e h := by simp [hp] at h
  not_raised := by simp [hp]
  to_locked h := by simp [Phase.holdsLock] at h
  to_wait e h := by cases h
  to_read _ := .inr ⟨e, hp⟩
  to_raised h := by cases h
  not_store e h := by cases h
  active e h := by simp [Phase.activeEv] at h
  leave e' h := by
    simp only [hp, Phase.activeEv, Option.some.injEq] at h
    exact .inr (.inr ⟨h ▸ hp, rfl⟩)
  done o h := by cases h
  ids _ _ _ _ := trivial

/-- A move inside `_download` that keeps the call's event and holds no new id
but the list it reads from the cache. -/
theorem PhaseMove.within {p : Phase}
    (hev : ∃ e, (w.calls t).phase.activeEv = some e ∧ p.activeEv = some e)
    (hfrom : ∀ e, (w.calls t).phase ≠ .store e) (hstore : ∀ e, p ≠ .store e)
    (hids : ∀ n, (w.calls t).phase.IdsBelow n →
      (∀ o, w.cache (w.calls t).node = some o → o < n) → p.IdsBelow n) :
    PhaseMove w t p := by
  obtain ⟨e, hold, hp⟩ := hev
  have hpast := Phase.pastWait_of_activeEv hold
  have hlock := Phase.holdsLock_of_pastWait (Phase.pastWait_of_activeEv hp)
  refine ⟨fun h => ?_, fun r h => ?_, fun e' h => ?_, fun e' h => absurd h (hfrom e'), ?_,
    fun h => ?_, fun e' h => ?_, fun h => ?_, fun h => ?_, hstore, fun e' he' => ?_,
    fun e' he' => ?_, fun o h => ?_, fun n h hcl _ => hids n h hcl⟩
  · simp [h, Phase.pastWait] at hpast
  · simp [h, Phase.pastWait] at hpast
  · simp [h, Phase.pastWait] at hpast
  · intro h; simp [h, Phase.activeEv] at hold
  · simp [h] at hlock
  · simp [h, Phase.activeEv] at hp
  · simp [h, Phase.activeEv] at hp
  · simp [h, Phase.activeEv] at hp
  · rw [hold, ← Option.some.inj (hp.symm.trans he')]
  · exact .inl (by rw [hp, ← Option.some.inj (hold.symm.trans he')])
  · simp [h, Phase.activeEv] at hp

/-- A raise, in `_download` or at `return self._blocks_cache[name]`. -/
theorem PhaseMove.raise (hold : (w.calls t).phase.activeEv.isSome ∨
      ((w.calls t).phase = .read ∧ w.cache (w.calls t).node = none)) :
    PhaseMove w t .raised := by
  have hpast : (w.calls t).phase.pastWait = true := by
    rcases hold with h | ⟨h, -⟩
    · obtain ⟨e, he⟩ := Option.isSome_iff_exists.1 h
      exact Phase.pastWait_of_activeEv he
    · simp [h, Phase.pastWait]
  refine ⟨fun h => ?_, fun r h => ?_, fun e h => ?_, fun _ _ => rfl, ?_, fun h => ?_,
    fun e h => ?_, fun h => ?_, fun _ => hold, fun e h => ?_, fun e h => ?_,
    fun _ _ => .inr (.inl rfl), fun o h => ?_, fun _ _ _ _ => trivial⟩
  · simp [h, Phase.pastWait] at hpast
  · simp [h, Phase.pastWait] at hpast
  · simp [h, Phase.pastWait] at hpast
  · intro h; rcases hold with hold | ⟨hold, -⟩ <;> simp [h, Phase.activeEv] at hold
  · simp [Phase.holdsLock] at h
  all_goals cases h

/-- Call `t` has moved to some phase and nothing else of the block managers has
changed, but for `available.set()`, which sets the event of the call at it. -/
def Moved (w : World) (t : Nat) (w' : World) : Prop :=
  ∃ p, PhaseMove w t p ∧ w'.events = w.events ∧ w'.cache = w.cache ∧
    w'.calls = (w.setPhase t p).calls ∧ w'.fresh = w.fresh ∧ w'.removals = w.removals ∧
    (∀ e, w'.isSet e ≠ w.isSet e → (w.calls t).phase = .setEvent e ∧ p = .read) ∧
    ∀ e, (w.calls t).phase = .setEvent e → p = .read → w'.isSet e = true

theorem PhaseMove.moved {p : Phase} (hm : PhaseMove w t p)
    (hset : ∀ e, (w.calls t).phase ≠ .setEvent e) : Moved w t (w.setPhase t p) :=
  ⟨p, hm, rfl, rfl, rfl, rfl, rfl, fun _ h => absurd rfl h, fun e h => absurd h (hset e)⟩

/-- A fill of a slot changes only the heap. -/
theorem PhaseMove.movedFill {p : Phase} (hm : PhaseMove w t p)
    (hset : ∀ e, (w.calls t).phase ≠ .setEvent e) (o idx : Nat) (b : Block) :
    Moved w t ((w.writeSlot o idx b).setPhase t p) :=
  ⟨p, hm, rfl, rfl, rfl, rfl, rfl, fun _ h => absurd rfl h, fun e h => absurd h (hset e)⟩

/-- What a move does to `_available_lock`: a call at `start` takes its node's
free lock, a call inside the block gives it back, and any other move leaves the
locks alone. -/
def LockMove (w : World) (t : Nat) (w' : World) : Prop :=
  ((w.calls t).phase = .start ∧ w.lock (w.calls t).node = false ∧
      w'.lock = Function.update w.lock (w.calls t).node true) ∨
    ((w.calls t).phase.holdsLock = true ∧
      w'.lock = Function.update w.lock (w.calls t).node false) ∨
    ((w.calls t).phase ≠ .start ∧ (w.calls t).phase.holdsLock = false ∧ w'.lock = w.lock)

theorem LockMove.keep {w' : World}
    (hold : (w.calls t).phase.pastWait = true ∨ ∃ e, (w.calls t).phase = .wait e)
    (hl : w'.lock = w.lock) : LockMove w t w' := by
  rcases hold with h | ⟨e, h⟩
  · exact .inr (.inr ⟨fun h' => by simp [h', Phase.pastWait] at h,
      Phase.holdsLock_of_pastWait h, hl⟩)
  · exact .inr (.inr ⟨by simp [h], by simp [h, Phase.holdsLock], hl⟩)

/-- A move past `available.wait()` leaves the locks alone and does not start
at `start`. -/
theorem Moved.pastWait {l : Label} {w' : World} (hmv : Moved w t w')
    (hpast : (w.calls t).phase.pastWait = true) (hl : w'.lock = w.lock) :
    Moved w t w' ∧ LockMove w t w' ∧ ((w.calls t).phase = .start → l = .checkEvent t) :=
  ⟨hmv, .keep (.inl hpast) hl, fun h => by simp [h, Phase.pastWait] at hpast⟩

/-- Every step of a call registers an event, stores a new list, or moves the
call; a call leaves `start` only by taking its lock. -/
theorem step_cases {net : Net} {l : Label} {w' : World} (hl : l.caller = some t)
    (h : step net w l = some w') :
    (l = .leaveLock t ∧ (w.calls t).phase = .locked none ∧ w' = w.registerEvent t) ∨
    (∃ e, (w.calls t).phase = .store e ∧ w' = w.storeList t e) ∨
    (Moved w t w' ∧ LockMove w t w' ∧ ((w.calls t).phase = .start → l = .checkEvent t)) := by
  cases l <;> simp only [Label.caller, Option.some.injEq, reduceCtorEq] at hl <;> subst hl <;>
    simp only [step] at h
  · unfold World.checkEvent at h
    split at h
    · rename_i hp
      split_ifs at h with hlk
      cases h
      exact .inr (.inr ⟨⟨_, .take hp, rfl, rfl, rfl, rfl, rfl, fun _ h => absurd rfl h,
        fun e h => by simp [hp] at h⟩, .inl ⟨hp, by simpa using hlk, rfl⟩, fun _ => rfl⟩)
    · cases h
  · unfold World.leaveLock at h
    split at h
    · rename_i e hp
      cases h
      exact .inr (.inr ⟨⟨_, .found hp, rfl, rfl, rfl, rfl, rfl, fun _ h => absurd rfl h,
        fun e h => by simp [hp] at h⟩, .inr (.inl ⟨by simp [hp, Phase.holdsLock], rfl⟩),
        fun h => by simp [hp] at h⟩)
    · cases h
      exact .inl ⟨rfl, ‹_›, rfl⟩
    · cases h
  · unfold World.wakeUp at h
    split at h
    · rename_i e hp
      split_ifs at h with hs; cases h
      exact .inr (.inr ⟨(PhaseMove.wake hp hs).moved (by simp [hp]),
        .keep (.inr ⟨e, hp⟩) rfl, by simp [hp]⟩)
    · cases h
  · unfold World.returnCache at h
    split at h <;> cases h
    · rename_i o hp hc
      exact .inr (.inr (((PhaseMove.ret hp hc).moved (by simp [hp])).pastWait
        (by simp [hp, Phase.pastWait]) rfl))
    · rename_i hp hc
      exact .inr (.inr (((PhaseMove.raise (.inr ⟨hp, hc⟩)).moved (by simp [hp])).pastWait
        (by simp [hp, Phase.pastWait]) rfl))
  · unfold World.downloadStart at h
    split at h
    · rename_i e hp
      split_ifs at h <;> cases h
      · exact .inr (.inr (((PhaseMove.raise (.inl (by simp [hp, Phase.activeEv]))).moved
          (by simp [hp])).pastWait (by simp [hp, Phase.pastWait]) rfl))
      · exact .inr (.inl ⟨e, hp, rfl⟩)
    · cases h
  · unfold World.nextIteration at h
    dsimp only at h
    split at h
    · rename_i hp
      cases h
      exact .inr (.inr (((PhaseMove.within (by simp [hp, Phase.activeEv]) (by simp [hp])
        (by simp) fun n h _ => by simp only [hp, Phase.IdsBelow] at h ⊢; exact h.1).moved
        (by simp [hp])).pastWait (by simp [hp, Phase.pastWait]) rfl))
    · rename_i hp
      split at h <;> cases h
      · rename_i cur hc
        exact .inr (.inr (((PhaseMove.within (by simp [hp, Phase.activeEv]) (by simp [hp])
          (by simp) fun n h hcl => by
            simp only [hp, Phase.IdsBelow] at h ⊢; exact ⟨h.1, h.2, hcl cur hc⟩).moved
          (by simp [hp])).pastWait (by simp [hp, Phase.pastWait]) rfl))
      · exact .inr (.inr (((PhaseMove.raise (.inl (by simp [hp, Phase.activeEv]))).moved
          (by simp [hp])).pastWait (by simp [hp, Phase.pastWait]) rfl))
    · cases h
  · unfold World.answer at h
    split at h
    · rename_i hp
      split_ifs at h <;> cases h <;>
        exact .inr (.inr (((PhaseMove.within (by simp [hp, Phase.activeEv]) (by simp [hp])
          (by simp) fun n h _ => by simpa [hp, Phase.IdsBelow] using h).moved
          (by simp [hp])).pastWait (by simp [hp, Phase.pastWait]) rfl))
    · cases h
  · unfold World.collect at h
    dsimp only at h
    split at h
    · rename_i hp
      split at h <;> cases h
      · exact .inr (.inr (((PhaseMove.within (by simp [hp, Phase.activeEv]) (by simp [hp])
          (by simp) fun n h _ => by
            simp only [hp, Phase.IdsBelow] at h ⊢; exact ⟨h.1, h.2.1⟩).moved
          (by simp [hp])).pastWait (by simp [hp, Phase.pastWait]) rfl))
      · exact .inr (.inr (((PhaseMove.raise (.inl (by simp [hp, Phase.activeEv]))).moved
          (by simp [hp])).pastWait (by simp [hp, Phase.pastWait]) rfl))
    · cases h
  · obtain ⟨e, o, n, idx, ls, rs, hp, ⟨src, b, -, rfl⟩ | ⟨ls', rs', rfl⟩ | rfl⟩ :=
      w.fetch_cases h
    · exact .inr (.inr (((PhaseMove.within (by simp [hp, Phase.activeEv]) (by simp [hp])
        (by simp) fun n h _ => by simpa [hp, Phase.IdsBelow] using h).movedFill
        (by simp [hp]) o idx b).pastWait (by simp [hp, Phase.pastWait]) rfl))
    · exact .inr (.inr (((PhaseMove.within (by simp [hp, Phase.activeEv]) (by simp [hp])
        (by simp) fun n h _ => by simpa [hp, Phase.IdsBelow] using h).moved
        (by simp [hp])).pastWait (by simp [hp, Phase.pastWait]) rfl))
    · exact .inr (.inr (((PhaseMove.raise (.inl (by simp [hp, Phase.activeEv]))).moved
        (by simp [hp])).pastWait (by simp [hp, Phase.pastWait]) rfl))
  · unfold World.setAvailable at h
    split at h
    · rename_i e hp
      cases h
      refine .inr (.inr (Moved.pastWait ⟨_, .set hp, rfl, rfl, rfl, rfl, rfl, fun e' he' => ?_,
        fun e' h _ => ?_⟩ (by simp [hp, Phase.pastWait]) rfl))
      · by_cases h : e' = e
        · exact ⟨h ▸ hp, rfl⟩
        · simp [Function.update_noteq h] at he'
      · rw [hp] at h; cases h; simp
    · cases h

/-- Every step of a call is framed. -/
theorem step_frame {net : Net} {l : Label} {w' : World} (hl : l.caller = some t)
    (h : step net w l = some w') : CallFrame w t w' := by
  rcases step_cases hl h with ⟨-, -, rfl⟩ | ⟨e, -, rfl⟩ |
    ⟨⟨p, -, hev, hcache, hcalls, -, hrem, -⟩, -⟩
  · exact .registerEvent
  · exact .storeList e
  · refine ⟨fun t' ht => ?_, by simp [hcalls], by simp [hcalls], by simp [hcalls],
      fun _ _ => ⟨by rw [hev], by rw [hcache]⟩, hrem⟩
    rw [hcalls]; exact World.setPhase_calls_of_ne w ht

end Frame

/-- The worlds reachable from `w₀` with steps whose labels satisfy `allowed`. -/
inductive Reachable (net : Net) (allowed : Label → Prop) (w₀ : World) : World → Prop
  | refl : Reachable net allowed w₀ w₀
  | tail {w w' : World} {l : Label} : Reachable net allowed w₀ w → allowed l →
      step net w l = some w' → Reachable net allowed w₀ w'

/-- Running a list of labels. -/
def run (net : Net) (w : World) : List Label → Option World
  | [] => some w
  | l :: ls => (step net w l).bind fun w' => run net w' ls

theorem reachable_of_run {net : Net} {allowed : Label → Prop} {w₀ : World} :
    ∀ {ls : List Label} {w w' : World}, Reachable net allowed w₀ w →
      (∀ l ∈ ls, allowed l) →
      run net w ls = some w' → Reachable net allowed w₀ w'
  | [], _, _, hw, _, h => by cases h; exact hw
  | l :: ls, w, w', hw, hl, h => by
    simp only [run, Option.bind_eq_some] at h
    obtain ⟨w₁, h₁, h₂⟩ := h
    exact reachable_of_run (.tail hw (hl l (List.mem_cons_self _ _)) h₁)
      (fun l' hl' => hl l' (List.mem_cons_of_mem _ hl')) h₂

/-- No node has the name, and every call is about to take the lock. -/
def World.empty (calls : Nat → Call) : World :=
  ⟨fun _ => none, fun _ => none, fun _ => [], fun _ => false, fun _ => false, 0, calls, []⟩

/-- No `remove_blocks` and no `_remove_blocks` in a run. -/
def NoRemoval : Label → Prop
  | .removeBlocks _ _ | .deliverRemove _ _ => False
  | _ => True

/-- The node whose entries a label drops, if any. -/
def Label.removes : Label → Option Nat
  | .removeBlocks y _ | .deliverRemove y _ => some y
  | _ => none

theorem Label.caller_or_removes (l : Label) :
    (∃ t, l.caller = some t) ∨ ∃ y, l.removes = some y := by
  cases l <;> simp [Label.caller, Label.removes]

/-- A removal drops node `y`'s two entries and nothing else of the block managers. -/
theorem step_removes {net : Net} {w w' : World} {l : Label} {y : Nat} (hl : l.removes = some y)
    (h : step net w l = some w') :
    w'.calls = w.calls ∧ w'.heap = w.heap ∧ w'.isSet = w.isSet ∧ w'.fresh = w.fresh ∧
      w'.events = Function.update w.events y none ∧
      w'.cache = Function.update w.cache y none := by
  cases l <;> simp only [Label.removes, Option.some.injEq, reduceCtorEq] at hl <;> subst hl <;>
    simp only [step] at h
  · cases h; exact ⟨rfl, rfl, rfl, rfl, rfl, rfl⟩
  · unfold World.deliverRemove at h
    split_ifs at h
    cases h
    exact ⟨rfl, rfl, rfl, rfl, rfl, rfl⟩

/-- A removal takes no lock. -/
theorem step_removes_lock {net : Net} {w w' : World} {l : Label} {y : Nat}
    (hl : l.removes = some y) (h : step net w l = some w') : w'.lock = w.lock := by
  cases l <;> simp only [Label.removes, Option.some.injEq, reduceCtorEq] at hl <;> subst hl <;>
    simp only [step] at h
  · cases h; rfl
  · unfold World.deliverRemove at h
    split_ifs at h
    cases h
    rfl

/-- `_available_lock`: a call inside the locked block holds its node's lock and
is the only call of the node there, a held lock has such a call, and a call
that found no event finds none still. -/
structure LockInv (w : World) : Prop where
  held : ∀ t, (w.calls t).phase.holdsLock = true → w.lock (w.calls t).node = true
  unique : ∀ t t', (w.calls t).phase.holdsLock = true → (w.calls t').phase.holdsLock = true →
    (w.calls t).node = (w.calls t').node → t = t'
  owner : ∀ x, w.lock x = true →
    ∃ t, (w.calls t).node = x ∧ (w.calls t).phase.holdsLock = true
  read : ∀ t, (w.calls t).phase = .locked none → w.events (w.calls t).node = none

section Lock

variable {w : World}

/-- A holder of the lock other than `t` is on another node than `t`'s, if `t` holds it. -/
theorem LockInv.node_ne (hw : LockInv w) {t t' : Nat} (ht : (w.calls t).phase.holdsLock = true)
    (ht' : (w.calls t').phase.holdsLock = true) (hne : t' ≠ t) :
    (w.calls t').node ≠ (w.calls t).node :=
  fun h => hne (hw.unique t' t ht' ht h)

/-- The steps that change no call but `t`, which holds the lock neither before
nor after, keep the invariant if the locks and the entries of the nodes of the
other calls holding a lock stay. -/
theorem LockInv.keep (hw : LockInv w) {t : Nat} {w' : World}
    (hcalls : ∀ t', t' ≠ t → w'.calls t' = w.calls t')
    (hnode : (w'.calls t).node = (w.calls t).node)
    (hold : (w.calls t).phase.holdsLock = false) (hnew : (w'.calls t).phase.holdsLock = false)
    (hlock : w'.lock = w.lock)
    (hev : ∀ t', t' ≠ t → (w.calls t').phase = .locked none →
      w'.events (w.calls t').node = w.events (w.calls t').node) : LockInv w' := by
  have hne : ∀ t', (w'.calls t').phase.holdsLock = true → t' ≠ t := by
    rintro t' h rfl; simp [hnew] at h
  refine ⟨fun t' h => ?_, fun t₁ t₂ h₁ h₂ hn => ?_, fun x hx => ?_, fun t' h => ?_⟩
  · have e := hcalls t' (hne t' h)
    rw [e] at h ⊢; rw [hlock]; exact hw.held t' h
  · have e₁ := hcalls t₁ (hne t₁ h₁)
    have e₂ := hcalls t₂ (hne t₂ h₂)
    rw [e₁] at h₁ hn; rw [e₂] at h₂ hn
    exact hw.unique t₁ t₂ h₁ h₂ hn
  · obtain ⟨t', hx', ht'⟩ := hw.owner x (hlock ▸ hx)
    have : t' ≠ t := by rintro rfl; simp [hold] at ht'
    exact ⟨t', by rw [hcalls t' this]; exact hx', by rw [hcalls t' this]; exact ht'⟩
  · have ht : t' ≠ t := hne t' (by simp [h, Phase.holdsLock])
    rw [hcalls t' ht] at h ⊢
    rw [hev t' ht h]; exact hw.read t' h

theorem LockInv.registerEvent (hw : LockInv w) {t : Nat} (hp : (w.calls t).phase = .locked none) :
    LockInv (w.registerEvent t) := by
  have ht : (w.calls t).phase.holdsLock = true := by simp [hp, Phase.holdsLock]
  have hcalls : ∀ t', t' ≠ t → (w.registerEvent t).calls t' = w.calls t' := fun t' h => by
    simp [World.registerEvent_calls, h]
  have hself : (w.registerEvent t).calls t =
      { w.calls t with phase := .store w.fresh, downloaded := true } := by
    simp [World.registerEvent_calls]
  have hne : ∀ t', ((w.registerEvent t).calls t').phase.holdsLock = true → t' ≠ t := by
    rintro t' h rfl; simp [hself, Phase.holdsLock] at h
  refine ⟨fun t' h => ?_, fun t₁ t₂ h₁ h₂ hn => ?_, fun x hx => ?_, fun t' h => ?_⟩
  · have h' := hne t' h
    rw [hcalls t' h'] at h ⊢
    rw [World.registerEvent_lock, Function.update_noteq (hw.node_ne ht h h')]
    exact hw.held t' h
  · have e₁ := hcalls t₁ (hne t₁ h₁)
    have e₂ := hcalls t₂ (hne t₂ h₂)
    rw [e₁] at h₁ hn; rw [e₂] at h₂ hn
    exact hw.unique t₁ t₂ h₁ h₂ hn
  · have hx' : x ≠ (w.calls t).node := by
      rintro rfl; simp [World.registerEvent_lock] at hx
    rw [World.registerEvent_lock, Function.update_noteq hx'] at hx
    obtain ⟨t', rfl, ht'⟩ := hw.owner x hx
    have : t' ≠ t := by rintro rfl; exact hx' rfl
    exact ⟨t', by rw [hcalls t' this], by rw [hcalls t' this]; exact ht'⟩
  · have h' := hne t' (by simp [h, Phase.holdsLock])
    rw [hcalls t' h'] at h ⊢
    rw [World.registerEvent_events, Function.update_noteq
      (hw.node_ne ht (by simp [h, Phase.holdsLock]) h')]
    exact hw.read t' h

/-- A move that takes, gives back or leaves alone the lock. -/
theorem LockInv.move (hw : LockInv w) {t : Nat} {w' : World} (hm : Moved w t w')
    (hl : LockMove w t w') : LockInv w' := by
  obtain ⟨p, hm, hev, -, hcalls, -⟩ := hm
  have hc : ∀ t', t' ≠ t → w'.calls t' = w.calls t' := fun t' h => by
    rw [hcalls]; exact World.setPhase_calls_of_ne w h
  have hself : w'.calls t = { w.calls t with phase := p } := by rw [hcalls]; simp
  rcases hl with ⟨hp, hfree, hlock⟩ | ⟨hp, hlock⟩ | ⟨hp, hp', hlock⟩
  · -- `t` takes its node's free lock
    have hold : ∀ t', (w.calls t').phase.holdsLock = true →
        (w.calls t').node ≠ (w.calls t).node :=
      fun t' h hn => by simp [← hn, hw.held t' h] at hfree
    have hnew : p = .locked (w.events (w.calls t).node) := hm.from_start hp
    refine ⟨fun t' h => ?_, fun t₁ t₂ h₁ h₂ hn => ?_, fun x hx => ?_, fun t' h => ?_⟩
    · by_cases ht : t' = t
      · subst ht; rw [hself, hlock]; simp
      · rw [hc t' ht] at h ⊢; rw [hlock, Function.update_noteq (hold t' h)]; exact hw.held t' h
    · by_cases ht₁ : t₁ = t <;> by_cases ht₂ : t₂ = t
      · rw [ht₁, ht₂]
      · rw [hc t₂ ht₂] at h₂ hn; subst ht₁; rw [hself] at hn
        exact absurd hn.symm (hold t₂ h₂)
      · rw [hc t₁ ht₁] at h₁ hn; subst ht₂; rw [hself] at hn
        exact absurd hn (hold t₁ h₁)
      · rw [hc t₁ ht₁] at h₁ hn; rw [hc t₂ ht₂] at h₂ hn
        exact hw.unique t₁ t₂ h₁ h₂ hn
    · by_cases hx' : x = (w.calls t).node
      · exact ⟨t, by rw [hself, hx'], by rw [hself, hnew]; rfl⟩
      · rw [hlock, Function.update_noteq hx'] at hx
        obtain ⟨t', rfl, ht'⟩ := hw.owner x hx
        have : t' ≠ t := by rintro rfl; simp [hp, Phase.holdsLock] at ht'
        exact ⟨t', by rw [hc t' this], by rw [hc t' this]; exact ht'⟩
    · by_cases ht : t' = t
      · subst ht; rw [hself, hnew] at h ⊢; rw [hev]; simpa using h
      · rw [hc t' ht] at h ⊢; rw [hev]; exact hw.read t' h
  · -- `t` gives its lock back
    have hnew : p.holdsLock = false := by
      cases hq : p.holdsLock
      · rfl
      · simp [hm.to_locked hq, Phase.holdsLock] at hp
    have hne : ∀ t', (w'.calls t').phase.holdsLock = true → t' ≠ t := by
      rintro t' h rfl; simp [hself, hnew] at h
    refine ⟨fun t' h => ?_, fun t₁ t₂ h₁ h₂ hn => ?_, fun x hx => ?_, fun t' h => ?_⟩
    · have h' := hne t' h
      rw [hc t' h'] at h ⊢
      rw [hlock, Function.update_noteq (hw.node_ne hp h h')]; exact hw.held t' h
    · have e₁ := hc t₁ (hne t₁ h₁)
      have e₂ := hc t₂ (hne t₂ h₂)
      rw [e₁] at h₁ hn; rw [e₂] at h₂ hn
      exact hw.unique t₁ t₂ h₁ h₂ hn
    · have hx' : x ≠ (w.calls t).node := by rintro rfl; simp [hlock] at hx
      rw [hlock, Function.update_noteq hx'] at hx
      obtain ⟨t', rfl, ht'⟩ := hw.owner x hx
      have : t' ≠ t := by rintro rfl; exact hx' rfl
      exact ⟨t', by rw [hc t' this], by rw [hc t' this]; exact ht'⟩
    · have h' := hne t' (by simp [h, Phase.holdsLock])
      rw [hc t' h'] at h ⊢; rw [hev]; exact hw.read t' h
  · -- the lock stays as it is
    have hnew : p.holdsLock = false := by
      cases hq : p.holdsLock
      · rfl
      · exact absurd (hm.to_locked hq) hp
    exact hw.keep hc (by rw [hself]) hp' (by rw [hself]; exact hnew) hlock
      fun t' _ _ => by rw [hev]

/-- Every step keeps the lock's invariant. -/
theorem LockInv.step (hw : LockInv w) {net : Net} {l : Label} {w' : World}
    (h : BlockManager.step net w l = some w') : LockInv w' := by
  rcases l.caller_or_removes with ⟨t, hc⟩ | ⟨y, hr⟩
  · rcases step_cases hc h with ⟨-, hp, rfl⟩ | ⟨e, hp, rfl⟩ | ⟨hm, hl, -⟩
    · exact hw.registerEvent hp
    · exact hw.keep (CallFrame.storeList e).others (CallFrame.storeList e).node
        (by simp [hp, Phase.holdsLock]) (by simp [World.storeList_calls, Phase.holdsLock]) rfl
        fun _ _ _ => rfl
    · exact hw.move hm hl
  · obtain ⟨hcalls, -, -, -, hev, -⟩ := step_removes hr h
    have hlock := step_removes_lock hr h
    refine ⟨fun t h' => ?_, fun t t' h₁ h₂ => ?_, fun x hx => ?_, fun t h' => ?_⟩
    · rw [hcalls] at h' ⊢; rw [hlock]; exact hw.held t h'
    · rw [hcalls] at h₁ h₂ ⊢; exact hw.unique t t' h₁ h₂
    · rw [hlock] at hx; rw [hcalls]; exact hw.owner x hx
    · rw [hcalls] at h' ⊢; rw [hev, Function.update_apply]
      split_ifs
      exacts [rfl, hw.read t h']

theorem LockInv.reachable (hw : LockInv w) {net : Net} {allowed : Label → Prop} {w' : World}
    (h : Reachable net allowed w w') : LockInv w' := by
  induction h with
  | refl => exact hw
  | tail _ _ hs ih => exact ih.step hs

/-- With no call inside the block and every lock free, the invariant holds. -/
theorem lockInv_of_free (hcalls : ∀ t, (w.calls t).phase.holdsLock = false)
    (hlock : ∀ x, w.lock x = false) : LockInv w :=
  ⟨fun t h => by simp [hcalls t] at h, fun t _ h => by simp [hcalls t] at h,
    fun x h => by simp [hlock x] at h, fun t h => by simpa [h, Phase.holdsLock] using hcalls t⟩

end Lock

/-- No `remove_blocks` on node `x` and no `_remove_blocks` reaching it. -/
def NoRemovalAt (x : Nat) : Label → Prop
  | .removeBlocks y _ | .deliverRemove y _ => y ≠ x
  | _ => True

/-- A removal in a run without removals at `x` reaches another node. -/
theorem NoRemovalAt.ne {x y : Nat} {l : Label} (hl : NoRemovalAt x l) (hr : l.removes = some y) :
    y ≠ x := by
  cases l <;> simp only [Label.removes, Option.some.injEq, reduceCtorEq] at hr <;>
    subst hr <;> exact hl

/-- A small network for concrete runs: node `0` is the seeder and the only peer
of every node, and no node is a worker peer of another. -/
def exampleNet : Net := ⟨fun _ => [], fun _ => [0], fun _ _ => false, fun a b => decide (a < b)⟩

/-- Every call runs on node `1`, for the one-block list seeded by node `0`. -/
def exampleCalls : Nat → Call := fun _ => ⟨1, ⟨0, 1⟩, .start, false⟩

/-- Node `0` serves the single block `[7]`. -/
def exampleStart : World := (World.empty exampleCalls).serveBlocks 0 [[7]]

end Bndl.Rmi.BlockManager
