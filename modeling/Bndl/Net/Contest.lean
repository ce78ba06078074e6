import Bndl.Net.PeerTable
/-!
# Two nodes connecting to each other at once

Nodes `n` and `m` each open a connection to the other.  Each node runs
`_peer_connected` once for each of the two connections (its own outgoing one,
and the incoming one from `_serve`), one call at a time under its
`_peer_table_lock`, unless the connection was closed before its hello
finished.  A node that closes a connection does so at its own end at once; the
other end sees the close only when it is delivered.

When both nodes rank the two connections the same way, the lower one survives
at both ends and the other one is closed (`contest_agrees`).  The invariant
(`ContestInv`) says the lower connection is never closed, and how each node's
entry for the other follows from which connections it has handled.

A node can be handed a connection that the other node has already closed as the
loser, once the close has been delivered: with an entry for the other node in
its table, `_peer_connected` then fails its `assert peer.is_connected`
(`peer_connected_raises`).
-/

namespace Bndl.Net.Contest

open Bndl.Net.PeerTable

/-- The two nodes; a connection is named by the side that opened it. -/
inductive Side where
  | n
  | m
  deriving DecidableEq, Repr

def Side.other : Side → Side
  | .n => .m
  | .m => .n

@[simp] theorem Side.other_other (x : Side) : x.other.other = x := by cases x <;> rfl

@[simp] theorem Side.other_ne (x : Side) : x.other ≠ x := by cases x <;> decide

@[simp] theorem Side.ne_other (x : Side) : x ≠ x.other := by cases x <;> decide

/-- The nodes' names, the ids of the two connections, and each node's
`PeerNode` order. -/
structure Setup where
  name : Side → Nat
  conn : Side → Nat
  lt : Side → PeerNode → PeerNode → Bool

/-- The `PeerNode` that node `x` holds for the connection opened by `c`. -/
def Setup.peerAt (S : Setup) (x c : Side) : PeerNode := ⟨S.name x.other, S.conn c⟩

@[simp] theorem Setup.peerAt_name (S : Setup) (x c : Side) :
    (S.peerAt x c).name = S.name x.other := rfl

@[simp] theorem Setup.peerAt_conn (S : Setup) (x c : Side) :
    (S.peerAt x c).conn = S.conn c := rfl

/-- Both nodes, and which connections each has handled (processed or lost). -/
structure State where
  node : Side → Node
  handled : Side → Side → Bool

/-- `x`'s peer-table entry for the other node. -/
def State.entry (S : Setup) (s : State) (x : Side) : Option PeerNode :=
  (s.node x).peers (S.name x.other)

def State.markHandled (s : State) (x c : Side) : Side → Side → Bool :=
  fun y d => if y = x ∧ d = c then true else s.handled y d

@[simp] theorem State.markHandled_self (s : State) (x c : Side) : s.markHandled x c x c = true := by
  simp [State.markHandled]

theorem State.markHandled_of_ne (s : State) {x c y d : Side} (h : ¬(y = x ∧ d = c)) :
    s.markHandled x c y d = s.handled y d := by
  simp [State.markHandled, h]

/-- Node `x` runs `_peer_connected` for the connection opened by `c`. -/
def State.process (S : Setup) (s : State) (x c : Side) : State :=
  ⟨Function.update s.node x (peerConnected (S.lt x) (s.node x) (S.peerAt x c)),
    s.markHandled x c⟩

/-- Node `x` learns that the other node closed the connection opened by `c`. -/
def State.deliver (S : Setup) (s : State) (x c : Side) : State :=
  ⟨Function.update s.node x
    { s.node x with closed := Function.update (s.node x).closed (S.conn c) true }, s.handled⟩

/-- The steps of the contest. -/
inductive Step (S : Setup) : State → State → Prop
  | process (s : State) (x c : Side) (h : s.handled x c = false) : Step S s (s.process S x c)
  /-- The connection closed at `x` before `x` got to `_peer_connected` for it. -/
  | lose (s : State) (x c : Side) (h : s.handled x c = false)
      (hc : (s.node x).closed (S.conn c) = true) : Step S s ⟨s.node, s.markHandled x c⟩
  | deliver (s : State) (x c : Side) (hc : (s.node x.other).closed (S.conn c) = true) :
      Step S s (s.deliver S x c)

/-- The states reachable from `s₀`. -/
inductive Reachable (S : Setup) (s₀ : State) : State → Prop
  | refl : Reachable S s₀ s₀
  | tail {s t : State} : Reachable S s₀ s → Step S s t → Reachable S s₀ t

/-- The contest starts with neither node knowing the other, both connections
open, nothing handled. -/
def Initial (S : Setup) (s : State) : Prop :=
  ∀ x c, (s.node x).name = S.name x ∧ s.entry S x = none ∧
    (s.node x).closed (S.conn c) = false ∧ s.handled x c = false

/-- Both nodes rank the connection opened by `lo` below the other one. -/
def RanksLower (S : Setup) (lo : Side) : Prop :=
  ∀ x, S.lt x (S.peerAt x lo) (S.peerAt x lo.other) = true ∧
    S.lt x (S.peerAt x lo.other) (S.peerAt x lo) = false

/-- Distinct node names and distinct connections. -/
def Distinct (S : Setup) : Prop := S.name .n ≠ S.name .m ∧ S.conn .n ≠ S.conn .m

section Invariant

variable {S : Setup} {lo x : Side}

theorem Side.eq_or_eq_other (c lo : Side) : c = lo ∨ c = lo.other := by
  cases c <;> cases lo <;> simp [Side.other]

theorem Distinct.name_ne (hd : Distinct S) (x : Side) : S.name x ≠ S.name x.other := by
  cases x
  · exact hd.1
  · exact hd.1.symm

theorem Distinct.conn_ne (hd : Distinct S) (lo : Side) : S.conn lo ≠ S.conn lo.other := by
  cases lo
  · exact hd.2
  · exact hd.2.symm

theorem Distinct.peerAt_ne (hd : Distinct S) (x lo : Side) :
    S.peerAt x lo ≠ S.peerAt x lo.other := fun h => hd.conn_ne lo (congrArg PeerNode.conn h)

/-- What holds at node `x` (its state `nd`, and whether it has handled the
lower connection and the other one), `lo` being the lower connection. -/
structure LocalInv (S : Setup) (lo x : Side) (nd : Node) (hlo hhi : Bool) : Prop where
  name : nd.name = S.name x
  lo_open : nd.closed (S.conn lo) = false
  entry_cases : nd.peers (S.name x.other) = none ∨
    nd.peers (S.name x.other) = some (S.peerAt x lo) ∨
    nd.peers (S.name x.other) = some (S.peerAt x lo.other)
  entry_lo : nd.peers (S.name x.other) = some (S.peerAt x lo) ↔ hlo = true
  entry_hi : nd.peers (S.name x.other) = some (S.peerAt x lo.other) → hhi = true
  hi_closed : hhi = true →
    nd.peers (S.name x.other) = some (S.peerAt x lo.other) ∨ nd.closed (S.conn lo.other) = true

section Transitions

variable {nd : Node} {hhi hlo : Bool}

/-- The lower connection, processed while the higher one is installed,
replaces it. -/
theorem contest_lo_of_hi (hd : Distinct S) (hr : RanksLower S lo) (hn : nd.name = S.name x)
    (hopen : nd.closed (S.conn lo) = false)
    (he : nd.peers (S.name x.other) = some (S.peerAt x lo.other)) :
    contest (S.lt x) nd (S.peerAt x lo) = .newWins (S.peerAt x lo.other) := by
  have hne : nd.name ≠ S.name x.other := hn ▸ hd.name_ne x
  simp [contest, Node.isConnected, he, hopen, hne, (hr x).2]

/-- The higher connection, processed while the lower one is installed, is
closed by the assertion or by the contest. -/
theorem contest_hi_of_lo (hd : Distinct S) (hr : RanksLower S lo) (hn : nd.name = S.name x)
    (hopen : nd.closed (S.conn lo) = false)
    (he : nd.peers (S.name x.other) = some (S.peerAt x lo)) :
    contest (S.lt x) nd (S.peerAt x lo.other) =
      if nd.closed (S.conn lo.other) then .assertFails else .oldWins := by
  have hne : nd.name ≠ S.name x.other := hn ▸ hd.name_ne x
  by_cases hc : nd.closed (S.conn lo.other) <;>
    simp [contest, Node.isConnected, he, hopen, hne, hc, (hr x).1]

theorem local_process_lo (hd : Distinct S) (hr : RanksLower S lo)
    (h : LocalInv S lo x nd false hhi) :
    LocalInv S lo x (peerConnected (S.lt x) nd (S.peerAt x lo)) true hhi := by
  obtain ⟨hn, hopen, hcases, hlo, hhi', hclosed⟩ := h
  have hpeer : (S.peerAt x lo).name = S.name x.other := rfl
  rcases hcases with he | he | he
  · have hc : contest (S.lt x) nd (S.peerAt x lo) = .added := contest_of_unknown (hpeer ▸ he)
    refine ⟨by simpa using hn, ?_, ?_, ?_, ?_, ?_⟩ <;>
      simp [peerConnected, hc, hpeer, hopen, hd.peerAt_ne x lo]
    intro hh
    simpa [he] using hclosed hh
  · exact absurd (hlo.1 he) (by simp)
  · have hc := contest_lo_of_hi hd hr hn hopen he
    refine ⟨by simpa using hn, ?_, ?_, ?_, ?_, ?_⟩ <;>
      simp [peerConnected, hc, hpeer, hd.peerAt_ne x lo, Node.disconnect, hopen,
        Function.update_noteq (hd.conn_ne lo)]

theorem local_process_hi (hd : Distinct S) (hr : RanksLower S lo)
    (h : LocalInv S lo x nd hlo false) :
    LocalInv S lo x (peerConnected (S.lt x) nd (S.peerAt x lo.other)) hlo true := by
  obtain ⟨hn, hopen, hcases, hlo', hhi', hclosed⟩ := h
  have hpeer : (S.peerAt x lo.other).name = S.name x.other := rfl
  rcases hcases with he | he | he
  · have hc : contest (S.lt x) nd (S.peerAt x lo.other) = .added :=
      contest_of_unknown (hpeer ▸ he)
    have hlo0 : hlo = false := by simpa [he] using hlo'
    refine ⟨by simpa using hn, ?_, ?_, ?_, ?_, ?_⟩ <;>
      simp [peerConnected, hc, hpeer, hopen, hlo0, (hd.peerAt_ne x lo).symm]
  · have hc := contest_hi_of_lo hd hr hn hopen he
    by_cases hcl : nd.closed (S.conn lo.other)
    · simp only [hcl, if_true] at hc
      simp only [peerConnected, hc]
      exact ⟨hn, hopen, Or.inr (Or.inl he), hlo', fun _ => rfl, fun _ => Or.inr hcl⟩
    · simp only [hcl, if_false] at hc
      refine ⟨by simpa using hn, ?_, ?_, ?_, ?_, ?_⟩ <;>
        simp [peerConnected, hc, Node.disconnect, he, hopen, hlo'.1 he,
          Function.update_noteq (hd.conn_ne lo)]
  · exact absurd (hhi' he) (by simp)

theorem local_lose (c : Side) (h : LocalInv S lo x nd hlo hhi)
    (hc : nd.closed (S.conn c) = true) :
    LocalInv S lo x nd (if c = lo then true else hlo) (if c = lo then hhi else true) := by
  rcases Side.eq_or_eq_other c lo with rfl | rfl
  · simp [h.lo_open] at hc
  · simp only [Side.other_ne, if_false]
    exact ⟨h.name, h.lo_open, h.entry_cases, h.entry_lo, fun _ => rfl, fun _ => Or.inr hc⟩

theorem local_close_hi (hd : Distinct S) (h : LocalInv S lo x nd hlo hhi) :
    LocalInv S lo x { nd with closed := Function.update nd.closed (S.conn lo.other) true }
      hlo hhi :=
  ⟨h.name, by simpa [Function.update_noteq (hd.conn_ne lo)] using h.lo_open, h.entry_cases,
    h.entry_lo, h.entry_hi, fun _ => Or.inr (by simp)⟩

end Transitions

/-- The invariant of the contest. -/
def ContestInv (S : Setup) (lo : Side) (s : State) : Prop :=
  ∀ x, LocalInv S lo x (s.node x) (s.handled x lo) (s.handled x lo.other)

theorem initial_inv {s : State} (h : Initial S s) : ContestInv S lo s := by
  intro x
  obtain ⟨hn, he, hlo, hh⟩ := h x lo
  have hhi := (h x lo.other).2.2.2
  simp only [State.entry] at he
  exact ⟨hn, hlo, Or.inl he, by simp [he, hh], by simp [he], by simp [hhi]⟩

theorem step_inv (hd : Distinct S) (hr : RanksLower S lo) {s t : State}
    (hs : ContestInv S lo s) (h : Step S s t) : ContestInv S lo t := by
  cases h with
  | process x c hc =>
    intro y
    by_cases hy : y = x
    · subst hy
      simp only [State.process, Function.update_same]
      rcases Side.eq_or_eq_other c lo with rfl | rfl
      · have := local_process_lo hd hr (hc ▸ hs y)
        rwa [State.markHandled_self, State.markHandled_of_ne _ (by simp)]
      · have := local_process_hi hd hr (hc ▸ hs y)
        rwa [State.markHandled_self, State.markHandled_of_ne _ (by simp)]
    · simpa [State.process, Function.update_noteq hy, State.markHandled_of_ne, hy] using hs y
  | lose x c hc hcl =>
    intro y
    by_cases hy : y = x
    · subst hy
      have := local_lose c (hs y) hcl
      rcases Side.eq_or_eq_other c lo with rfl | rfl
      · simpa [State.markHandled] using this
      · simpa [State.markHandled] using this
    · simpa [State.markHandled_of_ne, hy] using hs y
  | deliver x c hc =>
    intro y
    by_cases hy : y = x
    · subst hy
      rcases Side.eq_or_eq_other c lo with rfl | rfl
      · simp [(hs y.other).lo_open] at hc
      · simpa [State.deliver] using local_close_hi hd (hs y)
    · simpa [State.deliver, Function.update_noteq hy] using hs y

theorem reachable_inv (hd : Distinct S) (hr : RanksLower S lo) {s₀ s : State}
    (h0 : Initial S s₀) (h : Reachable S s₀ s) : ContestInv S lo s := by
  induction h with
  | refl => exact initial_inv h0
  | tail _ hstep ih => exact step_inv hd hr ih hstep

end Invariant

/-- Once both nodes have handled both connections, each holds its end of the
lower connection, which is open at both ends, and the other connection is
closed at both ends. -/
theorem contest_agrees (S : Setup) (lo : Side) (hd : Distinct S) (hr : RanksLower S lo)
    {s₀ s : State} (h0 : Initial S s₀) (hs : Reachable S s₀ s)
    (hdone : ∀ x c, s.handled x c = true) :
    (s.node .n).peers (S.name .m) = some ⟨S.name .m, S.conn lo⟩ ∧
      (s.node .m).peers (S.name .n) = some ⟨S.name .n, S.conn lo⟩ ∧
      (∀ x, (s.node x).closed (S.conn lo) = false) ∧
      (∀ x, (s.node x).closed (S.conn lo.other) = true) := by
  have hinv := reachable_inv hd hr h0 hs
  have hentry : ∀ x, (s.node x).peers (S.name x.other) = some (S.peerAt x lo) :=
    fun x => (hinv x).entry_lo.2 (hdone x lo)
  refine ⟨hentry .n, hentry .m, fun x => (hinv x).lo_open, fun x => ?_⟩
  rcases (hinv x).hi_closed (hdone x lo.other) with he | hc
  · exact absurd (hentry x ▸ he) (by simpa using hd.peerAt_ne x lo)
  · exact hc

/-- Nodes `0` and `1`, each ranking its peers by connection id. -/
def exampleSetup : Setup :=
  ⟨fun x => if x = .n then 0 else 1, fun x => if x = .n then 0 else 1,
    fun _ a b => decide (a.conn < b.conn)⟩

def exampleStart : State :=
  ⟨fun x => ⟨exampleSetup.name x, fun _ => none, fun _ => false⟩, fun _ _ => false⟩

/-- Node `n` processes both of its ends, then node `m` does, in the other order. -/
def exampleEnd : State :=
  (((exampleStart.process exampleSetup .n .n).process exampleSetup .n .m).process
    exampleSetup .m .m).process exampleSetup .m .n

theorem contest_agrees_on_example :
    (exampleEnd.node .n).peers 1 = some ⟨1, 0⟩ ∧ (exampleEnd.node .m).peers 0 = some ⟨0, 0⟩ ∧
      (∀ x, (exampleEnd.node x).closed 0 = false) ∧
      (∀ x, (exampleEnd.node x).closed 1 = true) :=
  contest_agrees exampleSetup .n ⟨by decide, by decide⟩ (fun x => by cases x <;> decide)
    (fun _ _ => ⟨rfl, rfl, rfl, rfl⟩ : Initial exampleSetup exampleStart)
    (.tail (.tail (.tail (.tail .refl (.process _ .n .n rfl)) (.process _ .n .m rfl))
      (.process _ .m .m rfl)) (.process _ .m .n rfl))
    (by intro x c; cases x <;> cases c <;> rfl)

/-- Node `m` handles `n`'s connection, then its own, which loses and is closed;
the close reaches `n`, which then handles its own connection.  `n` has yet to
run `_peer_connected` for `m`'s connection, closed while the call waited. -/
def closedWhileWaiting : State :=
  (((exampleStart.process exampleSetup .m .n).process exampleSetup .m .m).deliver
    exampleSetup .n .m).process exampleSetup .n .n

/-- In a run of the contest, `_peer_connected` is handed a peer whose connection
was closed while it waited for the lock, and `assert peer.is_connected` raises.
The branches that close the new peer do leave the table as it was. -/
theorem peer_connected_raises :
    Reachable exampleSetup exampleStart closedWhileWaiting ∧
      closedWhileWaiting.handled .n .m = false ∧
      contest (exampleSetup.lt .n) (closedWhileWaiting.node .n) (exampleSetup.peerAt .n .m) =
        .assertFails ∧
      ∀ lt node peer, (contest lt node peer = .selfConnect ∨ contest lt node peer = .oldWins) →
        (peerConnected lt node peer).peers = node.peers := by
  refine ⟨.tail (.tail (.tail (.tail .refl (.process _ .m .n rfl)) (.process _ .m .m rfl))
    (.deliver _ .n .m rfl)) (.process _ .n .n rfl), rfl, rfl, fun lt node peer h => ?_⟩
  rcases h with h | h <;> simp [peerConnected, h]

end Bndl.Net.Contest
