import Mathlib.Logic.Function.Basic
/-!
# The peer table and `Node._peer_connected`

A node keeps one `PeerNode` per remote name.  When a connection has said
hello, `_peer_connected` decides under `_peer_table_lock` whether the new peer
is installed, whether it replaces the known one, or whether it is closed.  The
decision only reads the table, the two peers' connection states and the
`PeerNode` comparison, so it is a pure function here (`contest`); its effect on
the node is `peerConnected`.

`self_connect_added` is the one-node fact behind the self-connection case: the
self-connect test sits inside `if known_peer:`, so a connection from the node
to itself is installed when nothing is yet known under the node's name.
-/

namespace Bndl.Net.PeerTable

/-- One end of a connection, as a node sees it: the remote's name and the
connection it runs over. -/
structure PeerNode where
  name : Nat
  conn : Nat
  deriving DecidableEq, Repr

/-- A node's membership state: its name, its peer table (`self.peers`, keyed by
name), and the connections it has seen closed at its end. -/
structure Node where
  name : Nat
  peers : Nat → Option PeerNode
  closed : Nat → Bool

/-- `peer.is_connected`, seen from the node. -/
def Node.isConnected (node : Node) (peer : PeerNode) : Bool := !node.closed peer.conn

/-- `peer.disconnect(...)`: the node closes its end of the peer's connection. -/
def Node.disconnect (node : Node) (peer : PeerNode) : Node :=
  { node with closed := Function.update node.closed peer.conn true }

@[simp] theorem Node.disconnect_peers (node : Node) (peer : PeerNode) :
    (node.disconnect peer).peers = node.peers := rfl

@[simp] theorem Node.disconnect_name (node : Node) (peer : PeerNode) :
    (node.disconnect peer).name = node.name := rfl

/-- The branch `_peer_connected` takes. -/
inductive Outcome where
  /-- No peer under the name: the new one is installed. -/
  | added
  /-- `assert peer.is_connected` raises. -/
  | assertFails
  /-- `self.name == peer.name`: the new peer is closed. -/
  | selfConnect
  /-- The known peer is connected and ranks lower: the new peer is closed. -/
  | oldWins
  /-- The known peer is closed and replaced by the new one. -/
  | newWins (known : PeerNode)
  deriving DecidableEq, Repr

/-- The decision of `_peer_connected`, for the `PeerNode` order `lt`. -/
def contest (lt : PeerNode → PeerNode → Bool) (node : Node) (peer : PeerNode) : Outcome :=
  match node.peers peer.name with
  | none => .added
  | some known =>
    if !node.isConnected peer then .assertFails
    else if node.name = peer.name then .selfConnect
    else if node.isConnected known && lt known peer then .oldWins
    else .newWins known

/-- `_peer_connected(peer)`: the node after the call (the notification task it
spawns afterwards does not touch the table). -/
def peerConnected (lt : PeerNode → PeerNode → Bool) (node : Node) (peer : PeerNode) : Node :=
  match contest lt node peer with
  | .added => { node with peers := Function.update node.peers peer.name (some peer) }
  | .assertFails => node
  | .selfConnect | .oldWins => node.disconnect peer
  | .newWins known =>
    { node.disconnect known with peers := Function.update node.peers peer.name (some peer) }

/-- A node handling the connections that reach `_peer_connected`, in order
(seed connections from `start`, gossip connections from `_discovered`, inbound
ones from `_serve`). -/
def handleAll (lt : PeerNode → PeerNode → Bool) (node : Node) (peers : List PeerNode) : Node :=
  peers.foldl (peerConnected lt) node

@[simp] theorem peerConnected_name (lt : PeerNode → PeerNode → Bool) (node : Node)
    (peer : PeerNode) : (peerConnected lt node peer).name = node.name := by
  unfold peerConnected
  split <;> rfl

theorem contest_of_unknown {lt : PeerNode → PeerNode → Bool} {node : Node} {peer : PeerNode}
    (h : node.peers peer.name = none) : contest lt node peer = .added := by
  simp [contest, h]

/-- A connection from the node to itself is installed under the node's own name
when that name is not in the table yet. -/
theorem self_connect_added (lt : PeerNode → PeerNode → Bool) (node : Node) (peer : PeerNode)
    (hname : peer.name = node.name) (hnone : node.peers node.name = none) :
    (peerConnected lt node peer).peers node.name = some peer := by
  rw [← hname] at hnone ⊢
  simp [peerConnected, contest_of_unknown hnone]

/-- A node with an empty table that is handed a connection to itself (a seed URL
that is an alias of its own listen address) keeps it in its table. -/
theorem peer_table_holds_own_name :
    ∀ lt : PeerNode → PeerNode → Bool,
      (handleAll lt ⟨0, fun _ => none, fun _ => false⟩ [⟨0, 1⟩]).peers 0 = some ⟨0, 1⟩ :=
  fun lt => self_connect_added lt ⟨0, fun _ => none, fun _ => false⟩ ⟨0, 1⟩ rfl rfl

end Bndl.Net.PeerTable
