import Mathlib.Data.List.Nodup
/-!
# `Node.start` and `self.servers`

`Node.__init__` fills `self.servers` with a placeholder `None` for each
configured listen address.  `start` runs `_start_server` for each of these
addresses in order.  A `unix` address is bound at its path, and an `OSError`
there goes up through `start`.  A `tcp` address is tried at its port (5000 when
it has none) and the next 999 ports until one binds; a port whose bind raises
an `OSError` is passed over, whatever the cause, and a port past 65535 makes
`bind()` raise an `OverflowError`, which nothing catches.  The server is stored
under the address, renamed to `tcp://host:port` when the port moved.  If no
port binds, `_start_tcp_server` returns quietly.

This module holds the model and the facts about its dictionary operations, the
probe and the map `__init__` builds; `Stop` follows the server loop.
-/

namespace Bndl.Net.Start

/-- A listen address, as `urlparse` splits it. -/
inductive Address where
  | tcp (host : Nat) (port : Option Nat)
  | unix (path : Nat)
  /-- Any other scheme. -/
  | other
  deriving DecidableEq, Repr

/-- An open server socket, by where it listens. -/
inductive Server where
  | tcp (host port : Nat)
  | unix (path : Nat)
  deriving DecidableEq, Repr

section Dict

variable {K V : Type} [DecidableEq K]

/-- `d[k] = v` on a Python dict, in insertion order: the value is replaced in
place, or the entry goes last. -/
def dictSet (d : List (K × V)) (k : K) (v : V) : List (K × V) :=
  if d.any (fun e => decide (e.1 = k)) then d.map fun e => if e.1 = k then (k, v) else e
  else d ++ [(k, v)]

/-- `del d[k]`; `none` for the `KeyError` of a missing key. -/
def dictDel (d : List (K × V)) (k : K) : Option (List (K × V)) :=
  if d.any (fun e => decide (e.1 = k)) then some (d.filter fun e => e.1 ≠ k) else none

end Dict

/-- What `start` changes: `self.servers`, and the server sockets the node has
opened, whether `self.servers` still holds them or not. -/
structure Servers where
  servers : List (Address × Option Server)
  opened : List Server
  deriving DecidableEq, Repr

/-- `self.servers = {address: None for address in addresses}`. -/
def initial (addresses : List Address) : Servers :=
  ⟨addresses.foldl (fun d a => dictSet d a none) [], []⟩

/-- The addresses of the map `Node.__init__` builds, in order: `self.servers.keys()`. -/
def keys (addresses : List Address) : List Address := (initial addresses).servers.map Prod.fst

/-- What binding a server socket meets outside the node. -/
structure Env where
  /-- `asyncio.start_server(self._serve, host, port)` raises an `OSError`:
  another process holds the port, the host does not resolve, or any other
  socket error. -/
  tcpFails : Nat → Nat → Bool
  /-- `os.remove(parsed.path)` or `asyncio.start_unix_server` raises an `OSError`. -/
  unixFails : Nat → Bool

/-- What one `asyncio.start_server` call does. -/
inductive BindResult where
  | bound
  /-- An `OSError`, which the probe logs and passes over. -/
  | failed
  /-- The `OverflowError` of `bind()` past port 65535, which no handler catches. -/
  | overflow
  deriving DecidableEq, Repr

/-- `asyncio.start_server(self._serve, host, port)`: an `OSError` from outside
the node, the `OverflowError` of a port past 65535, or `EADDRINUSE` from a
server of the node on the port. -/
def Servers.bindTcp (env : Env) (st : Servers) (host port : Nat) : BindResult :=
  if env.tcpFails host port then .failed
  else if 65535 < port then .overflow
  else if st.opened.contains (.tcp host port) then .failed
  else .bound

/-- `for port in range(port, port + count)`, breaking at the first port that
binds: `none` when every port raised an `OSError`. -/
def probe (bind : Nat → BindResult) : Nat → Nat → Except String (Option Nat)
  | 0, _ => .ok none
  | count + 1, port =>
    match bind port with
    | .bound => .ok (some port)
    | .failed => probe bind count (port + 1)
    | .overflow => .error "OverflowError"

/-- `_start_tcp_server(address, parsed)`. -/
def startTcpServer (env : Env) (st : Servers) (address : Address) (host : Nat)
    (parsedPort : Option Nat) : Except String Servers :=
  match probe (st.bindTcp env host) 1000 ((parsedPort.filter (· != 0)).getD 5000) with
  | .error e => .error e
  | .ok none => .ok st
  | .ok (some port) =>
    let server := Server.tcp host port
    let st := { st with opened := st.opened ++ [server] }
    if parsedPort ≠ some port then
      match dictDel st.servers address with
      | some d => .ok { st with servers := dictSet d (.tcp host (some port)) (some server) }
      | none => .error "KeyError"
    else .ok { st with servers := dictSet st.servers address (some server) }

/-- `_start_unix_server(address, parsed)`: an existing file at the path is
removed and the server bound there. -/
def startUnixServer (env : Env) (st : Servers) (address : Address) (path : Nat) :
    Except String Servers :=
  if env.unixFails path then .error "OSError"
  else .ok ⟨dictSet st.servers address (some (.unix path)), st.opened ++ [.unix path]⟩

/-- `_start_server(address)`. -/
def startServer (env : Env) (st : Servers) : Address → Except String Servers
  | a@(.tcp host port) => startTcpServer env st a host port
  | a@(.unix path) => startUnixServer env st a path
  | .other => .error "unsupported scheme"

/-- The server loop of `start`: `for address in list(self.servers.keys())`. -/
def start (env : Env) (st : Servers) : Except String Servers :=
  (st.servers.map Prod.fst).foldlM (startServer env) st

/-! ## The probe -/

section Probe

variable {bind : Nat → BindResult}

/-- A probe over ports that all fail finds none. -/
theorem probe_eq_none :
    ∀ {count port}, (∀ i < count, bind (port + i) = .failed) →
      probe bind count port = .ok none
  | 0, _, _ => rfl
  | count + 1, port, h => by
    have h0 := h 0 (Nat.succ_pos _)
    rw [Nat.add_zero] at h0
    rw [probe, h0]
    exact probe_eq_none fun i hi => by
      rw [Nat.add_assoc, Nat.add_comm 1]; exact h (i + 1) (by omega)

theorem probe_eq_some :
    ∀ {count port p}, probe bind count port = .ok (some p) →
      bind p = .bound ∧ port ≤ p ∧ p < port + count
  | 0, _, _, h => nomatch h
  | count + 1, port, p, h => by
    unfold probe at h
    split at h
    · cases h; exact ⟨‹_›, Nat.le_refl _, by omega⟩
    · have := probe_eq_some h; exact ⟨this.1, by omega, by omega⟩
    · cases h

theorem probe_failed_of_eq_none :
    ∀ {count port}, probe bind count port = .ok none → ∀ i < count, bind (port + i) = .failed
  | 0, _, _, i, hi => absurd hi (Nat.not_lt_zero i)
  | count + 1, port, h, i, hi => by
    unfold probe at h
    split at h
    · cases h
    · rename_i hf
      rcases i with _ | i
      · simpa using hf
      · rw [show port + (i + 1) = port + 1 + i by omega]
        exact probe_failed_of_eq_none h i (by omega)
    · cases h

/-- The probe raises only at a port whose bind overflows. -/
theorem probe_eq_error :
    ∀ {count port e}, probe bind count port = .error e →
      e = "OverflowError" ∧ ∃ i < count, bind (port + i) = .overflow
  | 0, _, _, h => nomatch h
  | count + 1, port, e, h => by
    unfold probe at h
    split at h
    · cases h
    · obtain ⟨he, i, hi, hb⟩ := probe_eq_error h
      exact ⟨he, i + 1, by omega, by rw [← Nat.add_assoc, Nat.add_right_comm]; exact hb⟩
    · cases h; exact ⟨rfl, 0, Nat.succ_pos _, by simpa⟩

end Probe

theorem bindTcp_eq_overflow {env : Env} {st : Servers} {host port : Nat} :
    st.bindTcp env host port = .overflow ↔ env.tcpFails host port = false ∧ 65535 < port := by
  unfold Servers.bindTcp
  split_ifs <;> simp_all

theorem bindTcp_eq_bound {env : Env} {st : Servers} {host port : Nat} :
    st.bindTcp env host port = .bound ↔ env.tcpFails host port = false ∧ port ≤ 65535 ∧
      Server.tcp host port ∉ st.opened := by
  unfold Servers.bindTcp
  split_ifs <;> simp_all

theorem bindTcp_eq_failed {env : Env} {st : Servers} {host port : Nat} :
    st.bindTcp env host port = .failed ↔ env.tcpFails host port = true ∨
      (port ≤ 65535 ∧ Server.tcp host port ∈ st.opened) := by
  unfold Servers.bindTcp
  split_ifs <;> simp_all

/-! ## Dictionary updates -/

section Dict

variable {K V : Type} [DecidableEq K] {d d' : List (K × V)} {k : K} {v : V} {e : K × V}

theorem mem_dictSet_cases (h : e ∈ dictSet d k v) : (e ∈ d ∧ e.1 ≠ k) ∨ e = (k, v) := by
  unfold dictSet at h
  split at h
  · obtain ⟨e', he', rfl⟩ := List.mem_map.1 h
    by_cases hk : e'.1 = k
    · exact .inr (by simp [hk])
    · exact .inl (by simp [hk, he'])
  · rename_i hany
    rcases List.mem_append.1 h with h | h
    · exact .inl ⟨h, fun hk => hany (List.any_eq_true.2 ⟨e, h, by simp [hk]⟩)⟩
    · exact .inr (List.mem_singleton.1 h)

theorem mem_dictSet_self : (k, v) ∈ dictSet d k v := by
  unfold dictSet
  split
  · obtain ⟨e, he, hk⟩ := List.any_eq_true.1 ‹_›
    exact List.mem_map.2 ⟨e, he, by simp only [decide_eq_true_eq] at hk; simp [hk]⟩
  · simp

theorem mem_dictSet_of_ne (he : e ∈ d) (hk : e.1 ≠ k) : e ∈ dictSet d k v := by
  unfold dictSet
  split
  · exact List.mem_map.2 ⟨e, he, by simp [hk]⟩
  · exact List.mem_append_left _ he

theorem mem_keys_dictSet {k' : K} :
    k' ∈ (dictSet d k v).map Prod.fst ↔ k' ∈ d.map Prod.fst ∨ k' = k := by
  constructor
  · intro h
    obtain ⟨e, he, rfl⟩ := List.mem_map.1 h
    rcases mem_dictSet_cases he with ⟨he, -⟩ | rfl
    exacts [.inl (List.mem_map_of_mem _ he), .inr rfl]
  · rintro (h | rfl)
    · obtain ⟨e, he, rfl⟩ := List.mem_map.1 h
      by_cases hk : e.1 = k
      · exact List.mem_map.2 ⟨_, mem_dictSet_self, hk.symm⟩
      · exact List.mem_map_of_mem _ (mem_dictSet_of_ne he hk)
    · exact List.mem_map_of_mem _ mem_dictSet_self

theorem keys_nodup_dictSet (h : (d.map Prod.fst).Nodup) :
    ((dictSet d k v).map Prod.fst).Nodup := by
  unfold dictSet
  split
  · rw [List.map_map, List.map_congr_left fun e _ => ?_]
    · exact h
    · by_cases hk : e.1 = k <;> simp [hk]
  · rename_i hany
    rw [List.map_append, List.nodup_append]
    refine ⟨h, List.nodup_singleton _, fun a ha hb => hany ?_⟩
    obtain ⟨e, he, rfl⟩ := List.mem_map.1 ha
    exact List.any_eq_true.2 ⟨e, he, by simpa using hb⟩

theorem dictDel_eq_some (h : k ∈ d.map Prod.fst) :
    dictDel d k = some (d.filter fun e => e.1 ≠ k) := by
  obtain ⟨e, he, rfl⟩ := List.mem_map.1 h
  exact if_pos (List.any_eq_true.2 ⟨e, he, by simp⟩)

theorem eq_filter_of_dictDel (h : dictDel d k = some d') : d' = d.filter fun e => e.1 ≠ k := by
  unfold dictDel at h
  split at h <;> cases h
  rfl

end Dict

/-- `Node.__init__` builds a map of distinct keys, the configured addresses,
each holding `None`. -/
theorem initial_spec (addresses : List Address) :
    (keys addresses).Nodup ∧ (∀ e ∈ (initial addresses).servers, e.2 = none) ∧
      ∀ a, a ∈ keys addresses ↔ a ∈ addresses := by
  suffices ∀ d : List (Address × Option Server), (d.map Prod.fst).Nodup →
      (∀ e ∈ d, e.2 = none) →
      ((addresses.foldl (fun d a => dictSet d a none) d).map Prod.fst).Nodup ∧
      (∀ e ∈ addresses.foldl (fun d a => dictSet d a none) d, e.2 = none) ∧
      ∀ a, a ∈ (addresses.foldl (fun d a => dictSet d a none) d).map Prod.fst ↔
        a ∈ d.map Prod.fst ∨ a ∈ addresses by
    obtain ⟨h₁, h₂, h₃⟩ := this [] List.nodup_nil (by simp)
    exact ⟨h₁, h₂, fun a => (h₃ a).trans (or_iff_right (List.not_mem_nil a))⟩
  induction addresses with
  | nil => exact fun d h₁ h₂ => ⟨h₁, h₂, by simp⟩
  | cons a addresses ih =>
    intro d h₁ h₂
    obtain ⟨i₁, i₂, i₃⟩ := ih (dictSet d a none) (keys_nodup_dictSet h₁) fun e he => by
      rcases mem_dictSet_cases he with ⟨he, -⟩ | rfl
      exacts [h₂ e he, rfl]
    refine ⟨i₁, i₂, fun b => ?_⟩
    rw [List.foldl_cons, i₃, mem_keys_dictSet, List.mem_cons]
    exact or_assoc

/-- A fold in `Except` whose every successful step moves an element from `rest`
to `done` and keeps `P`. -/
theorem foldlM_split {α β ε : Type} {f : β → α → Except ε β}
    (P : List α → List α → β → Prop)
    (hf : ∀ done a rest b b', P done (a :: rest) b → f b a = .ok b' →
      P (done ++ [a]) rest b') :
    ∀ (rest done : List α) {b b'}, P done rest b → rest.foldlM f b = .ok b' →
      P (done ++ rest) [] b'
  | [], done, _, _, hb, h => by cases h; simpa using hb
  | a :: rest, done, b, _, hb, h => by
    rw [List.foldlM_cons] at h
    cases hfa : f b a with
    | error e => rw [hfa] at h; cases h
    | ok b₁ =>
      rw [hfa] at h
      simpa using foldlM_split P hf rest (done ++ [a]) (hf done a rest b b₁ hb hfa) h

/-- Another process holds port 5000 of host `0`. -/
def port5000Taken : Env := ⟨fun host port => host == 0 && port == 5000, fun _ => false⟩

/-- Other processes hold ports 5000 to 5999. -/
def portsTaken : Env :=
  ⟨fun _ port => decide (5000 ≤ port) && decide (port < 6000), fun _ => false⟩

end Bndl.Net.Start
