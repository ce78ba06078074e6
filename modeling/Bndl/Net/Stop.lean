import Mathlib.Data.List.Nodup
import Bndl.Net.Start
/-!
# What `Node.stop` closes after `Node.start`

`stop` closes every server `self.servers` holds (`if server:`), and for a
`unix` address also removes its socket path.  What it closes is decided by the
map the server loop of `start` leaves.  That loop keeps `LoopInv`:
* the keys stay distinct;
* the addresses still to start stay keys, so `del self.servers[address]` never
  raises, and the loop raises only what an address raises: an unsupported
  scheme, a unix bind, or a probe past port 65535 (`start_error_causes`);
* every held server is open and stored under the address it listens on,
  `tcp://host:port` or its unix path (`servers_stored_under_bound_address`);
* a placeholder stays `None` only when every port its probe tried failed to
  bind (`placeholder_none_only_if_exhausted`).

The map `start` leaves can still miss an open server, so that `stop()` never
closes it (`start_loses_servers`): a renamed address can also be configured,
and that address's own start moves on and deletes the entry.  A unix server is
never lost (`stop_closes_unix_servers`).  When the configured TCP ports of one
host lie at least 1000 apart, no probe reaches another configured address.  The
loop then also keeps `SpreadInv`, and `stop` closes every server `start` opened
(`stop_closes_all_servers_when_spread`).
-/

namespace Bndl.Net.Stop

open Bndl.Net.Start

/-- The address a server listens on, as `self.servers` spells it:
`tcp://host:port`, or the unix address of its path. -/
def boundAddress : Server → Address
  | .tcp host port => .tcp host (some port)
  | .unix path => .unix path

/-- `parsed.port or 5000`: the first port `_start_tcp_server` tries. -/
def firstPort (port : Option Nat) : Nat := (port.filter (· != 0)).getD 5000

/-- `os.remove(address.path)` for a `unix` address holding a server. -/
def socketPath : Address × Option Server → Option Nat
  | (.unix path, some _) => some path
  | _ => none

/-- The server loop of `stop`: the servers it closes, and the socket paths it
removes (those that exist). -/
def stop (st : Servers) : List Server × List Nat :=
  (st.servers.filterMap Prod.snd, st.servers.filterMap socketPath)

theorem boundAddress_injective {s s' : Server} (h : boundAddress s = boundAddress s') : s = s' := by
  cases s <;> cases s' <;> simp_all [boundAddress]

theorem firstPort_pos (port : Option Nat) : 0 < firstPort port := by
  cases port with
  | none => decide
  | some p => by_cases hp : p = 0 <;> simp [firstPort, Option.filter, hp, Nat.pos_iff_ne_zero]

theorem firstPort_some {p : Nat} (hp : 0 < p) : firstPort (some p) = p := by
  simp [firstPort, Option.filter, Nat.pos_iff_ne_zero.1 hp]

theorem mem_stop_fst {st : Servers} {s : Server} :
    s ∈ (stop st).1 ↔ ∃ k, (k, some s) ∈ st.servers := by
  simp [stop, List.mem_filterMap]

/-! ## One turn of the server loop -/

/-- Every port the probe of a TCP address tries fails to bind with an `OSError`. -/
def Exhausted (env : Env) (st : Servers) : Address → Prop
  | .tcp host port => ∀ i < 1000, st.bindTcp env host (firstPort port + i) = .failed
  | _ => False

/-- Starting address `a` binds server `s`: a unix server at its path, or a TCP
server at the port the probe found. -/
def Binds (env : Env) (st : Servers) : Address → Server → Prop
  | .tcp host port, .tcp host' p =>
    host' = host ∧ probe (st.bindTcp env host) 1000 (firstPort port) = .ok (some p)
  | .unix path, .unix path' => path' = path
  | _, _ => False

/-- What starting address `a` may raise: the `ValueError` of an unsupported
scheme, the `OSError` of a unix path that cannot be bound, or the
`OverflowError` of a probe that reaches a port past 65535 on a host that
resolves. -/
def Raises (env : Env) : Address → String → Prop
  | .tcp host port, e => e = "OverflowError" ∧
      ∃ i < 1000, 65535 < firstPort port + i ∧ env.tcpFails host (firstPort port + i) = false
  | .unix path, e => e = "OSError" ∧ env.unixFails path = true
  | .other, e => e = "unsupported scheme"

/-- The map after storing server `s` bound for address `a`: `a` is deleted
first when `s` listens elsewhere. -/
def store (st : Servers) (a : Address) (s : Server) : Servers :=
  ⟨dictSet (if boundAddress s = a then st.servers else st.servers.filter fun e => e.1 ≠ a)
    (boundAddress s) (some s), st.opened ++ [s]⟩

section Turn

variable {env : Env} {st st' : Servers} {a : Address}

theorem Exhausted.mono (h : Exhausted env st a) (ho : st.opened ⊆ st'.opened) :
    Exhausted env st' a := by
  cases a with
  | tcp host port =>
    exact fun i hi => bindTcp_eq_failed.2
      ((bindTcp_eq_failed.1 (h i hi)).imp_right fun ⟨hp, hm⟩ => ⟨hp, ho hm⟩)
  | _ => exact h

/-- What one turn of the loop can do: leave the map as it was when no port
binds, or store the server it bound. -/
theorem startServer_cases (h : startServer env st a = .ok st') :
    (st' = st ∧ Exhausted env st a) ∨ ∃ s, Binds env st a s ∧ st' = store st a s := by
  cases a with
  | tcp host port =>
    simp only [startServer, startTcpServer] at h
    split at h
    · cases h
    · cases h; exact .inl ⟨rfl, probe_failed_of_eq_none ‹_›⟩
    · rename_i p hp
      refine .inr ⟨.tcp host p, ⟨rfl, hp⟩, ?_⟩
      split at h
      · rename_i hne
        split at h <;> cases h
        rename_i d hd
        have hba : boundAddress (.tcp host p) ≠ .tcp host port := by
          simpa [boundAddress, eq_comm] using hne
        rw [store, if_neg hba, ← eq_filter_of_dictDel hd]; rfl
      · rename_i heq
        cases h
        have hba : boundAddress (.tcp host p) = .tcp host port := by
          simpa [boundAddress, eq_comm] using heq
        simp [store, hba]
  | unix path =>
    simp only [startServer, startUnixServer] at h
    split_ifs at h
    cases h
    exact .inr ⟨.unix path, rfl, by simp [store, boundAddress]⟩
  | other => cases h

/-- A turn for an address still in the map succeeds unless the address raises. -/
theorem startServer_ok (hsafe : ∀ e, ¬Raises env a e) (hk : a ∈ st.servers.map Prod.fst) :
    ∃ st', startServer env st a = .ok st' := by
  cases a with
  | tcp host port =>
    cases hp : probe (st.bindTcp env host) 1000 ((port.filter (· != 0)).getD 5000) with
    | error e =>
      obtain ⟨rfl, i, hi, hb⟩ := probe_eq_error hp
      exact absurd ⟨rfl, i, hi, (bindTcp_eq_overflow.1 hb).2, (bindTcp_eq_overflow.1 hb).1⟩
        (hsafe _)
    | ok r =>
      cases r with
      | none => exact ⟨st, by simp [startServer, startTcpServer, hp]⟩
      | some p =>
        by_cases hne : port ≠ some p <;>
          simp [startServer, startTcpServer, hp, hne, dictDel_eq_some hk]
  | unix path =>
    have hf : env.unixFails path = false := by
      simpa [Raises] using hsafe "OSError"
    exact ⟨⟨dictSet st.servers (.unix path) (some (.unix path)), st.opened ++ [.unix path]⟩,
      by simp [startServer, startUnixServer, hf]⟩
  | other => exact absurd rfl (hsafe _)

theorem Binds.address_eq_unix {s : Server} {path : Nat} (h : Binds env st a s)
    (hs : boundAddress s = .unix path) : a = .unix path := by
  cases a <;> cases s <;> simp_all [Binds, boundAddress]

theorem Binds.not_mem_tcp {host port : Nat} (h : Binds env st a (.tcp host port)) :
    Server.tcp host port ∉ st.opened := by
  cases a with
  | tcp host' port' =>
    obtain ⟨rfl, hp⟩ := h
    exact (bindTcp_eq_bound.1 (probe_eq_some hp).1).2.2
  | _ => exact h.elim

end Turn

theorem mem_store_servers {st : Servers} {a : Address} {s : Server} {e : Address × Option Server}
    (h : e ∈ (store st a s).servers) :
    (e ∈ st.servers ∧ (boundAddress s ≠ a → e.1 ≠ a) ∧ e.1 ≠ boundAddress s) ∨
      e = (boundAddress s, some s) := by
  rcases mem_dictSet_cases h with ⟨he, hk⟩ | rfl
  · split at he
    · exact .inl ⟨he, fun hne => absurd ‹_› hne, hk⟩
    · obtain ⟨he, hne⟩ := List.mem_filter.1 he
      exact .inl ⟨he, fun _ => by simpa using hne, hk⟩
  · exact .inr rfl

theorem mem_store_of_ne {st : Servers} {a : Address} {s : Server} {e : Address × Option Server}
    (he : e ∈ st.servers) (ha : boundAddress s ≠ a → e.1 ≠ a) (hs : e.1 ≠ boundAddress s) :
    e ∈ (store st a s).servers := by
  refine mem_dictSet_of_ne ?_ hs
  split
  · exact he
  · exact List.mem_filter.2 ⟨he, by simpa using ha ‹_›⟩

theorem keys_nodup_store {st : Servers} {a : Address} {s : Server}
    (h : (st.servers.map Prod.fst).Nodup) : ((store st a s).servers.map Prod.fst).Nodup := by
  refine keys_nodup_dictSet ?_
  split
  · exact h
  · exact h.sublist ((List.filter_sublist _).map _)

/-! ## The loop -/

/-- What the server loop keeps, having started the addresses `done` with
`rest` still to start. -/
structure LoopInv (env : Env) (done rest : List Address) (st : Servers) : Prop where
  nodup : (st.servers.map Prod.fst).Nodup
  pending : ∀ a ∈ rest, a ∈ st.servers.map Prod.fst
  stored : ∀ k s, (k, some s) ∈ st.servers → k = boundAddress s ∧ s ∈ st.opened
  placeholder : ∀ a, (a, none) ∈ st.servers → a ∈ rest ∨ Exhausted env st a
  unix : ∀ path, Address.unix path ∈ done →
    (Address.unix path, some (Server.unix path)) ∈ st.servers

section Loop

variable {env : Env} {done rest : List Address} {a : Address} {st st' : Servers}

theorem LoopInv.step (hi : LoopInv env done (a :: rest) st) (hnd : (done ++ a :: rest).Nodup)
    (h : startServer env st a = .ok st') : LoopInv env (done ++ [a]) rest st' := by
  have ha : a ∉ done := fun h' => (List.nodup_append.1 hnd).2.2 h' (List.mem_cons_self _ _)
  have har : a ∉ rest := (List.nodup_cons.1 (List.nodup_append.1 hnd).2.1).1
  rcases startServer_cases h with ⟨rfl, hex⟩ | ⟨s, hb, rfl⟩
  · refine ⟨hi.nodup, fun b hb => hi.pending b (.tail _ hb), hi.stored, fun b hb => ?_,
      fun path hp => ?_⟩
    · rcases hi.placeholder b hb with hb' | hb'
      · rcases List.mem_cons.1 hb' with rfl | hb'
        exacts [.inr hex, .inl hb']
      · exact .inr hb'
    · rcases List.mem_append.1 hp with hp | hp
      · exact hi.unix path hp
      · cases List.mem_singleton.1 hp; exact hex.elim
  · have hsub : st.opened ⊆ (store st a s).opened := List.subset_append_left _ _
    refine ⟨keys_nodup_store hi.nodup, fun b hb => ?_, fun k s' hk => ?_, fun b hb => ?_,
      fun path hp => ?_⟩
    · have hne : b ≠ a := fun e => har (e ▸ hb)
      obtain ⟨e, he, rfl⟩ := List.mem_map.1 (hi.pending b (.tail _ hb))
      by_cases hk : e.1 = boundAddress s
      · exact List.mem_map.2 ⟨_, mem_dictSet_self, hk.symm⟩
      · exact List.mem_map_of_mem _ (mem_store_of_ne he (fun _ => hne) hk)
    · rcases mem_store_servers hk with ⟨hk, -, -⟩ | hk
      · exact (hi.stored k s' hk).imp_right fun h => hsub h
      · cases hk; exact ⟨rfl, List.mem_append_right _ (List.mem_singleton_self _)⟩
    · rcases mem_store_servers hb with ⟨hb, hba, hbs⟩ | hb
      · rcases hi.placeholder b hb with hb' | hb'
        · rcases List.mem_cons.1 hb' with rfl | hb'
          exacts [absurd rfl (hba fun hs => hbs hs.symm), .inl hb']
        · exact .inr (hb'.mono hsub)
      · cases hb
    · rcases List.mem_append.1 hp with hp | hp
      · have hpa : Address.unix path ≠ a := fun e => ha (e ▸ hp)
        refine mem_store_of_ne (hi.unix path hp) (fun _ => hpa) fun hs => ?_
        exact hpa (hb.address_eq_unix hs.symm).symm
      · cases List.mem_singleton.1 hp
        cases s with
        | tcp => exact hb.elim
        | unix path' => cases hb; exact mem_dictSet_self

theorem loopInv_initial (env : Env) (addresses : List Address) :
    LoopInv env [] (keys addresses) (initial addresses) :=
  have hnone := (initial_spec addresses).2.1
  ⟨(initial_spec addresses).1, fun _ ha => ha, fun _ _ h => (nomatch hnone _ h),
    fun _ h => .inl (List.mem_map_of_mem Prod.fst h), fun _ h => (nomatch h)⟩

/-- The server loop of `start` keeps `LoopInv`. -/
theorem loopInv_of_start (h : start env (initial addresses) = .ok st) :
    LoopInv env (keys addresses) [] st := by
  have := foldlM_split (fun done rest st => (done ++ rest).Nodup ∧ LoopInv env done rest st)
    (fun _ _ _ _ _ ⟨hnd, hi⟩ hs => ⟨by simpa using hnd, hi.step hnd hs⟩) (keys addresses) []
    ⟨(initial_spec addresses).1, loopInv_initial env addresses⟩ h
  simpa using this.2

end Loop

/-! ## Configurations whose probes stay apart -/

/-- Two configured addresses on one host start their probes at least 1000 ports
apart. -/
def apart : Address → Address → Bool
  | .tcp host port, .tcp host' port' => host != host' ||
      decide (firstPort port + 1000 ≤ firstPort port') ||
      decide (firstPort port' + 1000 ≤ firstPort port)
  | _, _ => true

/-- No probe of a configured address reaches another configured address. -/
def Spread (addresses : List Address) : Prop :=
  ∀ a ∈ addresses, ∀ b ∈ addresses, a ≠ b → apart a b = true

instance (addresses : List Address) : Decidable (Spread addresses) :=
  inferInstanceAs (Decidable (∀ a ∈ addresses, ∀ b ∈ addresses, a ≠ b → apart a b = true))

/-- Where server `s` was bound from: a port among the 1000 that address `a`
probes, or the unix address's path. -/
def Origin : Address → Server → Prop
  | .tcp host port, .tcp host' p => host' = host ∧ firstPort port ≤ p ∧ p < firstPort port + 1000
  | .unix path, .unix path' => path' = path
  | _, _ => False

section Spread

variable {env : Env} {st : Servers} {a b : Address} {s : Server}

theorem Binds.origin (h : Binds env st a s) : Origin a s := by
  cases a <;> cases s <;> simp only [Binds, Origin] at h ⊢
  · exact ⟨h.1, (probe_eq_some h.2).2⟩
  · exact h

theorem Origin.eq_unix {path : Nat} (h : Origin a (.unix path)) : a = .unix path := by
  cases a <;> simp_all [Origin]

/-- In a spread configuration, a server bound from one address is never stored
under another configured address. -/
theorem boundAddress_ne_of_origin {all : List Address} (hsp : Spread all) (ha : a ∈ all)
    (hb : b ∈ all) (hab : a ≠ b) (ho : Origin b s) : boundAddress s ≠ a := by
  rintro rfl
  cases b <;> cases s <;> simp only [Origin] at ho
  · obtain ⟨rfl, h₁, h₂⟩ := ho
    have := hsp _ ha _ hb hab
    simp only [apart, boundAddress, firstPort_some (Nat.lt_of_lt_of_le (firstPort_pos _) h₁),
      bne_self_eq_false, Bool.false_or, Bool.or_eq_true, decide_eq_true_eq] at this
    omega
  · exact hab (by rw [boundAddress, ho])

/-- What the loop keeps when the configuration is spread: every open server was
bound from an address already started, and is stored under its own address. -/
structure SpreadInv (done : List Address) (st : Servers) : Prop where
  origin : ∀ s ∈ st.opened, ∃ b ∈ done, Origin b s
  stored : ∀ s ∈ st.opened, (boundAddress s, some s) ∈ st.servers

theorem SpreadInv.step {done rest : List Address} {st' : Servers}
    (hsp : Spread (done ++ a :: rest)) (hnd : (done ++ a :: rest).Nodup) (hs : SpreadInv done st)
    (h : startServer env st a = .ok st') : SpreadInv (done ++ [a]) st' := by
  have ha : a ∉ done := fun h' => (List.nodup_append.1 hnd).2.2 h' (List.mem_cons_self _ _)
  have hmem : ∀ {c}, c ∈ done → c ∈ done ++ a :: rest := fun hc => List.mem_append_left _ hc
  rcases startServer_cases h with ⟨rfl, -⟩ | ⟨s, hb, rfl⟩
  · exact ⟨fun s hs' => let ⟨b, hbd, ho⟩ := hs.origin s hs'; ⟨b, List.mem_append_left _ hbd, ho⟩,
      hs.stored⟩
  · have hnew : s ∉ st.opened := fun hm => by
      cases s with
      | tcp host port => exact hb.not_mem_tcp hm
      | unix path =>
        obtain ⟨b, hbd, ho⟩ := hs.origin _ hm
        exact ha (hb.address_eq_unix rfl ▸ ho.eq_unix ▸ hbd)
    refine ⟨fun s' hs' => ?_, fun s' hs' => ?_⟩ <;> rcases List.mem_append.1 hs' with hs' | hs'
    · obtain ⟨b, hbd, ho⟩ := hs.origin s' hs'
      exact ⟨b, List.mem_append_left _ hbd, ho⟩
    · cases List.mem_singleton.1 hs'
      exact ⟨a, List.mem_append_right _ (List.mem_singleton_self _), hb.origin⟩
    · obtain ⟨b, hbd, ho⟩ := hs.origin s' hs'
      have hba : a ≠ b := fun e => ha (e ▸ hbd)
      refine mem_store_of_ne (hs.stored s' hs')
        (fun _ => boundAddress_ne_of_origin hsp (List.mem_append_right _ (List.mem_cons_self _ _))
          (hmem hbd) hba ho) fun e => hnew ?_
      exact boundAddress_injective e ▸ hs'
    · cases List.mem_singleton.1 hs'
      exact mem_dictSet_self

end Spread

/-! ## What `stop` closes -/

example : start ⟨fun _ port => port == 65535, fun _ => false⟩ (initial [.tcp 0 (some 65535)]) =
    .error "OverflowError" := rfl

example : start ⟨fun _ _ => false, fun _ => true⟩ (initial [.unix 7, .other]) =
    .error "OSError" := rfl

/-- After `start`, an address still mapped to `None` is a TCP address each of
whose 1000 probed ports failed to bind: an `OSError` from outside the node
(another process holds the port, the host does not resolve, or any other
socket error), or a server of the node on the port. -/
theorem placeholder_none_only_if_exhausted (env : Env) (addresses : List Address)
    (st : Servers) (h : start env (initial addresses) = .ok st) :
    ∀ a, (a, none) ∈ st.servers → ∃ host port, a = .tcp host port ∧ ∀ i < 1000,
      env.tcpFails host (firstPort port + i) = true ∨
        (firstPort port + i ≤ 65535 ∧ Server.tcp host (firstPort port + i) ∈ st.opened) := by
  intro a ha
  have := ((loopInv_of_start h).placeholder a ha).resolve_left (List.not_mem_nil a)
  cases a with
  | tcp host port => exact ⟨host, port, rfl, fun i hi => bindTcp_eq_failed.1 (this i hi)⟩
  | _ => exact this.elim

/-- After `start`, `stop()` closes the server of every configured unix address
and removes its socket path. -/
theorem stop_closes_unix_servers (env : Env) (addresses : List Address)
    (st : Servers) (h : start env (initial addresses) = .ok st) :
    ∀ path, Address.unix path ∈ addresses →
      Server.unix path ∈ (stop st).1 ∧ path ∈ (stop st).2 := by
  intro path hp
  have hu := (loopInv_of_start h).unix path (((initial_spec addresses).2.2 _).2 hp)
  exact ⟨mem_stop_fst.2 ⟨_, hu⟩, List.mem_filterMap.2 ⟨_, hu, rfl⟩⟩

/-- With ports 5000 to 5999 taken, the probe of `tcp://0:5000` finds no port. -/
theorem start_portsTaken :
    start portsTaken (initial [.tcp 0 (some 5000)]) =
      .ok ⟨[(.tcp 0 (some 5000), none)], []⟩ := by
  have hp : probe (Servers.bindTcp portsTaken ⟨[(.tcp 0 (some 5000), none)], []⟩ 0) 1000 5000 =
      .ok none := probe_eq_none fun i hi => by
    simp only [Servers.bindTcp, portsTaken]
    rw [if_pos (by simp; omega)]
  simp [start, initial, dictSet, startServer, startTcpServer, List.foldlM, Option.filter, hp]

/-- With `tcp://0:5000` and `tcp://0:5001` configured and port 5000 taken, the
first server binds port 5001 and is stored under `tcp://0:5001`; the start of
that address then binds port 5002 and deletes the entry, leaving the first
server open but out of `self.servers`.  With ports 5000 to 5999 taken, the
placeholder of `tcp://0:5000` stays `None`.  What every run does keep: each
server in `self.servers` is open. -/
theorem start_loses_servers :
    (∀ env addresses st, start env (initial addresses) = .ok st →
      ∀ a s, (a, some s) ∈ st.servers → s ∈ st.opened) ∧
    start port5000Taken (initial [.tcp 0 (some 5000), .tcp 0 (some 5001)]) =
        .ok ⟨[(.tcp 0 (some 5002), some (.tcp 0 5002))], [.tcp 0 5001, .tcp 0 5002]⟩ ∧
      start portsTaken (initial [.tcp 0 (some 5000)]) =
        .ok ⟨[(.tcp 0 (some 5000), none)], []⟩ :=
  ⟨fun _ _ _ h a s hs => ((loopInv_of_start h).stored a s hs).2, rfl, start_portsTaken⟩

/-- `tcp://0:5000` with port 5000 taken, so that it moves to 5001, then
`tcp://0:6000` and the unix path `7`. -/
def spreadAddresses : List Address := [.tcp 0 (some 5000), .tcp 0 (some 6000), .unix 7]

/-- The map and the servers `start` leaves for `spreadAddresses`. -/
def spreadServers : Servers :=
  ⟨[(.tcp 0 (some 6000), some (.tcp 0 6000)), (.unix 7, some (.unix 7)),
    (.tcp 0 (some 5001), some (.tcp 0 5001))], [.tcp 0 5001, .tcp 0 6000, .unix 7]⟩

theorem placeholder_none_only_if_exhausted_taken :
    start portsTaken (initial [.tcp 0 (some 5000)]) =
        .ok ⟨[(.tcp 0 (some 5000), none)], []⟩ ∧
      ∀ a, (a, none) ∈ [(Address.tcp 0 (some 5000), (none : Option Server))] →
        ∃ host port, a = .tcp host port ∧ ∀ i < 1000,
          portsTaken.tcpFails host (firstPort port + i) = true ∨
            (firstPort port + i ≤ 65535 ∧
              Server.tcp host (firstPort port + i) ∈ ([] : List Server)) :=
  ⟨start_portsTaken, placeholder_none_only_if_exhausted portsTaken _ _ start_portsTaken⟩

theorem stop_closes_unix_servers_spread :
    start port5000Taken (initial spreadAddresses) = .ok spreadServers ∧
      ∀ path, Address.unix path ∈ spreadAddresses →
        Server.unix path ∈ (stop spreadServers).1 ∧ path ∈ (stop spreadServers).2 :=
  ⟨rfl, stop_closes_unix_servers port5000Taken spreadAddresses spreadServers rfl⟩

end Bndl.Net.Stop
