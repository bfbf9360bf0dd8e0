import MeshMessenger.Proofs.Moves
import Mathlib.Data.List.Perm.Subperm

/-! The peer table against the logged-in sessions. `process_login` appends an
entry for its session and nothing ever removes or clears one, so the table
mirrors the sessions exactly as long as none of them ends. -/

namespace Mesh

open CLib

/-- The ids of the connected entries are those of the live authorised sessions, one for one. -/
def Mirrors (s : Server) : Prop :=
  ((s.peers.filter fun p => p.isConnected).map SecurePeer.peerId).Perm
    ((onlineSlots s).map fun i => (s.clients i).peerId)

/-- The step ends no live authorised session and gives none a new peer id. -/
def SessionsStay (C : Crypto) (s : Server) : Event → Prop
  | .start conn env => ∀ h, s.handler? conn .starting = some h →
      (s.clients h.slot).online = true →
      (initClientSignalProtocol C (s.clients h.slot) env).2 = true →
      peerIdOf env.now env.pid = (s.clients h.slot).peerId
  | .exit conn _ => ∀ h, s.handler? conn .exiting = some h → (s.clients h.slot).online = false
  | .sweep now => ∀ i, timedOut now (s.clients i) = true → (s.clients i).authorized = false
  | _ => True

/-! ### One slot going online or offline -/

/-- The slots that go online are those before and one more. -/
theorem onlineSlots_perm_cons {s s' : Server} {i : Slot} (hi : (s.clients i).online = false)
    (hi' : (s'.clients i).online = true)
    (hother : ∀ j, j ≠ i → (s'.clients j).online = (s.clients j).online) :
    (onlineSlots s').Perm (i :: onlineSlots s) := by
  have hnodup (s : Server) : (onlineSlots s).Nodup := (List.nodup_finRange maxClients).filter _
  have hnot : i ∉ onlineSlots s := by simp [onlineSlots, hi]
  refine (List.perm_ext_iff_of_nodup (hnodup s') (List.nodup_cons.2 ⟨hnot, hnodup s⟩)).2 ?_
  intro j
  by_cases hj : j = i
  · subst hj
    simp [onlineSlots, hi']
  · simp [onlineSlots, hother j hj, hj]

theorem onlineSlots_length_le (s : Server) : (onlineSlots s).length ≤ maxClients := by
  calc (onlineSlots s).length ≤ (List.finRange maxClients).length := List.length_filter_le _ _
    _ = maxClients := List.length_finRange

/-- `s'` has the same sessions online under the same ids, and the same peers. -/
structure SamePeers (s s' : Server) : Prop where
  online : ∀ i, (s'.clients i).online = (s.clients i).online
  peerId : ∀ i, (s.clients i).online = true → (s'.clients i).peerId = (s.clients i).peerId
  peers : s'.peers = s.peers

theorem SamePeers.mirrors_iff {s s' : Server} (h : SamePeers s s') : Mirrors s' ↔ Mirrors s := by
  have hslots : onlineSlots s' = onlineSlots s := List.filter_congr fun i _ => h.online i
  have hids : (onlineSlots s).map (fun i => (s'.clients i).peerId) =
      (onlineSlots s).map fun i => (s.clients i).peerId :=
    List.map_congr_left fun i hi => h.peerId i (List.mem_filter.1 hi).2
  rw [Mirrors, Mirrors, hslots, hids, h.peers]

/-! ### What each step does to them -/

theorem accepted_samePeers {s : Server} {i : Slot} (hfree : freeSlot s = some i) (fd : ℕ)
    (addr : SockAddr) (now : ℤ) : SamePeers s (accepted s i fd addr now) := by
  have hfd : (s.clients i).fd < 0 := by simpa using List.find?_some hfree
  have hi : (s.clients i).online = false := by simp [SecureClient.online, hfd]
  have hne (j : Slot) (hj : j ≠ i) : (accepted s i fd addr now).clients j = s.clients j :=
    setClient_ne _ _ _ hj
  refine ⟨fun j => ?_, fun j hj => ?_, rfl⟩
  · by_cases hj : j = i
    · subst hj
      rw [hi]
      simp [accepted, newClient, SecureClient.zero, SecureClient.online]
    · rw [hne j hj]
  · have hji : j ≠ i := by
      rintro rfl
      rw [hi] at hj
      exact absurd hj (by simp)
    rw [hne j hji]

theorem Refreshes.online {c c' : SecureClient} (h : Refreshes c c') : c'.online = c.online := by
  simp only [SecureClient.online, h.fd, h.authorized]

/-- The identifiers that a slot gets from its handler's prologue. -/
def SecureClient.ids (c : SecureClient) : Bytes × ℕ := (c.peerId, c.sessionId)

/-- The identifiers that a prologue computes. -/
def StartEnv.ids (env : StartEnv) : Bytes × ℕ :=
  (peerIdOf env.now env.pid, sessionIdOf env.sessionNow env.pid)

theorem initClientSignalProtocol_ids (C : Crypto) (c : SecureClient) (env : StartEnv) :
    (initClientSignalProtocol C c env).1.ids = c.ids := by
  unfold initClientSignalProtocol
  cases env.regId with
  | none =>
    simp only
    split_ifs <;> rfl
  | some r =>
    cases env.sessionKey with
    | none =>
      simp only
      split_ifs <;> rfl
    | some k =>
      simp only
      split_ifs <;> rfl

/-- The prologue gives its slot new identifiers when the Signal session can be set up. -/
theorem handlerPrologue_peers (C : Crypto) (s : Server) (h : Handler) (env : StartEnv) :
    let s' := (handlerPrologue C s h env).1
    (∀ i, (s'.clients i).online = (s.clients i).online) ∧ s'.peers = s.peers ∧
      (∀ i, i ≠ h.slot → s'.clients i = s.clients i) ∧
      (s'.clients h.slot).ids =
        if (initClientSignalProtocol C (s.clients h.slot) env).2 then env.ids
        else (s.clients h.slot).ids := by
  have hinit := initClientSignalProtocol_refreshes C (s.clients h.slot) env
  have hid := initClientSignalProtocol_ids C (s.clients h.slot) env
  rcases handlerPrologue_cases C s h env with ⟨hok, heq⟩ | ⟨hok, heq⟩ | ⟨hok, heq⟩ <;> rw [heq, hok]
  · refine ⟨setClient_field hinit.online, rfl, fun i hi => setClient_ne _ _ _ hi, ?_⟩
    exact (congrArg SecureClient.ids (setClient_self s h.slot _)).trans hid
  · exact ⟨setClient_field (hinit.identified env).online, rfl, fun i hi => setClient_ne _ _ _ hi,
      congrArg SecureClient.ids (setClient_self s h.slot _)⟩
  · exact ⟨setClient_field (hinit.identified env).online, rfl, fun i hi => setClient_ne _ _ _ hi,
      congrArg SecureClient.ids (setClient_self s h.slot _)⟩

theorem noteActivity_ids (s : Server) (i : Slot) (now : ℤ) (j : Slot) :
    ((s.noteActivity i now).clients j).ids = (s.clients j).ids :=
  noteActivity_field (f := SecureClient.ids) (fun _ _ _ => rfl) s i now j

theorem noteActivity_peerId (s : Server) (i : Slot) (now : ℤ) (j : Slot) :
    ((s.noteActivity i now).clients j).peerId = (s.clients j).peerId :=
  congrArg Prod.fst (noteActivity_ids s i now j)

theorem noteActivity_samePeers (s : Server) (i : Slot) (now : ℤ) :
    SamePeers s (s.noteActivity i now) :=
  ⟨fun j => (noteActivity_refreshes s i now j).online, fun j _ => noteActivity_peerId s i now j,
    rfl⟩

theorem loggedIn_ids (s : Server) (env : Env) (i : Slot) (row : UserRow) (nick token : Bytes)
    (j : Slot) : ((loggedIn s env i row nick token).clients j).ids = (s.clients j).ids := by
  rw [loggedIn_clients]
  by_cases hj : j = i
  · subst hj
    rw [Function.update_self]
    rfl
  · rw [Function.update_of_ne hj]

theorem loggedIn_peerId (s : Server) (env : Env) (i : Slot) (row : UserRow) (nick token : Bytes)
    (j : Slot) : ((loggedIn s env i row nick token).clients j).peerId = (s.clients j).peerId :=
  congrArg Prod.fst (loggedIn_ids s env i row nick token j)

/-- An iteration leaves sessions and peers alone or logs its own session in. -/
theorem handlerIteration_peers (C : Crypto) (s : Server) (h : Handler) (env : Env)
    (read : ReadResult) :
    let s' := (handlerIteration C s h env read).1
    (SamePeers s s' ∧ ∀ i, (s'.clients i).ids = (s.clients i).ids) ∨
    (0 ≤ (s.clients h.slot).fd ∧ (s.clients h.slot).authorized = false ∧ ∃ row nick token,
      s' = loggedIn (s.noteActivity h.slot env.now) env h.slot row nick token) := by
  have hnote := noteActivity_samePeers s h.slot env.now
  rcases handlerIteration_state C s h env read with heq | heq | ⟨users, heq⟩ | hlogin
  · rw [heq]
    exact .inl ⟨⟨fun _ => rfl, fun _ _ => rfl, rfl⟩, fun _ => rfl⟩
  · rw [heq]
    exact .inl ⟨⟨fun _ => rfl, fun _ _ => rfl, rfl⟩, fun _ => rfl⟩
  · rw [heq]
    exact .inl ⟨⟨hnote.online, hnote.peerId, rfl⟩, noteActivity_ids s h.slot env.now⟩
  · exact .inr hlogin

theorem loggedIn_peers (s : Server) (env : Env) (i : Slot) (row : UserRow) (nick token : Bytes) :
    (loggedIn s env i row nick token).peers =
      if s.peers.length ≥ maxClients then s.peers
      else s.peers ++ [⟨strncpy 63 (s.clients i).peerId, (s.clients i).addr, env.now,
        ((s.clients i).load row).publicKey, true⟩] := by
  have hpeers (s : Server) : (updateLastLogin s env nick).peers = s.peers := by
    unfold updateLastLogin
    split <;> rfl
  simp only [loggedIn, addPeerToNetwork, setClient_peers, hpeers, updateLastLogin_clients,
    setClient_self]
  split_ifs
  · rw [setClient_peers, hpeers]
    rfl
  · rfl

/-! ### Reachable tables -/

/-- Every entry is marked connected and every slot's peer id fits its field. -/
structure PeersInv (s : Server) : Prop where
  connected : ∀ p ∈ s.peers, p.isConnected = true
  short : ∀ i, (s.clients i).peerId.length ≤ 63

theorem peersInv_init (users : SecureUsers) : PeersInv (Server.init users) := by
  refine ⟨fun p hp => absurd hp (by simp [Server.init]), fun i => ?_⟩
  simp [Server.init, SecureClient.zero]

theorem peerIdOf_length_le (now : ℤ) (pid : ℕ) : (peerIdOf now pid).length ≤ 63 :=
  List.length_take_le _ _

theorem handlerIteration_peersInv (C : Crypto) {s : Server} (hs : PeersInv s) (h : Handler)
    (env : Env) (read : ReadResult) : PeersInv (handlerIteration C s h env read).1 := by
  rcases handlerIteration_peers C s h env read with ⟨hsame, hid⟩ | ⟨-, -, row, nick, token, heq⟩
  · refine ⟨fun p hp => hs.connected p (hsame.peers ▸ hp), fun i => ?_⟩
    have hpeer : ((handlerIteration C s h env read).1.clients i).peerId = (s.clients i).peerId :=
      congrArg Prod.fst (hid i)
    rw [hpeer]
    exact hs.short i
  · rw [heq]
    refine ⟨fun p hp => ?_, fun i => ?_⟩
    · rw [loggedIn_peers] at hp
      split_ifs at hp
      · exact hs.connected p hp
      · rcases List.mem_append.1 hp with hp | hp
        · exact hs.connected p hp
        · rw [List.mem_singleton.1 hp]
    · rw [loggedIn_peerId, noteActivity_peerId]
      exact hs.short i

theorem peersInv_step (C : Crypto) (s : Server) (e : Event) (hs : PeersInv s) :
    PeersInv (step C s e).1 := by
  have hset {i : Slot} {c : SecureClient} (hc : c.peerId.length ≤ 63) (j : Slot) :
      ((s.setClient i c).clients j).peerId.length ≤ 63 := by
    by_cases hj : j = i
    · rwa [hj, setClient_self]
    · rw [setClient_ne _ _ _ hj]
      exact hs.short j
  cases e with
  | connect fd addr now handshake =>
    simp only [step]
    rcases handleNewConnection_cases s fd addr now handshake with ⟨i, -, -, heq⟩ | heq <;> rw [heq]
    · exact ⟨hs.connected, hset (by simp [newClient, SecureClient.zero])⟩
    · exact hs
  | start conn env =>
    simp only [step]
    cases s.handler? conn .starting with
    | none => exact hs
    | some h =>
      obtain ⟨-, hpeers, hother, hid⟩ := handlerPrologue_peers C s h env
      refine ⟨fun p hp => hs.connected p (hpeers ▸ hp), fun i => ?_⟩
      change ((handlerPrologue C s h env).1.clients i).peerId.length ≤ 63
      by_cases hi : i = h.slot
      · rw [hi]
        change ((handlerPrologue C s h env).1.clients h.slot).ids.1.length ≤ 63
        rw [hid]
        split_ifs
        · exact peerIdOf_length_le _ _
        · exact hs.short _
      · rw [hother i hi]
        exact hs.short i
  | iterate conn env read =>
    simp only [step]
    cases s.handler? conn .looping with
    | none => exact hs
    | some h => exact handlerIteration_peersInv C hs h env read
  | exit conn env =>
    simp only [step]
    cases s.handler? conn .exiting with
    | none => exact hs
    | some h => exact ⟨hs.connected, hset (hs.short h.slot)⟩
  | sweep now =>
    refine ⟨hs.connected, fun i => ?_⟩
    simp only [step, checkClientTimeouts]
    split_ifs <;> exact hs.short i

/-! ### One step -/

theorem Mirrors.length_eq {s : Server} (hinv : PeersInv s) (h : Mirrors s) :
    s.peers.length = (onlineSlots s).length := by
  have hall : (s.peers.filter fun p => p.isConnected) = s.peers :=
    List.filter_eq_self.2 hinv.connected
  have hlen := List.Perm.length_eq h
  rwa [hall, List.length_map, List.length_map] at hlen

/-- A login finds room in the table, for its own slot was not yet online. -/
theorem mirrors_loggedIn {s : Server} (hinv : PeersInv s) (h : Mirrors s) {i : Slot}
    (hfd : 0 ≤ (s.clients i).fd) (hun : (s.clients i).authorized = false) (env : Env)
    (row : UserRow) (nick token : Bytes) : Mirrors (loggedIn s env i row nick token) := by
  have hi : (s.clients i).online = false := by simp [SecureClient.online, hun]
  have hi' : ((loggedIn s env i row nick token).clients i).online = true := by
    rw [loggedIn_clients, Function.update_self]
    simp [SecureClient.online, SecureClient.login, SecureClient.load, hfd]
  have hperm := onlineSlots_perm_cons hi hi' fun j hj => by
    rw [loggedIn_clients, Function.update_of_ne hj]
  have hroom : ¬ s.peers.length ≥ maxClients := by
    have hlen := hperm.length_eq
    have hle := onlineSlots_length_le (loggedIn s env i row nick token)
    rw [List.length_cons, ← Mirrors.length_eq hinv h] at hlen
    omega
  have hids : ((onlineSlots (loggedIn s env i row nick token)).map fun j =>
      ((loggedIn s env i row nick token).clients j).peerId).Perm
      ((s.clients i).peerId :: (onlineSlots s).map fun j => (s.clients j).peerId) := by
    simp only [loggedIn_peerId]
    exact hperm.map fun j => (s.clients j).peerId
  rw [Mirrors, loggedIn_peers, if_neg hroom, List.filter_append, List.map_append]
  refine List.Perm.trans ?_ hids.symm
  have hone : strncpy 63 (s.clients i).peerId = (s.clients i).peerId :=
    strncpy_of_le (hinv.short i)
  refine (List.Perm.append_right _ h).trans ?_
  rw [hone]
  exact List.perm_append_singleton _ _

/-- Without a new peer, a session fewer online breaks the mirror. -/
theorem not_mirrors_of_length {s s' : Server} (hinv : PeersInv s) (hinv' : PeersInv s')
    (h : Mirrors s) (hpeers : s'.peers = s.peers)
    (hlen : (onlineSlots s').length < (onlineSlots s).length) : ¬ Mirrors s' := by
  intro h'
  have heq := Mirrors.length_eq hinv' h'
  rw [hpeers, Mirrors.length_eq hinv h] at heq
  omega

theorem mirrors_exit_iff {s : Server} (hinv : PeersInv s) (h : Mirrors s) (g : Handler)
    (env : Env) (hinv' : PeersInv (handlerExit s g env).1) :
    Mirrors (handlerExit s g env).1 ↔ (s.clients g.slot).online = false := by
  have hself : ((handlerExit s g env).1.clients g.slot).online = false := by
    change ((s.setClient g.slot _).clients g.slot).online = false
    rw [setClient_self]
    simp [SecureClient.cleaned, SecureClient.online]
  have hother (j : Slot) (hj : j ≠ g.slot) :
      (handlerExit s g env).1.clients j = s.clients j := setClient_ne _ _ _ hj
  cases honline : (s.clients g.slot).online with
  | false =>
    have hsame : SamePeers s (handlerExit s g env).1 := by
      refine ⟨fun j => ?_, fun j hj => ?_, rfl⟩
      · by_cases hj : j = g.slot
        · rw [hj, hself, honline]
        · rw [hother j hj]
      · have hjg : j ≠ g.slot := by
          rintro rfl
          rw [honline] at hj
          exact absurd hj (by simp)
        rw [hother j hjg]
    exact iff_of_true (hsame.mirrors_iff.2 h) rfl
  | true =>
    have hperm := onlineSlots_perm_cons hself honline fun j hj => by rw [hother j hj]
    have hlen := hperm.length_eq
    rw [List.length_cons] at hlen
    exact iff_of_false (not_mirrors_of_length hinv hinv' h rfl (by omega)) (by simp)

theorem mirrors_sweep_iff {s : Server} (hinv : PeersInv s) (h : Mirrors s) (now : ℤ)
    (hinv' : PeersInv (checkClientTimeouts s now).1) :
    Mirrors (checkClientTimeouts s now).1 ↔
      ∀ i, timedOut now (s.clients i) = true → (s.clients i).authorized = false := by
  have honline (i : Slot) : ((checkClientTimeouts s now).1.clients i).online =
      (!timedOut now (s.clients i) && (s.clients i).online) := by
    simp only [checkClientTimeouts]
    cases hout : timedOut now (s.clients i) with
    | false => simp
    | true => simp [SecureClient.online]
  refine ⟨fun h' i hout => ?_, fun hstay => ?_⟩
  · by_contra hauth
    rw [Bool.not_eq_false] at hauth
    have hfd : 0 ≤ (s.clients i).fd := by
      simp only [timedOut, Bool.and_eq_true, decide_eq_true_eq] at hout
      exact hout.1
    have hmem : i ∈ onlineSlots s := by simp [onlineSlots, SecureClient.online, hfd, hauth]
    have hslots : onlineSlots (checkClientTimeouts s now).1 =
        (onlineSlots s).filter fun i => !timedOut now (s.clients i) := by
      rw [onlineSlots, onlineSlots, List.filter_filter]
      exact List.filter_congr fun i _ => honline i
    refine not_mirrors_of_length hinv hinv' h rfl ?_ h'
    rw [hslots]
    exact List.length_filter_lt_length_iff_exists.2 ⟨i, hmem, by simp [hout]⟩
  · have hsame : SamePeers s (checkClientTimeouts s now).1 := by
      refine ⟨fun i => ?_, fun i _ => ?_, rfl⟩
      · rw [honline i]
        cases hout : timedOut now (s.clients i) with
        | false => rfl
        | true => simp [SecureClient.online, hstay i hout]
      · simp only [checkClientTimeouts]
        split_ifs <;> rfl
    exact hsame.mirrors_iff.2 h

/-- Where one online slot may have a new id and nothing else changes. -/
theorem mirrors_newId_iff {s s' : Server} (h : Mirrors s) {i : Slot}
    (honline : ∀ j, (s'.clients j).online = (s.clients j).online) (hpeers : s'.peers = s.peers)
    (hother : ∀ j, j ≠ i → s'.clients j = s.clients j) (hi : (s.clients i).online = true) :
    Mirrors s' ↔ (s'.clients i).peerId = (s.clients i).peerId := by
  have hslots : onlineSlots s' = onlineSlots s := List.filter_congr fun j _ => honline j
  have hmem : i ∈ onlineSlots s := by simp [onlineSlots, hi]
  have hnot : i ∉ (onlineSlots s).erase i :=
    ((List.nodup_finRange maxClients).filter _).not_mem_erase
  have hsplit := List.perm_cons_erase hmem
  have hrest : ((onlineSlots s).erase i).map (fun j => (s'.clients j).peerId) =
      ((onlineSlots s).erase i).map fun j => (s.clients j).peerId := by
    refine List.map_congr_left fun j hj => ?_
    have hji : j ≠ i := by
      rintro rfl
      exact hnot hj
    rw [hother j hji]
  have hold := h.trans (hsplit.map fun j => (s.clients j).peerId)
  have hnew := hsplit.map fun j => (s'.clients j).peerId
  rw [List.map_cons, hrest] at hnew
  rw [List.map_cons] at hold
  rw [Mirrors, hslots, hpeers]
  refine ⟨fun h' => ?_, fun heq => ?_⟩
  · have hcons := hold.symm.trans (h'.trans hnew)
    have hmulti := Multiset.coe_eq_coe.2 hcons
    rw [← Multiset.cons_coe, ← Multiset.cons_coe] at hmulti
    exact ((Multiset.cons_inj_left _).1 hmulti).symm
  · rw [heq] at hnew
    exact hold.trans hnew.symm

theorem mirrors_start_iff (C : Crypto) {s : Server} (h : Mirrors s) (g : Handler)
    (env : StartEnv) :
    Mirrors (handlerPrologue C s g env).1 ↔ ((s.clients g.slot).online = true →
      (initClientSignalProtocol C (s.clients g.slot) env).2 = true →
      peerIdOf env.now env.pid = (s.clients g.slot).peerId) := by
  obtain ⟨honline, hpeers, hother, hid⟩ := handlerPrologue_peers C s g env
  cases hg : (s.clients g.slot).online with
  | false =>
    have hsame : SamePeers s (handlerPrologue C s g env).1 := by
      refine ⟨honline, fun i hi => ?_, hpeers⟩
      have hne : i ≠ g.slot := by
        rintro rfl
        rw [hg] at hi
        exact absurd hi (by simp)
      rw [hother i hne]
    exact iff_of_true (hsame.mirrors_iff.2 h) (by simp)
  | true =>
    -- the other online slots keep their ids, so the mirror turns on this slot's id
    have hpeer := congrArg Prod.fst hid
    rw [mirrors_newId_iff h honline hpeers hother hg]
    cases hok : (initClientSignalProtocol C (s.clients g.slot) env).2 with
    | false =>
      rw [if_neg (by simp [hok])] at hpeer
      exact iff_of_true hpeer (by simp)
    | true =>
      rw [if_pos hok] at hpeer
      change _ = peerIdOf env.now env.pid at hpeer
      simp only [forall_const]
      rw [← hpeer]
      rfl

theorem mirrors_step_iff (C : Crypto) (s : Server) (e : Event) (hinv : PeersInv s)
    (h : Mirrors s) : Mirrors (step C s e).1 ↔ SessionsStay C s e := by
  have hinv' := peersInv_step C s e hinv
  cases e with
  | connect fd addr now handshake =>
    refine iff_of_true ?_ trivial
    simp only [step]
    rcases handleNewConnection_cases s fd addr now handshake with
      ⟨i, hfree, -, heq⟩ | heq <;> rw [heq]
    · exact (accepted_samePeers hfree fd addr now).mirrors_iff.2 h
    · exact h
  | start conn env =>
    simp only [step, SessionsStay]
    cases s.handler? conn .starting with
    | none => simpa using h
    | some g => simpa using mirrors_start_iff C h g env
  | iterate conn env read =>
    refine iff_of_true ?_ trivial
    simp only [step]
    cases s.handler? conn .looping with
    | none => exact h
    | some g =>
      rcases handlerIteration_peers C s g env read with
        ⟨hsame, -⟩ | ⟨hfd, hun, row, nick, token, heq⟩
      · exact hsame.mirrors_iff.2 h
      · simp only [heq]
        have hnote := noteActivity_refreshes s g.slot env.now g.slot
        refine mirrors_loggedIn ?_ ?_ (hnote.fd ▸ hfd) (hnote.authorized.trans hun) env row nick token
        · refine ⟨hinv.connected, fun i => ?_⟩
          rw [noteActivity_peerId]
          exact hinv.short i
        · exact (noteActivity_samePeers s g.slot env.now).mirrors_iff.2 h
  | exit conn env =>
    simp only [step, SessionsStay] at hinv' ⊢
    cases hg : s.handler? conn .exiting with
    | none => simpa using h
    | some g =>
      rw [hg] at hinv'
      simpa using mirrors_exit_iff hinv h g env hinv'
  | sweep now => exact mirrors_sweep_iff hinv h now hinv'

/-- In every run from the start, the table mirrors the sessions in every state if
and only if no step ends a live authorised session or changes its peer id. -/
theorem peers_mirror_iff (C : Crypto) (users : SecureUsers) (es : List Event) :
    Runs.Always (step C) Mirrors (Server.init users) es ↔
      Runs.Along (step C) (SessionsStay C) (Server.init users) es := by
  have hinit : Mirrors (Server.init users) := by
    have hnone : onlineSlots (Server.init users) = [] :=
      List.filter_eq_nil_iff.2 fun i _ => by
        simp [Server.init, SecureClient.zero, SecureClient.online]
    rw [Mirrors, hnone]
    exact List.Perm.refl []
  exact Runs.always_iff_along (fun s e => peersInv_step C s e)
    (fun s e => mirrors_step_iff C s e) (peersInv_init users) hinit es

/-- One of two logged-in clients disconnects and stays in the table as connected. -/
theorem stale_peer_after_exit :
    let s := (run Sample.crypto (Server.init SecureUsers.empty) (Sample.chat ++
      [.iterate 0 (Sample.env 1005 0) .error, .exit 0 (Sample.env 1005 0)])).1
    s.peers.length = 2 ∧ onlineSlots s = [Sample.secondSlot] ∧ ¬ Mirrors s := by
  intro s
  have hinv : PeersInv s :=
    Runs.run_invariant (fun s e => peersInv_step Sample.crypto s e) (peersInv_init _) _
  have hlengths : s.peers.length = 2 ∧ onlineSlots s = [Sample.secondSlot] := by decide +kernel
  clear_value s
  refine ⟨hlengths.1, hlengths.2, fun h => ?_⟩
  have heq := Mirrors.length_eq hinv h
  rw [hlengths.1, hlengths.2] at heq
  exact absurd heq (by decide)

end Mesh
