import MeshMessenger.Proofs.Slots
import MeshMessenger.Server.Reads

/-! What becomes of a session whose peer has closed the connection. `ssl_safe_read`
returns 0 for it as for a timeout, so that the loop is left by the inactivity rule
only. -/

namespace Mesh

open CLib

/-! ### The read -/

theorem sslReadLoop_failsFirst {maxLen : ℕ} (hroom : 0 < maxLen - 1) {script : List SslRead}
    (h : failsFirst script = true) : (sslReadLoop maxLen [] script).1 = [] := by
  have hlt : ([] : Bytes).length < maxLen - 1 := hroom
  induction script with
  | nil => rfl
  | cons r script ih =>
    cases r with
    | wantRead =>
      rw [sslReadLoop, if_pos hlt]
      exact ih h
    | fail => rw [sslReadLoop, if_pos hlt]
    | data b bs => simp [failsFirst] at h

theorem ReadCall.PeerClosed.result {call : ReadCall} (h : call.PeerClosed) :
    call.result = .zero := by
  have hempty : (sslSafeRead bufferSize call.script).1 = [] :=
    sslReadLoop_failsFirst (by decide) h.fails
  rw [ReadCall.result, if_neg (not_lt.2 h.sslFd), if_neg (not_le.2 h.readable), dif_pos hempty]

/-- A closed connection is left at the rate of a silent one. -/
theorem handlerIteration_closed (C : Crypto) {s : Server} {h : Handler} (env : Env)
    (hfd : 0 ≤ (s.clients h.slot).fd) {call : ReadCall} (hclosed : call.PeerClosed) :
    handlerIteration C s h env call.result =
      if env.now - (s.clients h.slot).lastActivity > connectionTimeout then
        (s.setHandler h.conn h.ip .exiting, [])
      else (s, []) := by
  rw [hclosed.result, handlerIteration, if_neg (not_lt.2 hfd)]

theorem closedReader_eq_some {s : Server} {e : CallEvent} {h : Handler}
    (hread : closedReader s e = some h) :
    ∃ env call, e = .iterate h.conn env call ∧ call.PeerClosed ∧ 0 ≤ (s.clients h.slot).fd ∧
      s.handler? h.conn .looping = some h := by
  cases e with
  | iterate conn env call =>
    simp only [closedReader] at hread
    cases hh : s.handler? conn .looping with
    | none => simp [hh] at hread
    | some g =>
      simp only [hh] at hread
      split_ifs at hread with hcond
      obtain rfl := Option.some.inj hread
      obtain ⟨-, rfl, -⟩ := handler?_eq_some hh
      exact ⟨env, call, rfl, hcond.2, hcond.1, hh⟩
  | connect fd addr now handshake => exact absurd hread (by simp [closedReader])
  | start conn env => exact absurd hread (by simp [closedReader])
  | exit conn env => exact absurd hread (by simp [closedReader])
  | sweep now => exact absurd hread (by simp [closedReader])

/-! ### Handlers that have left their loop -/

/-- No two handlers serve one connection. -/
def HandlersDistinct (s : Server) : Prop := (s.handlers.map Handler.conn).Nodup

theorem Move.handlersDistinct {s s' : Server} (hs : HandlersDistinct s) (hm : Move s s') :
    HandlersDistinct s' := by
  unfold HandlersDistinct at hs ⊢
  cases hm with
  | phase conn ip phase =>
    have hconns : (s.setHandler conn ip phase).handlers.map Handler.conn =
        s.handlers.map Handler.conn := by
      simp only [Server.setHandler, List.map_map]
      refine List.map_congr_left fun h _ => ?_
      simp only [Function.comp_apply]
      split_ifs <;> rfl
    rwa [hconns]
  | refresh i hc => exact hs
  | register hvalid hword hinsert => exact hs
  | login env hauth hword hfind => rwa [loggedIn_handlers]
  | exit hh => exact hs.sublist (List.filter_sublist.map _)
  | sweep now => exact hs

theorem accepted_handlersDistinct {s : Server} (hcount : HandlersCounted s)
    (hs : HandlersDistinct s) (i : Slot) (fd : ℕ) (addr : SockAddr) (now : ℤ) :
    HandlersDistinct (accepted s i fd addr now) := by
  have hfresh : s.totalConnections ∉ s.handlers.map Handler.conn := by
    intro hmem
    obtain ⟨h, hh, heq⟩ := List.mem_map.1 hmem
    exact (hcount h hh).ne heq
  simp only [HandlersDistinct, accepted, List.map_append, List.map_cons, List.map_nil]
  rw [← List.concat_eq_append]
  exact List.Nodup.concat hfresh hs

theorem Reachable.handlers {C : Crypto} {users : SecureUsers} {s : Server}
    (h : Reachable C users s) : HandlersCounted s ∧ HandlersDistinct s := by
  refine h.of_moves (I := fun s => HandlersCounted s ∧ HandlersDistinct s)
    ⟨fun g hg => absurd hg (by simp [Server.init]), List.nodup_nil⟩ ?_ ?_
  · intro s i fd addr now hs _
    exact ⟨accepted_handlersCounted hs.1 i fd addr now,
      accepted_handlersDistinct hs.1 hs.2 i fd addr now⟩
  · intro s s' hs hm
    exact ⟨hm.handlersCounted hs.1, hm.handlersDistinct hs.2⟩

theorem mem_setHandler {s : Server} {h : Handler} (hh : h ∈ s.handlers) {conn : Conn}
    (hne : h.conn ≠ conn) (ip : Bytes) (phase : Phase) :
    h ∈ (s.setHandler conn ip phase).handlers :=
  List.mem_map.2 ⟨h, hh, if_neg hne⟩

/-- A handler that has left its loop stays where it is until its own exit. -/
theorem exiting_step (C : Crypto) {s : Server} (hs : HandlersDistinct s) {h : Handler}
    (hh : h ∈ s.handlers) (hexit : h.phase = .exiting) (e : Event) :
    h ∈ (step C s e).1.handlers ∨ ∃ env, e = .exit h.conn env ∧
      s.handler? h.conn .exiting = some h := by
  have hother {conn : Conn} {phase : Phase} {g : Handler} (hg : s.handler? conn phase = some g)
      (hphase : phase ≠ .exiting) : h.conn ≠ g.conn := by
    obtain ⟨hmem, -, hlast⟩ := handler?_eq_some hg
    intro heq
    obtain rfl := List.inj_on_of_nodup_map hs hh hmem heq
    exact hphase (hlast ▸ hexit)
  cases e with
  | connect fd addr now handshake =>
    simp only [step]
    rcases handleNewConnection_cases s fd addr now handshake with ⟨i, -, -, heq⟩ | heq <;> rw [heq]
    · exact .inl (List.mem_append_left _ hh)
    · exact .inl hh
  | start conn env =>
    simp only [step]
    cases hg : s.handler? conn .starting with
    | none => exact .inl hh
    | some g =>
      obtain ⟨⟨ip, phase, -, -, heq⟩, -, -⟩ := handlerPrologue_handlers C s g env
      simp only
      rw [heq]
      exact .inl (mem_setHandler hh (hother hg (by decide)) ip phase)
  | iterate conn env read =>
    simp only [step]
    cases hg : s.handler? conn .looping with
    | none => exact .inl hh
    | some g =>
      simp only
      rcases handlerIteration_state C s g env read with
        heq | heq | ⟨users, heq⟩ | ⟨-, -, row, nick, token, heq⟩ <;> rw [heq]
      · exact .inl (mem_setHandler hh (hother hg (by decide)) g.ip .exiting)
      · exact .inl hh
      · exact .inl hh
      · rw [loggedIn_handlers]
        exact .inl hh
  | exit conn env =>
    simp only [step]
    cases hg : s.handler? conn .exiting with
    | none => exact .inl hh
    | some g =>
      obtain ⟨hmem, rfl, -⟩ := handler?_eq_some hg
      by_cases heq : h.conn = g.conn
      · obtain rfl := List.inj_on_of_nodup_map hs hh hmem heq
        exact .inr ⟨env, rfl, hg⟩
      · exact .inl (List.mem_filter.2 ⟨hh, by simpa using heq⟩)
  | sweep now => exact .inl hh

/-! ### The step that finds a connection closed -/

/-- The handler that finds its connection closed leaves its loop for the cleanup. -/
def LeavesOnClose (C : Crypto) (s : Server) (e : CallEvent) : Prop :=
  ∀ h, closedReader s e = some h →
    (callStep C s e).1.handler? h.conn .looping = none ∧
      { h with phase := .exiting } ∈ (callStep C s e).1.handlers

/-- A connection that is found closed has long been silent. -/
def IdleOnClose (s : Server) (e : CallEvent) : Prop :=
  ∀ conn env call h, e = .iterate conn env call → closedReader s e = some h →
    env.now - (s.clients h.slot).lastActivity > connectionTimeout

theorem handler?_setHandler {s : Server} {conn : Conn} {ip : Bytes} {phase phase' : Phase}
    (hne : phase' ≠ phase) : (s.setHandler conn ip phase).handler? conn phase' = none := by
  refine List.find?_eq_none.2 fun g hg => ?_
  obtain ⟨g, -, rfl⟩ := List.mem_map.1 hg
  split_ifs with hconn
  · simp [hne.symm]
  · simp [hconn]

theorem leavesOnClose_iff (C : Crypto) (s : Server) (e : CallEvent) :
    LeavesOnClose C s e ↔ IdleOnClose s e := by
  refine ⟨?_, ?_⟩
  · intro hleaves conn env call h he hread
    obtain ⟨env', call', he', hclosed, hfd, hh⟩ := closedReader_eq_some hread
    obtain ⟨rfl, rfl, rfl⟩ : conn = h.conn ∧ env = env' ∧ call = call' := by
      simpa [he] using he'
    by_contra hidle
    obtain ⟨hnone, -⟩ := hleaves h hread
    subst he
    simp only [callStep, CallEvent.event, step, hh, handlerIteration_closed C env hfd hclosed,
      if_neg hidle] at hnone
    exact absurd hnone (by simp)
  · intro hidle h hread
    obtain ⟨env, call, rfl, hclosed, hfd, hh⟩ := closedReader_eq_some hread
    have hlong := hidle h.conn env call h rfl hread
    obtain ⟨hmem, -, -⟩ := handler?_eq_some hh
    simp only [callStep, CallEvent.event, step, hh, handlerIteration_closed C env hfd hclosed,
      if_pos hlong]
    refine ⟨handler?_setHandler (by decide), ?_⟩
    exact List.mem_map.2 ⟨h, hmem, if_pos rfl⟩

/-! ### After that -/

/-- Nothing that looks for sessions finds one on connection `conn`. -/
structure Gone (s : Server) (conn : Conn) : Prop where
  not_found : ∀ nick i, findClientByNick s nick = some i → (s.clients i).ssl ≠ some conn
  not_listed : ∀ i ∈ onlineSlots s, (s.clients i).ssl ≠ some conn
  not_written : ∀ env sender message data,
    Effect.write (some conn) data ∉ broadcastMessage s env sender message

/-- A handler stands before the cleanup of the slot that holds connection `conn`. -/
def Leaving (s : Server) (conn : Conn) : Prop :=
  ∃ h ∈ s.handlers, h.phase = .exiting ∧ (s.clients h.slot).ssl = some conn

theorem gone_of_ssl {s : Server} {conn : Conn} (h : ∀ i, (s.clients i).ssl ≠ some conn) :
    Gone s conn := by
  refine ⟨fun _ i _ => h i, fun i _ => h i, ?_⟩
  intro env sender message data hmem
  rcases List.mem_append.1 hmem with hmem | hmem
  · unfold saveMessage at hmem
    split_ifs at hmem
    · exact absurd (List.mem_singleton.1 hmem) (by simp)
    · exact absurd hmem (by simp)
  · obtain ⟨i, -, heq⟩ := List.mem_map.1 hmem
    obtain ⟨hssl, -⟩ := Effect.write.inj heq
    exact h i hssl

/-- The closed connections that are still in a slot are about to be cleaned up. -/
def ClosedInv (s : Server) (closed : List Conn) : Prop :=
  ∀ conn ∈ closed, conn < s.totalConnections ∧ ∀ i, (s.clients i).ssl = some conn →
    ∃ h ∈ s.handlers, h.slot = i ∧ h.phase = .exiting

theorem ClosedInv.leaving_or_gone {s : Server} {closed : List Conn} (hs : ClosedInv s closed)
    {conn : Conn} (hconn : conn ∈ closed) : Leaving s conn ∨ Gone s conn := by
  by_cases hslot : ∃ i, (s.clients i).ssl = some conn
  · obtain ⟨i, hi⟩ := hslot
    obtain ⟨h, hh, rfl, hexit⟩ := (hs conn hconn).2 i hi
    exact .inl ⟨h, hh, hexit, hi⟩
  · exact .inr (gone_of_ssl (not_exists.1 hslot))

theorem step_totalConnections_le (C : Crypto) (s : Server) (e : Event) :
    s.totalConnections ≤ (step C s e).1.totalConnections :=
  step_preserve (I := fun s' => s.totalConnections ≤ s'.totalConnections) C
    (fun _ _ _ _ _ hs _ => Nat.le_succ_of_le hs)
    (fun _ _ hs hm => hs.trans hm.totalConnections.ge) le_rfl e

/-- A connection that has been counted gets into no other slot. -/
theorem step_ssl (C : Crypto) {s : Server} {e : Event} {i : Slot} {conn : Conn}
    (hcount : conn < s.totalConnections) (h : ((step C s e).1.clients i).ssl = some conn) :
    (s.clients i).ssl = some conn := by
  rcases step_cases C s e with ⟨j, fd, addr, now, -, -, heq⟩ | hmoves
  · rw [heq] at h
    change ((s.setClient j _).clients i).ssl = _ at h
    by_cases hij : i = j
    · rw [hij, setClient_self] at h
      exact absurd (Option.some.inj h) hcount.ne'
    · rwa [setClient_ne _ _ _ hij] at h
  · rcases hmoves.ssl i with hsame | hnone
    · rwa [hsame] at h
    · rw [hnone] at h
      exact absurd h (by simp)

theorem exit_ssl (C : Crypto) {s : Server} {conn : Conn} {h : Handler}
    (hh : s.handler? conn .exiting = some h) (env : Env) :
    ((step C s (.exit conn env)).1.clients h.slot).ssl = none := by
  simp only [step, hh, handlerExit, cleanupClientResources]
  exact congrArg SecureClient.ssl (setClient_self s h.slot _)

theorem ClosedInv.step (C : Crypto) {s : Server} (hdistinct : HandlersDistinct s)
    {closed : List Conn} (hs : ClosedInv s closed) (e : Event) :
    ClosedInv (Mesh.step C s e).1 closed := by
  intro conn hconn
  obtain ⟨hcount, hleaving⟩ := hs conn hconn
  refine ⟨hcount.trans_le (step_totalConnections_le C s e), fun i hi => ?_⟩
  obtain ⟨h, hh, rfl, hexit⟩ := hleaving i (step_ssl C hcount hi)
  rcases exiting_step C hdistinct hh hexit e with hmem | ⟨env, rfl, hfound⟩
  · exact ⟨h, hmem, rfl, hexit⟩
  · rw [exit_ssl C hfound env] at hi
    exact absurd hi (by simp)

theorem closedInv_closedStep (C : Crypto) {users : SecureUsers} (s : Server) (closed : List Conn)
    (e : CallEvent) (hidle : IdleOnClose s e) (hs : Reachable C users s ∧ ClosedInv s closed) :
    Reachable C users (closedStep C s e).1 ∧
      ClosedInv (closedStep C s e).1 (closed ++ (closedStep C s e).2) := by
  obtain ⟨hreach, hinv⟩ := hs
  refine ⟨hreach.after e.event, ?_⟩
  intro conn hconn
  rcases List.mem_append.1 hconn with hold | hnew
  · exact hinv.step C hreach.handlers.2 e.event conn hold
  · simp only [closedStep, foundClosed] at hnew
    cases hread : closedReader s e with
    | none => simp [hread] at hnew
    | some h =>
      simp only [hread, Option.mem_toList] at hnew
      have hcount := (Reachable.connInv hreach).ssl_lt h.slot conn hnew
      refine ⟨hcount.trans_le (step_totalConnections_le C s e.event), fun i hi => ?_⟩
      have hi' : i = h.slot := (Reachable.connInv hreach).ssl_inj i h.slot conn
        (step_ssl C hcount hi) hnew
      obtain ⟨-, hmem⟩ := (leavesOnClose_iff C s e).2 hidle h hread
      exact ⟨_, hmem, hi'.symm, rfl⟩

theorem run_closedInv (C : Crypto) (users : SecureUsers) {es : List CallEvent}
    (h : Runs.Along (callStep C) IdleOnClose (Server.init users) es) :
    let r := Runs.run (closedStep C) (Server.init users) es
    ClosedInv r.1 r.2 := by
  have hsame (s : Server) (e : CallEvent) : (closedStep C s e).1 = (callStep C s e).1 := rfl
  have hinit : Reachable C users (Server.init users) ∧ ClosedInv (Server.init users) [] :=
    ⟨⟨[], rfl⟩, fun conn hconn => absurd hconn (by simp)⟩
  exact ((h.congr hsame).trace_invariant
    (I := fun s closed => Reachable C users s ∧ ClosedInv s closed)
    (fun s closed e => closedInv_closedStep C s closed e) hinit).2

theorem callRun_reachable (C : Crypto) (users : SecureUsers) (es : List CallEvent) :
    Reachable C users (Runs.run (closedStep C) (Server.init users) es).1 :=
  Runs.run_invariant (fun _ e hs => hs.after e.event) ⟨[], rfl⟩ es

/-- After the cleanup of its slot, a connection is gone. -/
theorem gone_after_exit (C : Crypto) {users : SecureUsers} {s : Server}
    (hs : Reachable C users s) {c : Conn} {h : Handler} (hh : s.handler? c .exiting = some h)
    (env : Env) {conn : Conn} (hconn : (s.clients h.slot).ssl = some conn) :
    Gone (step C s (.exit c env)).1 conn := by
  have hinv := Reachable.connInv hs
  refine gone_of_ssl fun i hi => ?_
  have hi' : i = h.slot :=
    hinv.ssl_inj i h.slot conn (step_ssl C (hinv.ssl_lt h.slot conn hconn) hi) hconn
  rw [hi', exit_ssl C hh env] at hi
  exact absurd hi (by simp)

/-- In a run, every handler that finds its connection closed leaves its loop at once, and
the connection is gone but for the time up to the cleanup, if and only if every connection
is found closed only after more than `CONNECTION_TIMEOUT` seconds of silence. The cleanup
is the handler's next step, and the connection is gone after it. -/
theorem closed_connection_ends_iff (C : Crypto) (users : SecureUsers) (es : List CallEvent) :
    let r := Runs.run (closedStep C) (Server.init users) es
    ((Runs.Along (callStep C) (LeavesOnClose C) (Server.init users) es ∧
        ∀ conn ∈ r.2, Leaving r.1 conn ∨ Gone r.1 conn) ↔
      Runs.Along (callStep C) IdleOnClose (Server.init users) es) ∧
    ∀ c h env conn, r.1.handler? c .exiting = some h → (r.1.clients h.slot).ssl = some conn →
      Gone (callStep C r.1 (.exit c env)).1 conn := by
  intro r
  refine ⟨⟨?_, ?_⟩, ?_⟩
  · rintro ⟨hleaves, -⟩
    exact hleaves.mono fun s e => (leavesOnClose_iff C s e).1
  · intro hidle
    refine ⟨hidle.mono fun s e => (leavesOnClose_iff C s e).2, fun conn hconn => ?_⟩
    exact (run_closedInv C users hidle).leaving_or_gone hconn
  · intro c h env conn hh hconn
    exact gone_after_exit C (callRun_reachable C users es) hh env hconn

namespace Sample

/-- The bytes are there to be read at once. -/
def arriving (buffer : Bytes) : ReadCall := ⟨5, 1, SslRead.pending buffer⟩

/-- The other end has closed. -/
def hungUp : ReadCall := ⟨5, 1, [.fail]⟩

/-- A client registers as `bob`, with a token of 64 ones, and logs in. -/
def bobOnline : List CallEvent :=
  [.sweep 1000, .connect 5 addr 1000 .success, .start 0 (startEnv 1000),
    .iterate 0 (env 1001 17) (arriving (ascii "/register bob\n")),
    .iterate 0 (env 1002 0) (arriving (ascii "/login bob " ++ List.replicate 64 49 ++ [newline]))]

end Sample

/-- Three seconds later the client's connection is closed. The handler stays in its loop,
and the session is found, listed and written to. -/
theorem closed_session_stays_online :
    let s := (Runs.run (callStep Sample.crypto) (Server.init SecureUsers.empty)
      Sample.bobOnline).1
    let e := CallEvent.iterate 0 (Sample.env 1005 0) Sample.hungUp
    let s' := (callStep Sample.crypto s e).1
    Sample.hungUp.PeerClosed ∧ foundClosed s e = [0] ∧ (s'.handler? 0 .looping).isSome = true ∧
      findClientByNick s' (ascii "bob") = some Sample.firstSlot ∧
      Sample.firstSlot ∈ onlineSlots s' ∧ (s'.clients Sample.firstSlot).ssl = some 0 ∧
      writtenTo 0 (broadcastMessage s' (Sample.env 1006 0) system (ascii "hi")) ≠ [] := by
  decide +kernel

end Mesh
