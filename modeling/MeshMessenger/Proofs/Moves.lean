import MeshMessenger.Server.Machine
import MeshMessenger.Proofs.Parsing

/-! What one step of the machine can do to the state, said once. A step either
installs a new connection or is a sequence of elementary changes, listed with
their guards in `Move`; `Reachable.of_moves` is the induction rule that leaves an
invariant to be checked against these only. -/

namespace Mesh

open CLib

/-! ### Fields left alone by the small updates -/

section frames

variable (s : Server) (env : Env)

@[simp] theorem updateLastLogin_clients (nick : Bytes) :
    (updateLastLogin s env nick).clients = s.clients := by
  unfold updateLastLogin; split <;> rfl

@[simp] theorem updateLastLogin_handlers (nick : Bytes) :
    (updateLastLogin s env nick).handlers = s.handlers := by
  unfold updateLastLogin; split <;> rfl

@[simp] theorem updateLastLogin_totalConnections (nick : Bytes) :
    (updateLastLogin s env nick).totalConnections = s.totalConnections := by
  unfold updateLastLogin; split <;> rfl

@[simp] theorem addPeerToNetwork_clients (id : Bytes) (addr : SockAddr) (key : Bytes) :
    (addPeerToNetwork s env id addr key).clients = s.clients := by
  unfold addPeerToNetwork; split <;> rfl

@[simp] theorem addPeerToNetwork_handlers (id : Bytes) (addr : SockAddr) (key : Bytes) :
    (addPeerToNetwork s env id addr key).handlers = s.handlers := by
  unfold addPeerToNetwork; split <;> rfl

@[simp] theorem addPeerToNetwork_users (id : Bytes) (addr : SockAddr) (key : Bytes) :
    (addPeerToNetwork s env id addr key).users = s.users := by
  unfold addPeerToNetwork; split <;> rfl

@[simp] theorem addPeerToNetwork_totalConnections (id : Bytes) (addr : SockAddr) (key : Bytes) :
    (addPeerToNetwork s env id addr key).totalConnections = s.totalConnections := by
  unfold addPeerToNetwork; split <;> rfl

end frames

/-! ### Specifications of the account commands -/

/-- The state a successful `process_login` leaves. -/
def loggedIn (s : Server) (env : Env) (i : Slot) (row : UserRow) (nick token : Bytes) : Server :=
  let s := updateLastLogin (s.setClient i ((s.clients i).load row)) env nick
  let client := (s.clients i).login nick token
  addPeerToNetwork (s.setClient i client) env client.peerId client.addr client.publicKey

section loggedIn

variable (s : Server) (env : Env) (i : Slot) (row : UserRow) (nick token : Bytes)

theorem loggedIn_clients :
    (loggedIn s env i row nick token).clients =
      Function.update s.clients i (((s.clients i).load row).login nick token) := by
  simp [loggedIn, Server.setClient]

theorem loggedIn_users :
    (loggedIn s env i row nick token).users =
      if env.updateOk then s.users.updateLastLogin nick env.now else s.users := by
  simp only [loggedIn, addPeerToNetwork_users, setClient_users]
  unfold updateLastLogin
  split <;> rfl

@[simp] theorem loggedIn_handlers : (loggedIn s env i row nick token).handlers = s.handlers := by
  simp [loggedIn]

@[simp] theorem loggedIn_totalConnections :
    (loggedIn s env i row nick token).totalConnections = s.totalConnections := by
  simp [loggedIn]

end loggedIn

theorem authenticateUser_cases (s : Server) (env : Env) (i : Slot) (nick token : Bytes) :
    (∃ row, env.selectOk = true ∧ s.users.findUnlocked nick = some row ∧
      constantTimeCompare (stored row.token) (stored token) token.length = true ∧
      authenticateUser s env i nick token =
        (updateLastLogin (s.setClient i ((s.clients i).load row)) env nick, true)) ∨
    authenticateUser s env i nick token = (s, false) := by
  unfold authenticateUser
  cases hsel : env.selectOk with
  | false => exact .inr rfl
  | true =>
    cases hfind : s.users.findUnlocked nick with
    | none => exact .inr rfl
    | some row =>
      cases hcmp : constantTimeCompare (stored row.token) (stored token) token.length with
      | true => exact .inl ⟨row, rfl, rfl, hcmp, by simp [hcmp]⟩
      | false => exact .inr (by simp [hcmp])

/-- `authenticate_user` returns 1 exactly for a prefix of the unlocked row's token. -/
theorem authenticateUser_snd_iff {s : Server} {env : Env} {i : Slot} {nick token : Bytes}
    (hsel : env.selectOk = true) (ht : NulFree token) :
    (authenticateUser s env i nick token).2 = true ↔
      ∃ row ∈ s.users.rows, row.isLocked = false ∧ caseEq row.nick nick = true ∧
        token <+: row.token := by
  have hcmp (row : UserRow) := constantTimeCompare_isPrefix (stored_holds row.token)
    (stored_holds token) ht
  refine ⟨?_, ?_⟩
  · rcases authenticateUser_cases s env i nick token with ⟨row, -, hfind, hc, -⟩ | h
    · obtain ⟨hmem, hn, hl⟩ := s.users.findUnlocked_eq_some.1 hfind
      exact fun _ => ⟨row, hmem, hl, hn, (hcmp row).1 hc⟩
    · simp [h]
  · rintro ⟨row, hmem, hl, hn, hp⟩
    have hfind := s.users.findUnlocked_eq_some.2 ⟨hmem, hn, hl⟩
    simp [authenticateUser, hsel, hfind, (hcmp row).2 hp]

/-- The effects of a successful login. -/
def loginEffects (s : Server) (env : Env) (i : Slot) (nick ip : Bytes) : List Effect :=
  .write (s.clients i).ssl (snprintf 256 (loginSuccessFrame nick (s.clients i).sessionId)) ::
    broadcastMessage s env system (joinNotice nick) ++
    [.audit (ascii "USER_LOGIN") nick ip (ascii "User logged in successfully")]

theorem processLogin_cases (s : Server) (env : Env) (i : Slot) (ip command : Bytes) :
    (parseLogin command = none ∧ processLogin s env i ip command = (s, [])) ∨
    (∃ nick token, parseLogin command = some (nick, token) ∧
      (authenticateUser s env i nick token).2 = false ∧
      processLogin s env i ip command = (s, [.write (s.clients i).ssl loginErrorFrame,
        .audit (ascii "LOGIN_FAILED") nick ip (ascii "Failed login attempt")])) ∨
    (∃ nick token row, parseLogin command = some (nick, token) ∧
      (authenticateUser s env i nick token).2 = true ∧ env.selectOk = true ∧
      s.users.findUnlocked nick = some row ∧
      constantTimeCompare (stored row.token) (stored token) token.length = true ∧
      processLogin s env i ip command = (loggedIn s env i row nick token,
        loginEffects (loggedIn s env i row nick token) env i nick ip)) := by
  unfold processLogin
  cases hparse : parseLogin command with
  | none => exact .inl ⟨rfl, rfl⟩
  | some p =>
    obtain ⟨nick, token⟩ := p
    rcases authenticateUser_cases s env i nick token with ⟨row, hsel, hfind, hcmp, h⟩ | h
    · refine .inr (.inr ⟨nick, token, row, rfl, by rw [h], hsel, hfind, hcmp, ?_⟩)
      simp only [h]
      refine Prod.ext rfl ?_
      simp [loginEffects, loggedIn]
    · exact .inr (.inl ⟨nick, token, rfl, by rw [h], by simp [h]⟩)

def registrationErrors : List Bytes :=
  ["Invalid nickname", "Nickname already exists", "Database error"].map ascii

/-- A registration that leaves the state alone and answers an error or nothing. -/
def RegistrationRefused (s : Server) (i : Slot) (r : Server × List Effect) : Prop :=
  r.1 = s ∧ (r.2 = [] ∨ ∃ message ∈ registrationErrors,
    r.2 = [.write (s.clients i).ssl (registerErrorFrame message)])

/-- The effects of a successful registration. -/
def registrationEffects (s : Server) (i : Slot) (nick token ip : Bytes) : List Effect :=
  [.write (s.clients i).ssl
    (snprintf 512 (registerSuccessFrame nick token (s.clients i).securityLevel)),
    .audit (ascii "USER_REGISTER") nick ip (ascii "New user registered successfully")]

theorem RegistrationRefused.of_eq {s : Server} {i : Slot} {r : Server × List Effect}
    (message : String) (hm : ascii message ∈ registrationErrors)
    (h : r = (s, [.write (s.clients i).ssl (registerErrorFrame (ascii message))])) :
    RegistrationRefused s i r := by
  subst h
  exact ⟨rfl, .inr ⟨_, hm, rfl⟩⟩

theorem processRegistration_cases (s : Server) (env : Env) (i : Slot) (ip command : Bytes) :
    RegistrationRefused s i (processRegistration s env i ip command) ∨
    (∃ nick token users, parseRegister command = some nick ∧ validateNickname nick = true ∧
      generateSecureToken (tokenLength + 1) env.random = some token ∧
      s.users.insert nick token ip (s.clients i).regId (s.clients i).publicKey
        (s.clients i).securityLevel = some users ∧
      processRegistration s env i ip command =
        ({ s with users := users }, registrationEffects s i nick token ip)) := by
  cases hparse : parseRegister command with
  | none => exact .inl (.of_eq "Invalid nickname" (by simp [registrationErrors])
      (by simp [processRegistration, hparse]))
  | some nick =>
    cases hvalid : validateNickname nick with
    | false => exact .inl (.of_eq "Invalid nickname" (by simp [registrationErrors])
        (by simp [processRegistration, hparse, hvalid]))
    | true =>
      cases hexists : checkNicknameExists s env nick with
      | true => exact .inl (.of_eq "Nickname already exists" (by simp [registrationErrors])
          (by simp [processRegistration, hparse, hvalid, hexists]))
      | false =>
        cases htoken : generateSecureToken (tokenLength + 1) env.random with
        | none =>
          refine .inl ⟨?_, .inl ?_⟩ <;>
            simp [processRegistration, hparse, hvalid, hexists, htoken]
        | some token =>
          cases hsave : saveUserToDatabase s env i nick token ip with
          | none => exact .inl (.of_eq "Database error" (by simp [registrationErrors])
              (by simp [processRegistration, hparse, hvalid, hexists, htoken, hsave]))
          | some users =>
            refine .inr ⟨nick, token, users, rfl, hvalid, rfl, ?_,
              by simp [processRegistration, hparse, hvalid, hexists, htoken, hsave,
                registrationEffects]⟩
            unfold saveUserToDatabase at hsave
            split_ifs at hsave
            exact hsave

/-! ### Messages -/

/-- A write to a client or a row of `secure_messages`. -/
def Effect.IsMessage : Effect → Prop
  | .write _ _ => True
  | .save _ => True
  | .close _ => False
  | .audit _ _ _ _ => False

theorem isMessage_saveMessage {env : Env} {sender target data : Bytes} :
    ∀ e ∈ saveMessage env sender target data, e.IsMessage := by
  intro e he
  unfold saveMessage at he
  split_ifs at he
  · rw [List.mem_singleton.1 he]
    trivial
  · exact absurd he (by simp)

theorem isMessage_broadcastMessage {s : Server} {env : Env} {sender message : Bytes} :
    ∀ e ∈ broadcastMessage s env sender message, e.IsMessage := by
  intro e he
  rcases List.mem_append.1 he with he | he
  · exact isMessage_saveMessage e he
  · obtain ⟨i, -, rfl⟩ := List.mem_map.1 he
    trivial

theorem isMessage_sendPrivateMessage {s : Server} {env : Env} {sender target message : Bytes} :
    ∀ e ∈ sendPrivateMessage s env sender target message, e.IsMessage := by
  intro e he
  unfold sendPrivateMessage at he
  cases hfind : findClientByNick s target with
  | none => simp [hfind] at he
  | some i =>
    simp only [hfind] at he
    rcases List.mem_append.1 he with he | he
    · exact isMessage_saveMessage e he
    · split_ifs at he
      · rw [List.mem_singleton.1 he]
        trivial
      · exact absurd he (by simp)

/-- The commands of an authorised client only send. -/
theorem isMessage_handleAuthorizedCommands {C : Crypto} {s : Server} {env : Env} {i : Slot}
    {command : Bytes} : ∀ e ∈ handleAuthorizedCommands C s env i command, e.IsMessage := by
  intro e he
  unfold handleAuthorizedCommands at he
  split_ifs at he
  · rw [List.mem_singleton.1 he]
    trivial
  · unfold handlePrivateMessage at he
    cases hparse : parseMsg command with
    | none => simp [hparse] at he
    | some p =>
      simp only [hparse] at he
      split_ifs at he
      · exact isMessage_sendPrivateMessage e he
      · exact absurd he (by simp)
  · unfold handleEncryptedMessage at he
    split at he
    · exact absurd he (by simp)
    · split at he
      · exact absurd he (by simp)
      · split at he
        · exact absurd he (by simp)
        · rw [List.mem_singleton.1 he]
          trivial
  · exact isMessage_broadcastMessage e he
  · exact absurd he (by simp)

/-! ### Elementary changes -/

/-- `c'` differs from `c` only in fields that no other session can observe and
that say nothing about who is logged in. -/
structure Refreshes (c c' : SecureClient) : Prop where
  fd : c'.fd = c.fd
  ssl : c'.ssl = c.ssl
  nick : c'.nick = c.nick
  token : c'.token = c.token
  authorized : c'.authorized = c.authorized
  account : c'.account = c.account

/-- The state after `handle_new_connection` put a connection into slot `i`. -/
def accepted (s : Server) (i : Slot) (fd : ℕ) (addr : SockAddr) (now : ℤ) : Server :=
  { s.setClient i (newClient fd s.totalConnections addr now) with
    handlers := s.handlers ++ [⟨s.totalConnections, i, [], .starting⟩]
    totalConnections := s.totalConnections + 1 }

theorem handleNewConnection_cases (s : Server) (fd : ℕ) (addr : SockAddr) (now : ℤ)
    (handshake : Handshake) :
    (∃ i, freeSlot s = some i ∧ handshake = .success ∧
      handleNewConnection s fd addr now handshake = (accepted s i fd addr now, [])) ∨
    handleNewConnection s fd addr now handshake = (s, [.close fd]) := by
  unfold handleNewConnection
  cases freeSlot s with
  | none => exact .inr rfl
  | some i =>
    simp only
    split_ifs with hfail
    · exact .inr rfl
    · exact .inl ⟨i, rfl, not_not.1 hfail, rfl⟩

theorem handler?_eq_some {s : Server} {conn : Conn} {phase : Phase} {h : Handler}
    (hh : s.handler? conn phase = some h) :
    h ∈ s.handlers ∧ h.conn = conn ∧ h.phase = phase := by
  have hp := List.find?_some hh
  simp only [Bool.and_eq_true, beq_iff_eq] at hp
  exact ⟨List.mem_of_find?_eq_some hh, hp.1, hp.2⟩

inductive Move (s : Server) : Server → Prop
  | phase (conn : Conn) (ip : Bytes) (phase : Phase) : Move s (s.setHandler conn ip phase)
  | refresh (i : Slot) {c : SecureClient} (hc : Refreshes (s.clients i) c) :
      Move s (s.setClient i c)
  | register {nick token ip key : Bytes} {regId : ℕ} {level : ℤ} {users : SecureUsers}
      (hvalid : validateNickname nick = true) (hword : IsWord 31 nick)
      (hinsert : s.users.insert nick token ip regId key level = some users) :
      Move s { s with users := users }
  | login {i : Slot} {nick token : Bytes} {row : UserRow} (env : Env)
      (hauth : (s.clients i).authorized = false) (hword : IsWord 31 nick)
      (hfind : s.users.findUnlocked nick = some row) : Move s (loggedIn s env i row nick token)
  | exit {h : Handler} (hh : h ∈ s.handlers) :
      Move s { s.setClient h.slot (s.clients h.slot).cleaned with
        handlers := s.handlers.filter fun h' => h'.conn != h.conn }
  | sweep (now : ℤ) : Move s (checkClientTimeouts s now).1

abbrev Moves : Server → Server → Prop := Relation.ReflTransGen Move

theorem Move.moves {s s' : Server} (h : Move s s') : Moves s s' := .single h

theorem initClientSignalProtocol_refreshes (C : Crypto) (c : SecureClient) (env : StartEnv) :
    Refreshes c (initClientSignalProtocol C c env).1 := by
  have hc : Refreshes c c := ⟨rfl, rfl, rfl, rfl, rfl, rfl⟩
  unfold initClientSignalProtocol
  cases env.storeOk with
  | false => exact hc
  | true =>
    cases env.identityOk with
    | false => exact hc
    | true =>
      cases env.regId with
      | none => exact hc
      | some r =>
        cases env.sessionKey with
        | none => exact ⟨rfl, rfl, rfl, rfl, rfl, rfl⟩
        | some k => cases env.chachaOk <;> exact ⟨rfl, rfl, rfl, rfl, rfl, rfl⟩

/-- The client with the identifiers of its session. -/
def SecureClient.identified (c : SecureClient) (env : StartEnv) : SecureClient :=
  { c with
    peerId := peerIdOf env.now env.pid
    sessionId := sessionIdOf env.sessionNow env.pid }

theorem Refreshes.identified {c c' : SecureClient} (h : Refreshes c c') (env : StartEnv) :
    Refreshes c (c'.identified env) := ⟨h.fd, h.ssl, h.nick, h.token, h.authorized, h.account⟩

/-- A prologue fails before the identifiers, fails after them, or enters the loop. -/
theorem handlerPrologue_cases (C : Crypto) (s : Server) (h : Handler) (env : StartEnv) :
    let ip := inetNtop (s.clients h.slot).addr
    let r := initClientSignalProtocol C (s.clients h.slot) env
    (r.2 = false ∧ handlerPrologue C s h env =
      ((s.setClient h.slot r.1).setHandler h.conn ip .exiting, [])) ∨
    (r.2 = true ∧ handlerPrologue C s h env =
      ((s.setClient h.slot (r.1.identified env)).setHandler h.conn ip .exiting, [])) ∨
    (r.2 = true ∧ handlerPrologue C s h env =
      ((s.setClient h.slot (r.1.identified env)).setHandler h.conn ip .looping,
        [.write (r.1.identified env).ssl welcomeFrame,
          .audit (ascii "CLIENT_CONNECT") (ascii "unknown") ip
            (ascii "New client connection established")])) := by
  unfold handlerPrologue
  simp only
  generalize initClientSignalProtocol C (s.clients h.slot) env = r
  obtain ⟨client, ok⟩ := r
  cases ok with
  | false => exact .inl ⟨rfl, rfl⟩
  | true =>
    cases env.sessionTokenOk with
    | false => exact .inr (.inl ⟨rfl, rfl⟩)
    | true => exact .inr (.inr ⟨rfl, rfl⟩)

/-- What a prologue does to the handlers, and that it leaves the sessions alone. -/
theorem handlerPrologue_handlers (C : Crypto) (s : Server) (h : Handler) (env : StartEnv) :
    let s' := (handlerPrologue C s h env).1
    (∃ ip phase, phase ≠ .starting ∧
      ((initClientSignalProtocol C (s.clients h.slot) env).2 = false → phase = .exiting) ∧
      s'.handlers = (s.setHandler h.conn ip phase).handlers) ∧
    s'.totalConnections = s.totalConnections ∧
    ∀ i, (s'.clients i).authorized = (s.clients i).authorized ∧
      (s'.clients i).ssl = (s.clients i).ssl := by
  have hinit := initClientSignalProtocol_refreshes C (s.clients h.slot) env
  have hset {c : SecureClient} (hc : Refreshes (s.clients h.slot) c) (i : Slot) :
      ((s.setClient h.slot c).clients i).authorized = (s.clients i).authorized ∧
        ((s.setClient h.slot c).clients i).ssl = (s.clients i).ssl :=
    ⟨setClient_field hc.authorized i, setClient_field hc.ssl i⟩
  rcases handlerPrologue_cases C s h env with ⟨-, heq⟩ | ⟨-, heq⟩ | ⟨hok, heq⟩ <;> rw [heq]
  · exact ⟨⟨_, .exiting, by simp, fun _ => rfl, rfl⟩, rfl, hset hinit⟩
  · exact ⟨⟨_, .exiting, by simp, fun _ => rfl, rfl⟩, rfl, hset (hinit.identified env)⟩
  · exact ⟨⟨_, .looping, by simp, fun hfail => absurd hfail (by simp [hok]), rfl⟩, rfl,
      hset (hinit.identified env)⟩

theorem handlerPrologue_moves (C : Crypto) (s : Server) (h : Handler) (env : StartEnv) :
    Moves s (handlerPrologue C s h env).1 := by
  have hinit := initClientSignalProtocol_refreshes C (s.clients h.slot) env
  rcases handlerPrologue_cases C s h env with ⟨-, heq⟩ | ⟨-, heq⟩ | ⟨-, heq⟩ <;> rw [heq]
  · exact (Move.refresh h.slot hinit).moves.tail (.phase _ _ _)
  · exact (Move.refresh h.slot (hinit.identified env)).moves.tail (.phase _ _ _)
  · exact (Move.refresh h.slot (hinit.identified env)).moves.tail (.phase _ _ _)

theorem processClientCommand_moves (C : Crypto) (s : Server) (env : Env) (i : Slot)
    (ip command : Bytes) : Moves s (processClientCommand C s env i ip command).1 := by
  unfold processClientCommand handleUnauthorizedCommands
  split_ifs with hauth
  · rcases processRegistration_cases s env i ip command with h | ⟨n, t, U, hp, hv, -, hins, h⟩
    · rw [h.1]
    · rw [h]
      exact (Move.register hv (parseRegister_eq_some hp).1 hins).moves
  · rcases processLogin_cases s env i ip command with
      ⟨-, h⟩ | ⟨n, t, -, -, h⟩ | ⟨n, t, row, hp, -, -, hfind, -, h⟩
    · rw [h]
    · rw [h]
    · rw [h]
      exact (Move.login env (by simpa using hauth) (parseLogin_eq_some hp).1.1 hfind).moves
  · exact .refl
  · exact .refl
  · exact .refl

/-- A field other than the clock and the rate window is as it was after a read. -/
theorem noteActivity_field {α : Type} {f : SecureClient → α}
    (hf : ∀ (c : SecureClient) (t : ℤ) (r : RateLimit),
      f { c with lastActivity := t, rateLimit := r } = f c)
    (s : Server) (i : Slot) (now : ℤ) (j : Slot) :
    f ((s.noteActivity i now).clients j) = f (s.clients j) :=
  setClient_field (hf _ _ _) j

theorem noteActivity_refreshes (s : Server) (i : Slot) (now : ℤ) (j : Slot) :
    Refreshes (s.clients j) ((s.noteActivity i now).clients j) := by
  unfold Server.noteActivity
  by_cases hj : j = i
  · subst hj
    rw [setClient_self]
    exact ⟨rfl, rfl, rfl, rfl, rfl, rfl⟩
  · rw [setClient_ne _ _ _ hj]
    exact ⟨rfl, rfl, rfl, rfl, rfl, rfl⟩

theorem findClientByNick_noteActivity (s : Server) (i : Slot) (now : ℤ) (nick : Bytes) :
    findClientByNick (s.noteActivity i now) nick = findClientByNick s nick := by
  unfold findClientByNick SecureClient.online
  congr 1
  funext j
  have h := noteActivity_refreshes s i now j
  rw [h.fd, h.authorized, h.nick]

@[simp] theorem noteActivity_users (s : Server) (i : Slot) (now : ℤ) :
    (s.noteActivity i now).users = s.users := rfl

@[simp] theorem noteActivity_handlers (s : Server) (i : Slot) (now : ℤ) :
    (s.noteActivity i now).handlers = s.handlers := rfl

theorem noteActivity_moves (s : Server) (i : Slot) (now : ℤ) : Moves s (s.noteActivity i now) := by
  refine (Move.refresh i ?_).moves
  exact ⟨rfl, rfl, rfl, rfl, rfl, rfl⟩

/-- An iteration ends the loop, does nothing, is refused by the rate limit, reads
a buffer without a command, or runs a command. -/
theorem handlerIteration_cases (C : Crypto) (s : Server) (h : Handler) (env : Env)
    (read : ReadResult) :
    handlerIteration C s h env read = (s.setHandler h.conn h.ip .exiting, []) ∨
    handlerIteration C s h env read = (s, []) ∨
    (s.withinLimit h.slot env.now = false ∧ handlerIteration C s h env read =
      (s.noteActivity h.slot env.now, [.write (s.clients h.slot).ssl rateLimitFrame])) ∨
    handlerIteration C s h env read = (s.noteActivity h.slot env.now, []) ∨
    ∃ buffer hne hlt command, read = .bytes buffer hne hlt ∧ 0 ≤ (s.clients h.slot).fd ∧
      s.withinLimit h.slot env.now = true ∧ commandOf buffer = some command ∧
      handlerIteration C s h env read =
        processClientCommand C (s.noteActivity h.slot env.now) env h.slot h.ip command := by
  unfold handlerIteration
  by_cases hfd : (s.clients h.slot).fd < 0
  · exact .inl (if_pos hfd)
  · simp only [hfd, if_false]
    cases read with
    | error => exact .inl rfl
    | zero =>
      by_cases ht : env.now - (s.clients h.slot).lastActivity > connectionTimeout
      · exact .inl (if_pos ht)
      · exact .inr (.inl (if_neg ht))
    | bytes buffer hne hlt =>
      right; right
      unfold handleBuffer
      cases hallowed : s.withinLimit h.slot env.now with
      | false => exact .inl ⟨rfl, rfl⟩
      | true =>
        cases hcommand : commandOf buffer with
        | none => exact .inr (.inl (by simp [hcommand]))
        | some command =>
          exact .inr (.inr ⟨buffer, hne, hlt, command, rfl, by omega, rfl, hcommand,
            by simp [hcommand]⟩)

/-- A command that is read within the rate limit is run. -/
theorem handlerIteration_command (C : Crypto) {s : Server} {h : Handler} {env : Env}
    {buffer command : Bytes} (hne : buffer ≠ []) (hlt : buffer.length < bufferSize)
    (hfd : 0 ≤ (s.clients h.slot).fd) (hlimit : s.withinLimit h.slot env.now = true)
    (hcommand : commandOf buffer = some command) :
    handlerIteration C s h env (.bytes buffer hne hlt) =
      processClientCommand C (s.noteActivity h.slot env.now) env h.slot h.ip command := by
  unfold handlerIteration handleBuffer
  simp [not_lt.2 hfd, hlimit, hcommand]

/-- The state a command leaves: another table of users, or a login of its own slot. -/
theorem processClientCommand_state (C : Crypto) (s : Server) (env : Env) (i : Slot)
    (ip command : Bytes) :
    let s' := (processClientCommand C s env i ip command).1
    (∃ users, s' = { s with users := users }) ∨
    ((s.clients i).authorized = false ∧ ∃ row nick token,
      s' = loggedIn s env i row nick token) := by
  have hsame : ∃ users, s = { s with users := users } := ⟨s.users, rfl⟩
  unfold processClientCommand handleUnauthorizedCommands
  split_ifs with hauth
  · rcases processRegistration_cases s env i ip command with h | ⟨n, t, U, -, -, -, -, h⟩
    · rw [h.1]
      exact .inl hsame
    · rw [h]
      exact .inl ⟨U, rfl⟩
  · rcases processLogin_cases s env i ip command with
      ⟨-, h⟩ | ⟨n, t, -, -, h⟩ | ⟨n, t, row, -, -, -, -, -, h⟩ <;> rw [h]
    · exact .inl hsame
    · exact .inl hsame
    · exact .inr ⟨by simpa using hauth, row, n, t, rfl⟩
  · exact .inl hsame
  · exact .inl hsame
  · exact .inl hsame

/-- The state an iteration leaves. -/
theorem handlerIteration_state (C : Crypto) (s : Server) (h : Handler) (env : Env)
    (read : ReadResult) :
    let s' := (handlerIteration C s h env read).1
    s' = s.setHandler h.conn h.ip .exiting ∨ s' = s ∨
    (∃ users, s' = { s.noteActivity h.slot env.now with users := users }) ∨
    (0 ≤ (s.clients h.slot).fd ∧ (s.clients h.slot).authorized = false ∧ ∃ row nick token,
      s' = loggedIn (s.noteActivity h.slot env.now) env h.slot row nick token) := by
  have hnote : ∃ users, s.noteActivity h.slot env.now =
      { s.noteActivity h.slot env.now with users := users } := ⟨_, rfl⟩
  rcases handlerIteration_cases C s h env read with
    heq | heq | ⟨-, heq⟩ | heq | ⟨_, _, _, command, -, hfd, -, -, heq⟩ <;> rw [heq]
  · exact .inl rfl
  · exact .inr (.inl rfl)
  · exact .inr (.inr (.inl hnote))
  · exact .inr (.inr (.inl hnote))
  · right; right
    rcases processClientCommand_state C (s.noteActivity h.slot env.now) env h.slot h.ip command with
      husers | ⟨hun, hlogin⟩
    · exact .inl husers
    · exact .inr ⟨hfd, (noteActivity_refreshes s h.slot env.now h.slot).authorized ▸ hun, hlogin⟩

theorem handlerIteration_moves (C : Crypto) (s : Server) (h : Handler) (env : Env)
    (read : ReadResult) : Moves s (handlerIteration C s h env read).1 := by
  rcases handlerIteration_cases C s h env read with
    heq | heq | ⟨-, heq⟩ | heq | ⟨_, _, _, command, -, -, -, -, heq⟩ <;> rw [heq]
  · exact (Move.phase _ _ _).moves
  · exact noteActivity_moves _ _ _
  · exact noteActivity_moves _ _ _
  · exact (noteActivity_moves _ _ _).trans (processClientCommand_moves C _ env _ _ _)

theorem step_cases (C : Crypto) (s : Server) (e : Event) :
    (∃ i fd addr now, freeSlot s = some i ∧ e = .connect fd addr now .success ∧
      step C s e = (accepted s i fd addr now, [])) ∨
    Moves s (step C s e).1 := by
  cases e with
  | connect fd addr now handshake =>
    unfold step handleNewConnection
    cases hfree : freeSlot s with
    | none => exact .inr .refl
    | some i =>
      cases handshake with
      | success => exact .inl ⟨i, fd, addr, now, rfl, rfl, rfl⟩
      | wantRead => exact .inr .refl
      | wantWrite => exact .inr .refl
      | failed => exact .inr .refl
  | start conn env =>
    right
    simp only [step]
    cases s.handler? conn .starting with
    | none => exact .refl
    | some h => exact handlerPrologue_moves C s h env
  | iterate conn env read =>
    right
    simp only [step]
    cases s.handler? conn .looping with
    | none => exact .refl
    | some h => exact handlerIteration_moves C s h env read
  | exit conn env =>
    right
    simp only [step]
    cases hh : s.handler? conn .exiting with
    | none => exact .refl
    | some h => exact (Move.exit (List.mem_of_find?_eq_some hh)).moves
  | sweep now => exact .inr (Move.sweep now).moves

/-! ### Induction -/

theorem Moves.preserve {I : Server → Prop} (hmove : ∀ s s', I s → Move s s' → I s')
    {s s' : Server} (h : Moves s s') (hs : I s) : I s' := by
  induction h with
  | refl => exact hs
  | tail _ hm ih => exact hmove _ _ ih hm

theorem step_preserve {I : Server → Prop} (C : Crypto)
    (haccept : ∀ s i fd addr now, I s → freeSlot s = some i → I (accepted s i fd addr now))
    (hmove : ∀ s s', I s → Move s s' → I s') {s : Server} (hs : I s) (e : Event) :
    I (step C s e).1 := by
  rcases step_cases C s e with ⟨i, fd, addr, now, hfree, -, h⟩ | h
  · rw [h]
    exact haccept s i fd addr now hs hfree
  · exact Moves.preserve hmove h hs

theorem Reachable.of_moves {I : Server → Prop} {C : Crypto} {users : SecureUsers} {s : Server}
    (h : Reachable C users s) (hinit : I (Server.init users))
    (haccept : ∀ s i fd addr now, I s → freeSlot s = some i → I (accepted s i fd addr now))
    (hmove : ∀ s s', I s → Move s s' → I s') : I s :=
  h.invariant hinit fun _ e hs => step_preserve C haccept hmove hs e

end Mesh
