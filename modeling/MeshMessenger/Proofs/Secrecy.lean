import MeshMessenger.Proofs.Invariants

/-! Statements about two runs: what the text of a private message and the token of
a login line can change in the bytes that other clients receive. -/

namespace Mesh

open CLib

/-! ### The text of a private message -/

theorem writtenTo_sendPrivateMessage {s : Server} {target : Bytes} {c : Conn}
    (hc : ∀ i, findClientByNick s target = some i → (s.clients i).ssl ≠ some c)
    (env : Env) (sender message : Bytes) :
    writtenTo c (sendPrivateMessage s env sender target message) = [] := by
  unfold sendPrivateMessage
  cases hfind : findClientByNick s target with
  | none => rfl
  | some i =>
    have hssl := hc i hfind
    simp only [writtenTo_append, writtenTo_saveMessage, List.nil_append]
    split
    · rw [writtenTo_write, if_neg hssl]
    · rfl

/-- A `/msg` command leaves the state alone, and what it writes to anyone but the
session it selects does not depend on its text. -/
theorem processClientCommand_msg (C : Crypto) {s : Server} (env : Env) (i : Slot) (ip : Bytes)
    {command target text : Bytes} (hparse : parseMsg command = some (target, text)) {c : Conn}
    (hc : ∀ i, findClientByNick s target = some i → (s.clients i).ssl ≠ some c) :
    (processClientCommand C s env i ip command).1 = s ∧
      writtenTo c (processClientCommand C s env i ip command).2 =
        if (s.clients i).authorized then []
        else writtenTo c [.write (s.clients i).ssl authRequiredFrame] := by
  have hpre := (parseTargeted_eq_some hparse).2.2
  unfold processClientCommand
  cases (s.clients i).authorized with
  | false =>
    rw [handleUnauthorizedCommands_msg s env i ip hpre]
    exact ⟨rfl, rfl⟩
  | true =>
    rw [handleAuthorizedCommands_msg C s env i hpre]
    refine ⟨rfl, ?_⟩
    simp only [Bool.not_true, Bool.false_eq_true, if_false, if_true, handlePrivateMessage, hparse]
    split
    · exact writtenTo_sendPrivateMessage hc env _ _
    · rfl

/-- The two iterations end in the same state and give the same bytes to `c`. -/
theorem handlerIteration_msg {C : Crypto} {s : Server} {h : Handler} {env : Env}
    {buffer buffer' target text text' : Bytes}
    (hmsg : (commandOf buffer).bind parseMsg = some (target, text))
    (hmsg' : (commandOf buffer').bind parseMsg = some (target, text')) {hne hlt hne' hlt'}
    {c : Conn} (hc : ∀ i, findClientByNick s target = some i → (s.clients i).ssl ≠ some c) :
    (handlerIteration C s h env (.bytes buffer hne hlt)).1 =
        (handlerIteration C s h env (.bytes buffer' hne' hlt')).1 ∧
      writtenTo c (handlerIteration C s h env (.bytes buffer hne hlt)).2 =
        writtenTo c (handlerIteration C s h env (.bytes buffer' hne' hlt')).2 := by
  obtain ⟨command, hcommand, hparse⟩ := Option.bind_eq_some_iff.1 hmsg
  obtain ⟨command', hcommand', hparse'⟩ := Option.bind_eq_some_iff.1 hmsg'
  by_cases hfd : 0 ≤ (s.clients h.slot).fd
  · cases hlimit : s.withinLimit h.slot env.now with
    | false => simp [handlerIteration, handleBuffer, hlimit]
    | true =>
      have hc' : ∀ i, findClientByNick (s.noteActivity h.slot env.now) target = some i →
          ((s.noteActivity h.slot env.now).clients i).ssl ≠ some c := by
        intro i hi
        rw [findClientByNick_noteActivity] at hi
        rw [(noteActivity_refreshes s h.slot env.now i).ssl]
        exact hc i hi
      rw [handlerIteration_command C hne hlt hfd hlimit hcommand,
        handlerIteration_command C hne' hlt' hfd hlimit hcommand']
      obtain ⟨hs, hw⟩ := processClientCommand_msg C env h.slot h.ip hparse hc'
      obtain ⟨hs', hw'⟩ := processClientCommand_msg C env h.slot h.ip hparse' hc'
      exact ⟨hs.trans hs'.symm, hw.trans hw'.symm⟩
  · simp [handlerIteration, not_le.1 hfd]

/-- Two runs that differ in the text of one `/msg` line only give the same bytes to
every connection but that of the session `find_client_by_nick` selects for it. -/
theorem private_text_secret (C : Crypto) (users : SecureUsers) (before after : List Event)
    (conn : Conn) (env : Env) {s : Server} (hs : s = (run C (Server.init users) before).1)
    {buffer buffer' target text text' : Bytes}
    (hmsg : (commandOf buffer).bind parseMsg = some (target, text))
    (hmsg' : (commandOf buffer').bind parseMsg = some (target, text'))
    {hne : buffer ≠ []} {hlt : buffer.length < bufferSize}
    {hne' : buffer' ≠ []} {hlt' : buffer'.length < bufferSize} (c : Conn)
    (hc : ∀ i, findClientByNick s target = some i → (s.clients i).ssl ≠ some c) :
    writtenTo c (run C (Server.init users)
        (before ++ .iterate conn env (.bytes buffer hne hlt) :: after)).2 =
      writtenTo c (run C (Server.init users)
        (before ++ .iterate conn env (.bytes buffer' hne' hlt') :: after)).2 := by
  have hstep : (step C s (.iterate conn env (.bytes buffer hne hlt))).1 =
        (step C s (.iterate conn env (.bytes buffer' hne' hlt'))).1 ∧
      writtenTo c (step C s (.iterate conn env (.bytes buffer hne hlt))).2 =
        writtenTo c (step C s (.iterate conn env (.bytes buffer' hne' hlt'))).2 := by
    simp only [step]
    cases s.handler? conn .looping with
    | none => exact ⟨rfl, rfl⟩
    | some h => exact handlerIteration_msg hmsg hmsg' hc
  simp only [run, Runs.run_append, Runs.run_cons, ← hs, writtenTo_append, hstep.1, hstep.2]

/-- `ann` sends herself a private message, and `bob` receives the same bytes whatever it says. -/
theorem private_text_secret_bob :
    writtenTo 1 (run Sample.crypto (Server.init SecureUsers.empty)
        (Sample.chat ++ .iterate 0 (Sample.env 1004 0)
          (.bytes (ascii "/msg ann I like tea\n") (by decide) (by decide)) ::
            [.iterate 1 (Sample.env 1005 0) (Sample.line "hello")])).2 =
      writtenTo 1 (run Sample.crypto (Server.init SecureUsers.empty)
        (Sample.chat ++ .iterate 0 (Sample.env 1004 0)
          (.bytes (ascii "/msg ann no\n") (by decide) (by decide)) ::
            [.iterate 1 (Sample.env 1005 0) (Sample.line "hello")])).2 := by
  have hmsg : (commandOf (ascii "/msg ann I like tea\n")).bind parseMsg =
      some (ascii "ann", ascii "I like tea") := by decide
  have hmsg' : (commandOf (ascii "/msg ann no\n")).bind parseMsg =
      some (ascii "ann", ascii "no") := by decide
  apply private_text_secret Sample.crypto SecureUsers.empty Sample.chat _ 0 _ rfl hmsg hmsg' 1
  decide +kernel

/-! ### The token of a login line

The only place a token reaches is the `token` field of the slot that logs in, so
two states that agree up to these fields behave alike. -/

def SecureClient.eraseToken (c : SecureClient) : SecureClient := { c with token := [] }

def Server.eraseTokens (s : Server) : Server :=
  { s with clients := fun i => (s.clients i).eraseToken }

/-- `r'` has the effects of `r` and its state up to tokens. -/
structure SameButTokens (r r' : Server × List Effect) : Prop where
  effects : r.2 = r'.2
  state : r.1.eraseTokens = r'.1.eraseTokens

section erasure

@[simp] theorem eraseToken_ssl (c : SecureClient) : c.eraseToken.ssl = c.ssl := rfl

@[simp] theorem eraseToken_nick (c : SecureClient) : c.eraseToken.nick = c.nick := rfl

@[simp] theorem eraseToken_sessionKey (c : SecureClient) :
    c.eraseToken.sessionKey = c.sessionKey := rfl

@[simp] theorem eraseToken_online (c : SecureClient) : c.eraseToken.online = c.online := rfl

variable (C : Crypto) (s : Server) (env : Env) (i : Slot)

@[simp] theorem eraseTokens_clients : s.eraseTokens.clients i = (s.clients i).eraseToken := rfl

@[simp] theorem eraseTokens_users : s.eraseTokens.users = s.users := rfl

@[simp] theorem eraseTokens_peers : s.eraseTokens.peers = s.peers := rfl

@[simp] theorem eraseTokens_eraseTokens : s.eraseTokens.eraseTokens = s.eraseTokens := rfl

theorem eraseTokens_setClient (c : SecureClient) :
    (s.setClient i c).eraseTokens = s.eraseTokens.setClient i c.eraseToken := by
  unfold Server.eraseTokens Server.setClient
  congr 1
  funext j
  by_cases hj : j = i
  · subst hj; simp
  · simp [hj]

theorem setClient_sameButTokens {c c' : SecureClient} (h : c.eraseToken = c'.eraseToken) :
    (s.setClient i c).eraseTokens = (s.eraseTokens.setClient i c').eraseTokens := by
  rw [eraseTokens_setClient, eraseTokens_setClient, eraseTokens_eraseTokens, h]

theorem eraseTokens_updateLastLogin (nick : Bytes) :
    (updateLastLogin s env nick).eraseTokens = updateLastLogin s.eraseTokens env nick := by
  unfold updateLastLogin
  split <;> rfl

theorem eraseTokens_addPeerToNetwork (id : Bytes) (addr : SockAddr) (key : Bytes) :
    (addPeerToNetwork s env id addr key).eraseTokens =
      addPeerToNetwork s.eraseTokens env id addr key := by
  by_cases h : s.peers.length ≥ maxClients
  · simp only [addPeerToNetwork, eraseTokens_peers, h, if_true]
  · simp only [addPeerToNetwork, eraseTokens_peers, h, if_false]
    rfl

theorem eraseTokens_noteActivity (now : ℤ) :
    (s.noteActivity i now).eraseTokens = s.eraseTokens.noteActivity i now :=
  eraseTokens_setClient _ _ _

theorem eraseTokens_checkClientTimeouts (now : ℤ) :
    (checkClientTimeouts s now).1.eraseTokens = (checkClientTimeouts s.eraseTokens now).1 := by
  unfold checkClientTimeouts Server.eraseTokens
  congr 1
  funext j
  have hsame : timedOut now (s.clients j).eraseToken = timedOut now (s.clients j) := rfl
  simp only [hsame]
  split_ifs <;> rfl

theorem initClientSignalProtocol_eraseToken (c : SecureClient) (env : StartEnv) :
    initClientSignalProtocol C c.eraseToken env =
      ((initClientSignalProtocol C c env).1.eraseToken, (initClientSignalProtocol C c env).2) := by
  unfold initClientSignalProtocol
  cases env.storeOk with
  | false => rfl
  | true =>
    cases env.identityOk with
    | false => rfl
    | true =>
      cases env.regId with
      | none => rfl
      | some r =>
        cases env.sessionKey with
        | none => rfl
        | some k => cases env.chachaOk <;> rfl

theorem authenticateUser_eraseTokens (nick token : Bytes) :
    authenticateUser s.eraseTokens env i nick token =
      ((authenticateUser s env i nick token).1.eraseTokens,
        (authenticateUser s env i nick token).2) := by
  simp only [authenticateUser, eraseTokens_users]
  cases env.selectOk with
  | false => rfl
  | true =>
    cases s.users.findUnlocked nick with
    | none => rfl
    | some row =>
      cases hcmp : constantTimeCompare (stored row.token) (stored token) token.length with
      | false => simp [hcmp]
      | true =>
        simp only [hcmp, Bool.not_true, Bool.false_eq_true, if_true, if_false,
          eraseTokens_updateLastLogin, eraseTokens_setClient]
        rfl

theorem broadcastMessage_eraseTokens (sender message : Bytes) :
    broadcastMessage s.eraseTokens env sender message = broadcastMessage s env sender message :=
  rfl

theorem sendOnlineUsers_eraseTokens : sendOnlineUsers s.eraseTokens i = sendOnlineUsers s i := rfl

theorem findClientByNick_eraseTokens (nick : Bytes) :
    findClientByNick s.eraseTokens nick = findClientByNick s nick := rfl

theorem sendPrivateMessage_eraseTokens (sender target message : Bytes) :
    sendPrivateMessage s.eraseTokens env sender target message =
      sendPrivateMessage s env sender target message := by
  unfold sendPrivateMessage
  rw [findClientByNick_eraseTokens]
  cases findClientByNick s target <;> rfl

theorem handlePrivateMessage_eraseTokens (command : Bytes) :
    handlePrivateMessage s.eraseTokens env i command = handlePrivateMessage s env i command := by
  unfold handlePrivateMessage
  cases parseMsg command with
  | none => rfl
  | some p => simp only [sendPrivateMessage_eraseTokens, eraseTokens_clients, eraseToken_nick]

theorem handleEncryptedMessage_eraseTokens (command : Bytes) :
    handleEncryptedMessage C s.eraseTokens env i command =
      handleEncryptedMessage C s env i command := by
  unfold handleEncryptedMessage encryptMessageForUser
  cases parseSendEnc command with
  | none => rfl
  | some p =>
    simp only [findClientByNick_eraseTokens, eraseTokens_clients, eraseToken_ssl, eraseToken_nick,
      eraseToken_sessionKey]

theorem handleAuthorizedCommands_eraseTokens (command : Bytes) :
    handleAuthorizedCommands C s.eraseTokens env i command =
      handleAuthorizedCommands C s env i command := by
  simp only [handleAuthorizedCommands, sendOnlineUsers_eraseTokens,
    handlePrivateMessage_eraseTokens, handleEncryptedMessage_eraseTokens,
    broadcastMessage_eraseTokens, eraseTokens_clients, eraseToken_nick]

theorem processRegistration_eraseTokens (ip command : Bytes) :
    processRegistration s.eraseTokens env i ip command =
      ((processRegistration s env i ip command).1.eraseTokens,
        (processRegistration s env i ip command).2) := by
  have hexists (nick : Bytes) :
      checkNicknameExists s.eraseTokens env nick = checkNicknameExists s env nick := rfl
  have hsave (nick token : Bytes) :
      saveUserToDatabase s.eraseTokens env i nick token ip =
        saveUserToDatabase s env i nick token ip := rfl
  unfold processRegistration
  simp only [hexists, hsave]
  cases parseRegister command with
  | none => rfl
  | some nick =>
    cases hvalid : validateNickname nick with
    | false => simp [hvalid, SecureClient.eraseToken]
    | true =>
      cases hex : checkNicknameExists s env nick with
      | true => simp [hvalid, hex, SecureClient.eraseToken]
      | false =>
        cases htoken : generateSecureToken (tokenLength + 1) env.random with
        | none => simp [hvalid, hex]
        | some token =>
          cases hins : saveUserToDatabase s env i nick token ip with
          | none => simp [hvalid, hex, hins, SecureClient.eraseToken]
          | some users =>
            simp only [hvalid, hex, hins, Bool.not_true, Bool.false_eq_true, if_false]
            rfl

theorem processLogin_eraseTokens (ip command : Bytes) :
    SameButTokens (processLogin s env i ip command)
      (processLogin s.eraseTokens env i ip command) := by
  unfold processLogin
  cases parseLogin command with
  | none => exact ⟨rfl, rfl⟩
  | some p =>
    obtain ⟨nick, token⟩ := p
    simp only [authenticateUser_eraseTokens]
    generalize authenticateUser s env i nick token = r
    obtain ⟨t, ok⟩ := r
    cases ok with
    | false => exact ⟨rfl, rfl⟩
    | true =>
      -- the new token is the same in both states, and every other token is erased
      have hstate : (t.setClient i ((t.clients i).login nick token)).eraseTokens =
          (t.eraseTokens.setClient i ((t.eraseTokens.clients i).login nick token)).eraseTokens :=
        setClient_sameButTokens t i rfl
      refine ⟨?_, ?_⟩
      · simp only
        rw [← broadcastMessage_eraseTokens, eraseTokens_addPeerToNetwork, hstate,
          ← eraseTokens_addPeerToNetwork, broadcastMessage_eraseTokens]
        rfl
      · simp only
        rw [eraseTokens_addPeerToNetwork, eraseTokens_addPeerToNetwork, hstate]
        rfl

theorem processClientCommand_eraseTokens (ip command : Bytes) :
    SameButTokens (processClientCommand C s env i ip command)
      (processClientCommand C s.eraseTokens env i ip command) := by
  unfold processClientCommand
  have hauth : (s.eraseTokens.clients i).authorized = (s.clients i).authorized := rfl
  rw [hauth]
  cases (s.clients i).authorized with
  | true => exact ⟨(handleAuthorizedCommands_eraseTokens C s env i command).symm, rfl⟩
  | false =>
    simp only [Bool.not_false, if_true, handleUnauthorizedCommands]
    split_ifs
    · rw [processRegistration_eraseTokens]
      exact ⟨rfl, rfl⟩
    · exact processLogin_eraseTokens s env i ip command
    · exact ⟨rfl, rfl⟩
    · exact ⟨rfl, rfl⟩

theorem handlerPrologue_eraseTokens (h : Handler) (env : StartEnv) :
    SameButTokens (handlerPrologue C s h env) (handlerPrologue C s.eraseTokens h env) := by
  unfold handlerPrologue
  simp only [eraseTokens_clients, initClientSignalProtocol_eraseToken]
  generalize initClientSignalProtocol C (s.clients h.slot) env = r
  obtain ⟨client, ok⟩ := r
  have hset (c : SecureClient) (ip : Bytes) (phase : Phase) :
      ((s.setClient h.slot c).setHandler h.conn ip phase).eraseTokens =
        ((s.eraseTokens.setClient h.slot c.eraseToken).setHandler h.conn ip phase).eraseTokens := by
    have hc : c.eraseToken = c.eraseToken.eraseToken := rfl
    exact congrArg (fun t : Server => t.setHandler h.conn ip phase)
      (setClient_sameButTokens s h.slot hc)
  cases ok with
  | false => exact ⟨rfl, hset _ _ _⟩
  | true => cases env.sessionTokenOk <;> exact ⟨rfl, hset _ _ _⟩

theorem handlerIteration_eraseTokens (h : Handler) (read : ReadResult) :
    SameButTokens (handlerIteration C s h env read)
      (handlerIteration C s.eraseTokens h env read) := by
  unfold handlerIteration
  by_cases hfd : (s.clients h.slot).fd < 0
  · have hfd' : (s.eraseTokens.clients h.slot).fd < 0 := hfd
    rw [if_pos hfd, if_pos hfd']
    exact ⟨rfl, rfl⟩
  · have hfd' : ¬ (s.eraseTokens.clients h.slot).fd < 0 := hfd
    rw [if_neg hfd, if_neg hfd']
    cases read with
    | error => exact ⟨rfl, rfl⟩
    | zero =>
      by_cases ht : env.now - (s.clients h.slot).lastActivity > connectionTimeout
      · have ht' : env.now - (s.eraseTokens.clients h.slot).lastActivity > connectionTimeout := ht
        simp only [ht, ht', if_true]
        exact ⟨rfl, rfl⟩
      · have ht' : ¬ env.now - (s.eraseTokens.clients h.slot).lastActivity > connectionTimeout := ht
        simp only [ht, ht', if_false]
        exact ⟨rfl, rfl⟩
    | bytes buffer hne hlt =>
      have hlimit : s.eraseTokens.withinLimit h.slot env.now = s.withinLimit h.slot env.now := rfl
      simp only [handleBuffer, hlimit, ← eraseTokens_noteActivity]
      cases s.withinLimit h.slot env.now with
      | false => exact ⟨rfl, rfl⟩
      | true =>
        cases commandOf buffer with
        | none => exact ⟨rfl, rfl⟩
        | some command => exact processClientCommand_eraseTokens C _ env h.slot h.ip command

theorem handlerExit_eraseTokens (h : Handler) :
    SameButTokens (handlerExit s h env) (handlerExit s.eraseTokens h env) := by
  refine ⟨?_, ?_⟩
  · rfl
  · exact congrArg
      (fun t : Server => { t with handlers := s.handlers.filter fun h' => h'.conn != h.conn })
      (setClient_sameButTokens s h.slot rfl)

theorem handleNewConnection_eraseTokens (fd : ℕ) (addr : SockAddr) (now : ℤ)
    (handshake : Handshake) : SameButTokens (handleNewConnection s fd addr now handshake)
      (handleNewConnection s.eraseTokens fd addr now handshake) := by
  have hfree : freeSlot s.eraseTokens = freeSlot s := rfl
  unfold handleNewConnection
  rw [hfree]
  cases freeSlot s with
  | none => exact ⟨rfl, rfl⟩
  | some i =>
    by_cases hs : handshake ≠ .success
    · simp only [hs, ne_eq, not_false_eq_true, if_true]
      exact ⟨rfl, rfl⟩
    · simp only [hs, if_false]
      refine ⟨rfl, ?_⟩
      exact congrArg
        (fun t : Server => { t with
          handlers := s.handlers ++ [Handler.mk s.totalConnections i [] .starting]
          totalConnections := s.totalConnections + 1 })
        (setClient_sameButTokens s i rfl)

theorem step_eraseTokens (e : Event) :
    (step C s e).2 = (step C s.eraseTokens e).2 ∧
      (step C s e).1.eraseTokens = (step C s.eraseTokens e).1.eraseTokens := by
  have hhandler (conn : Conn) (phase : Phase) :
      s.eraseTokens.handler? conn phase = s.handler? conn phase := rfl
  suffices SameButTokens (step C s e) (step C s.eraseTokens e) from ⟨this.effects, this.state⟩
  unfold step
  cases e with
  | connect fd addr now handshake => exact handleNewConnection_eraseTokens s fd addr now handshake
  | start conn env =>
    simp only [hhandler]
    cases s.handler? conn .starting with
    | none => exact ⟨rfl, rfl⟩
    | some h => exact handlerPrologue_eraseTokens C s h env
  | iterate conn env read =>
    simp only [hhandler]
    cases s.handler? conn .looping with
    | none => exact ⟨rfl, rfl⟩
    | some h => exact handlerIteration_eraseTokens C s env h read
  | exit conn env =>
    simp only [hhandler]
    cases s.handler? conn .exiting with
    | none => exact ⟨rfl, rfl⟩
    | some h => exact handlerExit_eraseTokens s env h
  | sweep now =>
    refine ⟨rfl, ?_⟩
    change (checkClientTimeouts s now).1.eraseTokens =
      (checkClientTimeouts s.eraseTokens now).1.eraseTokens
    rw [eraseTokens_checkClientTimeouts, eraseTokens_checkClientTimeouts]
    rfl

end erasure

/-- What a login line may reveal: the nick it names and whether it authenticates. -/
def loginView (s : Server) (env : Env) (i : Slot) (command : Bytes) : Option (Bytes × Bool) :=
  (parseLogin command).map fun p => (p.1, (authenticateUser s env i p.1 p.2).2)

/-- The outcome of an authentication depends on the table alone. -/
theorem authenticateUser_snd (s : Server) (env : Env) (i : Slot) (nick token : Bytes) :
    (authenticateUser s env i nick token).2 = (env.selectOk && (s.users.findUnlocked nick).any
      fun row => constantTimeCompare (stored row.token) (stored token) token.length) := by
  unfold authenticateUser
  cases env.selectOk with
  | false => rfl
  | true =>
    cases s.users.findUnlocked nick with
    | none => rfl
    | some row =>
      cases hcmp : constantTimeCompare (stored row.token) (stored token) token.length <;>
        simp [hcmp]

theorem loginView_noteActivity (s : Server) (env : Env) (i j : Slot) (now : ℤ) (command : Bytes) :
    loginView (s.noteActivity j now) env i command = loginView s env i command := by
  simp only [loginView, authenticateUser_snd, noteActivity_users]

section login

variable {C : Crypto} {s : Server} {env : Env} {i : Slot} {ip command command' : Bytes}

theorem loggedIn_sameButTokens (s : Server) (env : Env) (i : Slot) (row : UserRow)
    (nick token token' : Bytes) :
    (loggedIn s env i row nick token).eraseTokens =
      (loggedIn s env i row nick token').eraseTokens := by
  simp only [loggedIn, eraseTokens_addPeerToNetwork, eraseTokens_setClient]
  rfl

theorem loginEffects_congr {t : Server} (h : s.eraseTokens = t.eraseTokens) (env : Env) (i : Slot)
    (nick ip : Bytes) : loginEffects s env i nick ip = loginEffects t env i nick ip := by
  change loginEffects s.eraseTokens env i nick ip = loginEffects t.eraseTokens env i nick ip
  rw [h]

theorem processLogin_view_cases (s : Server) (env : Env) (i : Slot) (ip command : Bytes) :
    (loginView s env i command = none ∧ processLogin s env i ip command = (s, [])) ∨
    (∃ nick, loginView s env i command = some (nick, false) ∧
      processLogin s env i ip command = (s, [.write (s.clients i).ssl loginErrorFrame,
        .audit (ascii "LOGIN_FAILED") nick ip (ascii "Failed login attempt")])) ∨
    (∃ nick token row, loginView s env i command = some (nick, true) ∧
      s.users.findUnlocked nick = some row ∧
      processLogin s env i ip command = (loggedIn s env i row nick token,
        loginEffects (loggedIn s env i row nick token) env i nick ip)) := by
  rcases processLogin_cases s env i ip command with
    ⟨hp, heq⟩ | ⟨n, t, hp, hauth, heq⟩ | ⟨n, t, row, hp, hauth, -, hfind, -, heq⟩
  · exact .inl ⟨by simp [loginView, hp], heq⟩
  · exact .inr (.inl ⟨n, by simp [loginView, hp, hauth], heq⟩)
  · exact .inr (.inr ⟨n, t, row, by simp [loginView, hp, hauth], hfind, heq⟩)

theorem processLogin_view (h : loginView s env i command = loginView s env i command') :
    SameButTokens (processLogin s env i ip command) (processLogin s env i ip command') := by
  rcases processLogin_view_cases s env i ip command with
    ⟨hv, heq⟩ | ⟨n, hv, heq⟩ | ⟨n, t, row, hv, hfind, heq⟩ <;>
  rcases processLogin_view_cases s env i ip command' with
    ⟨hv', heq'⟩ | ⟨n', hv', heq'⟩ | ⟨n', t', row', hv', hfind', heq'⟩ <;>
  simp only [hv, hv', Option.some.injEq, Prod.mk.injEq, reduceCtorEq, and_false, and_true] at h
  · rw [heq, heq']
    exact ⟨rfl, rfl⟩
  · subst h
    rw [heq, heq']
    exact ⟨rfl, rfl⟩
  · subst h
    obtain rfl := Option.some.inj (hfind.symm.trans hfind')
    rw [heq, heq']
    have hstate := loggedIn_sameButTokens s env i row n t t'
    exact ⟨loginEffects_congr hstate env i n ip, hstate⟩

/-- What the login line of an unauthorised session does depends on its view only. -/
theorem handlerIteration_login {h : Handler} {buffer buffer' : Bytes}
    (hunauth : (s.clients h.slot).authorized = false)
    (hcommand : commandOf buffer = some command) (hcommand' : commandOf buffer' = some command')
    (hpre : ascii "/login" <+: command) (hpre' : ascii "/login" <+: command')
    (hview : loginView s env h.slot command = loginView s env h.slot command') {hne hlt hne' hlt'} :
    SameButTokens (handlerIteration C s h env (.bytes buffer hne hlt))
      (handlerIteration C s h env (.bytes buffer' hne' hlt')) := by
  by_cases hfd : 0 ≤ (s.clients h.slot).fd
  · cases hlimit : s.withinLimit h.slot env.now with
    | false =>
      simp only [handlerIteration, not_lt.2 hfd, if_false, handleBuffer, hlimit]
      exact ⟨rfl, rfl⟩
    | true =>
      rw [handlerIteration_command C hne hlt hfd hlimit hcommand,
        handlerIteration_command C hne' hlt' hfd hlimit hcommand']
      have hun := (noteActivity_refreshes s h.slot env.now h.slot).authorized.trans hunauth
      simp only [processClientCommand, hun, Bool.not_false, if_true,
        handleUnauthorizedCommands_login _ _ _ _ hpre,
        handleUnauthorizedCommands_login _ _ _ _ hpre']
      exact processLogin_view (by simpa only [loginView_noteActivity] using hview)
  · simp only [handlerIteration, not_le.1 hfd, if_true]
    exact ⟨rfl, rfl⟩

/-- The login line of an authorised session is broadcast and stored as it is. -/
theorem handlerIteration_login_of_authorized {h : Handler} {buffer : Bytes}
    (hauth : (s.clients h.slot).authorized = true) (hfd : 0 ≤ (s.clients h.slot).fd)
    (hlimit : s.withinLimit h.slot env.now = true)
    (hcommand : commandOf buffer = some command) (hpre : ascii "/login" <+: command) {hne hlt} :
    handlerIteration C s h env (.bytes buffer hne hlt) =
      (s.noteActivity h.slot env.now,
        broadcastMessage (s.noteActivity h.slot env.now) env (s.clients h.slot).nick command) := by
  have hactive := noteActivity_refreshes s h.slot env.now h.slot
  rw [handlerIteration_command C hne hlt hfd hlimit hcommand]
  simp only [processClientCommand, hactive.authorized.trans hauth, Bool.not_true,
    Bool.false_eq_true, if_false, handleAuthorizedCommands_login C _ env h.slot hpre, hactive.nick]

end login

theorem savedRows_broadcastMessage {env : Env} (hsave : env.saveOk = true) (s : Server)
    (sender message : Bytes) :
    savedRows (broadcastMessage s env sender message) = [⟨sender, [], [], message, false⟩] := by
  have hwrites (l : List Slot) (f : Slot → Option Conn) (data : Bytes) :
      savedRows (l.map fun i => .write (f i) data) = [] := by
    simp [savedRows]
  simp only [broadcastMessage, savedRows_append, hwrites, saveMessage, hsave, if_true,
    List.append_nil]
  rfl

/-- Two runs that differ in the token of one login line only, with the same outcome.
If the session that sends the line is unauthorised, every client receives the same
bytes and the same messages are stored. If it is authorised, the stored messages
differ. -/
theorem login_line_secret (C : Crypto) (users : SecureUsers) (before after : List Event)
    {conn : Conn} {h : Handler} (env : Env) {s : Server}
    (hs : s = (run C (Server.init users) before).1) (hh : s.handler? conn .looping = some h)
    {buffer buffer' command command' : Bytes} (hcommand : commandOf buffer = some command)
    (hcommand' : commandOf buffer' = some command') (hpre : ascii "/login" <+: command)
    (hpre' : ascii "/login" <+: command')
    (hview : loginView s env h.slot command = loginView s env h.slot command')
    {hne : buffer ≠ []} {hlt : buffer.length < bufferSize}
    {hne' : buffer' ≠ []} {hlt' : buffer'.length < bufferSize} :
    let effects := (run C (Server.init users)
      (before ++ .iterate conn env (.bytes buffer hne hlt) :: after)).2
    let effects' := (run C (Server.init users)
      (before ++ .iterate conn env (.bytes buffer' hne' hlt') :: after)).2
    ((s.clients h.slot).authorized = false →
      (∀ c, writtenTo c effects = writtenTo c effects') ∧
        savedRows effects = savedRows effects') ∧
    ((s.clients h.slot).authorized = true → 0 ≤ (s.clients h.slot).fd →
      s.withinLimit h.slot env.now = true → env.saveOk = true → command ≠ command' →
        savedRows effects ≠ savedRows effects') := by
  simp only [run, Runs.run_append, Runs.run_cons, ← hs, step, hh]
  refine ⟨?_, ?_⟩
  · intro hunauth
    have hstep : SameButTokens (handlerIteration C s h env (.bytes buffer hne hlt))
        (handlerIteration C s h env (.bytes buffer' hne' hlt')) :=
      handlerIteration_login hunauth hcommand hcommand' hpre hpre' hview
    have hrest := Runs.run_erasure (f := Server.eraseTokens)
      (fun s e => step_eraseTokens C s e) hstep.state after
    rw [hstep.effects, hrest]
    exact ⟨fun _ => rfl, rfl⟩
  · intro hauth hfd hlimit hsave hne hrows
    rw [handlerIteration_login_of_authorized hauth hfd hlimit hcommand hpre,
      handlerIteration_login_of_authorized hauth hfd hlimit hcommand' hpre'] at hrows
    simp only [savedRows_append, savedRows_broadcastMessage hsave] at hrows
    have hrow := List.append_cancel_right (List.append_cancel_left hrows)
    simp only [List.cons.injEq, MessageRow.mk.injEq, and_true, true_and] at hrow
    exact hne hrow

namespace Sample

def bobLine (token : Bytes) : Bytes := ascii "/login bob " ++ token

/-- The effects of a run that ends with a login line of `bob` on connection `conn`. -/
def bobLogin (before : List Event) (conn : Conn) (token : Bytes) : List Effect :=
  (run crypto (Server.init SecureUsers.empty)
    (before ++ [.iterate conn (env 1005 0) (read (bobLine token ++ [newline]))])).2

end Sample

/-- Before `bob` is logged in, two wrong tokens make no difference to anyone; once he
is logged in, the same two lines do. -/
theorem login_line_secret_bob :
    ((∀ c, writtenTo c (Sample.bobLogin Sample.registered 0 [120]) =
        writtenTo c (Sample.bobLogin Sample.registered 0 [121])) ∧
      savedRows (Sample.bobLogin Sample.registered 0 [120]) =
        savedRows (Sample.bobLogin Sample.registered 0 [121])) ∧
    savedRows (Sample.bobLogin Sample.chat 1 [120]) ≠
      savedRows (Sample.bobLogin Sample.chat 1 [121]) := by
  have hx : commandOf (Sample.bobLine [120] ++ [newline]) = some (Sample.bobLine [120]) := by decide
  have hy : commandOf (Sample.bobLine [121] ++ [newline]) = some (Sample.bobLine [121]) := by decide
  refine ⟨?_, ?_⟩
  · have hh : (run Sample.crypto (Server.init SecureUsers.empty) Sample.registered).1.handler? 0
        .looping = some ⟨0, Sample.firstSlot, ascii "127.0.0.1", .looping⟩ := by decide +kernel
    exact (login_line_secret Sample.crypto SecureUsers.empty Sample.registered []
      (Sample.env 1005 0) rfl hh hx hy (by decide) (by decide) (by decide +kernel)).1
        (by decide +kernel)
  · have hview : loginView (run Sample.crypto (Server.init SecureUsers.empty) Sample.chat).1
          (Sample.env 1005 0) Sample.secondSlot (Sample.bobLine [120]) =
        loginView (run Sample.crypto (Server.init SecureUsers.empty) Sample.chat).1
          (Sample.env 1005 0) Sample.secondSlot (Sample.bobLine [121]) := by decide +kernel
    obtain ⟨hh, hfd, hauth, -, -, hlimit⟩ := Sample.chat_sessions.2
    generalize hs : (run Sample.crypto (Server.init SecureUsers.empty) Sample.chat).1 = s at *
    exact (login_line_secret Sample.crypto SecureUsers.empty Sample.chat []
      (Sample.env 1005 0) hs.symm hh hx hy (by decide) (by decide) hview).2
        hauth hfd hlimit rfl (by decide)

/-- `bob`, already logged in, repeats his login line. It authenticates with all 64
digits and with 63 of them, and either way `ann` receives the digits and
`secure_messages` stores them. -/
theorem repeated_login_broadcasts_token :
    let token := List.replicate 64 50
    let token' := List.replicate 63 50
    let s := (run Sample.crypto (Server.init SecureUsers.empty) Sample.chat).1
    (s.clients Sample.secondSlot).authorized = true ∧
      loginView s (Sample.env 1005 0) Sample.secondSlot (Sample.bobLine token) =
        some (ascii "bob", true) ∧
      loginView s (Sample.env 1005 0) Sample.secondSlot (Sample.bobLine token') =
        some (ascii "bob", true) ∧
      writtenTo 0 (Sample.bobLogin Sample.chat 1 token) ≠
        writtenTo 0 (Sample.bobLogin Sample.chat 1 token') ∧
      messageFrame (ascii "bob") (Sample.bobLine token) <:+
        writtenTo 0 (Sample.bobLogin Sample.chat 1 token) ∧
      ⟨ascii "bob", [], [], Sample.bobLine token, false⟩ ∈
        savedRows (Sample.bobLogin Sample.chat 1 token) := by
  decide +kernel

end Mesh
