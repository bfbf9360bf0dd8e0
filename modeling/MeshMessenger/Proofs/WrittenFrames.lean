import MeshMessenger.Proofs.ServerFrames

/-! What a step of the server writes, in every reachable state, is one of the server's
frames. The buffers of the two success replies hold every nick, token and number. -/

namespace Mesh

open CLib

/-! ### Numbers in the slots -/

/-- The numbers that go into replies. -/
structure Numbered (c : SecureClient) : Prop where
  sessionId : c.sessionId < 2 ^ 64
  level : 0 ≤ c.fd → c.authorized = false → c.securityLevel.natAbs ≤ 1

def NumbersInv (s : Server) : Prop := ∀ i, Numbered (s.clients i)

theorem sessionIdOf_lt (now : ℤ) (pid : ℕ) : sessionIdOf now pid < 2 ^ 64 := by
  have htime : (now % 2 ^ 32).toNat < 2 ^ 32 := by
    have := Int.emod_lt_of_pos now (by norm_num : (0 : ℤ) < 2 ^ 32)
    omega
  have hpid : pid % 2 ^ 32 < 2 ^ 32 := Nat.mod_lt _ (by norm_num)
  unfold sessionIdOf
  omega

theorem numbersInv_init (users : SecureUsers) : NumbersInv (Server.init users) := by
  intro i
  refine ⟨?_, fun _ _ => ?_⟩ <;> simp [Server.init, SecureClient.zero]

/-- An update of one slot, and of nothing else that matters here. -/
theorem NumbersInv.update {s s' : Server} (h : NumbersInv s) (i : Slot) {c : SecureClient}
    (hc : Numbered c) (hs' : s'.clients = Function.update s.clients i c) : NumbersInv s' := by
  intro j
  rw [hs']
  by_cases hj : j = i
  · rw [hj, Function.update_self]
    exact hc
  · rw [Function.update_of_ne hj]
    exact h j

theorem initClientSignalProtocol_numbers (C : Crypto) (c : SecureClient) (env : StartEnv) :
    let c' := (initClientSignalProtocol C c env).1
    c'.sessionId = c.sessionId ∧ c'.securityLevel = c.securityLevel := by
  unfold initClientSignalProtocol
  cases env.storeOk with
  | false => exact ⟨rfl, rfl⟩
  | true =>
    cases env.identityOk with
    | false => exact ⟨rfl, rfl⟩
    | true =>
      cases env.regId with
      | none => exact ⟨rfl, rfl⟩
      | some r =>
        cases env.sessionKey with
        | none => exact ⟨rfl, rfl⟩
        | some k => cases env.chachaOk <;> exact ⟨rfl, rfl⟩

theorem Numbered.refreshes {c c' : SecureClient} (h : Numbered c) (hc : Refreshes c c')
    (hid : c'.sessionId < 2 ^ 64) (hlevel : c'.securityLevel = c.securityLevel) :
    Numbered c' where
  sessionId := hid
  level := by
    rw [hc.fd, hc.authorized, hlevel]
    exact h.level

theorem NumbersInv.noteActivity {s : Server} (h : NumbersInv s) (i : Slot) (now : ℤ) :
    NumbersInv (s.noteActivity i now) := by
  refine h.update i (c := { s.clients i with
    lastActivity := now
    rateLimit := (checkRateLimit (s.clients i).rateLimit now).1 }) ?_ rfl
  exact ⟨(h i).sessionId, (h i).level⟩

theorem NumbersInv.handlerPrologue {C : Crypto} {s : Server} (h : NumbersInv s) (hd : Handler)
    (env : StartEnv) : NumbersInv (Mesh.handlerPrologue C s hd env).1 := by
  have hinit := initClientSignalProtocol_refreshes C (s.clients hd.slot) env
  obtain ⟨hid, hlevel⟩ := initClientSignalProtocol_numbers C (s.clients hd.slot) env
  have hnamed := (h hd.slot).refreshes (hinit.identified env)
    (sessionIdOf_lt env.sessionNow env.pid) hlevel
  rcases handlerPrologue_cases C s hd env with ⟨-, heq⟩ | ⟨-, heq⟩ | ⟨-, heq⟩ <;> rw [heq]
  · exact h.update hd.slot
      ((h hd.slot).refreshes hinit (hid ▸ (h hd.slot).sessionId) hlevel) rfl
  · exact h.update hd.slot hnamed rfl
  · exact h.update hd.slot hnamed rfl

theorem NumbersInv.handlerIteration {C : Crypto} {s : Server} (h : NumbersInv s) (hd : Handler)
    (env : Env) (read : ReadResult) : NumbersInv (Mesh.handlerIteration C s hd env read).1 := by
  have hnote := h.noteActivity hd.slot env.now
  rcases handlerIteration_state C s hd env read with
    heq | heq | ⟨users, heq⟩ | ⟨-, -, row, nick, token, heq⟩ <;> rw [heq]
  · exact h
  · exact h
  · exact hnote
  · refine hnote.update hd.slot (c := (((s.noteActivity hd.slot env.now).clients hd.slot).load
      row).login nick token) ?_ (loggedIn_clients _ _ _ row nick token)
    exact ⟨(hnote hd.slot).sessionId, fun _ hun => absurd hun (by simp [SecureClient.login])⟩

theorem NumbersInv.step {C : Crypto} {s : Server} (h : NumbersInv s) (e : Event) :
    NumbersInv (Mesh.step C s e).1 := by
  cases e with
  | connect fd addr now handshake =>
    rcases handleNewConnection_cases s fd addr now handshake with ⟨i, -, -, heq⟩ | heq <;>
      simp only [Mesh.step, heq]
    · refine h.update i (c := newClient fd s.totalConnections addr now) ⟨?_, fun _ _ => ?_⟩ rfl <;>
        simp [newClient, SecureClient.zero]
    · exact h
  | start conn env =>
    simp only [Mesh.step]
    cases s.handler? conn .starting with
    | none => exact h
    | some hd => exact h.handlerPrologue hd env
  | iterate conn env read =>
    simp only [Mesh.step]
    cases s.handler? conn .looping with
    | none => exact h
    | some hd => exact h.handlerIteration hd env read
  | exit conn env =>
    simp only [Mesh.step]
    cases s.handler? conn .exiting with
    | none => exact h
    | some hd =>
      refine h.update hd.slot (c := (s.clients hd.slot).cleaned)
        ⟨(h hd.slot).sessionId, fun hfd => ?_⟩ rfl
      simp only [SecureClient.cleaned] at hfd
      split_ifs at hfd with hopen
      · exact absurd hfd (by decide)
      · exact absurd hfd hopen
  | sweep now =>
    intro i
    simp only [Mesh.step, checkClientTimeouts]
    split_ifs
    · exact ⟨(h i).sessionId, fun hfd => absurd hfd (by simp)⟩
    · exact h i

theorem Reachable.numbersInv {C : Crypto} {users : SecureUsers} {s : Server}
    (h : Reachable C users s) : NumbersInv s :=
  h.invariant (numbersInv_init users) fun _ e hs => hs.step e

/-! ### What a step writes -/

/-- The step authorises slot `i`, which it found unauthorised, under this nick, and leaves
its connection. -/
structure LogsIn (s s' : Server) (i : Slot) (nick : Bytes) : Prop where
  before : (s.clients i).authorized = false
  after : (s'.clients i).authorized = true
  nick : (s'.clients i).nick = nick
  ssl : (s'.clients i).ssl = (s.clients i).ssl

/-- The step adds an unlocked row with this nick, which the table had under no spelling, and
this token, which was no user's. -/
structure Registers (s s' : Server) (nick token : Bytes) : Prop where
  fresh : s.users.Admits nick token
  row : ∃ r ∈ s'.users.rows, r.nick = nick ∧ r.token = token ∧ r.isLocked = false

/-- A frame that the step writes to a connection: a common one, or the reply to a success,
which goes with the change that it announces. -/
inductive StepWrite (s s' : Server) (ssl : Option Conn) : Bytes → Prop
  | common {f : Bytes} (hf : CommonFrame f) : StepWrite s s' ssl f
  | loggedIn {i : Slot} {nick : Bytes} (sessionId : ℕ) (hnick : LineField nick)
      (hssl : (s.clients i).ssl = ssl) (h : LogsIn s s' i nick) :
      StepWrite s s' ssl (loginSuccessFrame nick sessionId)
  | registered {nick token : Bytes} (level : ℤ) (hnick : LineField nick)
      (htoken : LineField token) (h : Registers s s' nick token) :
      StepWrite s s' ssl (registerSuccessFrame nick token level)

theorem lineField_nick {nick : Bytes} (h : ∀ c ∈ nick, isNickByte c = true) : LineField nick :=
  lineField_of fun c hc => by
    have hclean := isNickByte_clean c (h c hc)
    have hplain := isNickByte_plain c (h c hc)
    exact ⟨hclean.2.2, hplain.2.1, hplain.2.2.1, hplain.2.2.2⟩

theorem lineField_system : LineField system := lineField_word rfl

theorem FieldText.append {s t : Bytes} (hs : FieldText s) (ht : FieldText t) :
    FieldText (s ++ t) where
  nulFree := hs.nulFree.append ht.nulFree
  quote_notMem h := (List.mem_append.1 h).elim hs.quote_notMem ht.quote_notMem
  backslash_notMem h := (List.mem_append.1 h).elim hs.backslash_notMem ht.backslash_notMem

theorem fieldText_notice {nick : Bytes} (hnick : LineField nick) :
    FieldText (joinNotice nick) ∧ FieldText (leaveNotice nick) := by
  refine ⟨?_, ?_⟩
  · refine FieldText.of_isPrefix ?_ (snprintf_isPrefix _ _)
    exact ((fieldText_word rfl).append hnick.toFieldText).append (fieldText_word rfl)
  · refine FieldText.of_isPrefix ?_ (snprintf_isPrefix _ _)
    exact ((fieldText_word rfl).append hnick.toFieldText).append (fieldText_word rfl)

section

variable {s : Server} {env : Env} {ssl : Option Conn} {f : Bytes}

theorem commonFrame_broadcast {sender message : Bytes} (hsender : LineField sender)
    (hmessage : FieldText message) (h : .write ssl f ∈ broadcastMessage s env sender message) :
    CommonFrame f := by
  obtain ⟨-, rfl⟩ := write_mem_broadcastMessage.1 h
  exact .message hsender hmessage

variable (hreg : Registered s.users) (hinv : SessionsInv s)
include hreg hinv

theorem lineField_session {i : Slot} (hauth : (s.clients i).authorized = true) :
    LineField (s.clients i).nick :=
  lineField_nick (session_isNickByte hreg hinv hauth)

theorem commonFrame_authorized {C : Crypto} {i : Slot} {buffer command : Bytes}
    (hauth : (s.clients i).authorized = true) (hcommand : commandOf buffer = some command)
    (h : .write ssl f ∈ handleAuthorizedCommands C s env i command) : CommonFrame f := by
  have hsender := lineField_session hreg hinv hauth
  unfold handleAuthorizedCommands at h
  split_ifs at h with honline hmsg henc hvalid
  · rw [sendOnlineUsers_eq, List.mem_singleton, Effect.write.injEq] at h
    rw [h.2]
    refine .online fun n hn => ?_
    obtain ⟨j, hj, rfl⟩ := List.mem_map.1 hn
    have hon : (s.clients j).online = true := by simpa [onlineSlots] using hj
    simp only [SecureClient.online, Bool.and_eq_true] at hon
    exact lineField_session hreg hinv hon.2
  · unfold handlePrivateMessage at h
    cases hparse : parseMsg command with
    | none => simp [hparse] at h
    | some p =>
      obtain ⟨target, text⟩ := p
      obtain ⟨htarget, htext⟩ := lineField_parseTargeted hcommand hparse
      simp only [hparse] at h
      split_ifs at h with hvalid
      · unfold sendPrivateMessage at h
        cases hfind : findClientByNick s target with
        | none => simp [hfind] at h
        | some j =>
          simp only [hfind, List.mem_append, write_notMem_saveMessage, false_or] at h
          split_ifs at h
          · rw [List.mem_singleton, Effect.write.injEq] at h
            rw [h.2]
            exact .privateMessage hsender htarget htext
          · simp at h
      · simp at h
  · cases hparse : parseSendEnc command with
    | none =>
      unfold handleEncryptedMessage at h
      rw [hparse] at h
      exact absurd h List.not_mem_nil
    | some p =>
      obtain ⟨target, text⟩ := p
      obtain ⟨htarget, -⟩ := lineField_parseTargeted hcommand hparse
      cases hfind : findClientByNick s target with
      | none =>
        unfold handleEncryptedMessage encryptMessageForUser at h
        rw [hparse] at h
        dsimp only at h
        rw [hfind] at h
        exact absurd h List.not_mem_nil
      | some j =>
        rw [handleEncryptedMessage_eq hparse hfind] at h
        cases hcipher : C.aesGcm (s.clients i).sessionKey env.iv text with
        | none => simp [hcipher] at h
        | some ciphertext =>
          simp only [hcipher] at h
          split_ifs at h
          · simp at h
          · rw [List.mem_singleton, Effect.write.injEq] at h
            rw [h.2]
            exact .encrypted hsender htarget
  · exact commonFrame_broadcast hsender (commandOf_fieldText hcommand) h
  · simp at h

omit hinv in
theorem stepWrite_login {i : Slot} {ip command : Bytes} (hid : (s.clients i).sessionId < 2 ^ 64)
    (hun : (s.clients i).authorized = false)
    (h : .write ssl f ∈ (processLogin s env i ip command).2) :
    StepWrite s (processLogin s env i ip command).1 ssl f := by
  rcases processLogin_cases s env i ip command with
    ⟨-, heq⟩ | ⟨nick, token, -, -, heq⟩ | ⟨nick, token, row, hparse, -, -, hfind, -, heq⟩ <;>
    rw [heq] at h ⊢
  · simp at h
  · have herror : (ssl, f) = ((s.clients i).ssl, loginErrorFrame) := by simpa using h
    rw [(Prod.mk.inj herror).2]
    exact .common (.fixed (by simp [fixedFrames]))
  · -- the row's nick is a nick, and the line spells it the same but for the case
    obtain ⟨hrow, hcase, -⟩ := s.users.findUnlocked_eq_some.1 hfind
    obtain ⟨hvalid, hword⟩ := hreg row hrow
    have hnick : LineField nick :=
      lineField_nick (caseEq_isNickByte hcase (validateNickname_isWord hvalid hword.length_le).2)
    have hword' := (parseLogin_eq_some hparse).1.1
    have hupdate : (loggedIn s env i row nick token).clients i =
        ((s.clients i).load row).login nick token := by
      rw [loggedIn_clients, Function.update_self]
    simp only [loginEffects, List.mem_append, List.mem_cons, List.not_mem_nil, or_false,
      reduceCtorEq] at h
    rcases h with h | h
    · rw [hupdate, Effect.write.injEq] at h
      have hsession : (((s.clients i).load row).login nick token).sessionId =
          (s.clients i).sessionId := rfl
      rw [h.1, h.2, hsession, loginSuccessFrame_uncut hword'.length_le hid]
      refine .loggedIn (s.clients i).sessionId hnick rfl ⟨hun, ?_, ?_, ?_⟩ <;> rw [hupdate]
      · rfl
      · exact login_nick _ hword' token
      · rfl
    · exact .common (commonFrame_broadcast lineField_system (fieldText_notice hnick).1 h)

end

theorem stepWrite_registration {s : Server} {env : Env} {ssl : Option Conn} {f : Bytes} {i : Slot}
    {ip command : Bytes} (hlevel : (s.clients i).securityLevel.natAbs ≤ 1)
    (h : .write ssl f ∈ (processRegistration s env i ip command).2) :
    StepWrite s (processRegistration s env i ip command).1 ssl f := by
  rcases processRegistration_cases s env i ip command with
    ⟨-, hnil | ⟨message, hm, herror⟩⟩ | ⟨nick, token, users, hparse, hvalid, htoken, hinsert, heq⟩
  · simp [hnil] at h
  · rw [herror, List.mem_singleton, Effect.write.injEq] at h
    rw [h.2]
    exact .common (.registerError hm)
  · rw [heq] at h ⊢
    have hword := (parseRegister_eq_some hparse).1
    obtain ⟨hlen, hdigits⟩ := generateSecureToken_spec htoken
    have hnick : LineField nick :=
      lineField_nick (validateNickname_isWord hvalid hword.length_le).2
    simp only [registrationEffects, List.mem_cons, Effect.write.injEq, List.not_mem_nil, or_false,
      reduceCtorEq] at h
    rw [h.1, h.2]
    have huncut := registerSuccessFrame_uncut hword.length_le hlen
      (show (s.clients i).securityLevel.natAbs < 10 ^ 10 by omega)
    rw [huncut]
    exact .registered _ hnick (lineField_nick hdigits) ⟨(s.users.insert_eq_some hinsert).1,
      _, s.users.newRow_mem_of_insert hinsert, rfl, rfl, rfl⟩

section

variable {C : Crypto} {s : Server} {ssl : Option Conn} {f : Bytes} (hreg : Registered s.users)
  (hinv : SessionsInv s) (hnumbers : NumbersInv s)
include hreg hinv hnumbers

theorem stepWrite_command {env : Env} {i : Slot} {ip buffer command : Bytes}
    (hfd : 0 ≤ (s.clients i).fd) (hcommand : commandOf buffer = some command)
    (h : .write ssl f ∈ (processClientCommand C s env i ip command).2) :
    StepWrite s (processClientCommand C s env i ip command).1 ssl f := by
  cases hauth : (s.clients i).authorized with
  | true =>
    simp only [processClientCommand, hauth, Bool.not_true, Bool.false_eq_true, if_false] at h ⊢
    exact .common (commonFrame_authorized hreg hinv hauth hcommand h)
  | false =>
    simp only [processClientCommand, hauth, Bool.not_false, if_true] at h ⊢
    unfold handleUnauthorizedCommands at h ⊢
    split_ifs at h ⊢ with hregister hlogin hhelp
    · exact stepWrite_registration ((hnumbers i).level hfd hauth) h
    · exact stepWrite_login hreg (hnumbers i).sessionId hauth h
    · rw [List.mem_singleton, Effect.write.injEq] at h
      rw [h.2]
      exact .common (.fixed (by simp [fixedFrames]))
    · rw [List.mem_singleton, Effect.write.injEq] at h
      rw [h.2]
      exact .common (.fixed (by simp [fixedFrames]))

omit hreg hinv hnumbers in
/-- What counts for a step's writes, the note of the activity leaves. -/
theorem StepWrite.of_noteActivity {i : Slot} {now : ℤ} {s' : Server}
    (h : StepWrite (s.noteActivity i now) s' ssl f) : StepWrite s s' ssl f := by
  have hnote := noteActivity_refreshes s i now
  cases h with
  | common hf => exact .common hf
  | @loggedIn j nick sessionId hnick hssl h =>
    exact .loggedIn sessionId hnick ((hnote j).ssl ▸ hssl) ⟨(hnote j).authorized ▸ h.before, h.after, h.nick,
      h.ssl.trans (hnote j).ssl⟩
  | registered level hnick htoken h =>
    exact .registered level hnick htoken ⟨h.fresh, h.row⟩

theorem stepWrite_iteration {hd : Handler} {env : Env} {read : ReadResult}
    (h : .write ssl f ∈ (handlerIteration C s hd env read).2) :
    StepWrite s (handlerIteration C s hd env read).1 ssl f := by
  have hnote := noteActivity_refreshes s hd.slot env.now
  rcases handlerIteration_cases C s hd env read with
    heq | heq | ⟨-, heq⟩ | heq | ⟨buffer, _, _, command, -, hfd, -, hcommand, heq⟩ <;>
    rw [heq] at h ⊢
  · simp at h
  · simp at h
  · rw [List.mem_singleton, Effect.write.injEq] at h
    rw [h.2]
    exact .common (.fixed (by simp [fixedFrames]))
  · simp at h
  · have hsessions : SessionsInv (s.noteActivity hd.slot env.now) :=
      (noteActivity_moves s hd.slot env.now).preserve (fun _ _ hi hm => hm.sessionsInv hi) hinv
    exact (stepWrite_command (s := s.noteActivity hd.slot env.now) hreg hsessions
      (hnumbers.noteActivity hd.slot env.now) ((hnote hd.slot).fd ▸ hfd) hcommand h).of_noteActivity

omit hnumbers in
theorem commonFrame_exit {hd : Handler} {env : Env}
    (h : .write ssl f ∈ (handlerExit s hd env).2) : CommonFrame f := by
  simp only [handlerExit, cleanupClientResources] at h
  rcases List.mem_append.1 h with h | h
  · split_ifs at h with hauth
    · rcases List.mem_append.1 h with h | h
      · exact commonFrame_broadcast lineField_system
          (fieldText_notice (lineField_session hreg hinv hauth)).2 h
      · simp at h
    · simp at h
  · split_ifs at h <;> simp at h

end

/-- Whatever a step writes in a reachable state is one of the server's frames. -/
theorem Reachable.stepWrite {C : Crypto} {users : SecureUsers} (husers : Registered users)
    {s : Server} (hs : Reachable C users s) {e : Event} {ssl : Option Conn} {f : Bytes}
    (h : .write ssl f ∈ (step C s e).2) : StepWrite s (step C s e).1 ssl f := by
  have hreg := Reachable.registered hs husers
  have hinv := Reachable.sessionsInv hs
  cases e with
  | connect fd addr now handshake =>
    simp only [step] at h
    rcases handleNewConnection_cases s fd addr now handshake with ⟨i, -, -, heq⟩ | heq <;>
      rw [heq] at h <;> simp at h
  | start conn env =>
    simp only [step] at h
    cases hh : s.handler? conn .starting with
    | none => simp [hh] at h
    | some hd =>
      simp only [hh] at h
      rcases handlerPrologue_cases C s hd env with ⟨-, heq⟩ | ⟨-, heq⟩ | ⟨-, heq⟩ <;>
        rw [heq] at h
      · simp at h
      · simp at h
      · have hwelcome : f = welcomeFrame := by
          simp only [List.mem_cons, Effect.write.injEq, reduceCtorEq, List.not_mem_nil,
            or_false] at h
          exact h.2
        rw [hwelcome]
        exact .common (.fixed (by simp [fixedFrames]))
  | iterate conn env read =>
    simp only [step] at h ⊢
    cases hh : s.handler? conn .looping with
    | none => simp [hh] at h
    | some hd =>
      simp only [hh] at h ⊢
      exact stepWrite_iteration hreg hinv (Reachable.numbersInv hs) h
  | exit conn env =>
    simp only [step] at h ⊢
    cases hh : s.handler? conn .exiting with
    | none => simp [hh] at h
    | some hd =>
      simp only [hh] at h
      exact .common (commonFrame_exit hreg hinv h)
  | sweep now =>
    simp only [step, checkClientTimeouts] at h
    obtain ⟨i, -, heq⟩ := List.mem_map.1 h
    simp at heq

end Mesh
