import MeshMessenger.Server.AuditLog
import MeshMessenger.Proofs.Naming

/-! What the audit trail says of the calls that made it, and that the calls of the server
are of the kind it is asked about. -/

namespace Mesh

open CLib

/-! ### The texts of a call -/

theorem AuditEvent.eventType_spec (event : AuditEvent) :
    NulFree event.eventType ∧ event.eventType.length ≤ 31 := by
  cases event <;> exact ⟨by unfold NulFree; decide, by decide⟩

theorem AuditEvent.details_spec (event : AuditEvent) :
    NulFree event.details ∧ event.details.length ≤ 511 := by
  cases event <;> exact ⟨by unfold NulFree; decide, by decide⟩

theorem natDec_byte : ∀ b : UInt8, (0 : UInt8) ∉ natDec b.toNat ∧ (natDec b.toNat).length ≤ 3 :=
  forall_byte (by decide +kernel)

theorem inetNtop_spec (addr : SockAddr) :
    NulFree (inetNtop addr) ∧ (inetNtop addr).length ≤ 45 := by
  have ha := natDec_byte addr.a
  have hb := natDec_byte addr.b
  have hc := natDec_byte addr.c
  have hd := natDec_byte addr.d
  refine ⟨?_, ?_⟩
  · simp [NulFree, inetNtop, ha.1, hb.1, hc.1, hd.1]
  · simp only [inetNtop, List.length_append, List.length_singleton]
    omega

/-! ### One call -/

/-- The row that a call inserts: what was passed to it, but for the nick's 31st byte. -/
def ServerCall.recorded (c : ServerCall) : AuditRow :=
  { c.row with userNick := c.nick.val.take 30 }

theorem logSecurityEvent_rows (trail : AuditTrail) (c : ServerCall) :
    (logSecurityEvent trail c.call).2 = if c.insertOk then [c.recorded] else [] := by
  obtain ⟨htype, htype'⟩ := c.event.eventType_spec
  obtain ⟨hdetails, hdetails'⟩ := c.event.details_spec
  obtain ⟨hip, hip'⟩ := inetNtop_spec c.addr
  simp only [logSecurityEvent, saveAuditLogToDb, AuditLog.fill, ServerCall.call,
    CharArray.text_strncpy _ htype, CharArray.text_strncpy _ c.nick.property.1,
    CharArray.text_strncpy _ hip, CharArray.text_strncpy _ hdetails,
    List.take_of_length_le htype', List.take_of_length_le hip', List.take_of_length_le hdetails']
  rfl

theorem recorded_eq_row_iff (c : ServerCall) : c.recorded = c.row ↔ c.nick.val.length ≤ 30 := by
  have hnick : c.recorded = c.row ↔ c.nick.val.take 30 = c.nick.val := by
    refine ⟨fun h => congrArg AuditRow.userNick h, fun h => ?_⟩
    rw [ServerCall.recorded, h]
    rfl
  rw [hnick, List.take_eq_self_iff]

/-! ### Sequences of calls -/

theorem run_logSecurityEvent (trail : AuditTrail) (calls : List ServerCall) :
    (Runs.run logSecurityEvent trail (calls.map ServerCall.call)).2 =
      (calls.filter ServerCall.insertOk).map ServerCall.recorded := by
  induction calls generalizing trail with
  | nil => rfl
  | cons c calls ih =>
    rw [List.map_cons, Runs.run_cons, ih, logSecurityEvent_rows]
    by_cases hok : c.insertOk = true
    · rw [if_pos hok, List.filter_cons_of_pos hok]
      rfl
    · rw [if_neg hok, List.filter_cons_of_neg hok]
      rfl

/-- For every sequence of calls, however often it goes round the array: the rows inserted
are the calls', in order and one for each, if and only if none of their nicks has 31
bytes. -/
theorem audit_rows_eq_iff (calls : List ServerCall) :
    auditRows calls = (calls.filter ServerCall.insertOk).map ServerCall.row ↔
      ∀ c ∈ calls, c.insertOk = true → c.nick.val.length ≤ 30 := by
  rw [auditRows, run_logSecurityEvent, List.map_inj_left]
  simp only [List.mem_filter, recorded_eq_row_iff, and_imp]

namespace Sample

/-- A failed login under a nick of 31 bytes. -/
def longNick (last : UInt8) (hlast : last ≠ 0) : ServerCall where
  event := .loginFailed
  nick := ⟨List.replicate 30 97 ++ [last], by
    refine ⟨?_, by simp [maxNickLength]⟩
    simpa [NulFree] using hlast.symm⟩
  addr := addr
  now := 1000
  insertOk := true

end Sample

/-- The events of two nicks of 31 bytes that differ in the last one are recorded under the
same name. -/
theorem two_nicks_one_name :
    let calls := [Sample.longNick 98 (by decide), Sample.longNick 99 (by decide)]
    (calls.map fun c => c.nick.val).Nodup ∧
      (auditRows calls).map AuditRow.userNick =
        [List.replicate 30 97, List.replicate 30 97] ∧
      auditRows calls ≠ (calls.filter ServerCall.insertOk).map ServerCall.row := by
  intro calls
  have hrows : auditRows calls = (calls.filter ServerCall.insertOk).map ServerCall.recorded :=
    run_logSecurityEvent _ _
  rw [hrows]
  exact ⟨by decide, by decide, by decide⟩

/-! ### The calls of the server -/

/-- A `log_security_event` among the effects is one that a `ServerCall` describes. -/
def Effect.Described : Effect → Prop
  | .audit eventType nick ip details => ∃ c : ServerCall, eventType = c.event.eventType ∧
      nick = c.nick.val ∧ ip = inetNtop c.addr ∧ details = c.event.details
  | _ => True

theorem Effect.IsMessage.described {e : Effect} (h : e.IsMessage) : e.Described := by
  cases e with
  | write ssl data => trivial
  | save row => trivial
  | close fd => exact h.elim
  | audit eventType nick ip details => exact h.elim

theorem described_audit (event : AuditEvent) {nick ip : Bytes} (hnick : NulFree nick)
    (hlength : nick.length ≤ 31) (hip : ∃ addr, ip = inetNtop addr) :
    (Effect.audit event.eventType nick ip event.details).Described := by
  obtain ⟨addr, hip⟩ := hip
  exact ⟨⟨event, ⟨nick, hnick, hlength⟩, addr, 0, true⟩, rfl, rfl, hip, rfl⟩

/-- A handler that has begun knows the address of its client. -/
def Addressed (s : Server) : Prop :=
  ∀ h ∈ s.handlers, h.phase ≠ .starting → ∃ addr, h.ip = inetNtop addr

theorem Addressed.setHandler {s t : Server} (hs : Addressed s) {conn : Conn} {ip : Bytes}
    {phase : Phase} (ht : t.handlers = (s.setHandler conn ip phase).handlers)
    (hip : ∃ addr, ip = inetNtop addr) : Addressed t := by
  intro h hh hphase
  rw [ht] at hh
  obtain ⟨g, hg, rfl⟩ := List.mem_map.1 hh
  split_ifs at hphase ⊢
  · exact hip
  · exact hs g hg hphase

theorem Addressed.of_handler? {s : Server} (hs : Addressed s) {conn : Conn} {phase : Phase}
    {h : Handler} (hh : s.handler? conn phase = some h) (hphase : phase ≠ .starting) :
    ∃ addr, h.ip = inetNtop addr := by
  obtain ⟨hmem, -, hlast⟩ := handler?_eq_some hh
  exact hs h hmem (by rw [hlast]; exact hphase)

theorem addressed_prologue (C : Crypto) {s : Server} (hs : Addressed s) (h : Handler)
    (env : StartEnv) : Addressed (handlerPrologue C s h env).1 := by
  rcases handlerPrologue_cases C s h env with ⟨-, heq⟩ | ⟨-, heq⟩ | ⟨-, heq⟩ <;> rw [heq]
  · exact hs.setHandler rfl ⟨_, rfl⟩
  · exact hs.setHandler rfl ⟨_, rfl⟩
  · exact hs.setHandler rfl ⟨_, rfl⟩

theorem addressed_step (C : Crypto) (s : Server) (e : Event) (hs : Addressed s) :
    Addressed (step C s e).1 := by
  cases e with
  | connect fd addr now handshake =>
    simp only [step]
    rcases handleNewConnection_cases s fd addr now handshake with ⟨i, -, -, heq⟩ | heq <;> rw [heq]
    · intro h hh hphase
      rcases List.mem_append.1 hh with hh | hh
      · exact hs h hh hphase
      · rw [List.mem_singleton.1 hh] at hphase
        exact absurd rfl hphase
    · exact hs
  | start conn env =>
    simp only [step]
    cases s.handler? conn .starting with
    | none => exact hs
    | some h => exact addressed_prologue C hs h env
  | iterate conn env read =>
    simp only [step]
    cases hh : s.handler? conn .looping with
    | none => exact hs
    | some h =>
      have hip := hs.of_handler? hh (by decide)
      simp only
      rcases handlerIteration_state C s h env read with
        heq | heq | ⟨users, heq⟩ | ⟨-, -, row, nick, token, heq⟩ <;> rw [heq]
      · exact hs.setHandler rfl hip
      · exact hs
      · exact hs
      · intro g hg
        rw [loggedIn_handlers] at hg
        exact hs g hg
  | exit conn env =>
    simp only [step]
    cases s.handler? conn .exiting with
    | none => exact hs
    | some h => exact fun g hg => hs g (List.mem_of_mem_filter hg)
  | sweep now => exact hs

theorem Reachable.addressed {C : Crypto} {users : SecureUsers} {s : Server}
    (h : Reachable C users s) : Addressed s :=
  h.invariant (fun h hh => absurd hh (by simp [Server.init])) (addressed_step C)

section effects

variable (C : Crypto) (s : Server) (env : Env) (i : Slot) {ip command : Bytes}

theorem described_processRegistration (hnul : NulFree command)
    (hip : ∃ addr, ip = inetNtop addr) :
    ∀ e ∈ (processRegistration s env i ip command).2, e.Described := by
  intro e he
  rcases processRegistration_cases s env i ip command with
    ⟨-, heq | ⟨message, -, heq⟩⟩ | ⟨nick, token, users, hparse, -, -, -, heq⟩ <;> rw [heq] at he
  · exact absurd he (by simp)
  · rw [List.mem_singleton.1 he]
    trivial
  · obtain ⟨hword, hsub⟩ := parseRegister_eq_some hparse
    simp only [registrationEffects, List.mem_cons, List.not_mem_nil, or_false] at he
    rcases he with rfl | rfl
    · trivial
    · exact described_audit .userRegister (hnul.of_sublist hsub) hword.length_le hip

theorem described_processLogin (hnul : NulFree command) (hip : ∃ addr, ip = inetNtop addr) :
    ∀ e ∈ (processLogin s env i ip command).2, e.Described := by
  intro e he
  rcases processLogin_cases s env i ip command with
    ⟨-, heq⟩ | ⟨nick, token, hparse, -, heq⟩ | ⟨nick, token, row, hparse, -, -, -, -, heq⟩ <;>
    rw [heq] at he
  · exact absurd he (by simp)
  · obtain ⟨⟨hword, hsub⟩, -⟩ := parseLogin_eq_some hparse
    simp only [List.mem_cons, List.not_mem_nil, or_false] at he
    rcases he with rfl | rfl
    · trivial
    · exact described_audit .loginFailed (hnul.of_sublist hsub) hword.length_le hip
  · obtain ⟨⟨hword, hsub⟩, -⟩ := parseLogin_eq_some hparse
    rcases List.mem_cons.1 he with rfl | he
    · trivial
    · rcases List.mem_append.1 he with he | he
      · exact (isMessage_broadcastMessage e he).described
      · rw [List.mem_singleton.1 he]
        exact described_audit .userLogin (hnul.of_sublist hsub) hword.length_le hip

theorem described_processClientCommand (hnul : NulFree command)
    (hip : ∃ addr, ip = inetNtop addr) :
    ∀ e ∈ (processClientCommand C s env i ip command).2, e.Described := by
  intro e he
  unfold processClientCommand handleUnauthorizedCommands at he
  split_ifs at he
  · exact described_processRegistration s env i hnul hip e he
  · exact described_processLogin s env i hnul hip e he
  · rw [List.mem_singleton.1 he]
    trivial
  · rw [List.mem_singleton.1 he]
    trivial
  · exact (isMessage_handleAuthorizedCommands e he).described

theorem described_handlerPrologue (h : Handler) (start : StartEnv) :
    ∀ e ∈ (handlerPrologue C s h start).2, e.Described := by
  intro e he
  rcases handlerPrologue_cases C s h start with ⟨-, heq⟩ | ⟨-, heq⟩ | ⟨-, heq⟩ <;> rw [heq] at he
  · exact absurd he (by simp)
  · exact absurd he (by simp)
  · simp only [List.mem_cons, List.not_mem_nil, or_false] at he
    rcases he with rfl | rfl
    · trivial
    · exact described_audit .clientConnect (by unfold NulFree; decide) (by decide) ⟨_, rfl⟩

theorem described_handlerIteration (h : Handler) (read : ReadResult)
    (hip : ∃ addr, h.ip = inetNtop addr) :
    ∀ e ∈ (handlerIteration C s h env read).2, e.Described := by
  intro e he
  rcases handlerIteration_cases C s h env read with
    heq | heq | ⟨-, heq⟩ | heq | ⟨_, _, _, command, -, -, -, hcommand, heq⟩ <;> rw [heq] at he
  · exact absurd he (by simp)
  · exact absurd he (by simp)
  · rw [List.mem_singleton.1 he]
    trivial
  · exact absurd he (by simp)
  · exact described_processClientCommand C _ env _ (commandOf_nulFree hcommand) hip e he

theorem described_handlerExit (hreg : Registered s.users) (hinv : SessionsInv s) {h : Handler}
    (hip : ∃ addr, h.ip = inetNtop addr) : ∀ e ∈ (handlerExit s h env).2, e.Described := by
  intro e he
  simp only [handlerExit, cleanupClientResources] at he
  rcases List.mem_append.1 he with he | he
  · split_ifs at he with hauth
    · rcases List.mem_append.1 he with he | he
      · exact (isMessage_broadcastMessage e he).described
      · rw [List.mem_singleton.1 he]
        have hnul : NulFree (s.clients h.slot).nick := fun h0 =>
          (isNickByte_clean _ (session_isNickByte hreg hinv hauth _ h0)).2.2 rfl
        exact described_audit .clientDisconnect hnul (hinv.word _ hauth).length_le hip
    · exact absurd he (by simp)
  · split_ifs at he
    · rw [List.mem_singleton.1 he]
      trivial
    · exact absurd he (by simp)

end effects

theorem described_step {C : Crypto} {users : SecureUsers} (husers : Registered users) {s : Server}
    (hs : Reachable C users s) (e : Event) : ∀ f ∈ (step C s e).2, f.Described := by
  intro f hf
  cases e with
  | connect fd addr now handshake =>
    simp only [step] at hf
    rcases handleNewConnection_cases s fd addr now handshake with ⟨i, -, -, heq⟩ | heq <;>
      rw [heq] at hf
    · exact absurd hf (by simp)
    · rw [List.mem_singleton.1 hf]
      trivial
  | start conn env =>
    simp only [step] at hf
    cases hh : s.handler? conn .starting with
    | none => simp [hh] at hf
    | some h =>
      simp only [hh] at hf
      exact described_handlerPrologue C s h env f hf
  | iterate conn env read =>
    simp only [step] at hf
    cases hh : s.handler? conn .looping with
    | none => simp [hh] at hf
    | some h =>
      simp only [hh] at hf
      exact described_handlerIteration C s env h read
        (Addressed.of_handler? (Reachable.addressed hs) hh (by decide)) f hf
  | exit conn env =>
    simp only [step] at hf
    cases hh : s.handler? conn .exiting with
    | none => simp [hh] at hf
    | some h =>
      simp only [hh] at hf
      exact described_handlerExit s env (Reachable.registered hs husers)
        (Reachable.sessionsInv hs) (Addressed.of_handler? (Reachable.addressed hs) hh (by decide))
        f hf
  | sweep now =>
    simp only [step, checkClientTimeouts] at hf
    obtain ⟨i, -, rfl⟩ := List.mem_map.1 hf
    trivial

/-- Every call of `log_security_event` in a run of the server is one that the theorem on
sequences of calls is about. -/
theorem run_described (C : Crypto) {users : SecureUsers} (husers : Registered users)
    (es : List Event) : ∀ e ∈ (run C (Server.init users) es).2, e.Described := by
  have hinit : Reachable C users (Server.init users) ∧ ∀ e ∈ ([] : List Effect), e.Described :=
    ⟨⟨[], rfl⟩, fun e he => absurd he (by simp)⟩
  exact (Runs.run_trace_invariant (I := fun s out => Reachable C users s ∧ ∀ e ∈ out, e.Described)
    (fun s out e hs => ⟨hs.1.after e, fun f hf => (List.mem_append.1 hf).elim (hs.2 f)
      (described_step husers hs.1 e f)⟩) hinit es).2

end Mesh
