import MeshMessenger.Proofs.Invariants

/-! A token that a registration issued opens the account from then on, although
the login format keeps 63 of its 64 digits. -/

namespace Mesh

open CLib

def registerLine (nick : Bytes) : Bytes := ascii "/register " ++ nick

/-! ### The reply that announces a registration -/

theorem successHead_isPrefix (nick token : Bytes) (level : ℤ) :
    successHead <+: snprintf 512 (registerSuccessFrame nick token level) := by
  refine List.prefix_take_iff.2 ⟨?_, by decide⟩
  simp only [registerSuccessFrame, List.append_assoc]
  exact List.prefix_append _ _

theorem not_successHead_rateLimit : ¬ successHead <+: rateLimitFrame := by decide

theorem not_successHead_error {message : Bytes} (h : message ∈ registrationErrors) :
    ¬ successHead <+: registerErrorFrame message := by
  simp only [registrationErrors, List.map_cons, List.map_nil, List.mem_cons, List.not_mem_nil,
    or_false] at h
  rcases h with rfl | rfl | rfl <;> decide

theorem parseRegister_registerLine {nick : Bytes} (h : IsWord 31 nick) :
    parseRegister (registerLine nick) = some nick := by
  have hline : registerLine nick = ascii "/register" ++ (32 :: nick) := by
    have hlit : ascii "/register " = ascii "/register" ++ [32] := by decide
    simp [registerLine, hlit]
  simp only [parseRegister, hline, scanLiteral_append, Option.bind_eq_bind, Option.bind_some,
    scanWord_space, scanWord_last (by decide : 0 < 31) h.ne_nil h.no_space, Option.pure_def,
    List.take_of_length_le h.length_le]

/-- A valid nick after a clean command word passes the input filter unchanged. -/
theorem commandOf_nickLine (head : Bytes) {nick : Bytes} (tail : Bytes)
    (hhead : ∀ c ∈ head, isFiltered c = false ∧ c ≠ 0)
    (hne : head.head? ≠ none) (hnl : head.head? ≠ some newline)
    (hnick : ∀ c ∈ nick, isNickByte c = true)
    (htail : ∀ c ∈ tail, isFiltered c = false ∧ c ≠ 0) :
    commandOf (head ++ nick ++ tail ++ [newline]) = some (head ++ nick ++ tail) := by
  have hclean : ∀ c ∈ head ++ nick ++ tail, isFiltered c = false ∧ c ≠ 0 := by
    intro c hc
    simp only [List.mem_append] at hc
    rcases hc with (hc | hc) | hc
    · exact hhead c hc
    · have := isNickByte_clean c (hnick c hc)
      exact ⟨this.1, this.2.2⟩
    · exact htail c hc
  obtain ⟨c, cs, rfl⟩ : ∃ c cs, head = c :: cs := by
    cases head with
    | nil => exact absurd rfl hne
    | cons c cs => exact ⟨c, cs, rfl⟩
  refine commandOf_line (by simp) (fun h0 => (hclean 0 h0).2 rfl) (fun c hc => (hclean c hc).1) ?_
  simpa using hnl

/-- A reply that announces success means that the row is in the table. -/
theorem registered_of_reply {C : Crypto} {s : Server} {h : Handler} {env : Env}
    {nick token : Bytes} {ssl : Option Conn} {level : ℤ}
    (hvalid : validateNickname nick = true) (hlen : nick.length ≤ maxNickLength)
    (hunauth : (s.clients h.slot).authorized = false)
    (htoken : generateSecureToken (tokenLength + 1) env.random = some token)
    {hne : registerLine nick ++ [newline] ≠ []}
    {hlt : (registerLine nick ++ [newline]).length < bufferSize}
    (hreply : .write ssl (snprintf 512 (registerSuccessFrame nick token level)) ∈
      (handlerIteration C s h env (.bytes (registerLine nick ++ [newline]) hne hlt)).2) :
    ∃ row ∈ (handlerIteration C s h env
        (.bytes (registerLine nick ++ [newline]) hne hlt)).1.users.rows,
      row.nick = nick ∧ row.token = token ∧ row.isLocked = false := by
  obtain ⟨hword, hbytes⟩ := validateNickname_isWord hvalid hlen
  have hcommand : commandOf (registerLine nick ++ [newline]) = some (registerLine nick) := by
    have := commandOf_nickLine (ascii "/register ") []
      (clean_word rfl) (by decide) (by decide) hbytes (by simp)
    simpa [registerLine] using this
  have hactive := noteActivity_refreshes s h.slot env.now h.slot
  have hhead := successHead_isPrefix nick token level
  rcases handlerIteration_cases C s h env (.bytes (registerLine nick ++ [newline]) hne hlt) with
    heq | heq | ⟨-, heq⟩ | heq | ⟨buffer, _, _, command, hread, -, -, hcommand', heq⟩
  · simp [heq] at hreply
  · simp [heq] at hreply
  · rw [heq] at hreply
    simp only [List.mem_singleton, Effect.write.injEq] at hreply
    rw [hreply.2] at hhead
    exact absurd hhead not_successHead_rateLimit
  · simp [heq] at hreply
  · obtain rfl := ReadResult.bytes.inj hread
    obtain rfl := Option.some.inj (hcommand.symm.trans hcommand')
    rw [heq] at hreply ⊢
    have hreg : processClientCommand C (s.noteActivity h.slot env.now) env h.slot h.ip
        (registerLine nick) =
        processRegistration (s.noteActivity h.slot env.now) env h.slot h.ip
          (registerLine nick) := by
      unfold processClientCommand handleUnauthorizedCommands
      rw [hactive.authorized, hunauth]
      rfl
    rw [hreg] at hreply ⊢
    rcases processRegistration_cases (s.noteActivity h.slot env.now) env h.slot h.ip
      (registerLine nick) with href | ⟨n, t, users, hparse, -, hgen, hinsert, hr⟩
    · rcases href.2 with hnil | ⟨message, hmem, hwrite⟩
      · simp [hnil] at hreply
      · rw [hwrite] at hreply
        simp only [List.mem_singleton, Effect.write.injEq] at hreply
        rw [hreply.2] at hhead
        exact absurd hhead (not_successHead_error hmem)
    · obtain rfl := Option.some.inj ((parseRegister_registerLine hword).symm.trans hparse)
      obtain rfl := Option.some.inj (htoken.symm.trans hgen)
      rw [hr]
      exact ⟨_, SecureUsers.newRow_mem_of_insert _ hinsert, rfl, rfl, rfl⟩

/-! ### Logging in -/

theorem processLogin_of_row (s : Server) {env : Env} (i : Slot) (ip : Bytes) {nick token : Bytes}
    (hn : IsWord 31 nick) (ht : ∀ c ∈ token, isNickByte c = true)
    (htlen : token.length = tokenLength)
    (hsel : env.selectOk = true)
    (hrow : ∃ row ∈ s.users.rows, row.nick = nick ∧ row.token = token ∧ row.isLocked = false) :
    ∃ row, (processLogin s env i ip (loginLine nick token)).1 =
      loggedIn s env i row nick (token.take 63) := by
  have hne : token ≠ [] := by
    rintro rfl
    simp [tokenLength] at htlen
  have hparse := parseLogin_loginLine hn hne fun c hc => (isNickByte_clean c (ht c hc)).2.1
  have hnul : NulFree (token.take 63) := fun h0 =>
    (isNickByte_clean 0 (ht 0 (List.mem_of_mem_take h0))).2.2 rfl
  have hauth : (authenticateUser s env i nick (token.take 63)).2 = true := by
    apply (authenticateUser_snd_iff hsel hnul).2
    obtain ⟨row, hmem, rfl, rfl, hl⟩ := hrow
    exact ⟨row, hmem, hl, caseEq_refl _, List.take_prefix _ _⟩
  rcases processLogin_cases s env i ip (loginLine nick token) with
    ⟨hp, -⟩ | ⟨n, t, hp, hfalse, -⟩ | ⟨n, t, row, hp, -, -, -, -, heq⟩
  · simp [hparse] at hp
  · obtain ⟨rfl, rfl⟩ := Prod.mk.inj (Option.some.inj (hparse.symm.trans hp))
    simp [hauth] at hfalse
  · obtain ⟨rfl, rfl⟩ := Prod.mk.inj (Option.some.inj (hparse.symm.trans hp))
    exact ⟨row, by rw [heq]⟩

/-- An unauthorised connection within its rate limit that delivers a nick and the
token stored with it in one line is logged in under that nick. -/
theorem stored_token_logs_in (C : Crypto) {t : Server} {nick token : Bytes}
    (hword : IsWord 31 nick) (hbytes : ∀ c ∈ nick, isNickByte c = true)
    (htlen : token.length = tokenLength) (htbytes : ∀ c ∈ token, isNickByte c = true)
    (hrow : ∃ row ∈ t.users.rows, row.nick = nick ∧ row.token = token ∧ row.isLocked = false)
    {conn : Conn} {h : Handler} (hh : t.handler? conn .looping = some h)
    (hunauth : (t.clients h.slot).authorized = false) (hfd : 0 ≤ (t.clients h.slot).fd)
    {env : Env} (hlimit : t.withinLimit h.slot env.now = true) (hsel : env.selectOk = true)
    (hne : loginLine nick token ++ [newline] ≠ [])
    (hlt : (loginLine nick token ++ [newline]).length < bufferSize) :
    let t' := (step C t (.iterate conn env
      (.bytes (loginLine nick token ++ [newline]) hne hlt))).1
    (t'.clients h.slot).authorized = true ∧ (t'.clients h.slot).nick = nick := by
  have hcommand : commandOf (loginLine nick token ++ [newline]) = some (loginLine nick token) := by
    have := commandOf_nickLine (ascii "/login ") (ascii " " ++ token)
      (clean_word rfl) (by decide) (by decide) hbytes (by
        intro c hc
        rcases List.mem_append.1 hc with hc | hc
        · exact clean_word rfl c hc
        · have := isNickByte_clean c (htbytes c hc)
          exact ⟨this.1, this.2.2⟩)
    simpa [loginLine] using this
  have hactive := noteActivity_refreshes t h.slot env.now h.slot
  have hlogin : processClientCommand C (t.noteActivity h.slot env.now) env h.slot h.ip
      (loginLine nick token) =
      processLogin (t.noteActivity h.slot env.now) env h.slot h.ip (loginLine nick token) := by
    unfold processClientCommand handleUnauthorizedCommands
    rw [hactive.authorized, hunauth]
    rfl
  obtain ⟨row, heq⟩ := processLogin_of_row (t.noteActivity h.slot env.now) h.slot h.ip
    hword htbytes htlen hsel hrow
  simp only [step, hh, handlerIteration_command C hne hlt hfd hlimit hcommand, hlogin, heq,
    loggedIn_clients, Function.update_self]
  exact ⟨rfl, login_nick _ hword _⟩

/-- After a registration that was answered with a token, and after any further
events, an unauthorised connection within its rate limit that delivers the nick
and the token in one line is logged in under that nick. -/
theorem issued_token_logs_in (C : Crypto) (s : Server) {nick token : Bytes}
    (hvalid : validateNickname nick = true) (hlen : nick.length ≤ maxNickLength)
    {conn : Conn} {h : Handler} (hh : s.handler? conn .looping = some h)
    (hunauth : (s.clients h.slot).authorized = false) {env : Env}
    (htoken : generateSecureToken (tokenLength + 1) env.random = some token)
    {hne : registerLine nick ++ [newline] ≠ []}
    {hlt : (registerLine nick ++ [newline]).length < bufferSize}
    {ssl : Option Conn} {level : ℤ} {s' : Server} {effects : List Effect}
    (hstep : step C s (.iterate conn env (.bytes (registerLine nick ++ [newline]) hne hlt)) =
      (s', effects))
    (hreply : .write ssl (snprintf 512 (registerSuccessFrame nick token level)) ∈ effects)
    (es : List Event) {t : Server} (ht : t = (run C s' es).1)
    {conn' : Conn} {h' : Handler} (hh' : t.handler? conn' .looping = some h')
    (hunauth' : (t.clients h'.slot).authorized = false) (hfd : 0 ≤ (t.clients h'.slot).fd)
    {env' : Env} (hlimit : t.withinLimit h'.slot env'.now = true) (hsel : env'.selectOk = true)
    {hne' : loginLine nick token ++ [newline] ≠ []}
    {hlt' : (loginLine nick token ++ [newline]).length < bufferSize} :
    let t' := (step C t (.iterate conn' env'
      (.bytes (loginLine nick token ++ [newline]) hne' hlt'))).1
    (t'.clients h'.slot).authorized = true ∧ (t'.clients h'.slot).nick = nick := by
  obtain ⟨hword, hbytes⟩ := validateNickname_isWord hvalid hlen
  obtain ⟨htlen, htbytes⟩ := generateSecureToken_spec htoken
  -- the row is there after the registration, and it is still there at the login
  have hrow : ∃ row ∈ t.users.rows, row.nick = nick ∧ row.token = token ∧ row.isLocked = false := by
    simp only [step, hh] at hstep
    rw [show effects = _ from (congrArg Prod.snd hstep).symm] at hreply
    obtain ⟨row, hmem, hn, htok, hl⟩ := registered_of_reply hvalid hlen hunauth htoken hreply
    rw [hstep] at hmem
    obtain ⟨row', hmem', -, hn', htok', hl'⟩ := run_keeps C s' es row hmem
    exact ⟨row', ht ▸ hmem', hn'.trans hn, htok'.trans htok, hl'.trans hl⟩
  exact stored_token_logs_in C hword hbytes htlen htbytes hrow hh' hunauth' hfd hlimit hsel _ _

/-- The token of 64 ones issued to `bob` works on a connection made afterwards. -/
theorem issued_token_logs_in_bob :
    let s := (run Sample.crypto (Server.init SecureUsers.empty) Sample.connected).1
    let s' := (step Sample.crypto s (.iterate 0 (Sample.env 1001 17)
      (.bytes (registerLine (ascii "bob") ++ [newline]) (by decide) (by decide)))).1
    let t := (run Sample.crypto s' Sample.joined).1
    let t' := (step Sample.crypto t (.iterate 1 (Sample.env 1003 0)
      (.bytes (loginLine (ascii "bob") (List.replicate 64 49) ++ [newline]) (by decide)
        (by decide)))).1
    (t'.clients Sample.secondSlot).authorized = true ∧
      (t'.clients Sample.secondSlot).nick = ascii "bob" := by
  intro s s' t t'
  obtain ⟨hh, hunauth⟩ :
      s.handler? 0 .looping = some ⟨0, Sample.firstSlot, ascii "127.0.0.1", .looping⟩ ∧
      (s.clients Sample.firstSlot).authorized = false := by decide +kernel
  obtain ⟨hh', hunauth', hfd, hlimit⟩ :
      t.handler? 1 .looping = some ⟨1, Sample.secondSlot, ascii "127.0.0.1", .looping⟩ ∧
      (t.clients Sample.secondSlot).authorized = false ∧
      0 ≤ (t.clients Sample.secondSlot).fd ∧
      t.withinLimit Sample.secondSlot 1003 = true := by decide +kernel
  have hreply : .write (some 0)
      (snprintf 512 (registerSuccessFrame (ascii "bob") (List.replicate 64 49) 1)) ∈
      (step Sample.crypto s (.iterate 0 (Sample.env 1001 17)
        (.bytes (registerLine (ascii "bob") ++ [newline]) (by decide) (by decide)))).2 := by
    decide +kernel
  have htoken : generateSecureToken (tokenLength + 1) (Sample.env 1001 17).random =
      some (List.replicate 64 49) := rfl
  have hstep : step Sample.crypto s (.iterate 0 (Sample.env 1001 17)
      (.bytes (registerLine (ascii "bob") ++ [newline]) (by decide) (by decide))) =
      (s', (step Sample.crypto s (.iterate 0 (Sample.env 1001 17)
        (.bytes (registerLine (ascii "bob") ++ [newline]) (by decide) (by decide)))).2) :=
    (Prod.eta _).symm
  have ht : t = (run Sample.crypto s' Sample.joined).1 := rfl
  clear_value s s' t
  have hvalid : validateNickname (ascii "bob") = true := by decide
  have hsel : (Sample.env 1003 0).selectOk = true := rfl
  exact issued_token_logs_in Sample.crypto s hvalid (by decide) hh hunauth htoken hstep hreply
    Sample.joined ht hh' hunauth' hfd hlimit hsel

end Mesh
