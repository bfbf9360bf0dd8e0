import MeshMessenger.Proofs.Moves

/-! What an unauthorised client's iteration leaves alone. Only an authentication
changes its slot and only an INSERT adds a row; a command that fails changes
nothing but the slot's clock and rate counter. -/

namespace Mesh

open CLib

/-! ### What a command does -/

/-- The slot without the two fields every read refreshes. -/
def SecureClient.steady (c : SecureClient) : SecureClient :=
  { c with lastActivity := 0, rateLimit := ⟨0, 0⟩ }

/-- The command that an iteration passes to `process_client_command`, if any. -/
def commandRead (s : Server) (h : Handler) (env : Env) : ReadResult → Option Bytes
  | .bytes buffer _ _ =>
    if (s.clients h.slot).fd < 0 ∨ s.withinLimit h.slot env.now = false then none
    else commandOf buffer
  | _ => none

/-- The command is a `/login` that `authenticate_user` accepts. -/
def Authenticates (s : Server) (env : Env) (i : Slot) (command : Bytes) : Prop :=
  (ascii "/login").isPrefixOf command = true ∧ ∃ nick token,
    parseLogin command = some (nick, token) ∧ (authenticateUser s env i nick token).2 = true

/-- The command is a `/register` that gets as far as an INSERT of this nick and
token which succeeds. -/
def InsertsUser (s : Server) (env : Env) (i : Slot) (ip command nick token : Bytes) : Prop :=
  (ascii "/register").isPrefixOf command = true ∧ parseRegister command = some nick ∧
    validateNickname nick = true ∧ checkNicknameExists s env nick = false ∧
    generateSecureToken (tokenLength + 1) env.random = some token ∧
    ∃ users, saveUserToDatabase s env i nick token ip = some users

def Inserts (s : Server) (env : Env) (i : Slot) (ip command : Bytes) : Prop :=
  ∃ nick token, InsertsUser s env i ip command nick token

/-- The failing paths of `handle_unauthorized_commands`. -/
inductive CommandFails (s : Server) (env : Env) (i : Slot) (ip command : Bytes) : Prop
  | badNick (hr : (ascii "/register").isPrefixOf command = true)
      (hbad : ∀ nick, parseRegister command = some nick → validateNickname nick = false)
  | takenNick {nick : Bytes} (hr : (ascii "/register").isPrefixOf command = true)
      (hparse : parseRegister command = some nick) (htaken : checkNicknameExists s env nick = true)
  | noToken (hr : (ascii "/register").isPrefixOf command = true)
      (htoken : generateSecureToken (tokenLength + 1) env.random = none)
  | insertFailed {nick token : Bytes} (hr : (ascii "/register").isPrefixOf command = true)
      (hparse : parseRegister command = some nick)
      (htoken : generateSecureToken (tokenLength + 1) env.random = some token)
      (hinsert : saveUserToDatabase s env i nick token ip = none)
  | malformedLogin (hl : (ascii "/login").isPrefixOf command = true)
      (hparse : parseLogin command = none)
  | selectFailed (hl : (ascii "/login").isPrefixOf command = true) (hsel : env.selectOk = false)
  | unknownNick {nick token : Bytes} (hl : (ascii "/login").isPrefixOf command = true)
      (hparse : parseLogin command = some (nick, token)) (hfind : s.users.findUnlocked nick = none)
  | wrongToken {nick token : Bytes} {row : UserRow}
      (hl : (ascii "/login").isPrefixOf command = true)
      (hparse : parseLogin command = some (nick, token))
      (hfind : s.users.findUnlocked nick = some row)
      (hcmp : constantTimeCompare (stored row.token) (stored token) token.length = false)
  | unknown (hr : (ascii "/register").isPrefixOf command = false)
      (hl : (ascii "/login").isPrefixOf command = false)

/-- `r'` is the row `r` with its nick, token, lock and security level. -/
def SameAccount (r r' : UserRow) : Prop :=
  r'.nick = r.nick ∧ r'.token = r.token ∧ r'.isLocked = r.isLocked ∧
    r'.securityLevel = r.securityLevel

/-- What the iteration of an unauthorised client on slot `i` may change, where
`auth` says that `authenticate_user` succeeded, `ins` that the INSERT did, and
`command` is what the client sent. -/
structure CommandFrame (s s' : Server) (i : Slot) (auth ins : Prop) (command : Option Bytes) :
    Prop where
  others : ∀ j, j ≠ i → s'.clients j = s.clients j
  own : ¬ auth → (s'.clients i).steady = (s.clients i).steady
  kept : List.Forall₂ SameAccount s.users.rows (s'.users.rows.take s.users.rows.length)
  no_row : ¬ ins → s'.users.rows.length = s.users.rows.length
  one_row : ins → s'.users.rows.length = s.users.rows.length + 1
  unauthorized : (∀ c, command = some c → (ascii "/register").isPrefixOf c = true) →
    (s'.clients i).authorized = false
  failed : ¬ auth → ¬ ins → s'.users = s.users ∧ s'.peers = s.peers

/-! ### The three outcomes of a command -/

section outcomes

variable {s : Server} {env : Env} {i : Slot} {ip command : Bytes}

theorem not_register_of_login (h : (ascii "/login").isPrefixOf command = true) :
    (ascii "/register").isPrefixOf command = false := by
  obtain ⟨rest, rfl⟩ := List.isPrefixOf_iff_prefix.1 h
  rfl

theorem handleUnauthorizedCommands_inserts {nick token : Bytes}
    (h : InsertsUser s env i ip command nick token) :
    ∃ row users, row.nick = nick ∧ row.token = token ∧ row.isLocked = false ∧
      users.rows = s.users.rows ++ [row] ∧
      (handleUnauthorizedCommands s env i ip command).1 = { s with users := users } := by
  obtain ⟨hr, hparse, hvalid, hexists, htoken, users, hsave⟩ := h
  have hinsert : s.users.insert nick token ip (s.clients i).regId (s.clients i).publicKey
      (s.clients i).securityLevel = some users := by
    unfold saveUserToDatabase at hsave
    split_ifs at hsave
    exact hsave
  refine ⟨_, users, rfl, rfl, rfl, (s.users.insert_eq_some hinsert).2, ?_⟩
  unfold handleUnauthorizedCommands
  rw [if_pos hr]
  simp [processRegistration, hparse, hvalid, hexists, htoken, hsave]

theorem handleUnauthorizedCommands_authenticates (ip : Bytes)
    (h : Authenticates s env i command) :
    ∃ row nick token,
      (handleUnauthorizedCommands s env i ip command).1 = loggedIn s env i row nick token := by
  obtain ⟨hl, nick, token, hparse, hauth⟩ := h
  unfold handleUnauthorizedCommands
  rw [if_neg (by simp [not_register_of_login hl]), if_pos hl]
  rcases processLogin_cases s env i ip command with
    ⟨hnone, -⟩ | ⟨n, t, hsome, hfalse, -⟩ | ⟨n, t, row, -, -, -, -, -, heq⟩
  · rw [hparse] at hnone
    exact absurd hnone (by simp)
  · rw [hparse] at hsome
    obtain ⟨rfl, rfl⟩ := Prod.mk.inj (Option.some.inj hsome)
    rw [hauth] at hfalse
    exact absurd hfalse (by simp)
  · exact ⟨row, n, t, by rw [heq]⟩

/-- Without an authentication and without a successful INSERT the state stays. -/
theorem handleUnauthorizedCommands_fails (hauth : ¬ Authenticates s env i command)
    (hins : ¬ Inserts s env i ip command) :
    (handleUnauthorizedCommands s env i ip command).1 = s := by
  unfold handleUnauthorizedCommands
  split_ifs with hr hl
  · unfold processRegistration
    cases hparse : parseRegister command with
    | none => rfl
    | some nick =>
      simp only
      split_ifs with hvalid hexists
      · rfl
      · rfl
      · cases htoken : generateSecureToken (tokenLength + 1) env.random with
        | none => rfl
        | some token =>
          cases hsave : saveUserToDatabase s env i nick token ip with
          | none => simp only [hsave]
          | some users =>
            refine absurd ⟨nick, token, hr, hparse, ?_, ?_, htoken, users, hsave⟩ hins
            · simpa using hvalid
            · simpa using hexists
  · rcases processLogin_cases s env i ip command with
      ⟨-, heq⟩ | ⟨n, t, -, -, heq⟩ | ⟨n, t, row, hparse, hok, -, -, -, -⟩
    · rw [heq]
    · rw [heq]
    · exact absurd ⟨hl, n, t, hparse, hok⟩ hauth
  · rfl
  · rfl

theorem not_authenticates_of_register (h : (ascii "/register").isPrefixOf command = true) :
    ¬ Authenticates s env i command := by
  rintro ⟨hl, -⟩
  rw [not_register_of_login hl] at h
  exact absurd h (by simp)

theorem not_inserts_of_login (h : (ascii "/login").isPrefixOf command = true) :
    ¬ Inserts s env i ip command := by
  rintro ⟨-, -, hr, -⟩
  rw [not_register_of_login h] at hr
  exact absurd hr (by simp)

/-- `authenticate_user` accepts no command on a failing path, and none of them
gets to a successful INSERT. -/
theorem CommandFails.refused (h : CommandFails s env i ip command) :
    ¬ Authenticates s env i command ∧ ¬ Inserts s env i ip command := by
  cases h with
  | badNick hr hbad =>
    refine ⟨not_authenticates_of_register hr, ?_⟩
    rintro ⟨nick, -, -, hparse, hvalid, -⟩
    rw [hbad nick hparse] at hvalid
    exact absurd hvalid (by simp)
  | takenNick hr hparse htaken =>
    refine ⟨not_authenticates_of_register hr, ?_⟩
    rintro ⟨nick, -, -, hparse', -, hfree, -⟩
    obtain rfl := Option.some.inj (hparse.symm.trans hparse')
    rw [htaken] at hfree
    exact absurd hfree (by simp)
  | noToken hr htoken =>
    refine ⟨not_authenticates_of_register hr, ?_⟩
    rintro ⟨-, token, -, -, -, -, htoken', -⟩
    rw [htoken] at htoken'
    exact absurd htoken' (by simp)
  | insertFailed hr hparse htoken hinsert =>
    refine ⟨not_authenticates_of_register hr, ?_⟩
    rintro ⟨nick, token, -, hparse', -, -, htoken', users, hsave⟩
    obtain rfl := Option.some.inj (hparse.symm.trans hparse')
    obtain rfl := Option.some.inj (htoken.symm.trans htoken')
    rw [hinsert] at hsave
    exact absurd hsave (by simp)
  | malformedLogin hl hparse =>
    refine ⟨?_, not_inserts_of_login hl⟩
    rintro ⟨-, nick, token, hparse', -⟩
    rw [hparse] at hparse'
    exact absurd hparse' (by simp)
  | selectFailed hl hsel =>
    refine ⟨?_, not_inserts_of_login hl⟩
    rintro ⟨-, nick, token, -, hauth⟩
    simp [authenticateUser, hsel] at hauth
  | unknownNick hl hparse hfind =>
    refine ⟨?_, not_inserts_of_login hl⟩
    rintro ⟨-, nick, token, hparse', hauth⟩
    obtain ⟨rfl, rfl⟩ := Prod.mk.inj (Option.some.inj (hparse.symm.trans hparse'))
    simp [authenticateUser, hfind] at hauth
  | wrongToken hl hparse hfind hcmp =>
    refine ⟨?_, not_inserts_of_login hl⟩
    rintro ⟨-, nick, token, hparse', hauth⟩
    obtain ⟨rfl, rfl⟩ := Prod.mk.inj (Option.some.inj (hparse.symm.trans hparse'))
    simp [authenticateUser, hfind, hcmp] at hauth
  | unknown hr hl =>
    refine ⟨?_, ?_⟩
    · rintro ⟨hl', -⟩
      rw [hl] at hl'
      exact absurd hl' (by simp)
    · rintro ⟨-, -, hr', -⟩
      rw [hr] at hr'
      exact absurd hr' (by simp)

end outcomes

/-! ### The frame of an iteration -/

theorem SameAccount.refl (r : UserRow) : SameAccount r r := ⟨rfl, rfl, rfl, rfl⟩

theorem sameAccount_touch (nick : Bytes) (now : ℤ) (r : UserRow) :
    SameAccount r (SecureUsers.touch nick now r) := by
  unfold SecureUsers.touch
  split <;> exact ⟨rfl, rfl, rfl, rfl⟩

theorem sameAccount_rows (rows : List UserRow) : List.Forall₂ SameAccount rows rows :=
  List.forall₂_same.2 fun r _ => SameAccount.refl r

/-- A login leaves as many rows, each with its nick, token, lock and level. -/
theorem loggedIn_rows (s : Server) (env : Env) (i : Slot) (row : UserRow) (nick token : Bytes) :
    List.Forall₂ SameAccount s.users.rows (loggedIn s env i row nick token).users.rows := by
  rw [loggedIn_users]
  split_ifs
  · change List.Forall₂ SameAccount _ (s.users.rows.map _)
    rw [List.forall₂_map_right_iff]
    exact List.forall₂_same.2 fun r _ => sameAccount_touch nick env.now r
  · exact sameAccount_rows _

/-- An iteration that leaves the slots to their clocks and the tables alone. -/
theorem CommandFrame.of_steady {s s' : Server} {i : Slot} {auth ins : Prop}
    {command : Option Bytes} (hun : (s.clients i).authorized = false)
    (hothers : ∀ j, j ≠ i → s'.clients j = s.clients j)
    (hown : (s'.clients i).steady = (s.clients i).steady) (husers : s'.users = s.users)
    (hpeers : s'.peers = s.peers) (hins : ¬ ins) : CommandFrame s s' i auth ins command where
  others := hothers
  own _ := hown
  kept := by
    rw [husers, List.take_length]
    exact sameAccount_rows _
  no_row _ := by rw [husers]
  one_row h := absurd h hins
  unauthorized _ := (congrArg SecureClient.authorized hown).trans hun
  failed _ _ := ⟨husers, hpeers⟩

section noteActivity

variable (s : Server) (i : Slot) (now : ℤ)

theorem noteActivity_steady (j : Slot) :
    ((s.noteActivity i now).clients j).steady = (s.clients j).steady :=
  noteActivity_field (f := SecureClient.steady) (fun _ _ _ => rfl) s i now j

theorem noteActivity_ne {j : Slot} (hj : j ≠ i) :
    (s.noteActivity i now).clients j = s.clients j := setClient_ne _ _ _ hj

theorem authenticates_noteActivity (env : Env) (command : Bytes) :
    Authenticates (s.noteActivity i now) env i command ↔ Authenticates s env i command := by
  have hsnd (nick token : Bytes) : (authenticateUser (s.noteActivity i now) env i nick token).2 =
      (authenticateUser s env i nick token).2 := by
    unfold authenticateUser
    rw [noteActivity_users]
    split_ifs
    · rfl
    · cases s.users.findUnlocked nick with
      | none => rfl
      | some row =>
        simp only
        split_ifs <;> rfl
  unfold Authenticates
  simp only [hsnd]

theorem insertsUser_noteActivity (env : Env) (ip command nick token : Bytes) :
    InsertsUser (s.noteActivity i now) env i ip command nick token ↔
      InsertsUser s env i ip command nick token := by
  have hsave : saveUserToDatabase (s.noteActivity i now) env i nick token ip =
      saveUserToDatabase s env i nick token ip := by
    have hsteady := noteActivity_steady s i now i
    have hreg := congrArg SecureClient.regId hsteady
    have hkey := congrArg SecureClient.publicKey hsteady
    have hlevel := congrArg SecureClient.securityLevel hsteady
    simp only [SecureClient.steady] at hreg hkey hlevel
    unfold saveUserToDatabase
    rw [noteActivity_users, hreg, hkey, hlevel]
  unfold InsertsUser
  rw [hsave]
  rfl

theorem inserts_noteActivity (env : Env) (ip command : Bytes) :
    Inserts (s.noteActivity i now) env i ip command ↔ Inserts s env i ip command :=
  exists_congr fun nick => exists_congr fun token =>
    insertsUser_noteActivity s i now env ip command nick token

end noteActivity

/-- The frame of one command, run in the state the read left. -/
theorem handleUnauthorizedCommands_frame (s : Server) (env : Env) (i : Slot) (ip command : Bytes)
    (now : ℤ) (hun : (s.clients i).authorized = false) :
    CommandFrame s (handleUnauthorizedCommands (s.noteActivity i now) env i ip command).1 i
      (Authenticates s env i command) (Inserts s env i ip command) (some command) := by
  set t := s.noteActivity i now with ht
  by_cases hins : Inserts s env i ip command
  · obtain ⟨nick, token, huser⟩ := (inserts_noteActivity s i now env ip command).2 hins
    obtain ⟨row, users, -, -, -, hrows, heq⟩ := handleUnauthorizedCommands_inserts huser
    rw [heq]
    have hlen : users.rows.length = s.users.rows.length + 1 := by
      rw [hrows, List.length_append]
      rfl
    exact {
      others := fun j hj => noteActivity_ne s i now hj
      own := fun _ => noteActivity_steady s i now i
      kept := by
        rw [hrows, noteActivity_users, List.take_left]
        exact sameAccount_rows _
      no_row := fun h => absurd hins h
      one_row := fun _ => hlen
      unauthorized := fun _ =>
        (congrArg SecureClient.authorized (noteActivity_steady s i now i)).trans hun
      failed := fun _ h => absurd hins h }
  · by_cases hauth : Authenticates s env i command
    · obtain ⟨row, nick, token, heq⟩ := handleUnauthorizedCommands_authenticates ip
        ((authenticates_noteActivity s i now env command).2 hauth)
      rw [heq]
      have hrows := loggedIn_rows t env i row nick token
      rw [ht, noteActivity_users, ← ht] at hrows
      exact {
        others := fun j hj => by
          rw [loggedIn_clients, Function.update_of_ne hj]
          exact noteActivity_ne s i now hj
        own := fun h => absurd hauth h
        kept := by
          rw [hrows.length_eq, List.take_length]
          exact hrows
        no_row := fun _ => hrows.length_eq.symm
        one_row := fun h => absurd h hins
        unauthorized := fun h => absurd hauth (not_authenticates_of_register (h command rfl))
        failed := fun h _ => absurd hauth h }
    · rw [handleUnauthorizedCommands_fails (mt (authenticates_noteActivity s i now env command).1 hauth)
        (mt (inserts_noteActivity s i now env ip command).1 hins)]
      exact .of_steady hun (fun j hj => noteActivity_ne s i now hj) (noteActivity_steady s i now i)
        rfl rfl hins

theorem handlerIteration_commandRead (C : Crypto) {s : Server} {h : Handler} {env : Env}
    {read : ReadResult} {command : Bytes} (hread : commandRead s h env read = some command) :
    handlerIteration C s h env read =
      processClientCommand C (s.noteActivity h.slot env.now) env h.slot h.ip command := by
  cases read with
  | error => exact absurd hread (by simp [commandRead])
  | zero => exact absurd hread (by simp [commandRead])
  | bytes buffer hne hlt =>
    unfold commandRead at hread
    split_ifs at hread with hno
    push Not at hno
    exact handlerIteration_command C hne hlt hno.1 (by simpa using hno.2) hread

theorem handlerIteration_no_command (C : Crypto) {s : Server} {h : Handler} {env : Env}
    {read : ReadResult} (hread : commandRead s h env read = none) :
    (handlerIteration C s h env read).1 = s.setHandler h.conn h.ip .exiting ∨
      (handlerIteration C s h env read).1 = s ∨
      (handlerIteration C s h env read).1 = s.noteActivity h.slot env.now := by
  rcases handlerIteration_cases C s h env read with
    heq | heq | ⟨-, heq⟩ | heq | ⟨buffer, hne, hlt, command, rfl, hfd, hlimit, hcommand, -⟩
  · exact .inl (by rw [heq])
  · exact .inr (.inl (by rw [heq]))
  · exact .inr (.inr (by rw [heq]))
  · exact .inr (.inr (by rw [heq]))
  · have hsome : commandRead s h env (.bytes buffer hne hlt) = some command := by
      simp [commandRead, not_lt.2 hfd, hlimit, hcommand]
    rw [hsome] at hread
    exact absurd hread (by simp)

/-- For every state and every unauthorised client, an iteration of its handler
changes its slot only by an authentication and the table only by an INSERT, and
every failing command leaves sessions, users and peers as they were. -/
theorem unauthorized_iteration_frame (C : Crypto) (s : Server) (conn : Conn) (h : Handler)
    (env : Env) (read : ReadResult) (hh : s.handler? conn .looping = some h)
    (hun : (s.clients h.slot).authorized = false) :
    let s' := (step C s (.iterate conn env read)).1
    CommandFrame s s' h.slot
        (∃ c, commandRead s h env read = some c ∧ Authenticates s env h.slot c)
        (∃ c, commandRead s h env read = some c ∧ Inserts s env h.slot h.ip c)
        (commandRead s h env read) ∧
      ∀ c, commandRead s h env read = some c → CommandFails s env h.slot h.ip c →
        (∀ j, (s'.clients j).steady = (s.clients j).steady) ∧
          s'.users = s.users ∧ s'.peers = s.peers := by
  simp only [step, hh]
  cases hread : commandRead s h env read with
  | none =>
    refine ⟨?_, fun c hc => absurd hc (by simp)⟩
    have hins : ¬ ∃ c, (none : Option Bytes) = some c ∧ Inserts s env h.slot h.ip c := by simp
    rcases handlerIteration_no_command C hread with heq | heq | heq <;> rw [heq]
    · exact .of_steady hun (fun _ _ => rfl) rfl rfl rfl hins
    · exact .of_steady hun (fun _ _ => rfl) rfl rfl rfl hins
    · exact .of_steady hun (fun j hj => noteActivity_ne s _ _ hj) (noteActivity_steady s _ _ _)
        rfl rfl hins
  | some command =>
    have hun' : ((s.noteActivity h.slot env.now).clients h.slot).authorized = false :=
      (noteActivity_refreshes s h.slot env.now h.slot).authorized.trans hun
    have hrun : handlerIteration C s h env read =
        handleUnauthorizedCommands (s.noteActivity h.slot env.now) env h.slot h.ip command := by
      rw [handlerIteration_commandRead C hread, processClientCommand, hun']
      rfl
    have hframe := handleUnauthorizedCommands_frame s env h.slot h.ip command env.now hun
    rw [hrun]
    refine ⟨by simpa only [Option.some.injEq, exists_eq_left'] using hframe, ?_⟩
    intro c hc hfails
    obtain rfl := Option.some.inj hc
    obtain ⟨hauth, hins⟩ := hfails.refused
    refine ⟨fun j => ?_, hframe.failed hauth hins⟩
    by_cases hj : j = h.slot
    · rw [hj]
      exact hframe.own hauth
    · rw [hframe.others j hj]

/-- A login under a nick that nobody registered leaves everything as it was. -/
theorem unknown_login_changes_nothing :
    let s := (run Sample.crypto (Server.init SecureUsers.empty) Sample.registered).1
    let s' := (step Sample.crypto s
      (.iterate 0 (Sample.env 1002 0) (Sample.line "/login eve 1"))).1
    s.users.rows.length = 1 ∧ s'.users = s.users ∧ s'.peers = s.peers ∧
      ∀ j, (s'.clients j).steady = (s.clients j).steady := by
  intro s s'
  have hs : s.handler? 0 .looping = some ⟨0, Sample.firstSlot, ascii "127.0.0.1", .looping⟩ ∧
      (s.clients Sample.firstSlot).authorized = false ∧ s.users.rows.length = 1 ∧
      commandRead s ⟨0, Sample.firstSlot, ascii "127.0.0.1", .looping⟩ (Sample.env 1002 0)
        (Sample.line "/login eve 1") = some (ascii "/login eve 1") ∧
      (s.users.findUnlocked (ascii "eve")).isNone = true := by
    decide +kernel
  obtain ⟨hh, hun, hrows, hread, hfind⟩ := hs
  clear_value s
  have hparse : parseLogin (ascii "/login eve 1") = some (ascii "eve", ascii "1") := by
    decide
  have hunchanged := (unauthorized_iteration_frame Sample.crypto s 0 _ (Sample.env 1002 0)
    (Sample.line "/login eve 1") hh hun).2 _ hread
    (.unknownNick (by decide) hparse (Option.isNone_iff_eq_none.1 hfind))
  exact ⟨hrows, hunchanged.2.1, hunchanged.2.2, hunchanged.1⟩

end Mesh
