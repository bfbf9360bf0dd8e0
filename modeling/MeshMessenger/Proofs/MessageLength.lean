import MeshMessenger.Proofs.Moves

/-! The length of what clients make the server relay: the texts that reach
`broadcast_message` and `send_private_message` in a run. -/

namespace Mesh

open CLib

/-! ### Relayed texts -/

/-- A call of `broadcast_message` or `send_private_message`. -/
inductive Relay where
  | toAll (sender text : Bytes)
  | toOne (sender target text : Bytes)

def Relay.text : Relay → Bytes
  | .toAll _ text => text
  | .toOne _ _ text => text

def Relay.effects (s : Server) (env : Env) : Relay → List Effect
  | .toAll sender text => broadcastMessage s env sender text
  | .toOne sender target text => sendPrivateMessage s env sender target text

/-- The calls that a login leads to. -/
def loginRelays (s : Server) (env : Env) (i : Slot) (command : Bytes) : List Relay :=
  match parseLogin command with
  | none => []
  | some (nick, token) =>
    if (authenticateUser s env i nick token).2 then [.toAll system (joinNotice nick)] else []

/-- The calls that a private message of `nick` leads to. -/
def privateRelays (nick command : Bytes) : List Relay :=
  match parseMsg command with
  | none => []
  | some (target, message) => if validateMessage message then [.toOne nick target message] else []

/-- The calls that a command of an authorised client leads to. -/
def authorizedRelays (nick command : Bytes) : List Relay :=
  if command = ascii "/online" then []
  else if (ascii "/msg").isPrefixOf command then privateRelays nick command
  else if (ascii "/send_enc").isPrefixOf command then []
  else if validateMessage command then [.toAll nick command]
  else []

/-- The calls that `process_client_command` leads to. -/
def commandRelays (s : Server) (env : Env) (i : Slot) (command : Bytes) : List Relay :=
  if (s.clients i).authorized then authorizedRelays (s.clients i).nick command
  else if (ascii "/register").isPrefixOf command then []
  else if (ascii "/login").isPrefixOf command then loginRelays s env i command
  else []

/-- The command that a step hands to `process_client_command`, with the slot it came in on
and what the step draws from its environment. -/
def stepCommand (s : Server) : Event → Option (Slot × Env × Bytes)
  | .iterate conn env (.bytes buffer _ _) =>
    match s.handler? conn .looping with
    | none => none
    | some h =>
      if 0 ≤ (s.clients h.slot).fd ∧ s.withinLimit h.slot env.now = true then
        (commandOf buffer).map fun command => (h.slot, env, command)
      else none
  | _ => none

def relays (s : Server) (e : Event) : List Relay :=
  match stepCommand s e with
  | none => []
  | some (i, env, command) => commandRelays (s.noteActivity i env.now) env i command

/-- The machine with the calls that clients' commands lead to as outputs. -/
def relayStep (C : Crypto) (s : Server) (e : Event) : Server × List Relay :=
  ((step C s e).1, relays s e)

/-! ### The calls are in the effects -/

/-- The effects are those of the calls, among others that save nothing. -/
def Relayed (s : Server) (env : Env) (calls : List Relay) (effects : List Effect) : Prop :=
  ∃ before after, effects = before ++ calls.flatMap (Relay.effects s env) ++ after ∧
    savedRows before = [] ∧ savedRows after = []

theorem Relayed.of_no_call {s : Server} {env : Env} {effects : List Effect}
    (h : savedRows effects = []) : Relayed s env [] effects :=
  ⟨effects, [], by simp, h, rfl⟩

theorem Relayed.of_call (s : Server) (env : Env) (r : Relay) :
    Relayed s env [r] (r.effects s env) :=
  ⟨[], [], by simp, rfl, rfl⟩

theorem savedRows_handleEncryptedMessage (C : Crypto) (s : Server) (env : Env) (i : Slot)
    (command : Bytes) : savedRows (handleEncryptedMessage C s env i command) = [] := by
  unfold handleEncryptedMessage
  cases parseSendEnc command with
  | none => rfl
  | some p =>
    simp only
    cases encryptMessageForUser C s env i p.1 p.2 with
    | none => rfl
    | some encryptedB64 =>
      simp only
      generalize findClientByNick s p.1 = found
      cases found with
      | none => rfl
      | some j => rfl

section relayed

variable (C : Crypto) (s : Server) (env : Env) (i : Slot) (ip command : Bytes)

theorem handlePrivateMessage_relayed :
    Relayed s env (privateRelays (s.clients i).nick command)
      (handlePrivateMessage s env i command) := by
  unfold handlePrivateMessage privateRelays
  cases parseMsg command with
  | none => exact .of_no_call rfl
  | some p =>
    simp only
    split_ifs
    · exact .of_call s env (.toOne (s.clients i).nick p.1 p.2)
    · exact .of_no_call rfl

theorem handleAuthorizedCommands_relayed :
    Relayed s env (authorizedRelays (s.clients i).nick command)
      (handleAuthorizedCommands C s env i command) := by
  unfold handleAuthorizedCommands authorizedRelays
  split_ifs
  · exact .of_no_call rfl
  · exact handlePrivateMessage_relayed s env i command
  · exact .of_no_call (savedRows_handleEncryptedMessage C s env i command)
  · exact .of_call s env (.toAll (s.clients i).nick command)
  · exact .of_no_call rfl

theorem loginEffects_relayed (nick : Bytes) :
    Relayed s env [.toAll system (joinNotice nick)] (loginEffects s env i nick ip) := by
  refine ⟨[.write (s.clients i).ssl
      (snprintf 256 (loginSuccessFrame nick (s.clients i).sessionId))],
    [.audit (ascii "USER_LOGIN") nick ip (ascii "User logged in successfully")], ?_, rfl, rfl⟩
  rw [List.flatMap_singleton]
  rfl

theorem processLogin_relayed :
    Relayed (processLogin s env i ip command).1 env (loginRelays s env i command)
      (processLogin s env i ip command).2 := by
  rcases processLogin_cases s env i ip command with
    ⟨hparse, heq⟩ | ⟨nick, token, hparse, hauth, heq⟩ |
      ⟨nick, token, row, hparse, hauth, -, -, -, heq⟩
  · rw [heq, loginRelays, hparse]
    exact .of_no_call rfl
  · have hnone : loginRelays s env i command = [] := by simp [loginRelays, hparse, hauth]
    rw [heq, hnone]
    exact .of_no_call rfl
  · have hone : loginRelays s env i command = [.toAll system (joinNotice nick)] := by
      simp [loginRelays, hparse, hauth]
    rw [heq, hone]
    exact loginEffects_relayed (loggedIn s env i row nick token) env i ip nick

theorem processRegistration_relayed :
    Relayed (processRegistration s env i ip command).1 env []
      (processRegistration s env i ip command).2 := by
  apply Relayed.of_no_call
  rcases processRegistration_cases s env i ip command with
    ⟨-, heq | ⟨message, -, heq⟩⟩ | ⟨nick, token, users, -, -, -, -, heq⟩
  · rw [heq]
    rfl
  · rw [heq]
    rfl
  · rw [heq]
    rfl

theorem processClientCommand_relayed :
    Relayed (processClientCommand C s env i ip command).1 env (commandRelays s env i command)
      (processClientCommand C s env i ip command).2 := by
  unfold processClientCommand commandRelays
  cases (s.clients i).authorized with
  | true => exact handleAuthorizedCommands_relayed C s env i command
  | false =>
    simp only [Bool.not_false, if_true, Bool.false_eq_true, if_false]
    unfold handleUnauthorizedCommands
    split_ifs
    · exact processRegistration_relayed s env i ip command
    · exact processLogin_relayed s env i ip command
    · exact .of_no_call rfl
    · exact .of_no_call rfl

end relayed

/-- An iteration hands a command to `process_client_command`, or saves nothing. -/
theorem stepCommand_cases (C : Crypto) {s : Server} {conn : Conn} {h : Handler}
    (hh : s.handler? conn .looping = some h) (env : Env) (read : ReadResult) :
    (stepCommand s (.iterate conn env read) = none ∧
      savedRows (handlerIteration C s h env read).2 = []) ∨
    ∃ command, stepCommand s (.iterate conn env read) = some (h.slot, env, command) ∧
      handlerIteration C s h env read =
        processClientCommand C (s.noteActivity h.slot env.now) env h.slot h.ip command := by
  unfold handlerIteration
  by_cases hfd : (s.clients h.slot).fd < 0
  · refine .inl ⟨?_, by simp [hfd, savedRows]⟩
    cases read <;> simp [stepCommand, hh, hfd]
  · cases read with
    | error => exact .inl ⟨rfl, by simp [hfd, savedRows]⟩
    | zero =>
      refine .inl ⟨rfl, ?_⟩
      simp only [hfd, if_false]
      split_ifs <;> rfl
    | bytes buffer hne hlt =>
      simp only [hfd, if_false, handleBuffer, stepCommand, hh, not_lt.1 hfd, true_and]
      cases s.withinLimit h.slot env.now with
      | false => exact .inl ⟨rfl, rfl⟩
      | true =>
        cases commandOf buffer with
        | none => exact .inl ⟨rfl, rfl⟩
        | some command => exact .inr ⟨command, rfl, rfl⟩

/-- In an iteration of a handler the calls are made, and only they save a message. -/
theorem iterate_relayed (C : Crypto) (s : Server) (conn : Conn) (env : Env) (read : ReadResult) :
    Relayed (step C s (.iterate conn env read)).1 env (relays s (.iterate conn env read))
      (step C s (.iterate conn env read)).2 := by
  simp only [step, relays]
  cases hh : s.handler? conn .looping with
  | none =>
    have hnone : stepCommand s (.iterate conn env read) = none := by
      cases read <;> simp [stepCommand, hh]
    rw [hnone]
    exact .of_no_call rfl
  | some h =>
    simp only
    rcases stepCommand_cases C hh env read with ⟨hnone, hrows⟩ | ⟨command, hsome, heq⟩
    · rw [hnone]
      exact .of_no_call hrows
    · rw [hsome, heq]
      exact processClientCommand_relayed C _ env h.slot h.ip command

/-! ### Lengths -/

def FitsLimit (text : Bytes) : Prop := 1 ≤ text.length ∧ text.length ≤ maxMessageLength

instance (text : Bytes) : Decidable (FitsLimit text) := instDecidableAnd

theorem fitsLimit_iff_of_ne_nil {text : Bytes} (h : text ≠ []) :
    FitsLimit text ↔ text.length ≤ maxMessageLength :=
  and_iff_right (List.length_pos_iff.2 h)

/-- The length is measured up to the limit only, so that no text is too long. -/
theorem validateMessage_fitsLimit_iff (message : Bytes) :
    (validateMessage message = true ↔ FitsLimit message) ↔ message.length ≤ maxMessageLength := by
  rw [validateMessage_iff]
  cases message with
  | nil => exact iff_of_true ⟨fun h => absurd rfl h, fun h => absurd h.1 (by simp)⟩ (by simp)
  | cons c message =>
    have hne : c :: message ≠ [] := List.cons_ne_nil c message
    rw [fitsLimit_iff_of_ne_nil hne, iff_true_left hne]

theorem joinNotice_fitsLimit (nick : Bytes) : FitsLimit (joinNotice nick) := by
  have hhead : (ascii "User ").length = 5 := by decide
  rw [FitsLimit, joinNotice, snprintf, List.length_take, List.length_append, List.length_append,
    hhead, maxMessageLength]
  omega

theorem loginRelays_fitsLimit (s : Server) (env : Env) (i : Slot) (command : Bytes) :
    ∀ r ∈ loginRelays s env i command, FitsLimit r.text := by
  intro r hr
  unfold loginRelays at hr
  cases hparse : parseLogin command with
  | none => simp [hparse] at hr
  | some p =>
    simp only [hparse] at hr
    split_ifs at hr
    · rw [List.mem_singleton.1 hr]
      exact joinNotice_fitsLimit p.1
    · exact absurd hr (by simp)

/-- A private text is cut to 2047 bytes by its format. -/
theorem privateRelays_fitsLimit (nick command : Bytes) :
    ∀ r ∈ privateRelays nick command, FitsLimit r.text := by
  intro r hr
  unfold privateRelays at hr
  cases hparse : parseMsg command with
  | none => simp [hparse] at hr
  | some p =>
    simp only [hparse] at hr
    split_ifs at hr
    · obtain ⟨-, htext, -⟩ := parseTargeted_eq_some hparse
      obtain ⟨-, -, -, hlength⟩ := parseTargeted_sublist hparse
      rw [List.mem_singleton.1 hr]
      exact (fitsLimit_iff_of_ne_nil htext).2 (hlength.trans (by decide))
    · exact absurd hr (by simp)

/-- A text for all is passed on whole. -/
theorem authorizedRelays_fitsLimit_iff (nick : Bytes) {command : Bytes} (hne : command ≠ []) :
    (∀ r ∈ authorizedRelays nick command, FitsLimit r.text) ↔
      (IsBroadcast command → command.length ≤ maxMessageLength) := by
  unfold authorizedRelays
  split_ifs with honline hmsg henc hvalid
  · exact iff_of_true (by simp) fun h => absurd honline h.not_online
  · exact iff_of_true (privateRelays_fitsLimit nick command)
      fun h => absurd (List.isPrefixOf_iff_prefix.1 hmsg) h.not_msg
  · exact iff_of_true (by simp) fun h => absurd (List.isPrefixOf_iff_prefix.1 henc) h.not_send_enc
  · have hbroadcast : IsBroadcast command :=
      ⟨honline, mt List.isPrefixOf_iff_prefix.2 hmsg, mt List.isPrefixOf_iff_prefix.2 henc⟩
    rw [List.forall_mem_singleton, Relay.text, fitsLimit_iff_of_ne_nil hne]
    exact ⟨fun h _ => h, fun h => h hbroadcast⟩
  · exact absurd (validateMessage_iff.2 hne) hvalid

/-- A command that the step hands to `broadcast_message` is not longer than the limit. -/
def ShortBroadcast (s : Server) (e : Event) : Prop :=
  ∀ i env command, stepCommand s e = some (i, env, command) → (s.clients i).authorized = true →
    IsBroadcast command → command.length ≤ maxMessageLength

theorem stepCommand_ne_nil {s : Server} {e : Event} {i : Slot} {env : Env} {command : Bytes}
    (h : stepCommand s e = some (i, env, command)) : command ≠ [] := by
  unfold stepCommand at h
  split at h
  · split at h
    · exact absurd h (by simp)
    · split_ifs at h
      obtain ⟨text, htext, heq⟩ := Option.map_eq_some_iff.1 h
      obtain ⟨-, -, rfl⟩ : _ ∧ _ ∧ text = command := by simpa using heq
      exact commandOf_ne_nil htext
  · exact absurd h (by simp)

theorem relays_fitsLimit_iff (s : Server) (e : Event) :
    (∀ r ∈ relays s e, FitsLimit r.text) ↔ ShortBroadcast s e := by
  unfold relays ShortBroadcast
  cases hcommand : stepCommand s e with
  | none => simp
  | some p =>
    obtain ⟨i, env, command⟩ := p
    have hnote := noteActivity_refreshes s i env.now i
    simp only [commandRelays, hnote.authorized]
    cases hauth : (s.clients i).authorized with
    | true =>
      rw [if_pos rfl, authorizedRelays_fitsLimit_iff _ (stepCommand_ne_nil hcommand)]
      refine ⟨?_, fun h => h i env command rfl hauth⟩
      rintro h i' env' command' heq -
      obtain ⟨-, -, rfl⟩ : i = i' ∧ env = env' ∧ command = command' := by simpa using heq
      exact h
    | false =>
      refine iff_of_true ?_ ?_
      · rw [if_neg (by simp)]
        split_ifs
        · simp
        · exact loginRelays_fitsLimit _ env i command
        · simp
      · rintro i' env' command' heq hauth'
        obtain ⟨rfl, -, -⟩ : i = i' ∧ env = env' ∧ command = command' := by simpa using heq
        simp [hauth] at hauth'

/-- In a run, the calls that clients' commands lead to have texts within the limit if and
only if no step broadcasts a longer command, and `validate_message` decides that of the
texts up to the limit only. The calls are those that a handler's iteration makes, and no
other of its effects saves a message. -/
theorem message_length_iff (C : Crypto) :
    (∀ (s : Server) (es : List Event),
      (∀ r ∈ (Runs.run (relayStep C) s es).2, FitsLimit r.text) ↔
        Runs.Along (step C) ShortBroadcast s es) ∧
    (∀ message : Bytes, (validateMessage message = true ↔ FitsLimit message) ↔
      message.length ≤ maxMessageLength) ∧
    ∀ (s : Server) (conn : Conn) (env : Env) (read : ReadResult),
      let e := Event.iterate conn env read
      Relayed (step C s e).1 env (relays s e) (step C s e).2 := by
  refine ⟨fun s es => ?_, validateMessage_fitsLimit_iff, iterate_relayed C⟩
  have hsame (s : Server) (e : Event) : (relayStep C s e).1 = (step C s e).1 := rfl
  have hstep (s : Server) (e : Event) :
      (∀ r ∈ (relayStep C s e).2, FitsLimit r.text) ↔ ShortBroadcast s e := relays_fitsLimit_iff s e
  rw [← Runs.along_congr hsame]
  exact Runs.forall_output_iff_along hstep s es

namespace Sample

/-- One byte more than the limit. -/
def longText : Bytes := List.replicate 2049 97

/-- The first of two clients sends it as a line. -/
def longLine : List Event := chat ++ [.iterate 0 (env 1005 0) (read (longText ++ [newline]))]

end Sample

/-- A text over the limit is accepted, saved and sent to all. -/
theorem long_text_to_all :
    validateMessage Sample.longText = true ∧ ¬ FitsLimit Sample.longText ∧
      (∃ r ∈ (Runs.run (relayStep Sample.crypto) (Server.init SecureUsers.empty)
        Sample.longLine).2, r.text = Sample.longText) ∧
      Effect.save ⟨ascii "ann", [], [], Sample.longText, false⟩ ∈
        (run Sample.crypto (Server.init SecureUsers.empty) Sample.longLine).2 := by
  refine ⟨by decide +kernel, by decide +kernel, by decide +kernel, by decide +kernel⟩

end Mesh
