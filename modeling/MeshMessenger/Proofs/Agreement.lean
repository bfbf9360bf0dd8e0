import MeshMessenger.Client.Chat
import MeshMessenger.Proofs.ClosedConnections
import MeshMessenger.Proofs.WrittenFrames

/-! What a client believes of the server, over every run of the two: a login or a
registration that it takes for done is done, and stays so. -/

namespace Mesh

open CLib Channels

/-! ### The frames of a connection -/

/-- What was written to a connection, frame by frame. -/
def framesTo (c : Conn) (effects : List Effect) : List Bytes :=
  effects.filterMap fun
    | .write (some c') data => if c' = c then some data else none
    | _ => none

theorem writtenTo_eq_flatten (c : Conn) (effects : List Effect) :
    writtenTo c effects = (framesTo c effects).flatten := by
  induction effects with
  | nil => rfl
  | cons e effects ih =>
    have hwritten : writtenTo c (e :: effects) = writtenTo c [e] ++ writtenTo c effects :=
      writtenTo_append c [e] effects
    have hframes : framesTo c (e :: effects) = framesTo c [e] ++ framesTo c effects :=
      List.filterMap_append (l := [e])
    have hone : writtenTo c [e] = (framesTo c [e]).flatten := by
      cases e with
      | write ssl data =>
        cases ssl with
        | none => rfl
        | some c' => by_cases hc : c' = c <;> simp [writtenTo, framesTo, hc]
      | close fd => rfl
      | save row => rfl
      | audit eventType userNick ip details => rfl
    rw [hwritten, hframes, List.flatten_append, hone, ih]

theorem mem_framesTo {c : Conn} {effects : List Effect} {f : Bytes} (h : f ∈ framesTo c effects) :
    .write (some c) f ∈ effects := by
  obtain ⟨e, he, heq⟩ := List.mem_filterMap.1 h
  cases e with
  | write ssl data =>
    cases ssl with
    | none => simp at heq
    | some c' =>
      simp only [Option.ite_none_right_eq_some, Option.some.injEq] at heq
      rwa [← heq.1, ← heq.2]
  | close fd => simp at heq
  | save row => simp at heq
  | audit eventType userNick ip details => simp at heq

theorem StepWrite.plain {s s' : Server} {ssl : Option Conn} {f : Bytes} (h : StepWrite s s' ssl f)
    {kind : String} (hkind : kind ∈ replyKinds) : Plain kind f := by
  cases h with
  | common hf => exact hf.plain hkind
  | loggedIn sessionId hnick hssl h => exact (loginSuccessFrame_whole hnick sessionId).plain kind
  | registered level hnick htoken h =>
    exact (registerSuccessFrame_whole hnick htoken level).plain kind

section

variable {C : Crypto} {J : StrictReader} {users : SecureUsers} {es : List ChatEvent} {c : Conn}

/-- A signal of a reply stems from one frame, which some step wrote to the connection. -/
theorem exists_reply (husers : Registered users) {e : ClientEvent} (hkind : e.kind ∈ replyKinds)
    (h : e ∈ Output.signals c (chatRun C J.toJsonReader (Chat.start users) es).2) :
    ∃ before event after f,
      Output.acts (chatRun C J.toJsonReader (Chat.start users) es).2 = before ++ event :: after ∧
      StepWrite (run C (Server.init users) before).1
        (step C (run C (Server.init users) before).1 event).1 (some c) f ∧
      e ∈ (handleLine J.toJsonReader .fresh f).2 := by
  set r := chatRun C J.toJsonReader (Chat.start users) es with hr
  have hmachine : run C (Server.init users) (Output.acts r.2) = (r.1.machine, Output.emitted r.2) :=
    chat_machine C J.toJsonReader (Chat.start users) es
  obtain ⟨hdown, hreceive⟩ := chat_received C J.toJsonReader users es c
  -- every frame written to the connection is plain
  have hframe (f : Bytes) (hf : f ∈ framesTo c (Output.emitted r.2)) :
      ∃ before event after, Output.acts r.2 = before ++ event :: after ∧
        StepWrite (run C (Server.init users) before).1
          (step C (run C (Server.init users) before).1 event).1 (some c) f := by
    have hwrite : .write (some c) f ∈ (run C (Server.init users) (Output.acts r.2)).2 := by
      rw [hmachine]
      exact mem_framesTo hf
    obtain ⟨before, event, after, hacts, hstep⟩ := Runs.mem_run hwrite
    exact ⟨before, event, after, hacts, Reachable.stepWrite husers ⟨before, rfl⟩ hstep⟩
  have hplain : ∀ f ∈ framesTo c (Output.emitted r.2), Plain e.kind f := fun f hf => by
    obtain ⟨before, event, after, -, hwrite⟩ := hframe f hf
    exact hwrite.plain hkind
  have hsignals : e ∈ (receive J.toJsonReader .fresh
      (framesTo c (Output.emitted r.2)).flatten).2 := by
    rw [← writtenTo_eq_flatten, ← hdown, receive_append, hreceive]
    exact List.mem_append_left _ h
  obtain ⟨-, hbrace, hmessage⟩ := replyKinds_plain e.kind hkind
  obtain ⟨f, hf, he⟩ := signals_of_frames hbrace hmessage (calm_nil e.kind) hplain hsignals rfl
  obtain ⟨before, event, after, hacts, hwrite⟩ := hframe f hf
  exact ⟨before, event, after, f, hacts, hwrite, he⟩

theorem chat_state {J : JsonReader} {before after : List Event} {event : Event}
    (hacts : Output.acts (chatRun C J (Chat.start users) es).2 = before ++ event :: after) :
    (chatRun C J (Chat.start users) es).1.machine =
      (run C (step C (run C (Server.init users) before).1 event).1 after).1 := by
  have hmachine := chat_machine C J (Chat.start users) es
  rw [hacts, run, Runs.run_append, Runs.run_cons] at hmachine
  exact (congrArg Prod.fst hmachine).symm

/-- A client is told of a login only after the server authorised its connection. -/
theorem exists_login (husers : Registered users) {q : QString}
    (h : .loginSuccess q ∈
      Output.signals c (chatRun C J.toJsonReader (Chat.start users) es).2) :
    ∃ before event after i nick,
      Output.acts (chatRun C J.toJsonReader (Chat.start users) es).2 = before ++ event :: after ∧
      ((run C (Server.init users) before).1.clients i).ssl = some c ∧
      LogsIn (run C (Server.init users) before).1
        (step C (run C (Server.init users) before).1 event).1 i nick ∧ fromUtf8 nick = q := by
  have hkind : (ClientEvent.loginSuccess q).kind ∈ replyKinds := List.mem_cons_self
  obtain ⟨before, event, after, f, hacts, hwrite, he⟩ := exists_reply husers hkind h
  cases hwrite with
  | common hf => exact absurd rfl ((hf.no_success he).1 q)
  | @loggedIn i nick sessionId hnick hssl hlogs =>
    rw [handleLine_loginSuccess J.toJsonReader .fresh hnick sessionId, List.mem_singleton,
      ClientEvent.loginSuccess.injEq] at he
    exact ⟨before, event, after, i, nick, hacts, hssl, hlogs, he.symm⟩
  | registered level hnick htoken h =>
    rw [handleLine_registerSuccess J .fresh hnick htoken level, List.mem_singleton] at he
    exact absurd he (by simp)

/-- A client is told of a registration only after the server made the account. -/
theorem exists_registration (husers : Registered users) {q t : QString}
    (h : .registrationSuccess q t ∈
      Output.signals c (chatRun C J.toJsonReader (Chat.start users) es).2) :
    ∃ before event after nick token,
      Output.acts (chatRun C J.toJsonReader (Chat.start users) es).2 = before ++ event :: after ∧
      Registers (run C (Server.init users) before).1
        (step C (run C (Server.init users) before).1 event).1 nick token ∧
      fromUtf8 nick = q ∧ fromUtf8 token = t := by
  have hkind : (ClientEvent.registrationSuccess q t).kind ∈ replyKinds :=
    List.mem_cons_of_mem _ List.mem_cons_self
  obtain ⟨before, event, after, f, hacts, hwrite, he⟩ := exists_reply husers hkind h
  cases hwrite with
  | common hf => exact absurd rfl ((hf.no_success he).2 q t)
  | loggedIn sessionId hnick hssl hlogs =>
    rw [handleLine_loginSuccess J.toJsonReader .fresh hnick sessionId, List.mem_singleton] at he
    exact absurd he (by simp)
  | @registered nick token level hnick htoken hregisters =>
    rw [handleLine_registerSuccess J .fresh hnick htoken level, List.mem_singleton,
      ClientEvent.registrationSuccess.injEq] at he
    exact ⟨before, event, after, nick, token, hacts, hregisters, he.1.symm, he.2.symm⟩

end

/-! ### A login lasts -/

/-- Whatever slot has the connection, it is logged in under the nick. -/
structure LoggedInAs (s : Server) (c : Conn) (nick : Bytes) : Prop where
  counted : c < s.totalConnections
  session : ∀ i, (s.clients i).ssl = some c →
    (s.clients i).authorized = true ∧ (s.clients i).nick = nick

theorem LogsIn.loggedInAs {s s' : Server} {i : Slot} {nick : Bytes} (h : LogsIn s s' i nick)
    (hinv : ConnInv s') {c : Conn} (hc : (s.clients i).ssl = some c) : LoggedInAs s' c nick where
  counted := hinv.ssl_lt i c (h.ssl.trans hc)
  session j hj := by
    rw [hinv.ssl_inj j i c hj (h.ssl.trans hc)]
    exact ⟨h.after, h.nick⟩

/-- A session stays what it is until its slot lets go of the connection. -/
theorem Move.session {s s' : Server} (hm : Move s s') {i : Slot}
    (hauth : (s.clients i).authorized = true) {c : Conn} (hssl : (s'.clients i).ssl = some c) :
    (s'.clients i).authorized = true ∧ (s'.clients i).nick = (s.clients i).nick := by
  cases hm with
  | phase conn ip phase => exact ⟨hauth, rfl⟩
  | @refresh j c' hc =>
    by_cases hi : i = j
    · subst hi
      rw [setClient_self]
      exact ⟨hc.authorized.trans hauth, hc.nick⟩
    · rw [setClient_ne _ _ _ hi]
      exact ⟨hauth, rfl⟩
  | register hvalid hword hinsert => exact ⟨hauth, rfl⟩
  | @login j nick token row env hun hword hfind =>
    have hi : i ≠ j := by
      rintro rfl
      rw [hauth] at hun
      exact absurd hun (by decide)
    rw [loggedIn_clients, Function.update_of_ne hi]
    exact ⟨hauth, rfl⟩
  | @exit hd hh =>
    by_cases hi : i = hd.slot
    · subst hi
      change ((s.setClient hd.slot (s.clients hd.slot).cleaned).clients hd.slot).ssl = some c at hssl
      rw [setClient_self] at hssl
      exact absurd hssl (by simp [SecureClient.cleaned])
    · change ((s.setClient hd.slot _).clients i).authorized = true ∧
        ((s.setClient hd.slot _).clients i).nick = _
      rw [setClient_ne _ _ _ hi]
      exact ⟨hauth, rfl⟩
  | sweep now =>
    simp only [checkClientTimeouts]
    split_ifs <;> exact ⟨hauth, rfl⟩

theorem Move.loggedInAs {s s' : Server} {c : Conn} {nick : Bytes} (h : LoggedInAs s c nick)
    (hm : Move s s') : LoggedInAs s' c nick where
  counted := hm.totalConnections.symm ▸ h.counted
  session i hi := by
    have hi' : (s.clients i).ssl = some c := by
      rcases hm.ssl i with hsame | hnone
      · rwa [hsame] at hi
      · rw [hnone] at hi
        exact absurd hi (by simp)
    obtain ⟨hauth, hnick⟩ := h.session i hi'
    obtain ⟨hauth', hnick'⟩ := hm.session hauth hi
    exact ⟨hauth', hnick'.trans hnick⟩

theorem LoggedInAs.accepted {s : Server} {c : Conn} {nick : Bytes} (h : LoggedInAs s c nick)
    (j : Slot) (fd : ℕ) (addr : SockAddr) (now : ℤ) :
    LoggedInAs (accepted s j fd addr now) c nick where
  counted := Nat.lt_succ_of_lt h.counted
  session i hi := by
    change ((s.setClient j _).clients i).ssl = some c at hi
    change ((s.setClient j _).clients i).authorized = true ∧ ((s.setClient j _).clients i).nick = _
    by_cases hij : i = j
    · subst hij
      rw [setClient_self] at hi
      exact absurd (Option.some.inj hi) h.counted.ne'
    · rw [setClient_ne _ _ _ hij] at hi ⊢
      exact h.session i hi

theorem LoggedInAs.run {C : Crypto} {s : Server} {c : Conn} {nick : Bytes}
    (h : LoggedInAs s c nick) (es : List Event) : LoggedInAs (Mesh.run C s es).1 c nick :=
  Runs.run_invariant (I := fun s => LoggedInAs s c nick)
    (fun _ e hs => step_preserve C (fun _ j fd addr now hs _ => hs.accepted j fd addr now)
      (fun _ _ hs hm => hm.loggedInAs hs) hs e) h es

/-! ### What the client remembers -/

/-- Whenever the client is logged in, it was so before under the same nick, or was told. -/
def Told (client client' : ChatClient) (events : List ClientEvent) : Prop :=
  client'.loggedIn = true → (.loginSuccess client'.nick ∈ events) ∨
    (client.loggedIn = true ∧ client'.nick = client.nick)

theorem Told.refl (client : ChatClient) (events : List ClientEvent) :
    Told client client events := fun h => .inr ⟨h, rfl⟩

theorem Told.trans {client client' client'' : ChatClient} {events more : List ClientEvent}
    (h : Told client client' events) (h' : Told client' client'' more) :
    Told client client'' (events ++ more) := by
  intro hin
  rcases h' hin with hmem | ⟨hin', hnick⟩
  · exact .inl (List.mem_append_right _ hmem)
  · rcases h hin' with hmem | ⟨hin'', hnick'⟩
    · exact .inl (List.mem_append_left _ (hnick ▸ hmem))
    · exact .inr ⟨hin'', hnick.trans hnick'⟩

theorem told_handleObject (client : ChatClient) (object : JsonObject) :
    Told client (handleObject client object).1 (handleObject client object).2 := by
  unfold handleObject
  simp only
  split_ifs
  · exact .refl _ _
  · exact .refl _ _
  · exact fun _ => .inl List.mem_cons_self
  all_goals exact .refl _ _

theorem told_handleLine (J : JsonReader) (client : ChatClient) (bytes : Bytes) :
    Told client (handleLine J client bytes).1 (handleLine J client bytes).2 := by
  unfold handleLine
  simp only
  split_ifs with hbrace
  · cases J.fromJson (trimmed (decodeLine bytes)) with
    | none => exact .refl _ _
    | some object => exact told_handleObject client object
  · exact .refl _ _

theorem told_handleLines (J : JsonReader) (client : ChatClient) (lines : List Bytes) :
    Told client (handleLines J client lines).1 (handleLines J client lines).2 := by
  induction lines generalizing client with
  | nil => exact .refl _ _
  | cons line lines ih => exact (told_handleLine J client line).trans (ih _)

theorem told_receive (J : JsonReader) (client : ChatClient) (data : Bytes) :
    Told client (receive J client data).1 (receive J client data).2 := by
  unfold receive
  split_ifs with hdata
  · exact .refl _ _
  · exact told_handleLines J { client with buffer := _ } _

/-! ### Agreement -/

namespace Sample

/-- A line that a client sends and its handler reads whole. -/
def exchange (conn : Conn) (env : Env) (bytes : Bytes) : List ChatEvent :=
  [.send conn bytes, .act (.iterate conn env (read bytes))]

/-- A client registers as `bob`, logs in and is told of both. -/
def replied : List ChatEvent :=
  connected.map .act ++ exchange 0 (env 1001 17) (ascii "/register bob" ++ [newline]) ++
    exchange 0 (env 1002 0) (ascii "/login bob " ++ List.replicate 64 49 ++ [newline]) ++
    [.deliver 0 100, .deliver 0 1000]

theorem replied_told :
    let r := chatRun crypto FlatJson.strictReader.toJsonReader (Chat.start SecureUsers.empty)
      replied
    (r.1.parties 0).loggedIn = true ∧
      .registrationSuccess "bob".toList (List.replicate 64 '1') ∈ Output.signals 0 r.2 := by
  decide +kernel

end Sample

/-- In every run of the server with its clients, whatever arrives when: a client that takes
itself for logged in is logged in, under the nick it remembers, in every slot that has its
connection. -/
theorem login_agreement (C : Crypto) (J : StrictReader) {users : SecureUsers}
    (husers : Registered users) (es : List ChatEvent) (c : Conn) :
    let r := chatRun C J.toJsonReader (Chat.start users) es
    (r.1.parties c).loggedIn = true →
      ∃ nick, fromUtf8 nick = (r.1.parties c).nick ∧ LoggedInAs r.1.machine c nick := by
  intro r hin
  have hreceive := (chat_received C J.toJsonReader users es c).2
  have htold := told_receive J.toJsonReader .fresh (Output.arrived c r.2)
  rw [hreceive] at htold
  rcases htold hin with hmem | ⟨hfresh, -⟩
  · obtain ⟨before, event, after, i, nick, hacts, hssl, hlogs, hnick⟩ := exists_login husers hmem
    have hbefore : Reachable C users (run C (Server.init users) before).1 := ⟨before, rfl⟩
    have hlast := (hlogs.loggedInAs (Reachable.connInv (hbefore.after event)) hssl).run (C := C)
      after
    exact ⟨nick, hnick, chat_state hacts ▸ hlast⟩
  · exact absurd hfresh (by decide)

theorem login_agreement_replied :
    let r := chatRun Sample.crypto FlatJson.strictReader.toJsonReader
      (Chat.start SecureUsers.empty) Sample.replied
    (r.1.parties 0).loggedIn = true ∧
      ∃ nick, fromUtf8 nick = (r.1.parties 0).nick ∧ LoggedInAs r.1.machine 0 nick := by
  obtain ⟨hin, -⟩ := Sample.replied_told
  exact ⟨hin, login_agreement Sample.crypto FlatJson.strictReader registered_empty
    Sample.replied 0 hin⟩

/-- In every such run, the account that a client was told of was made during the run, and its
row is there, open, with the nick and the token that the client was shown. -/
theorem registration_agreement (C : Crypto) (J : StrictReader) {users : SecureUsers}
    (husers : Registered users) (es : List ChatEvent) (c : Conn) {q t : QString} :
    let r := chatRun C J.toJsonReader (Chat.start users) es
    .registrationSuccess q t ∈ Output.signals c r.2 →
      ∃ row ∈ r.1.machine.users.rows, row.isLocked = false ∧ users.Admits row.nick row.token ∧
        fromUtf8 row.nick = q ∧ fromUtf8 row.token = t := by
  intro r hmem
  obtain ⟨before, event, after, nick, token, hacts, hregisters, hnick, htoken⟩ :=
    exists_registration husers hmem
  obtain ⟨row, hrow, rfl, rfl, hopen⟩ := hregisters.row
  have hlast := run_keeps C (step C (run C (Server.init users) before).1 event).1 after
  obtain ⟨row', hrow', -, hnick', htoken', hlock'⟩ := hlast row hrow
  refine ⟨row', ?_, hlock'.trans hopen, ?_, hnick' ▸ hnick, htoken' ▸ htoken⟩
  · have hstate := chat_state hacts
    rwa [hstate]
  · intro r₀ hr₀
    obtain ⟨r₁, hr₁, -, hnick₁, htoken₁, -⟩ :=
      run_keeps C (Server.init users) before r₀ hr₀
    rw [hnick', htoken', ← hnick₁, ← htoken₁]
    exact hregisters.fresh r₁ hr₁

theorem registration_agreement_replied :
    let r := chatRun Sample.crypto FlatJson.strictReader.toJsonReader
      (Chat.start SecureUsers.empty) Sample.replied
    .registrationSuccess "bob".toList (List.replicate 64 '1') ∈ Output.signals 0 r.2 ∧
      ∃ row ∈ r.1.machine.users.rows, row.isLocked = false ∧
        SecureUsers.empty.Admits row.nick row.token ∧ fromUtf8 row.nick = "bob".toList ∧
        fromUtf8 row.token = List.replicate 64 '1' := by
  obtain ⟨-, hmem⟩ := Sample.replied_told
  exact ⟨hmem, registration_agreement Sample.crypto FlatJson.strictReader registered_empty
    Sample.replied 0 hmem⟩

end Mesh
