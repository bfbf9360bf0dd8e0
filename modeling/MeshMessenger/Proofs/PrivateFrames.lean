import MeshMessenger.Proofs.Broadcast

/-! A private message from the sender's buffer to the signal of the target's client. -/

namespace Mesh

open CLib Lines

/-! ### The frame -/

/-- The members of a private frame. -/
def privateMembers (sender target text : Bytes) : List (Bytes × Bytes) :=
  [(ascii "from", sender), (ascii "to", target), (ascii "text", text)]

theorem privateFrame_eq (sender target text : Bytes) :
    privateFrame sender target text =
      objectBytes (ascii "type", ascii "private") (privateMembers sender target text) ++
        [newline] := by
  have hopen : ascii "\x7b\"type\":\"private\",\"from\":\"" =
      [123] ++ (memberBytes (ascii "type", ascii "private") ++
        ([44, 34] ++ (ascii "from" ++ [34, 58, 34]))) := by decide
  have hto : ascii "\",\"to\":\"" = [34, 44, 34] ++ (ascii "to" ++ [34, 58, 34]) := by decide
  have htext : ascii "\",\"text\":\"" = [34, 44, 34] ++ (ascii "text" ++ [34, 58, 34]) := by decide
  have htail : ascii "\"\x7d\n" = [34, 125, newline] := by decide
  simp [privateFrame, hopen, hto, htext, htail, objectBytes, privateMembers, membersTailBytes,
    memberBytes]

theorem privateFrame_length (sender target text : Bytes) :
    (privateFrame sender target text).length =
      sender.length + target.length + text.length + 47 := by
  have hopen : (ascii "\x7b\"type\":\"private\",\"from\":\"").length = 26 := by decide
  have hto : (ascii "\",\"to\":\"").length = 8 := by decide
  have htext : (ascii "\",\"text\":\"").length = 10 := by decide
  have htail : (ascii "\"\x7d\n").length = 3 := by decide
  simp only [privateFrame, List.length_append, hopen, hto, htext, htail]
  omega

theorem handleObject_private (client : ChatClient) {object : JsonObject}
    (htype : object "type".toList = .string "private".toList) :
    handleObject client object = (client, [.privateMessageReceived (object "from".toList).toString
      (object "to".toList).toString (object "text".toList).toString]) := by
  have hvalue : (object "type".toList).toString = "private".toList := by rw [htype]; rfl
  unfold handleObject
  simp only
  rw [if_neg (type_ne htype (by decide)), if_neg (type_ne htype (by decide)),
    if_neg (type_ne htype (by decide)), if_pos hvalue]

section delivery

variable {sender target text : Bytes}

theorem lineField_privateMembers (hsender : LineField sender) (htarget : LineField target)
    (htext : LineField text) :
    ∀ m ∈ (ascii "type", ascii "private") :: privateMembers sender target text,
      LineField m.1 ∧ LineField m.2 := by
  simp only [privateMembers, List.forall_mem_cons, List.not_mem_nil, false_imp_iff, implies_true,
    and_true]
  exact ⟨⟨lineField_word rfl, lineField_word rfl⟩,
    ⟨lineField_word rfl, hsender⟩, ⟨lineField_word rfl, htarget⟩,
    lineField_word rfl, htext⟩

/-- The client reads a private frame as the message it carries. -/
theorem handleLine_privateFrame (J : JsonReader) (client : ChatClient) (hsender : LineField sender)
    (htarget : LineField target) (htext : LineField text) :
    (handleLine J client (privateFrame sender target text)).2 =
      [.privateMessageReceived (fromUtf8 sender) (fromUtf8 target) (fromUtf8 text)] := by
  have htypeKey : fromUtf8 (ascii "type") = "type".toList := fromUtf8_ascii rfl
  have hprivate : fromUtf8 (ascii "private") = "private".toList := fromUtf8_ascii rfl
  have hfromKey : fromUtf8 (ascii "from") = "from".toList := fromUtf8_ascii rfl
  have htoKey : fromUtf8 (ascii "to") = "to".toList := fromUtf8_ascii rfl
  have htextKey : fromUtf8 (ascii "text") = "text".toList := fromUtf8_ascii rfl
  have hkeys : [fromUtf8 (ascii "type"), fromUtf8 (ascii "from"), fromUtf8 (ascii "to"),
      fromUtf8 (ascii "text")].Nodup := by
    rw [htypeKey, hfromKey, htoKey, htextKey]
    decide
  obtain ⟨object, hline, hvalue⟩ := handleLine_objectBytes J client
    (lineField_privateMembers hsender htarget htext) hkeys
  simp only [privateMembers, List.forall_mem_cons, htypeKey, hprivate, hfromKey, htoKey,
    htextKey] at hvalue
  obtain ⟨htype, hfrom, hto, htext, -⟩ := hvalue
  rw [privateFrame_eq, hline, handleObject_private client htype, hfrom, hto, htext]
  rfl

/-- The bytes are one newline-terminated line, whole, and a client that receives them, in
whatever pieces, signals this private message and nothing else. -/
structure PrivateSurvives (J : JsonReader) (sender target text data : Bytes) : Prop where
  whole : data = privateFrame sender target text
  line : ∃ l, newline ∉ l ∧ data = l ++ [newline]
  received : ∀ client pieces, client.buffer = [] → pieces.flatten = data →
    (Runs.run (onReadyRead J) client pieces).2 =
      [.privateMessageReceived (fromUtf8 sender) (fromUtf8 target) (fromUtf8 text)]

theorem privateSurvives_snprintf (J : JsonReader) (hsender : LineField sender)
    (htarget : LineField target) (htext : LineField text)
    (hfits : sender.length + target.length + text.length + 47 < bufferSize) :
    PrivateSurvives J sender target text
      (snprintf bufferSize (privateFrame sender target text)) := by
  rw [snprintf_of_lt (by rw [privateFrame_length]; exact hfits)]
  have hfields := lineField_privateMembers hsender htarget htext
  have hline : newline ∉ objectBytes (ascii "type", ascii "private")
      (privateMembers sender target text) := by
    intro hnl
    obtain ⟨m, hm, hnl | hnl⟩ := (mem_objectBytes (by decide)).1 hnl
    · exact (hfields m hm).1.newline_notMem hnl
    · exact (hfields m hm).2.newline_notMem hnl
  refine ⟨rfl, ⟨_, hline, privateFrame_eq sender target text⟩, ?_⟩
  intro client pieces hbuffer hflat
  have hne : pieces ≠ [] := by
    rintro rfl
    rw [privateFrame_eq] at hflat
    simp at hflat
  rw [onReadyRead_pieces J client hne, hflat, privateFrame_eq, onReadyRead_line J hbuffer hline,
    ← privateFrame_eq, handleLine_privateFrame J client hsender htarget htext]

end delivery

/-! ### The step -/

theorem FieldText.of_sublist {s t : Bytes} (h : FieldText t) (hs : s.Sublist t) : FieldText s :=
  ⟨h.nulFree.of_sublist hs, fun hc => h.quote_notMem (hs.subset hc),
    fun hc => h.backslash_notMem (hs.subset hc)⟩

/-- What a command names and says can stand in a frame's line. -/
theorem lineField_parseTargeted {literal buffer command target text : Bytes}
    (hcommand : commandOf buffer = some command)
    (hparse : parseTargeted literal command = some (target, text)) :
    LineField target ∧ LineField text := by
  obtain ⟨htarget, htext, hnl, -⟩ := parseTargeted_sublist hparse
  have hfield := commandOf_fieldText hcommand
  refine ⟨⟨hfield.of_sublist htarget, fun hc => ?_⟩, hfield.of_sublist htext, hnl⟩
  exact absurd ((parseTargeted_eq_some hparse).1.no_space newline hc) (by decide)

/-- A private message to a client online is saved, and written to that client. -/
theorem sendPrivateMessage_eq {s : Server} {target : Bytes} {j : Slot}
    (hfind : findClientByNick s target = some j) (env : Env) (sender text : Bytes) :
    sendPrivateMessage s env sender target text = saveMessage env sender target text ++
      [.write (s.clients j).ssl (snprintf bufferSize (privateFrame sender target text))] := by
  have honline := (findClientByNick_eq_some hfind).1
  unfold sendPrivateMessage
  generalize findClientByNick s target = found at hfind
  subst hfind
  simp only [honline, if_true]

/-- For every reachable state, every authorised sender and every buffer whose command is a
private message to a client online: the target is written one whole line, and its client
signals the message as it was parsed. -/
theorem private_frame_survives (J : JsonReader) {C : Crypto} {users : SecureUsers}
    (husers : Registered users) {s : Server} (hs : Reachable C users s) {conn : Conn} {h : Handler}
    (hh : s.handler? conn .looping = some h) (hfd : 0 ≤ (s.clients h.slot).fd)
    (hauth : (s.clients h.slot).authorized = true) {env : Env}
    (hlimit : s.withinLimit h.slot env.now = true) {buffer command : Bytes} (hne : buffer ≠ [])
    (hlt : buffer.length < bufferSize) (hcommand : commandOf buffer = some command)
    {target text : Bytes} (hparse : parseMsg command = some (target, text)) {j : Slot}
    (hfind : findClientByNick s target = some j) :
    ∃ data, (step C s (.iterate conn env (.bytes buffer hne hlt))).2 =
        saveMessage env (s.clients h.slot).nick target text ++
          [.write (s.clients j).ssl data] ∧
      PrivateSurvives J (s.clients h.slot).nick target text data := by
  have hinv := Reachable.sessionsInv hs
  obtain ⟨hsender, hsender'⟩ := session_fieldText (Reachable.registered hs husers) hinv hauth
  obtain ⟨htarget, htext⟩ := lineField_parseTargeted hcommand hparse
  obtain ⟨hword, hne', hpre⟩ := parseTargeted_eq_some hparse
  have hnote := noteActivity_refreshes s h.slot env.now
  have hfind' : findClientByNick (s.noteActivity h.slot env.now) target = some j := by
    rw [findClientByNick_noteActivity, hfind]
  refine ⟨snprintf bufferSize (privateFrame (s.clients h.slot).nick target text), ?_, ?_⟩
  · simp only [step, hh, handlerIteration_command C hne hlt hfd hlimit hcommand,
      processClientCommand, (hnote h.slot).authorized, hauth, Bool.not_true, Bool.false_eq_true,
      if_false]
    rw [handleAuthorizedCommands_msg C _ env h.slot hpre, handlePrivateMessage, hparse]
    simp only
    rw [if_pos (validateMessage_iff.2 hne'), sendPrivateMessage_eq hfind', (hnote h.slot).nick,
      (hnote j).ssl]
  · refine privateSurvives_snprintf J ⟨hsender, hsender'⟩ htarget htext ?_
    have hlen := (hinv.word _ hauth).length_le
    have hlen' := hword.length_le
    have hlen'' := (parseTargeted_sublist hparse).2.2.2
    simp only [bufferSize]
    omega

/-- `ann` says `hi` to `bob`. -/
theorem private_frame_survives_bob :
    let s := (run Sample.crypto (Server.init SecureUsers.empty) Sample.chat).1
    ∃ data, (step Sample.crypto s (.iterate 0 (Sample.env 1005 0)
        (.bytes (ascii "/msg bob hi\n") (by decide) (by decide)))).2 =
        [.save ⟨ascii "ann", ascii "bob", [], ascii "hi", false⟩, .write (some 1) data] ∧
      PrivateSurvives FlatJson.reader (ascii "ann") (ascii "bob") (ascii "hi") data := by
  intro s
  have hs : Reachable Sample.crypto SecureUsers.empty s := ⟨Sample.chat, rfl⟩
  have hchat : Sample.Session s Sample.firstSlot 0 (ascii "ann") ∧
      Sample.Session s Sample.secondSlot 1 (ascii "bob") := Sample.chat_sessions
  have hfind : findClientByNick s (ascii "bob") = some Sample.secondSlot := Sample.find_bob_chat
  clear_value s
  obtain ⟨⟨hh, hfd, hauth, -, hnick, hlimit⟩, -, -, -, hssl, -⟩ := hchat
  have hlimit' : s.withinLimit Sample.firstSlot (Sample.env 1005 0).now = true := hlimit
  obtain ⟨data, hstep, hsurvives⟩ := private_frame_survives FlatJson.reader registered_empty hs hh
    hfd hauth hlimit' (by decide) (by decide)
    (by decide : commandOf (ascii "/msg bob hi\n") = some (ascii "/msg bob hi"))
    (by decide : parseMsg (ascii "/msg bob hi") = some (ascii "bob", ascii "hi")) hfind
  simp only [hnick, hssl] at hstep hsurvives
  exact ⟨data, hstep, hsurvives⟩

end Mesh
