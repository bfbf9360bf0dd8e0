import MeshMessenger.Proofs.ClientLines
import MeshMessenger.Proofs.Naming

/-! A broadcast from the sender's buffer to the signals of the receiving clients: the
server's encoder and filter on one side, the line-oriented decoder on the other. -/

namespace Mesh

open CLib Lines

/-! ### What each recipient is sent -/

theorem writtenTo_map_write {l : List Slot} {ssl : Slot → Option Conn} {j : Slot} {c : Conn}
    (hnodup : l.Nodup) (hj : j ∈ l) (hc : ssl j = some c)
    (hinj : ∀ i, ssl i = some c → i = j) (data : Bytes) :
    writtenTo c (l.map fun i => .write (ssl i) data) = data := by
  have hother {i : Slot} (hi : i ≠ j) : writtenTo c [.write (ssl i) data] = [] := by
    rw [writtenTo_write, if_neg fun h => hi (hinj i h)]
  have hrest (l : List Slot) (hl : j ∉ l) :
      writtenTo c (l.map fun i => .write (ssl i) data) = [] := by
    induction l with
    | nil => rfl
    | cons i l ih =>
      simp only [List.mem_cons, not_or] at hl
      rw [List.map_cons, writtenTo_cons, hother (Ne.symm hl.1), ih hl.2, List.nil_append]
  induction l with
  | nil => simp at hj
  | cons i l ih =>
    rw [List.nodup_cons] at hnodup
    rw [List.map_cons, writtenTo_cons]
    rcases List.mem_cons.1 hj with rfl | hj
    · rw [hrest l hnodup.1, writtenTo_write, if_pos hc, List.append_nil]
    · have hij : i ≠ j := fun h => hnodup.1 (h ▸ hj)
      rw [hother hij, ih hnodup.2 hj, List.nil_append]

/-- Each session online receives the frame once. -/
theorem writtenTo_broadcastMessage {s : Server} (hinv : ConnInv s) {j : Slot} {c : Conn}
    (hj : (s.clients j).online = true) (hc : (s.clients j).ssl = some c) (env : Env)
    (sender message : Bytes) :
    writtenTo c (broadcastMessage s env sender message) =
      snprintf bufferSize (messageFrame sender message) := by
  have hmem : j ∈ onlineSlots s := List.mem_filter.2 ⟨List.mem_finRange j, hj⟩
  have hnodup : (onlineSlots s).Nodup := List.Nodup.filter _ (List.nodup_finRange maxClients)
  rw [broadcastMessage, writtenTo_append, writtenTo_saveMessage, List.nil_append]
  exact writtenTo_map_write hnodup hmem hc (fun i hi => hinv.ssl_inj i j c hi hc) _

/-! ### The frame as the client decodes it -/

/-- What stands before the sender's nick in a frame. -/
def messageOpen : Bytes := ascii "\x7b\"type\":\"message\",\"from\":\""

/-- What stands between the nick and the text. -/
def messageSep : Bytes := ascii "\",\"text\":\""

/-- The frame without its newline. -/
def messageBody (sender text : Bytes) : Bytes :=
  messageOpen ++ (sender ++ (messageSep ++ (text ++ ascii "\"\x7d")))

theorem messageFrame_eq (sender text : Bytes) :
    messageFrame sender text = messageBody sender text ++ [newline] := by
  have htail : ascii "\"\x7d\n" = ascii "\"\x7d" ++ [newline] := by decide
  simp only [messageFrame, messageBody, messageOpen, messageSep, htail, List.append_assoc]

theorem messageBody_length (sender text : Bytes) :
    (messageBody sender text).length = sender.length + text.length + 38 := by
  have h1 : messageOpen.length = 26 := by decide
  have h2 : messageSep.length = 10 := by decide
  have h3 : (ascii "\"\x7d").length = 2 := by decide
  simp only [messageBody, List.length_append, h1, h2, h3]
  omega

def openText : QString := "\x7b\"type\":\"message\",\"from\":\"".toList

def sepText : QString := "\",\"text\":\"".toList

/-- The decoded head of a frame, up to the opening quote of its text. -/
def headText (sender : QString) : QString := openText ++ (sender ++ sepText)

theorem fromUtf8_head (sender text : Bytes) :
    fromUtf8 (messageOpen ++ (sender ++ (messageSep ++ text))) =
      headText (fromUtf8 sender) ++ fromUtf8 text := by
  have hopen : fromUtf8 messageOpen = openText := fromUtf8_ascii rfl
  have hsep : fromUtf8 messageSep = sepText := fromUtf8_ascii rfl
  have hopen' : ∀ b ∈ messageOpen, b < 0x80 := ascii_lt rfl
  have hsep' : ∀ b ∈ messageSep, b < 0x80 := ascii_lt rfl
  have hquote : (messageSep ++ text).head? = some 34 := by rw [List.head?_append]; rfl
  rw [fromUtf8_ascii_append hopen', fromUtf8_append_ascii hquote (by decide),
    fromUtf8_ascii_append hsep', hopen, hsep, headText, List.append_assoc, List.append_assoc]

/-! ### A line with a frame in it -/

theorem handleObject_message (client : ChatClient) {object : JsonObject}
    (htype : object "type".toList = .string "message".toList) :
    handleObject client object = (client,
      [.messageReceived (object "from".toList).toString (object "text".toList).toString]) := by
  have hvalue : (object "type".toList).toString = "message".toList := by rw [htype]; rfl
  unfold handleObject
  simp only
  rw [if_neg (type_ne htype (by decide)), if_neg (type_ne htype (by decide)), if_pos hvalue]

/-- A frame is an object with three members. -/
theorem messageBody_eq (sender text : Bytes) :
    messageBody sender text = objectBytes (ascii "type", ascii "message")
      [(ascii "from", sender), (ascii "text", text)] := by
  have hopen : messageOpen = [123] ++ (memberBytes (ascii "type", ascii "message") ++
      ([44, 34] ++ (ascii "from" ++ [34, 58, 34]))) := by decide
  have hsep : messageSep = [34, 44, 34] ++ (ascii "text" ++ [34, 58, 34]) := by decide
  have htail : ascii "\"\x7d" = [34, 125] := by decide
  simp [messageBody, hopen, hsep, htail, objectBytes, membersTailBytes, memberBytes]

/-- The client reads a whole frame as the message it carries. -/
theorem handleLine_messageFrame (J : JsonReader) (client : ChatClient) {sender text : Bytes}
    (hsender : FieldText sender) (hsender' : newline ∉ sender) (htext : FieldText text)
    (htext' : newline ∉ text) :
    (handleLine J client (messageBody sender text ++ [newline])).2 =
      [.messageReceived (fromUtf8 sender) (fromUtf8 text)] := by
  have htype : fromUtf8 (ascii "type") = "type".toList := fromUtf8_ascii rfl
  have hmessage : fromUtf8 (ascii "message") = "message".toList := fromUtf8_ascii rfl
  have hfrom : fromUtf8 (ascii "from") = "from".toList := fromUtf8_ascii rfl
  have htextKey : fromUtf8 (ascii "text") = "text".toList := fromUtf8_ascii rfl
  have hfields : ∀ m ∈ [(ascii "type", ascii "message"), (ascii "from", sender),
      (ascii "text", text)], LineField m.1 ∧ LineField m.2 := by
    simp only [List.forall_mem_cons, List.not_mem_nil, false_imp_iff, implies_true, and_true]
    exact ⟨⟨lineField_word rfl, lineField_word rfl⟩,
      ⟨lineField_word rfl, hsender, hsender'⟩,
      lineField_word rfl, htext, htext'⟩
  have hkeys : [fromUtf8 (ascii "type"), fromUtf8 (ascii "from"),
      fromUtf8 (ascii "text")].Nodup := by
    rw [htype, hfrom, htextKey]
    decide
  obtain ⟨object, hline, hvalue⟩ := handleLine_objectBytes J client hfields hkeys
  simp only [List.forall_mem_cons, htype, hmessage, hfrom, htextKey] at hvalue
  obtain ⟨hvtype, hvfrom, hvtext, -⟩ := hvalue
  rw [messageBody_eq, hline, handleObject_message client hvtype, hvfrom, hvtext]
  rfl

/-- The head of a frame ends inside a string. -/
theorem headText_count {sender : QString} (h : '"' ∉ sender) :
    (headText sender).count '"' = 11 := by
  have hopen : openText.count '"' = 7 := by decide
  have hsep : sepText.count '"' = 4 := by decide
  rw [headText, List.count_append, List.count_append, List.count_eq_zero.2 h, hopen, hsep]

theorem headText_head? (sender : QString) : (headText sender).head? = some '{' := by
  have hopen : openText.head? = some '{' := by decide
  rw [headText, List.head?_append, hopen]
  rfl

theorem headText_getLast? (sender : QString) : (headText sender).getLast? = some '"' := by
  have hsep : sepText.getLast? = some '"' := by decide
  rw [headText, List.getLast?_append, List.getLast?_append, hsep]
  rfl

/-- A line cut within the text of a frame gives no signal. -/
theorem handleLine_cut (J : JsonReader) (client : ChatClient) {sender part : Bytes}
    (hsender : FieldText sender) (hpart : FieldText part) :
    (handleLine J client (messageOpen ++ (sender ++ (messageSep ++ part)))).2 = [] := by
  have hdecode : decodeLine (messageOpen ++ (sender ++ (messageSep ++ part))) =
      headText (fromUtf8 sender) ++ fromUtf8 part := by
    refine (decodeLine_eq ?_ rfl).trans (fromUtf8_head sender part)
    exact .append (by unfold NulFree; decide) (.append hsender.nulFree
      (.append (by unfold NulFree; decide) hpart.nulFree))
  generalize messageOpen ++ (sender ++ (messageSep ++ part)) = bytes at hdecode ⊢
  have hquote {s : Bytes} (h : FieldText s) : '"' ∉ fromUtf8 s := fun hc =>
    h.quote_notMem (mem_fromUtf8 (by decide) hc)
  have hbackslash {s : Bytes} (h : FieldText s) : '\\' ∉ fromUtf8 s := fun hc =>
    h.backslash_notMem (mem_fromUtf8 (by decide) hc)
  have hline : trimmed (decodeLine bytes) =
      headText (fromUtf8 sender) ++ (fromUtf8 part).rdropWhile isQSpace := by
    rw [hdecode, trimmed_append (headText_head? _) (by decide) (headText_getLast? _) (by decide)]
  have hsub : (fromUtf8 part).rdropWhile isQSpace ⊆ fromUtf8 part :=
    (List.rdropWhile_prefix _ _).subset
  have hnull : J.fromJson (headText (fromUtf8 sender) ++ (fromUtf8 part).rdropWhile isQSpace) =
      none := by
    apply J.unclosed
    · simp only [headText, List.mem_append, not_or]
      exact ⟨⟨by decide, hbackslash hsender, by decide⟩, fun h => hbackslash hpart (hsub h)⟩
    · rw [List.count_append, headText_count (hquote hsender),
        List.count_eq_zero.2 fun h => hquote hpart (hsub h)]
  have hhead : (headText (fromUtf8 sender) ++ (fromUtf8 part).rdropWhile isQSpace).head? =
      some '{' := by
    rw [List.head?_append, headText_head?]
    rfl
  simp only [handleLine, hline, hhead, if_true, hnull]

/-! ### Survival -/

/-- The bytes are one newline-terminated line, and a client that receives them, in
whatever pieces, signals this message and nothing else, in particular nothing from
`System`. -/
structure FrameSurvives (J : JsonReader) (sender text data : Bytes) : Prop where
  line : ∃ l, newline ∉ l ∧ data = l ++ [newline]
  received : ∀ client pieces, client.buffer = [] → pieces.flatten = data →
    (Runs.run (onReadyRead J) client pieces).2 =
      [.messageReceived (fromUtf8 sender) (fromUtf8 text)]
  not_system : ∀ client pieces, client.buffer = [] → pieces.flatten = data →
    ∀ t, .messageReceived "System".toList t ∉ (Runs.run (onReadyRead J) client pieces).2

theorem newline_mem_messageBody {sender text : Bytes} (hsender : newline ∉ sender) :
    newline ∈ messageBody sender text ↔ newline ∈ text := by
  have hopen : newline ∉ messageOpen := by decide
  have hsep : newline ∉ messageSep := by decide
  have htail : newline ∉ ascii "\"\x7d" := by decide
  simp only [messageBody, List.mem_append, hopen, hsender, hsep, htail, false_or, or_false]

/-- A line that is a long enough piece of a frame ends within its text. -/
theorem messageBody_cut {sender text l : Bytes} (h : l ++ [newline] <+: messageBody sender text)
    (hlong : (messageOpen ++ (sender ++ messageSep)).length ≤ (l ++ [newline]).length) :
    ∃ part, part <+: text ∧ l ++ [newline] = messageOpen ++ (sender ++ (messageSep ++ part)) := by
  have hbody : messageBody sender text =
      (messageOpen ++ (sender ++ messageSep)) ++ (text ++ ascii "\"\x7d") := by
    simp only [messageBody, List.append_assoc]
  rw [hbody] at h
  obtain ⟨part, hpart⟩ := List.prefix_of_prefix_length_le (List.prefix_append _ _) h hlong
  rw [← hpart] at h ⊢
  have hpre := (List.prefix_append_right_inj _).1 h
  refine ⟨part, ?_, by simp only [List.append_assoc]⟩
  rcases List.prefix_or_prefix_of_prefix hpre (List.prefix_append text _) with hshort | ⟨r, rfl⟩
  · exact hshort
  · -- what follows the text holds no newline, so the line cannot end there
    cases r with
    | nil => rw [List.append_nil]
    | cons b r =>
      have hlast : (b :: r).getLast? = some newline := by
        have := congrArg List.getLast? hpart
        rwa [List.getLast?_concat, List.getLast?_append_of_ne_nil _ (by simp),
          List.getLast?_append_of_ne_nil _ (by simp)] at this
      have hmem := ((List.prefix_append_right_inj _).1 hpre).subset (List.mem_of_getLast? hlast)
      exact absurd hmem (by decide)

theorem frameSurvives_iff (J : JsonReader) {sender text : Bytes} (hsender : FieldText sender)
    (hsender' : newline ∉ sender) (hlen : sender.length ≤ 31)
    (hsystem : fromUtf8 sender ≠ "System".toList) (htext : FieldText text) :
    FrameSurvives J sender text (snprintf bufferSize (messageFrame sender text)) ↔
      newline ∉ text ∧ sender.length + text.length ≤ 8152 := by
  have hframe : (messageFrame sender text).length = sender.length + text.length + 39 := by
    rw [messageFrame_eq, List.length_append, messageBody_length]
    rfl
  have hnl : newline ∈ messageBody sender text ↔ newline ∈ text :=
    newline_mem_messageBody hsender'
  by_cases hfits : sender.length + text.length ≤ 8152
  · rw [snprintf_of_lt (by simp only [bufferSize]; omega), messageFrame_eq]
    refine ⟨?_, ?_⟩
    · intro h
      obtain ⟨l, hl, heq⟩ := h.line
      rw [← List.append_cancel_right heq, hnl] at hl
      exact ⟨hl, hfits⟩
    · rintro ⟨hnewline, -⟩
      have hline := mt hnl.1 hnewline
      have hevents (client : ChatClient) (pieces : List Bytes) (hbuffer : client.buffer = [])
          (hflat : pieces.flatten = messageBody sender text ++ [newline]) :
          (Runs.run (onReadyRead J) client pieces).2 =
            [.messageReceived (fromUtf8 sender) (fromUtf8 text)] := by
        have hne : pieces ≠ [] := by rintro rfl; simp at hflat
        rw [onReadyRead_pieces J client hne, hflat, onReadyRead_line J hbuffer hline,
          handleLine_messageFrame J client hsender hsender' htext hnewline]
      refine ⟨⟨_, hline, rfl⟩, hevents, fun client pieces hbuffer hflat t hmem => ?_⟩
      rw [hevents client pieces hbuffer hflat, List.mem_singleton,
        ClientEvent.messageReceived.injEq] at hmem
      exact hsystem hmem.1.symm
  · refine iff_of_false (fun h => ?_) fun h => hfits h.2
    obtain ⟨l, hl, heq⟩ := h.line
    have hcut : snprintf bufferSize (messageFrame sender text) <+: messageBody sender text := by
      rw [snprintf, messageFrame_eq, List.take_append_of_le_length]
      · exact List.take_prefix _ _
      · rw [messageBody_length]
        simp only [bufferSize]
        omega
    have hsize : (l ++ [newline]).length = 8191 := by
      rw [← heq, snprintf, List.length_take, hframe]
      simp only [bufferSize]
      omega
    have hopen : messageOpen.length = 26 := by decide
    have hsep : messageSep.length = 10 := by decide
    rw [heq] at hcut
    obtain ⟨part, hpart, hline⟩ := messageBody_cut hcut (by
      rw [hsize, List.length_append, List.length_append, hopen, hsep]
      omega)
    have hevents := h.received ⟨[], false, []⟩ [l ++ [newline]] rfl (by rw [heq]; simp)
    rw [onReadyRead_pieces J _ (by simp), List.flatten_singleton, onReadyRead_line J rfl hl, hline,
      handleLine_cut J _ hsender (htext.of_isPrefix hpart)] at hevents
    exact absurd hevents (by simp)

/-! ### What sessions broadcast -/

theorem isNickByte_plain : ∀ c : UInt8, isNickByte c = true →
    c < 0x80 ∧ c ≠ 34 ∧ c ≠ 92 ∧ c ≠ newline :=
  forall_byte (by decide +kernel)

theorem commandOf_fieldText {buffer command : Bytes} (h : commandOf buffer = some command) :
    FieldText command :=
  ⟨commandOf_nulFree h, fun hc => absurd (commandOf_not_filtered h hc) (by decide),
    fun hc => absurd (commandOf_not_filtered h hc) (by decide)⟩

theorem session_fieldText {s : Server} (hreg : Registered s.users) (hinv : SessionsInv s)
    {i : Slot} (hauth : (s.clients i).authorized = true) :
    FieldText (s.clients i).nick ∧ newline ∉ (s.clients i).nick := by
  have hbytes := session_isNickByte hreg hinv hauth
  refine ⟨⟨fun hc => ?_, fun hc => ?_, fun hc => ?_⟩, fun hc => ?_⟩
  · exact (isNickByte_clean _ (hbytes _ hc)).2.2 rfl
  · exact (isNickByte_plain _ (hbytes _ hc)).2.1 rfl
  · exact (isNickByte_plain _ (hbytes _ hc)).2.2.1 rfl
  · exact (isNickByte_plain _ (hbytes _ hc)).2.2.2 rfl

theorem session_not_system {s : Server} (hreg : Registered s.users) (hinv : SessionsInv s)
    {i : Slot} (hauth : (s.clients i).authorized = true) :
    fromUtf8 (s.clients i).nick ≠ "System".toList := by
  intro h
  have hsystem : fromUtf8 (ascii "System") = "System".toList := fromUtf8_ascii rfl
  have hascii : ∀ c ∈ (s.clients i).nick, c < 0x80 := fun c hc =>
    (isNickByte_plain c (session_isNickByte hreg hinv hauth c hc)).1
  have hnick : (s.clients i).nick = ascii "System" :=
    fromUtf8_ascii_inj hascii (ascii_lt rfl) (h.trans hsystem.symm)
  have := session_not_forbidden hreg hinv hauth (ascii "system") (by decide)
  rw [hnick] at this
  exact absurd this (by decide)

/-- For every reachable state, every authorised sender, every buffer whose command is
broadcast and every recipient: the frame survives if and only if the command has no
newline in it and fits. -/
theorem broadcast_survives_iff (J : JsonReader) {C : Crypto} {users : SecureUsers}
    (husers : Registered users) {s : Server} (hs : Reachable C users s) {conn : Conn} {h : Handler}
    (hh : s.handler? conn .looping = some h) (hfd : 0 ≤ (s.clients h.slot).fd)
    (hauth : (s.clients h.slot).authorized = true) {env : Env}
    (hlimit : s.withinLimit h.slot env.now = true) {buffer command : Bytes} (hne : buffer ≠ [])
    (hlt : buffer.length < bufferSize) (hcommand : commandOf buffer = some command)
    (hbroadcast : IsBroadcast command) {j : Slot} {c : Conn} (hj : (s.clients j).online = true)
    (hc : (s.clients j).ssl = some c) :
    FrameSurvives J (s.clients h.slot).nick command
        (writtenTo c (step C s (.iterate conn env (.bytes buffer hne hlt))).2) ↔
      newline ∉ command ∧ (s.clients h.slot).nick.length + command.length ≤ 8152 := by
  have hreg := Reachable.registered hs husers
  have hinv := Reachable.sessionsInv hs
  have hsender := noteActivity_refreshes s h.slot env.now h.slot
  have hrecipient := noteActivity_refreshes s h.slot env.now j
  have hconn : ConnInv (s.noteActivity h.slot env.now) :=
    Moves.preserve (I := ConnInv) (fun _ _ h hm => hm.connInv h)
      (noteActivity_moves s h.slot env.now) (Reachable.connInv hs)
  have hdata : writtenTo c (step C s (.iterate conn env (.bytes buffer hne hlt))).2 =
      snprintf bufferSize (messageFrame (s.clients h.slot).nick command) := by
    simp only [step, hh, handlerIteration_command C hne hlt hfd hlimit hcommand,
      processClientCommand, hsender.authorized, hauth, Bool.not_true, Bool.false_eq_true, if_false]
    rw [handleAuthorizedCommands_broadcast C _ env h.slot hbroadcast (commandOf_ne_nil hcommand),
      writtenTo_broadcastMessage hconn ?_ (hrecipient.ssl.trans hc), hsender.nick]
    simpa only [SecureClient.online, hrecipient.fd, hrecipient.authorized] using hj
  obtain ⟨hfield, hnl⟩ := session_fieldText hreg hinv hauth
  rw [hdata]
  exact frameSurvives_iff J hfield hnl (hinv.word _ hauth).length_le
    (session_not_system hreg hinv hauth) (commandOf_fieldText hcommand)

/-- What `ann` says arrives at `bob`'s client as said. -/
theorem broadcast_survives_ann :
    let s := (run Sample.crypto (Server.init SecureUsers.empty) Sample.chat).1
    FrameSurvives FlatJson.reader (ascii "ann") (ascii "hello")
      (writtenTo 1 (step Sample.crypto s (.iterate 0 (Sample.env 1005 0)
        (.bytes (ascii "hello\n") (by decide) (by decide)))).2) := by
  intro s
  have hs : Reachable Sample.crypto SecureUsers.empty s := ⟨Sample.chat, rfl⟩
  have hchat : Sample.Session s Sample.firstSlot 0 (ascii "ann") ∧
      Sample.Session s Sample.secondSlot 1 (ascii "bob") := Sample.chat_sessions
  clear_value s
  obtain ⟨⟨hh, hfd, hauth, -, hnick, hlimit⟩, -, hfd', hauth', hssl, -⟩ := hchat
  have honline : (s.clients Sample.secondSlot).online = true := by
    simp only [SecureClient.online, hauth', Bool.and_true, decide_eq_true_eq]
    exact hfd'
  have hcommand : commandOf (ascii "hello\n") = some (ascii "hello") := by decide
  have hlimit' : s.withinLimit Sample.firstSlot (Sample.env 1005 0).now = true := hlimit
  have hiff := broadcast_survives_iff FlatJson.reader registered_empty hs hh hfd hauth hlimit'
    (by decide) (by decide) hcommand ⟨by decide, by decide, by decide⟩ honline hssl
  rw [hnick] at hiff
  exact hiff.2 (by decide)

/-- `ann` says two lines at once: the frame for `bob` breaks at the newline, and his client
shows the second line as a message from `System`. -/
theorem two_lines_from_system :
    let s := (run Sample.crypto (Server.init SecureUsers.empty) Sample.chat).1
    let data := writtenTo 1 (step Sample.crypto s (.iterate 0 (Sample.env 1005 0)
      (.bytes (ascii "hello\nworld\n") (by decide) (by decide)))).2
    commandOf (ascii "hello\nworld\n") = some (ascii "hello\nworld") ∧
      (Runs.run (onReadyRead FlatJson.reader) ⟨[], true, []⟩ [data]).2 =
        [.messageReceived "System".toList "world\"\x7d".toList] ∧
      ¬ FrameSurvives FlatJson.reader (ascii "ann") (ascii "hello\nworld") data := by
  intro s data
  have hevents : (Runs.run (onReadyRead FlatJson.reader) ⟨[], true, []⟩ [data]).2 =
      [.messageReceived "System".toList "world\"\x7d".toList] := by decide +kernel
  clear_value data
  refine ⟨by decide, hevents, fun h => ?_⟩
  refine h.not_system ⟨[], true, []⟩ [data] rfl (by simp) "world\"\x7d".toList ?_
  rw [hevents]
  exact List.mem_singleton_self _

end Mesh
