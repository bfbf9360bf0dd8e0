import MeshMessenger.Proofs.EncryptedFrames
import MeshMessenger.Proofs.FrameTypes
import MeshMessenger.Proofs.OnlineList

/-! Every frame the server writes, listed with what is known of its fields. Those that name
a type of reply are whole objects on one line, and a client takes nothing else for one. -/

namespace Mesh

open CLib Lines

/-! ### The frames -/

/-- The frames that are the same every time. -/
def fixedFrames : List Bytes :=
  [welcomeFrame, rateLimitFrame, authRequiredFrame, loginErrorFrame, helpFrame]

/-- The frames the server writes but for the two that announce a success, some of them cut
where a buffer ends. -/
inductive CommonFrame : Bytes → Prop
  | fixed {f : Bytes} (hf : f ∈ fixedFrames) : CommonFrame f
  | registerError {message : Bytes} (hm : message ∈ registrationErrors) :
      CommonFrame (registerErrorFrame message)
  | message {sender text : Bytes} (hsender : LineField sender) (htext : FieldText text) :
      CommonFrame (snprintf bufferSize (messageFrame sender text))
  | privateMessage {sender target text : Bytes} (hsender : LineField sender)
      (htarget : LineField target) (htext : LineField text) :
      CommonFrame (snprintf bufferSize (privateFrame sender target text))
  | encrypted {sender target ciphertext : Bytes} (hsender : LineField sender)
      (htarget : LineField target) :
      CommonFrame (snprintf bufferSize (encryptedFrame sender target (bioBase64 ciphertext)))
  | online {nicks : List Bytes} (h : ∀ n ∈ nicks, LineField n) :
      CommonFrame (snprintf bufferSize (onlineFrame nicks))

theorem openFrame_fixed {f : Bytes} (hf : f ∈ fixedFrames) : OpenFrame f := by
  have hall : ∀ f ∈ fixedFrames, f.all (fun c => c != 0 && c != 92) = true ∧
      f.head? = some 123 := by decide +kernel
  exact ⟨frameText_word (hall f hf).1, (hall f hf).2⟩

theorem silent_fixed {kind : String} (hkind : kind ∈ replyKinds) {f : Bytes}
    (hf : f ∈ fixedFrames) (hlogin : kind = "login" → f ≠ loginErrorFrame) : Silent kind f := by
  have hall : ∀ kind ∈ replyKinds, ∀ f ∈ fixedFrames, (kind = "login" → f ≠ loginErrorFrame) →
      namesType kind (splitLines 34 f).1.tail = false := by decide +kernel
  exact ⟨openFrame_fixed hf,
    not_tagged_of (replyKinds_plain kind hkind).1 (hall kind hkind f hf hlogin)⟩

theorem ascii_type_ne : ∀ kind ∈ replyKinds, ascii "message" ≠ ascii kind ∧
    ascii "private" ≠ ascii kind ∧ ascii "encrypted" ≠ ascii kind ∧
    ascii "online" ≠ ascii kind := by decide +kernel

theorem silent_messageFrame {kind : String} (hkind : kind ∈ replyKinds) {sender text : Bytes}
    (hsender : LineField sender) (htext : FieldText text) :
    Silent kind (messageFrame sender text) := by
  rw [messageFrame_eq, messageBody_eq]
  refine silent_object hkind (ascii_type_ne kind hkind).1 ?_ ?_
  · simp only [List.forall_mem_cons, List.not_mem_nil, false_imp_iff, implies_true, and_true]
    exact ⟨by decide, by decide⟩
  · simp only [List.forall_mem_cons, List.not_mem_nil, false_imp_iff, implies_true, and_true]
    exact ⟨⟨fieldText_word rfl, fieldText_word rfl⟩,
      ⟨fieldText_word rfl, hsender.toFieldText⟩, fieldText_word rfl, htext⟩

theorem silent_privateFrame {kind : String} (hkind : kind ∈ replyKinds)
    {sender target text : Bytes} (hsender : LineField sender) (htarget : LineField target)
    (htext : LineField text) :
    Silent kind (privateFrame sender target text) := by
  rw [privateFrame_eq]
  refine silent_object hkind (ascii_type_ne kind hkind).2.1 ?_ ?_
  · simp only [privateMembers, List.forall_mem_cons, List.not_mem_nil, false_imp_iff,
      implies_true, and_true]
    exact ⟨by decide, by decide, by decide⟩
  · intro m hm
    have h := lineField_privateMembers hsender htarget htext m hm
    exact ⟨h.1.toFieldText, h.2.toFieldText⟩

theorem encryptedFrame_object (sender target data : Bytes) :
    encryptedFrame sender target data = objectBytes (ascii "type", ascii "encrypted")
      [(ascii "from", sender), (ascii "to", target), (ascii "data", data)] ++ [newline] := by
  have hopen : ascii "\x7b\"type\":\"encrypted\",\"from\":\"" =
      [123] ++ (memberBytes (ascii "type", ascii "encrypted") ++
        ([44, 34] ++ (ascii "from" ++ [34, 58, 34]))) := by decide
  have hto : ascii "\",\"to\":\"" = [34, 44, 34] ++ (ascii "to" ++ [34, 58, 34]) := by decide
  have hdata : ascii "\",\"data\":\"" = [34, 44, 34] ++ (ascii "data" ++ [34, 58, 34]) := by decide
  have htail : ascii "\"\x7d\n" = [34, 125, newline] := by decide
  simp [encryptedFrame, hopen, hto, hdata, htail, objectBytes, membersTailBytes, memberBytes]

theorem fieldText_bioBase64 (data : Bytes) : FieldText (bioBase64 data) := by
  have hbyte : ∀ c ∈ bioBase64 data, c = newline ∨ isBase64 c = true := by
    intro c hc
    rw [bioBase64_eq] at hc
    obtain ⟨l, hl, hc⟩ := List.mem_flatMap.1 hc
    rcases List.mem_append.1 hc with hc | hc
    · exact .inr (isBase64_base64Lines hl c hc)
    · exact .inl (List.mem_singleton.1 hc)
  refine fieldText_of fun c hc => ?_
  rcases hbyte c hc with rfl | h
  · decide
  · have hplain := isBase64_plain c h
    exact ⟨hplain.1, hplain.2.1, hplain.2.2.1⟩

theorem silent_encryptedFrame {kind : String} (hkind : kind ∈ replyKinds)
    {sender target ciphertext : Bytes} (hsender : LineField sender) (htarget : LineField target) :
    Silent kind (encryptedFrame sender target (bioBase64 ciphertext)) := by
  rw [encryptedFrame_object]
  refine silent_object hkind (ascii_type_ne kind hkind).2.2.1 ?_ ?_
  · simp only [List.forall_mem_cons, List.not_mem_nil, false_imp_iff, implies_true, and_true]
    exact ⟨by decide, by decide, by decide⟩
  · simp only [List.forall_mem_cons, List.not_mem_nil, false_imp_iff, implies_true, and_true]
    exact ⟨⟨fieldText_word rfl, fieldText_word rfl⟩,
      ⟨fieldText_word rfl, hsender.toFieldText⟩,
      ⟨fieldText_word rfl, htarget.toFieldText⟩, fieldText_word rfl,
      fieldText_bioBase64 ciphertext⟩

/-- Nicks with commas between them name no type. -/
theorem not_typePiece_nicks {kind : String} (nick : Bytes) (nicks : List Bytes) :
    ¬ TypePiece kind (nick :: nicks.flatMap fun n => [[44], n]) := by
  have hcomma : ([44] : Bytes) ≠ ascii "type" := by decide
  induction nicks generalizing nick with
  | nil => exact id
  | cons n nicks ih =>
    rintro (⟨-, hgap, -⟩ | h)
    · exact not_isColon_comma hgap
    · cases nicks with
      | nil => exact h
      | cons n' nicks =>
        rcases h with ⟨h, -, -⟩ | h
        · exact hcomma h
        · exact ih n h

/-- The texts between the quotes of nicks with commas between them. -/
theorem splitLines_quoted {nicks : List Bytes} (h : ∀ n ∈ nicks, (34 : UInt8) ∉ n) :
    splitLines 34 ((nicks.flatMap fun n => 44 :: quoted n) ++ [93, 125, newline]) =
      (nicks.flatMap fun n => [[44], n], [93, 125, newline]) := by
  induction nicks with
  | nil => decide
  | cons n nicks ih =>
    have htext : ((n :: nicks).flatMap fun n => 44 :: quoted n) ++ [93, 125, newline] =
        [44] ++ 34 :: (n ++ 34 :: ((nicks.flatMap fun n => 44 :: quoted n) ++
          [93, 125, newline])) := by
      simp [quoted]
    rw [htext, splitLines_line (by decide), splitLines_line (h n (by simp)),
      ih fun n' hn' => h n' (by simp [hn'])]
    rfl

theorem onlineFrame_members (nicks : List Bytes) :
    onlineFrame nicks = [123] ++ (memberBytes (ascii "type", ascii "online") ++ (restBytes [] ++
      ([44] ++ 34 :: (ascii "users" ++ 34 :: ([58, 91] ++
        (List.intercalate [44] (nicks.map quoted) ++ [93, 125, newline])))))) := by
  have hopen : onlineOpen = [123] ++ (memberBytes (ascii "type", ascii "online") ++
      ([44, 34] ++ (ascii "users" ++ [34, 58, 91]))) := by decide
  simp [onlineFrame, onlineBody, hopen, restBytes]

theorem not_typePiece_users {kind : String} {nicks : List Bytes}
    (h : ∀ n ∈ nicks, (34 : UInt8) ∉ n) :
    ¬ TypePiece kind (ascii "users" :: (splitLines 34 ([58, 91] ++
      (List.intercalate [44] (nicks.map quoted) ++ [93, 125, newline]))).1) := by
  cases nicks with
  | nil =>
    have hsplit : splitLines 34 (([58, 91] : Bytes) ++
        (List.intercalate [44] (([] : List Bytes).map quoted) ++ [93, 125, newline])) =
        ([], [58, 91, 93, 125, newline]) := by decide
    rw [hsplit]
    exact id
  | cons n nicks =>
    have htext : ([58, 91] : Bytes) ++
        (List.intercalate [44] ((n :: nicks).map quoted) ++ [93, 125, newline]) =
        [58, 91] ++ 34 :: (n ++ 34 :: ((nicks.flatMap fun n => 44 :: quoted n) ++
          [93, 125, newline])) := by
      rw [intercalate_quoted]
      simp [quoted]
    rw [htext, splitLines_line (by decide), splitLines_line (h n (by simp)),
      splitLines_quoted fun n' hn' => h n' (by simp [hn'])]
    have husers : ascii "users" ≠ ascii "type" := by decide
    have hopen : ([58, 91] : Bytes) ≠ ascii "type" := by decide
    rintro (⟨h, -, -⟩ | h)
    · exact husers h
    · cases nicks with
      | nil => exact h
      | cons n' nicks =>
        rcases h with ⟨h, -, -⟩ | h
        · exact hopen h
        · exact not_typePiece_nicks n (n' :: nicks) h

theorem frameText_quoted {nicks : List Bytes} (h : ∀ n ∈ nicks, LineField n) :
    FrameText (List.intercalate [44] (nicks.map quoted)) := by
  have hquoted {n : Bytes} (hn : LineField n) : FrameText (quoted n) :=
    FrameText.append (s := [34]) (frameText_word rfl)
      (hn.frameText.append (frameText_word rfl))
  cases nicks with
  | nil => exact frameText_of (by simp [List.intercalate])
  | cons n nicks =>
    rw [intercalate_quoted]
    refine (hquoted (h n (by simp))).append (frameText_of fun c hc => ?_)
    obtain ⟨n', hn', hc⟩ := List.mem_flatMap.1 hc
    rcases List.mem_cons.1 hc with rfl | hc
    · decide
    · have hq := hquoted (h n' (by simp [hn']))
      exact ⟨fun h0 => hq.nulFree (h0 ▸ hc), fun h92 => hq.backslash_notMem (h92 ▸ hc)⟩

theorem silent_onlineFrame {kind : String} (hkind : kind ∈ replyKinds) {nicks : List Bytes}
    (h : ∀ n ∈ nicks, LineField n) : Silent kind (onlineFrame nicks) := by
  have hquote : ∀ n ∈ nicks, (34 : UInt8) ∉ n := fun n hn => (h n hn).quote_notMem
  refine ⟨⟨?_, ?_⟩, fun htagged => ?_⟩
  · rw [onlineFrame, onlineBody]
    exact ((frameText_word rfl).append ((frameText_quoted h).append
      (frameText_word rfl))).append (frameText_word rfl)
  · rw [onlineFrame_members]
    rfl
  · rw [onlineFrame_members] at htagged
    have hpiece := typePiece_of_tagged (replyKinds_plain kind hkind).1 htagged
    have hquotes : ∀ m ∈ [(ascii "type", ascii "online")],
        (34 : UInt8) ∉ m.1 ∧ (34 : UInt8) ∉ m.2 := by decide
    have hmem := typePiece_members hquotes (fun key value hp => ?_) hpiece
    · exact (ascii_type_ne kind hkind).2.2.2 (Prod.ext_iff.1 (List.mem_singleton.1 hmem)).2.symm
    · rw [splitLines_line (by decide), splitLines_line (by decide)] at hp
      exact (typePiece_member hp).resolve_right (not_typePiece_users hquote)

/-! ### The replies -/

theorem natDec_eq_intDec (n : ℕ) : natDec n = intDec n := by
  simp [intDec]

def loginMembers (nick : Bytes) (sessionId : ℕ) : List (Bytes × Bytes) :=
  [(ascii "status", ascii "success"), (ascii "nick", nick), (ascii "session_id", natDec sessionId)]

theorem loginSuccessFrame_object (nick : Bytes) (sessionId : ℕ) :
    loginSuccessFrame nick sessionId =
      objectBytes (ascii "type", ascii "login") (loginMembers nick sessionId) ++ [newline] := by
  have hopen : ascii "\x7b\"type\":\"login\",\"status\":\"success\",\"nick\":\"" =
      [123] ++ (memberBytes (ascii "type", ascii "login") ++
        ([44] ++ (memberBytes (ascii "status", ascii "success") ++
          ([44, 34] ++ (ascii "nick" ++ [34, 58, 34]))))) := by decide
  have hid : ascii "\",\"session_id\":\"" =
      [34, 44, 34] ++ (ascii "session_id" ++ [34, 58, 34]) := by decide
  have htail : ascii "\"\x7d\n" = [34, 125, newline] := by decide
  simp [loginSuccessFrame, hopen, hid, htail, objectBytes, loginMembers, membersTailBytes,
    memberBytes]

theorem lineField_loginMembers {nick : Bytes} (hnick : LineField nick) (sessionId : ℕ) :
    ∀ m ∈ (ascii "type", ascii "login") :: loginMembers nick sessionId,
      LineField m.1 ∧ LineField m.2 := by
  have hid : LineField (natDec sessionId) := by
    rw [natDec_eq_intDec]
    exact lineField_of (intDec_plain sessionId)
  simp only [loginMembers, List.forall_mem_cons, List.not_mem_nil, false_imp_iff, implies_true,
    and_true]
  exact ⟨⟨lineField_word rfl, lineField_word rfl⟩,
    ⟨lineField_word rfl, lineField_word rfl⟩,
    ⟨lineField_word rfl, hnick⟩, lineField_word rfl, hid⟩

theorem loginSuccessFrame_uncut {nick : Bytes} (hlen : nick.length ≤ 31) {sessionId : ℕ}
    (hid : sessionId < 2 ^ 64) :
    snprintf 256 (loginSuccessFrame nick sessionId) = loginSuccessFrame nick sessionId := by
  have hdec : (natDec sessionId).length ≤ 20 := natDec_length_le (by decide) (by omega)
  refine snprintf_of_lt ?_
  have hopen : (ascii "\x7b\"type\":\"login\",\"status\":\"success\",\"nick\":\"").length = 43 := by
    decide
  have hsep : (ascii "\",\"session_id\":\"").length = 16 := by decide
  have htail : (ascii "\"\x7d\n").length = 3 := by decide
  simp only [loginSuccessFrame, List.length_append, hopen, hsep, htail]
  omega

def registerMembers (nick token : Bytes) : List (Bytes × Bytes) :=
  [(ascii "status", ascii "success"), (ascii "nick", nick), (ascii "token", token)]

theorem registerSuccessFrame_object (nick token : Bytes) (level : ℤ) :
    registerSuccessFrame nick token level =
      levelObjectBytes (ascii "type", ascii "register") (registerMembers nick token)
        (ascii "security_level") level ++ [newline] := by
  have hopen : ascii "\x7b\"type\":\"register\",\"status\":\"success\",\"nick\":\"" =
      [123] ++ (memberBytes (ascii "type", ascii "register") ++
        ([44] ++ (memberBytes (ascii "status", ascii "success") ++
          ([44, 34] ++ (ascii "nick" ++ [34, 58, 34]))))) := by decide
  have htoken : ascii "\",\"token\":\"" =
      [34, 44, 34] ++ (ascii "token" ++ [34, 58, 34]) := by decide
  have hlevel : ascii "\",\"security_level\":" =
      [34, 44, 34] ++ (ascii "security_level" ++ [34, 58]) := by decide
  have htail : ascii "\x7d\n" = [125, newline] := by decide
  simp [registerSuccessFrame, hopen, htoken, hlevel, htail, levelObjectBytes, registerMembers,
    restBytes, memberBytes]

theorem lineField_registerMembers {nick token : Bytes} (hnick : LineField nick)
    (htoken : LineField token) :
    ∀ m ∈ (ascii "type", ascii "register") :: registerMembers nick token,
      LineField m.1 ∧ LineField m.2 := by
  simp only [registerMembers, List.forall_mem_cons, List.not_mem_nil, false_imp_iff, implies_true,
    and_true]
  exact ⟨⟨lineField_word rfl, lineField_word rfl⟩,
    ⟨lineField_word rfl, lineField_word rfl⟩,
    ⟨lineField_word rfl, hnick⟩, lineField_word rfl, htoken⟩

theorem registerSuccessFrame_uncut {nick token : Bytes} (hlen : nick.length ≤ 31)
    (hlen' : token.length = tokenLength) {level : ℤ} (hlevel : level.natAbs < 10 ^ 10) :
    snprintf 512 (registerSuccessFrame nick token level) =
      registerSuccessFrame nick token level := by
  have hdec : (intDec level).length ≤ 11 := intDec_length_le (by decide) hlevel
  refine snprintf_of_lt ?_
  have hopen :
      (ascii "\x7b\"type\":\"register\",\"status\":\"success\",\"nick\":\"").length = 46 := by
    decide
  have hsep : (ascii "\",\"token\":\"").length = 11 := by decide
  have hsep' : (ascii "\",\"security_level\":").length = 19 := by decide
  have htail : (ascii "\x7d\n").length = 2 := by decide
  rw [tokenLength] at hlen'
  simp only [registerSuccessFrame, List.length_append, hopen, hsep, hsep', htail]
  omega

theorem registerErrorFrame_object (message : Bytes) :
    registerErrorFrame message = objectBytes (ascii "type", ascii "register")
      [(ascii "status", ascii "error"), (ascii "message", message)] ++ [newline] := by
  have hopen : ascii "\x7b\"type\":\"register\",\"status\":\"error\",\"message\":\"" =
      [123] ++ (memberBytes (ascii "type", ascii "register") ++
        ([44] ++ (memberBytes (ascii "status", ascii "error") ++
          ([44, 34] ++ (ascii "message" ++ [34, 58, 34]))))) := by decide
  have htail : ascii "\"\x7d\n" = [34, 125, newline] := by decide
  simp [registerErrorFrame, hopen, htail, objectBytes, membersTailBytes, memberBytes]

theorem loginErrorFrame_object : loginErrorFrame = objectBytes (ascii "type", ascii "login")
    [(ascii "status", ascii "error"), (ascii "message", ascii "Invalid credentials")] ++
      [newline] := by decide

/-- The fields of an error are plain. -/
theorem lineField_error {type : String} (htype : LineField (ascii type)) {message : Bytes}
    (hmessage : LineField message) :
    ∀ m ∈ (ascii "type", ascii type) ::
      [(ascii "status", ascii "error"), (ascii "message", message)],
      LineField m.1 ∧ LineField m.2 := by
  simp only [List.forall_mem_cons, List.not_mem_nil, false_imp_iff, implies_true, and_true]
  exact ⟨⟨lineField_word rfl, htype⟩,
    ⟨lineField_word rfl, lineField_word rfl⟩,
    lineField_word rfl, hmessage⟩

theorem lineField_registrationErrors : ∀ m ∈ registrationErrors, LineField m := by
  intro m hm
  simp only [registrationErrors, List.map_cons, List.map_nil, List.mem_cons, List.not_mem_nil,
    or_false] at hm
  rcases hm with rfl | rfl | rfl <;> exact lineField_word rfl

theorem lineField_register : LineField (ascii "register") := lineField_word rfl

theorem lineField_login : LineField (ascii "login") := lineField_word rfl

theorem loginSuccessFrame_whole {nick : Bytes} (hnick : LineField nick) (sessionId : ℕ) :
    WholeFrame (loginSuccessFrame nick sessionId) := by
  rw [loginSuccessFrame_object]
  exact wholeFrame_objectBytes (lineField_loginMembers hnick sessionId)

theorem registerSuccessFrame_whole {nick token : Bytes} (hnick : LineField nick)
    (htoken : LineField token) (level : ℤ) :
    WholeFrame (registerSuccessFrame nick token level) := by
  rw [registerSuccessFrame_object]
  exact wholeFrame_levelObjectBytes (lineField_registerMembers hnick htoken)
    (lineField_word rfl) level

theorem registerErrorFrame_whole {message : Bytes} (hm : message ∈ registrationErrors) :
    WholeFrame (registerErrorFrame message) := by
  rw [registerErrorFrame_object]
  exact wholeFrame_objectBytes
    (lineField_error lineField_register (lineField_registrationErrors _ hm))

theorem loginErrorFrame_whole : WholeFrame loginErrorFrame := by
  rw [loginErrorFrame_object]
  exact wholeFrame_objectBytes (lineField_error lineField_login (lineField_word rfl))

/-- A common frame that names a type of reply is an error, whole. -/
theorem CommonFrame.reply_cases {kind : String} (hkind : kind ∈ replyKinds) {f : Bytes}
    (h : CommonFrame f) : Silent kind f ∨ f = loginErrorFrame ∨
      ∃ message ∈ registrationErrors, f = registerErrorFrame message := by
  cases h with
  | fixed hf =>
    by_cases hlogin : f = loginErrorFrame
    · exact .inr (.inl hlogin)
    · exact .inl (silent_fixed hkind hf fun _ => hlogin)
  | registerError hm => exact .inr (.inr ⟨_, hm, rfl⟩)
  | message hsender htext =>
    exact .inl ((silent_messageFrame hkind hsender htext).snprintf (by decide))
  | privateMessage hsender htarget htext =>
    exact .inl ((silent_privateFrame hkind hsender htarget htext).snprintf (by decide))
  | encrypted hsender htarget =>
    exact .inl ((silent_encryptedFrame hkind hsender htarget).snprintf (by decide))
  | online h => exact .inl ((silent_onlineFrame hkind h).snprintf (by decide))

theorem WholeFrame.plain {f : Bytes} (h : WholeFrame f) (kind : String) : Plain kind f :=
  ⟨h.openFrame, .inr h⟩

theorem CommonFrame.plain {kind : String} (hkind : kind ∈ replyKinds) {f : Bytes}
    (h : CommonFrame f) : Plain kind f := by
  rcases h.reply_cases hkind with hs | rfl | ⟨message, hm, rfl⟩
  · exact ⟨hs.openFrame, .inl hs.not_tagged⟩
  · exact loginErrorFrame_whole.plain kind
  · exact (registerErrorFrame_whole hm).plain kind

/-! ### What the client makes of the replies -/

theorem value_of_mem {object : JsonObject} {ms : List (Bytes × Bytes)}
    (hvalue : ∀ m ∈ ms, object (fromUtf8 m.1) = .string (fromUtf8 m.2)) {key : String}
    (hkey : key.toList.all (fun c => decide (c.toNat < 0x80)) = true) {value : Bytes}
    (hmem : (ascii key, value) ∈ ms) : (object key.toList).toString = fromUtf8 value := by
  have h := hvalue _ hmem
  rw [fromUtf8_ascii hkey] at h
  rw [h]
  rfl

theorem handleLine_loginSuccess (J : JsonReader) (client : ChatClient) {nick : Bytes}
    (hnick : LineField nick) (sessionId : ℕ) :
    (handleLine J client (loginSuccessFrame nick sessionId)).2 =
      [.loginSuccess (fromUtf8 nick)] := by
  have hkeys : ((ascii "type", ascii "login") :: loginMembers nick sessionId).map
      (fun m => fromUtf8 m.1) =
      ["type", "status", "nick", "session_id"].map String.toList := by
    simp only [loginMembers, List.map_cons, List.map_nil]
    rw [fromUtf8_ascii rfl, fromUtf8_ascii rfl, fromUtf8_ascii rfl, fromUtf8_ascii rfl]
  obtain ⟨object, hline, hvalue⟩ := handleLine_objectBytes J client
    (lineField_loginMembers hnick sessionId) (by rw [hkeys]; decide)
  have htype : (object "type".toList).toString = "login".toList :=
    (value_of_mem hvalue rfl (by simp)).trans (fromUtf8_ascii rfl)
  have hstatus : (object "status".toList).toString = "success".toList :=
    (value_of_mem hvalue rfl (by simp [loginMembers])).trans (fromUtf8_ascii rfl)
  have hname : (object "nick".toList).toString = fromUtf8 nick :=
    value_of_mem hvalue rfl (by simp [loginMembers])
  rw [loginSuccessFrame_object, hline]
  unfold handleObject
  simp only
  rw [if_neg (by rw [htype]; decide), if_pos htype, if_pos hstatus, hname]

/-- The client reads an object that ends in a number as the object. -/
theorem handleLine_levelObjectBytes (J : StrictReader) (client : ChatClient)
    {first : Bytes × Bytes} {rest : List (Bytes × Bytes)}
    (hfields : ∀ m ∈ first :: rest, LineField m.1 ∧ LineField m.2) {key : Bytes}
    (hkey : LineField key)
    (hkeys : ((first :: rest).map (fun m => fromUtf8 m.1) ++ [fromUtf8 key]).Nodup) (n : ℤ) :
    ∃ object, handleLine J.toJsonReader client (levelObjectBytes first rest key n ++ [newline]) =
        handleObject client object ∧
      ∀ m ∈ first :: rest, object (fromUtf8 m.1) = .string (fromUtf8 m.2) := by
  have hdecode : decodeLine (levelObjectBytes first rest key n ++ [newline]) =
      levelObjectText (decoded first) (rest.map decoded) (fromUtf8 key) n ++ ['\n'] := by
    rw [decodeLine_eq (wholeFrame_levelObjectBytes hfields hkey n).text.nulFree rfl,
      fromUtf8_append (by decide), fromUtf8_levelObjectBytes]
    rfl
  obtain ⟨object, hread, hvalue⟩ := J.reads_level (decoded first) (rest.map decoded)
    (fromUtf8 key) n (by
      rw [← List.map_cons]
      intro m' hm'
      obtain ⟨m, hm, rfl⟩ := List.mem_map.1 hm'
      exact ⟨(hfields m hm).1.plainText, (hfields m hm).2.plainText⟩) hkey.plainText (by
      rw [← List.map_cons, List.map_map]
      exact hkeys)
  refine ⟨object, handleLine_braces J.toJsonReader client rfl (levelObjectText_getLast? _ _ _ _)
    hdecode hread, fun m hm => ?_⟩
  exact hvalue (decoded m) (by rw [← List.map_cons]; exact List.mem_map_of_mem hm)

theorem handleLine_registerSuccess (J : StrictReader) (client : ChatClient) {nick token : Bytes}
    (hnick : LineField nick) (htoken : LineField token) (level : ℤ) :
    (handleLine J.toJsonReader client (registerSuccessFrame nick token level)).2 =
      [.registrationSuccess (fromUtf8 nick) (fromUtf8 token)] := by
  have hkeys : ((ascii "type", ascii "register") :: registerMembers nick token).map
      (fun m => fromUtf8 m.1) ++ [fromUtf8 (ascii "security_level")] =
      ["type", "status", "nick", "token", "security_level"].map String.toList := by
    simp only [registerMembers, List.map_cons, List.map_nil]
    rw [fromUtf8_ascii rfl, fromUtf8_ascii rfl, fromUtf8_ascii rfl, fromUtf8_ascii rfl,
      fromUtf8_ascii rfl]
    rfl
  obtain ⟨object, hline, hvalue⟩ := handleLine_levelObjectBytes J client
    (lineField_registerMembers hnick htoken)
    (lineField_word rfl : LineField (ascii "security_level"))
    (by rw [hkeys]; decide) level
  have htype : (object "type".toList).toString = "register".toList :=
    (value_of_mem hvalue rfl (by simp)).trans (fromUtf8_ascii rfl)
  have hstatus : (object "status".toList).toString = "success".toList :=
    (value_of_mem hvalue rfl (by simp [registerMembers])).trans (fromUtf8_ascii rfl)
  have hname : (object "nick".toList).toString = fromUtf8 nick :=
    value_of_mem hvalue rfl (by simp [registerMembers])
  have hcode : (object "token".toList).toString = fromUtf8 token :=
    value_of_mem hvalue rfl (by simp [registerMembers])
  rw [registerSuccessFrame_object, hline]
  unfold handleObject
  simp only
  rw [if_pos htype, if_pos hstatus, hname, hcode]

/-- An error is no success. -/
theorem handleLine_error (J : StrictReader) (client : ChatClient) {type : String}
    (htype : LineField (ascii type)) {message : Bytes} (hmessage : LineField message)
    {e : ClientEvent} (he : e ∈ (handleLine J.toJsonReader client
      (objectBytes (ascii "type", ascii type)
        [(ascii "status", ascii "error"), (ascii "message", message)] ++ [newline])).2) :
    (∀ q, e ≠ .loginSuccess q) ∧ ∀ q t, e ≠ .registrationSuccess q t := by
  have hkeys : ((ascii "type", ascii type) :: [(ascii "status", ascii "error"),
      (ascii "message", message)]).map (fun m => fromUtf8 m.1) =
      ["type", "status", "message"].map String.toList := by
    simp only [List.map_cons, List.map_nil]
    rw [fromUtf8_ascii rfl, fromUtf8_ascii rfl, fromUtf8_ascii rfl]
  obtain ⟨object, hline, hvalue⟩ := handleLine_objectBytes J.toJsonReader client
    (lineField_error htype hmessage) (by rw [hkeys]; decide)
  have hstatus : (object "status".toList).toString = "error".toList :=
    (value_of_mem hvalue rfl (by simp)).trans (fromUtf8_ascii rfl)
  have hnot : ¬ (object "status".toList).toString = "success".toList := by
    rw [hstatus]
    decide
  rw [hline] at he
  unfold handleObject at he
  simp only [hnot, if_false] at he
  refine ⟨?_, ?_⟩
  · rintro q rfl
    split_ifs at he <;> simp at he
  · rintro q t rfl
    split_ifs at he <;> simp at he

theorem Silent.no_signal {J : StrictReader} {f : Bytes} {e : ClientEvent}
    (h : Silent e.kind f) (hkind : e.kind ≠ "message") :
    e ∉ (handleLine J.toJsonReader .fresh f).2 := fun he =>
  h.not_tagged (tagged_of_signal h.openFrame.text.nulFree h.openFrame.text.backslash_notMem he
    hkind)

/-- A client takes no common frame for a success. -/
theorem CommonFrame.no_success {J : StrictReader} {f : Bytes} (h : CommonFrame f)
    {e : ClientEvent} (he : e ∈ (handleLine J.toJsonReader .fresh f).2) :
    (∀ q, e ≠ .loginSuccess q) ∧ ∀ q t, e ≠ .registrationSuccess q t := by
  have herror (hf : f = loginErrorFrame ∨
      ∃ message ∈ registrationErrors, f = registerErrorFrame message) :
      (∀ q, e ≠ .loginSuccess q) ∧ ∀ q t, e ≠ .registrationSuccess q t := by
    rcases hf with rfl | ⟨message, hm, rfl⟩
    · rw [loginErrorFrame_object] at he
      exact handleLine_error J .fresh lineField_login (lineField_word rfl) he
    · rw [registerErrorFrame_object] at he
      exact handleLine_error J .fresh lineField_register (lineField_registrationErrors _ hm) he
  have hsilent {kind : String} (hs : Silent kind f) (hkind : e.kind = kind)
      (hne : kind ≠ "message") : False :=
    Silent.no_signal (hkind ▸ hs) (hkind ▸ hne) he
  refine ⟨?_, ?_⟩
  · rintro q rfl
    rcases h.reply_cases (by decide : "login" ∈ replyKinds) with hs | hf
    · exact hsilent hs rfl (by decide)
    · exact (herror hf).1 q rfl
  · rintro q t rfl
    rcases h.reply_cases (by decide : "register" ∈ replyKinds) with hs | hf
    · exact hsilent hs rfl (by decide)
    · exact (herror hf).2 q t rfl

end Mesh
