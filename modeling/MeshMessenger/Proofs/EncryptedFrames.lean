import MeshMessenger.Proofs.Base64
import MeshMessenger.Proofs.PrivateFrames

/-! An encrypted message on the wire. The base64 in its frame brings newlines of its own,
so the client sees the frame in pieces: an object that is never closed, and lines that
are no objects. -/

namespace Mesh

open CLib Lines

/-! ### The frame as lines -/

/-- What stands before the data of an encrypted frame. -/
def encryptedHead (sender target : Bytes) : Bytes :=
  ascii "\x7b\"type\":\"encrypted\",\"from\":\"" ++ (sender ++
    (ascii "\",\"to\":\"" ++ (target ++ ascii "\",\"data\":\"")))

/-- What stands after it. -/
def encryptedTail : Bytes := ascii "\"\x7d"

/-- The lines of an encrypted frame whose data has the lines `l :: ls`. -/
def encryptedLines (sender target l : Bytes) (ls : List Bytes) : List Bytes :=
  (encryptedHead sender target ++ l) :: (ls ++ [encryptedTail])

theorem encryptedFrame_eq {sender target ciphertext l : Bytes} {ls : List Bytes}
    (h : base64Lines ciphertext = l :: ls) :
    encryptedFrame sender target (bioBase64 ciphertext) =
      joinLines newline (encryptedLines sender target l ls) := by
  have htail : ascii "\"\x7d\n" = encryptedTail ++ [newline] := by decide
  rw [bioBase64_eq, h]
  simp [encryptedFrame, encryptedLines, encryptedHead, joinLines, htail]

section lines

variable {sender target : Bytes} (hsender : LineField sender) (htarget : LineField target)

include hsender htarget

theorem mem_encryptedHead {c : UInt8} (hc : c = 0 ∨ c = 92 ∨ c = newline) :
    c ∉ encryptedHead sender target := by
  have hliteral {s : Bytes} (hs : s.all (fun d => d != 0 && d != 92 && d != newline) = true) :
      ∀ d ∈ s, ¬ (d = 0 ∨ d = 92 ∨ d = newline) := by
    intro d hd
    simpa [and_assoc] using List.all_eq_true.1 hs d hd
  have hopen : ∀ d ∈ ascii "\x7b\"type\":\"encrypted\",\"from\":\"",
      ¬ (d = 0 ∨ d = 92 ∨ d = newline) := hliteral rfl
  have hto : ∀ d ∈ ascii "\",\"to\":\"", ¬ (d = 0 ∨ d = 92 ∨ d = newline) := hliteral rfl
  have hdata : ∀ d ∈ ascii "\",\"data\":\"", ¬ (d = 0 ∨ d = 92 ∨ d = newline) := hliteral rfl
  have hfield {s : Bytes} (hs : LineField s) : c ∉ s := by
    rcases hc with rfl | rfl | rfl
    · exact hs.nulFree
    · exact hs.backslash_notMem
    · exact hs.newline_notMem
  simp only [encryptedHead, List.mem_append, not_or]
  exact ⟨fun hd => hopen c hd hc, hfield hsender, fun hd => hto c hd hc, hfield htarget,
    fun hd => hdata c hd hc⟩

/-- The head ends within a string. -/
theorem count_encryptedHead : (encryptedHead sender target).count 34 = 15 := by
  have hopen : (ascii "\x7b\"type\":\"encrypted\",\"from\":\"").count 34 = 7 := by decide
  have hto : (ascii "\",\"to\":\"").count 34 = 4 := by decide
  have hdata : (ascii "\",\"data\":\"").count 34 = 4 := by decide
  simp only [encryptedHead, List.count_append, hopen, hto, hdata,
    List.count_eq_zero.2 hsender.quote_notMem, List.count_eq_zero.2 htarget.quote_notMem]

theorem newline_notMem_encryptedLines {l : Bytes} {ls : List Bytes}
    (hls : ∀ l' ∈ l :: ls, ∀ c ∈ l', isBase64 c = true) :
    ∀ l' ∈ encryptedLines sender target l ls, newline ∉ l' := by
  have hdata : ∀ l' ∈ l :: ls, newline ∉ l' := fun l' hl' hc =>
    (isBase64_plain _ (hls l' hl' _ hc)).2.2.2.1 rfl
  simp only [encryptedLines, List.forall_mem_cons, List.forall_mem_append, List.not_mem_nil,
    false_imp_iff, implies_true, and_true]
  refine ⟨?_, fun l' hl' => hdata l' (by simp [hl']), by decide⟩
  rw [List.mem_append, not_or]
  exact ⟨mem_encryptedHead hsender htarget (by simp), hdata l (by simp)⟩

end lines

/-! ### The frame as the client decodes it -/

theorem not_brace : ∀ b : UInt8, isBase64 b = true ∨ b = 34 →
    isQSpace (Char.ofNat b.toNat) = false ∧ Char.ofNat b.toNat ≠ '{' ∧ b < 0x80 ∧ b ≠ 0 :=
  forall_byte (by decide +kernel)

/-- A line that starts like neither an object nor white space is shown as it is. -/
theorem handleLine_plain (J : JsonReader) (client : ChatClient) {b : UInt8}
    (hb : isBase64 b = true ∨ b = 34) (rest : Bytes) :
    ∃ text, handleLine J client (b :: rest) = (client, [.messageReceived "System".toList text]) := by
  obtain ⟨hspace, hbrace, hascii, hnul⟩ := not_brace b hb
  have hcstr : cstr (b :: rest) = b :: cstr rest := List.takeWhile_cons_of_pos (by simpa using hnul)
  have hdecode : decodeLine (b :: rest) = Char.ofNat b.toNat :: fromUtf8 (cstr rest) := by
    rw [decodeLine, hcstr]
    split
    · next heq =>
      obtain ⟨rfl, -⟩ := List.cons.inj heq
      exact absurd hascii (by decide)
    · next heq => exact fromUtf8_cons hascii _
  have hline : trimmed (decodeLine (b :: rest)) =
      Char.ofNat b.toNat :: (fromUtf8 (cstr rest)).rdropWhile isQSpace := by
    rw [hdecode]
    exact trimmed_append (s := [Char.ofNat b.toNat]) rfl hspace rfl hspace _
  refine ⟨trimmed (decodeLine (b :: rest)), ?_⟩
  simp only [handleLine, hline, List.head?_cons, Option.some.injEq, hbrace, if_false]

/-- The event is no encrypted message. -/
def ClientEvent.NotEncrypted : ClientEvent → Prop
  | .encryptedMessageReceived _ _ _ => False
  | _ => True

/-- None of the frame's lines is an encrypted message to the client. -/
theorem notEncrypted_line (J : JsonReader) {sender target : Bytes} (hsender : LineField sender)
    (htarget : LineField target) {l : Bytes} {ls : List Bytes}
    (hls : ∀ l' ∈ l :: ls, l' ≠ [] ∧ ∀ c ∈ l', isBase64 c = true) {line : Bytes}
    (hline : line ∈ encryptedLines sender target l ls) (client : ChatClient) :
    ∀ e ∈ (handleLine J client (line ++ [newline])).2, e.NotEncrypted := by
  rcases List.mem_cons.1 hline with rfl | hline
  · have hl := (hls l (by simp)).2
    have hodd : (encryptedHead sender target ++ l ++ [newline]).count 34 = 15 := by
      rw [List.count_append, List.count_append, count_encryptedHead hsender htarget,
        List.count_eq_zero.2 fun hc => (isBase64_plain _ (hl _ hc)).2.1 rfl]
      rfl
    have hmem {c : UInt8} (hc : c = 0 ∨ c = 92) :
        c ∉ encryptedHead sender target ++ l ++ [newline] := by
      simp only [List.mem_append, List.mem_singleton, not_or]
      refine ⟨⟨mem_encryptedHead hsender htarget (hc.imp_right .inl), fun hcl => ?_⟩, ?_⟩
      · obtain ⟨h0, -, h92, -⟩ := isBase64_plain _ (hl _ hcl)
        exact hc.elim h0 h92
      · rcases hc with rfl | rfl <;> decide
    rw [handleLine_unclosed J client (hmem (.inl rfl)) rfl (hmem (.inr rfl)) (by rw [hodd])]
    exact fun e he => absurd he (by simp)
  · have hfirst : ∃ b rest, line = b :: rest ∧ (isBase64 b = true ∨ b = 34) := by
      rcases List.mem_append.1 hline with hline | hline
      · obtain ⟨hne, hchars⟩ := hls line (by simp [hline])
        obtain ⟨b, rest, rfl⟩ := List.exists_cons_of_ne_nil hne
        exact ⟨b, rest, rfl, .inl (hchars b (by simp))⟩
      · rw [List.mem_singleton.1 hline]
        exact ⟨34, [125], by decide, .inr rfl⟩
    obtain ⟨b, rest, rfl, hb⟩ := hfirst
    obtain ⟨text, heq⟩ := handleLine_plain J client hb (rest ++ [newline])
    rw [List.cons_append, heq]
    intro e he
    rw [List.mem_singleton.1 he]
    trivial

theorem notEncrypted_handleLines (J : JsonReader) {lines : List Bytes}
    (h : ∀ line ∈ lines, ∀ client, ∀ e ∈ (handleLine J client line).2, e.NotEncrypted)
    (client : ChatClient) : ∀ e ∈ (handleLines J client lines).2, e.NotEncrypted := by
  induction lines generalizing client with
  | nil => exact fun e he => absurd he (by simp [handleLines])
  | cons line lines ih =>
    intro e he
    simp only [handleLines, List.mem_append] at he
    rcases he with he | he
    · exact h line (by simp) client e he
    · exact ih (fun line' hline' => h line' (by simp [hline'])) _ e he

/-- However much of the frame the buffer holds, no client that receives it signals an
encrypted message. -/
theorem notEncrypted_frame (J : JsonReader) {sender target ciphertext : Bytes}
    (hsender : LineField sender) (htarget : LineField target) (hne : ciphertext ≠ [])
    (client : ChatClient) (hbuffer : client.buffer = []) (n : ℕ) :
    ∀ e ∈ (onReadyRead J client
      (snprintf n (encryptedFrame sender target (bioBase64 ciphertext)))).2, e.NotEncrypted := by
  cases hlines : base64Lines ciphertext with
  | nil =>
    rw [base64Lines_eq hne] at hlines
    exact absurd hlines (by simp)
  | cons l ls =>
    have hls : ∀ l' ∈ l :: ls, l' ≠ [] ∧ ∀ c ∈ l', isBase64 c = true := fun l' hl' => by
      rw [← hlines] at hl'
      exact ⟨ne_nil_of_mem_base64Lines hl', isBase64_base64Lines hl'⟩
    rw [encryptedFrame_eq hlines, snprintf]
    have hsplit := splitLines_joinLines
      (newline_notMem_encryptedLines hsender htarget fun l' hl' => (hls l' hl').2)
    -- what the buffer holds splits into the first of the frame's lines
    have hprefix := splitLines_append (d := newline)
      ((joinLines newline (encryptedLines sender target l ls)).take (n - 1))
      ((joinLines newline (encryptedLines sender target l ls)).drop (n - 1))
    rw [List.take_append_drop, hsplit] at hprefix
    have hmem := (Prod.mk.inj hprefix).1
    simp only [onReadyRead, hbuffer, List.nil_append]
    refine notEncrypted_handleLines J (fun line hline client => ?_) _
    obtain ⟨l', hl', rfl⟩ := List.mem_map.1 hline
    exact notEncrypted_line J hsender htarget hls
      (by rw [hmem]; exact List.mem_append_left _ hl') client

/-! ### Survival -/

/-- The bytes are one newline-terminated line, and a client that receives them, in whatever
pieces, signals one encrypted message and nothing else, whose data is the ciphertext in
base64. -/
structure EncryptedSurvives (J : JsonReader) (sender target ciphertext data : Bytes) : Prop where
  line : ∃ l, newline ∉ l ∧ data = l ++ [newline]
  received : ∀ client pieces, client.buffer = [] → pieces.flatten = data →
    ∃ b64, readBase64 b64 = some ciphertext ∧ (Runs.run (onReadyRead J) client pieces).2 =
      [.encryptedMessageReceived (fromUtf8 sender) (fromUtf8 target) (fromUtf8 b64)]

/-- What `handle_encrypted_message` writes, if it writes at all. -/
theorem handleEncryptedMessage_eq {C : Crypto} {s : Server} {env : Env} {i : Slot}
    {command target text : Bytes} (hparse : parseSendEnc command = some (target, text)) {j : Slot}
    (hfind : findClientByNick s target = some j) :
    handleEncryptedMessage C s env i command =
      match C.aesGcm (s.clients i).sessionKey env.iv text with
      | none => []
      | some ciphertext =>
        if ciphertext = [] then []
        else [.write (s.clients j).ssl (snprintf bufferSize
          (encryptedFrame (s.clients i).nick target (bioBase64 ciphertext)))] := by
  unfold handleEncryptedMessage encryptMessageForUser
  rw [hparse]
  simp only
  generalize findClientByNick s target = found at hfind
  subst hfind
  simp only
  cases C.aesGcm (s.clients i).sessionKey env.iv text with
  | none => rfl
  | some ciphertext =>
    by_cases hne : ciphertext = []
    · simp [hne]
    · simp [hne]

/-- For every reachable state, every authorised sender, every command that is an encrypted
message to a client online, and whatever the cipher does: the frame does not survive. -/
theorem encrypted_never_survives (J : JsonReader) {C : Crypto} {users : SecureUsers}
    (husers : Registered users) {s : Server} (hs : Reachable C users s) {i : Slot}
    (hauth : (s.clients i).authorized = true) (env : Env) {buffer command : Bytes}
    (hcommand : commandOf buffer = some command) {target text : Bytes}
    (hparse : parseSendEnc command = some (target, text)) {j : Slot}
    (hfind : findClientByNick s target = some j) :
    ¬ ∃ ciphertext data, C.aesGcm (s.clients i).sessionKey env.iv text = some ciphertext ∧
      handleEncryptedMessage C s env i command = [.write (s.clients j).ssl data] ∧
      EncryptedSurvives J (s.clients i).nick target ciphertext data := by
  rintro ⟨ciphertext, data, hcipher, heffects, hsurvives⟩
  obtain ⟨hsender, hsender'⟩ :=
    session_fieldText (Reachable.registered hs husers) (Reachable.sessionsInv hs) hauth
  obtain ⟨htarget, -⟩ := lineField_parseTargeted hcommand hparse
  rw [handleEncryptedMessage_eq hparse hfind, hcipher] at heffects
  simp only at heffects
  split_ifs at heffects with hne
  rw [List.cons.injEq, Effect.write.injEq] at heffects
  obtain ⟨⟨-, rfl⟩, -⟩ := heffects
  obtain ⟨b64, -, hevents⟩ := hsurvives.received ⟨[], false, []⟩ [_] rfl (List.flatten_singleton)
  rw [onReadyRead_pieces J _ (by simp), List.flatten_singleton] at hevents
  have hnone := notEncrypted_frame J ⟨hsender, hsender'⟩ htarget hne ⟨[], false, []⟩ rfl bufferSize
  rw [hevents] at hnone
  exact hnone _ (List.mem_singleton_self _)

theorem encrypted_never_survives_bob :
    let s := (run Sample.crypto (Server.init SecureUsers.empty) Sample.chat).1
    ¬ ∃ ciphertext data, Sample.crypto.aesGcm (s.clients Sample.firstSlot).sessionKey
        (Sample.env 1005 0).iv (ascii "hi") = some ciphertext ∧
      handleEncryptedMessage Sample.crypto s (Sample.env 1005 0) Sample.firstSlot
        (ascii "/send_enc bob hi") = [.write (s.clients Sample.secondSlot).ssl data] ∧
      EncryptedSurvives FlatJson.reader (s.clients Sample.firstSlot).nick (ascii "bob")
        ciphertext data := by
  intro s
  have hs : Reachable Sample.crypto SecureUsers.empty s := ⟨Sample.chat, rfl⟩
  have hchat : Sample.Session s Sample.firstSlot 0 (ascii "ann") ∧
      Sample.Session s Sample.secondSlot 1 (ascii "bob") := Sample.chat_sessions
  have hfind : findClientByNick s (ascii "bob") = some Sample.secondSlot := Sample.find_bob_chat
  clear_value s
  obtain ⟨⟨-, -, hauth, -⟩, -⟩ := hchat
  exact encrypted_never_survives FlatJson.reader registered_empty hs hauth (Sample.env 1005 0)
    (by decide : commandOf (ascii "/send_enc bob hi\n") = some (ascii "/send_enc bob hi"))
    (by decide : parseSendEnc (ascii "/send_enc bob hi") = some (ascii "bob", ascii "hi")) hfind

/-- `ann` sends `bob` an encrypted `hi`: his client shows the end of the frame as a message
from `System`, and no encrypted message. -/
theorem encrypted_hi_from_system :
    let s := (run Sample.crypto (Server.init SecureUsers.empty) Sample.chat).1
    let data := ascii "\x7b\"type\":\"encrypted\",\"from\":\"ann\",\"to\":\"bob\"," ++
      ascii "\"data\":\"aGk=\n\"\x7d\n"
    handleEncryptedMessage Sample.crypto s (Sample.env 1005 0) Sample.firstSlot
        (ascii "/send_enc bob hi") = [.write (some 1) data] ∧
      (Runs.run (onReadyRead FlatJson.reader) ⟨[], true, []⟩ [data]).2 =
        [.messageReceived "System".toList "\"\x7d".toList] ∧
      ¬ EncryptedSurvives FlatJson.reader (ascii "ann") (ascii "bob") (ascii "hi") data := by
  intro s data
  obtain ⟨heffects, hevents⟩ :
      handleEncryptedMessage Sample.crypto s (Sample.env 1005 0) Sample.firstSlot
        (ascii "/send_enc bob hi") = [.write (some 1) data] ∧
      (Runs.run (onReadyRead FlatJson.reader) ⟨[], true, []⟩ [data]).2 =
        [.messageReceived "System".toList "\"\x7d".toList] := by decide +kernel
  clear_value s data
  refine ⟨heffects, hevents, fun h => ?_⟩
  obtain ⟨b64, -, hsignal⟩ := h.received ⟨[], true, []⟩ [data] rfl List.flatten_singleton
  rw [hevents] at hsignal
  exact absurd hsignal (by simp)

end Mesh
