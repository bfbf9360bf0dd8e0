import MeshMessenger.Proofs.Invariants

/-! Under which names sessions speak, and which session a name selects. A login
accepts every spelling of a registered nick, and the session keeps the spelling. -/

namespace Mesh

open CLib

/-! ### The nick of an authorised session -/

theorem caseEq_isNickByte {nick nick' : Bytes} (h : caseEq nick nick' = true)
    (hn : ∀ c ∈ nick, isNickByte c = true) : ∀ c ∈ nick', isNickByte c = true := by
  intro c hc
  have hmem : toLower c ∈ nick.map toLower := by
    rw [caseEq_iff.1 h]
    exact List.mem_map_of_mem hc
  obtain ⟨c', hc', heq⟩ := List.mem_map.1 hmem
  rw [← isNickByte_toLower, ← heq, isNickByte_toLower]
  exact hn c' hc'

/-- The bytes of an authorised nick are those of a registered one up to case. -/
theorem session_isNickByte {s : Server} (hreg : Registered s.users) (hinv : SessionsInv s)
    {i : Slot} (hauth : (s.clients i).authorized = true) :
    ∀ c ∈ (s.clients i).nick, isNickByte c = true := by
  obtain ⟨r, hr, -, hn⟩ := hinv.account i hauth
  obtain ⟨hvalid, hword⟩ := hreg r hr
  exact caseEq_isNickByte hn (validateNickname_isWord hvalid hword.length_le).2

/-- No spelling of a reserved word is the nick of an authorised session. -/
theorem session_not_forbidden {s : Server} (hreg : Registered s.users) (hinv : SessionsInv s)
    {i : Slot} (hauth : (s.clients i).authorized = true) :
    ∀ w ∈ forbidden, caseEq (s.clients i).nick w = false := by
  intro w hw
  obtain ⟨r, hr, -, hn⟩ := hinv.account i hauth
  by_contra hne
  have heq := caseEq_trans hn (Bool.not_eq_false _ ▸ hne)
  rw [(validateNickname_iff.1 (hreg r hr).1).2.2 w hw] at heq
  exact absurd heq (by simp)

theorem session_unique_row {s : Server} (hinv : SessionsInv s) {i : Slot}
    (hauth : (s.clients i).authorized = true) :
    ∃! r, r ∈ s.users.rows ∧ caseEq r.nick (s.clients i).nick = true := by
  obtain ⟨r, hr, -, hn⟩ := hinv.account i hauth
  refine ⟨r, ⟨hr, hn⟩, ?_⟩
  rintro r' ⟨hr', hn'⟩
  exact s.users.eq_of_caseEq hr' hr (caseEq_trans hn' (caseEq_symm hn))

/-! ### The `from` field of a frame -/

/-- How the frames that carry a sender begin. -/
def senderHeads : List Bytes :=
  ["message", "private", "encrypted"].map fun kind =>
    ascii "\x7b\"type\":\"" ++ ascii kind ++ ascii "\",\"from\":\""

/-- The `from` field of a message, private or encrypted frame. -/
def fromField (data : Bytes) : Option Bytes :=
  (senderHeads.find? fun head => head.isPrefixOf data).map fun head =>
    (data.drop head.length).takeWhile (· != 34)

theorem senderHeads_disjoint : ∀ a ∈ senderHeads, ∀ b ∈ senderHeads, a <+: b → a = b := by decide

theorem senderHeads_length : ∀ a ∈ senderHeads, a.length ≤ 64 := by decide

theorem fromField_eq_none {head data : Bytes} (hhead : head <+: data)
    (hother : ∀ a ∈ senderHeads, ¬ a <+: head ∧ ¬ head <+: a) : fromField data = none := by
  have hfind : (senderHeads.find? fun head => head.isPrefixOf data) = none := by
    refine List.find?_eq_none.2 fun a ha hpre => ?_
    rcases List.prefix_or_prefix_of_prefix (List.isPrefixOf_iff_prefix.1 hpre) hhead with h | h
    · exact (hother a ha).1 h
    · exact (hother a ha).2 h
  simp [fromField, hfind]

theorem fromField_append {head nick : Bytes} (hhead : head ∈ senderHeads)
    (hquote : (34 : UInt8) ∉ nick) (rest : Bytes) :
    fromField (head ++ (nick ++ 34 :: rest)) = some nick := by
  have hpre : head <+: head ++ (nick ++ 34 :: rest) := List.prefix_append _ _
  have hfind : (senderHeads.find? fun a => a.isPrefixOf (head ++ (nick ++ 34 :: rest))) =
      some head := by
    cases h : senderHeads.find? fun a => a.isPrefixOf (head ++ (nick ++ 34 :: rest)) with
    | none => exact absurd (List.isPrefixOf_iff_prefix.2 hpre) (List.find?_eq_none.1 h head hhead)
    | some a =>
      have ha := List.mem_of_find?_eq_some h
      have hfound := List.find?_some h
      have hpre' := List.isPrefixOf_iff_prefix.1 hfound
      rcases List.prefix_or_prefix_of_prefix hpre' hpre with hp | hp
      · rw [senderHeads_disjoint a ha head hhead hp]
      · rw [senderHeads_disjoint head hhead a ha hp]
  rw [fromField, hfind, Option.map_some, List.drop_left, takeWhile_delimiter hquote]

/-- A nick that fits is found whole in the frame, however long the rest of it is. -/
theorem fromField_snprintf {head nick sep : Bytes} (hhead : head ∈ senderHeads)
    (hsep : sep.head? = some 34) (hlen : nick.length ≤ 31) (hquote : (34 : UInt8) ∉ nick)
    (rest : Bytes) :
    fromField (snprintf bufferSize (head ++ (nick ++ (sep ++ rest)))) = some nick := by
  obtain ⟨tail, rfl⟩ := List.head?_eq_some_iff.1 hsep
  have hcut : snprintf bufferSize (head ++ (nick ++ (34 :: tail ++ rest))) =
      head ++ (nick ++ 34 :: (tail ++ rest).take (bufferSize - 2 - head.length - nick.length)) := by
    have := senderHeads_length head hhead
    have hsize : bufferSize - 1 - head.length - nick.length =
        (bufferSize - 2 - head.length - nick.length) + 1 := by
      simp only [bufferSize]; omega
    rw [snprintf, List.take_append, List.take_append,
      List.take_of_length_le (by simp only [bufferSize]; omega),
      List.take_of_length_le (by simp only [bufferSize]; omega), hsize, List.cons_append,
      List.take_succ_cons]
  rw [hcut]
  exact fromField_append hhead hquote _

section frames

variable {nick : Bytes} (hlen : nick.length ≤ 31) (hquote : (34 : UInt8) ∉ nick)
include hlen hquote

theorem fromField_messageFrame (text : Bytes) :
    fromField (snprintf bufferSize (messageFrame nick text)) = some nick := by
  simp only [messageFrame, List.append_assoc]
  exact fromField_snprintf (by decide) (by decide) hlen hquote _

theorem fromField_privateFrame (target text : Bytes) :
    fromField (snprintf bufferSize (privateFrame nick target text)) = some nick := by
  simp only [privateFrame, List.append_assoc]
  exact fromField_snprintf (by decide) (by decide) hlen hquote _

theorem fromField_encryptedFrame (target data : Bytes) :
    fromField (snprintf bufferSize (encryptedFrame nick target data)) = some nick := by
  simp only [encryptedFrame, List.append_assoc]
  exact fromField_snprintf (by decide) (by decide) hlen hquote _

end frames

theorem foldl_isPrefix {α β : Type} {f : List β × Bool → α → List β × Bool}
    (hf : ∀ p a, p.1 <+: (f p a).1) (l : List α) (p : List β × Bool) :
    p.1 <+: (l.foldl f p).1 := by
  induction l generalizing p with
  | nil => exact List.prefix_refl _
  | cons a l ih => exact (hf p a).trans (ih _)

theorem prefix_strncat (dst src : Bytes) (n : ℕ) : dst <+: strncat dst src n :=
  List.prefix_append _ _

/-- The list of online users keeps its first bytes however long it gets. -/
theorem sendOnlineUsers_isPrefix {s : Server} {i : Slot} {ssl : Option Conn} {data : Bytes}
    (h : .write ssl data ∈ sendOnlineUsers s i) :
    ascii "\x7b\"type\":\"online\",\"users\":[" <+: data := by
  simp only [sendOnlineUsers, List.mem_singleton, Effect.write.injEq] at h
  rw [h.2]
  generalize ascii "\x7b\"type\":\"online\",\"users\":[" = head
  refine (foldl_isPrefix (fun p j => ?_) (onlineSlots s) (head, true)).trans (prefix_strncat _ _ _)
  refine List.IsPrefix.trans ?_ (((prefix_strncat _ _ _).trans (prefix_strncat _ _ _)).trans
    (prefix_strncat _ _ _))
  split_ifs
  · exact List.prefix_refl _
  · exact prefix_strncat _ _ _

theorem fromField_online {s : Server} {i : Slot} {ssl : Option Conn} {data : Bytes}
    (h : .write ssl data ∈ sendOnlineUsers s i) : fromField data = none :=
  fromField_eq_none (sendOnlineUsers_isPrefix h) (by decide)

/-! ### What the message commands write -/

section writes

variable {C : Crypto} {s : Server} {env : Env} {i : Slot} {command : Bytes} {ssl : Option Conn}
  {data : Bytes}

theorem write_notMem_saveMessage {sender target message : Bytes} :
    Effect.write ssl data ∉ saveMessage env sender target message := by
  unfold saveMessage
  split_ifs <;> simp

theorem write_mem_broadcastMessage {sender message : Bytes} :
    .write ssl data ∈ broadcastMessage s env sender message ↔
      (∃ j ∈ onlineSlots s, (s.clients j).ssl = ssl) ∧
        data = snprintf bufferSize (messageFrame sender message) := by
  simp only [broadcastMessage, List.mem_append, write_notMem_saveMessage, false_or, List.mem_map,
    Effect.write.injEq]
  refine ⟨?_, ?_⟩
  · rintro ⟨j, hj, hssl, rfl⟩
    exact ⟨⟨j, hj, hssl⟩, rfl⟩
  · rintro ⟨⟨j, hj, hssl⟩, rfl⟩
    exact ⟨j, hj, hssl, rfl⟩

/-- The slot a `/msg` or `/send_enc` command is addressed to. -/
def selected (s : Server) (command : Bytes) : Option Slot :=
  (parseMsg command <|> parseSendEnc command).bind fun p => findClientByNick s p.1

theorem write_mem_handlePrivateMessage
    (h : .write ssl data ∈ handlePrivateMessage s env i command) :
    (∃ j, selected s command = some j ∧ ssl = (s.clients j).ssl) ∧ ∃ target message,
      data = snprintf bufferSize (privateFrame (s.clients i).nick target message) := by
  unfold handlePrivateMessage at h
  cases hparse : parseMsg command with
  | none => simp [hparse] at h
  | some p =>
    obtain ⟨target, message⟩ := p
    simp only [hparse] at h
    split_ifs at h with hvalid
    · unfold sendPrivateMessage at h
      cases hfind : findClientByNick s target with
      | none => simp [hfind] at h
      | some j =>
        simp only [hfind, List.mem_append, write_notMem_saveMessage, false_or] at h
        split_ifs at h
        · simp only [List.mem_singleton, Effect.write.injEq] at h
          exact ⟨⟨j, by simp [selected, hparse, hfind], h.1⟩, target, message, h.2⟩
        · simp at h
    · simp at h

theorem write_mem_handleEncryptedMessage (hpre : ascii "/send_enc" <+: command)
    (h : .write ssl data ∈ handleEncryptedMessage C s env i command) :
    (∃ j, selected s command = some j ∧ ssl = (s.clients j).ssl) ∧ ∃ target encryptedB64,
      data = snprintf bufferSize (encryptedFrame (s.clients i).nick target encryptedB64) := by
  have hmsg : parseMsg command = none := by
    obtain ⟨rest, rfl⟩ := hpre
    rfl
  unfold handleEncryptedMessage at h
  cases hparse : parseSendEnc command with
  | none => simp [hparse] at h
  | some p =>
    obtain ⟨target, message⟩ := p
    simp only [hparse] at h
    cases henc : encryptMessageForUser C s env i target message with
    | none => simp [henc] at h
    | some b64 =>
      cases hfind : findClientByNick s target with
      | none => simp [henc, hfind] at h
      | some j =>
        simp only [henc, hfind, List.mem_singleton, Effect.write.injEq] at h
        exact ⟨⟨j, by simp [selected, hmsg, hparse, hfind], h.1⟩, target, b64, h.2⟩

/-- A frame written for an authorised command carries the session's nick, if any. -/
theorem fromField_handleAuthorizedCommands (hlen : (s.clients i).nick.length ≤ 31)
    (hquote : (34 : UInt8) ∉ (s.clients i).nick)
    (h : .write ssl data ∈ handleAuthorizedCommands C s env i command) {sender : Bytes}
    (hsender : fromField data = some sender) : sender = (s.clients i).nick := by
  unfold handleAuthorizedCommands at h
  split_ifs at h with honline hmsg henc hvalid
  · rw [fromField_online h] at hsender
    exact absurd hsender (by simp)
  · obtain ⟨-, target, message, rfl⟩ := write_mem_handlePrivateMessage h
    rw [fromField_privateFrame hlen hquote] at hsender
    exact (Option.some.inj hsender).symm
  · obtain ⟨-, target, b64, rfl⟩ :=
      write_mem_handleEncryptedMessage (List.isPrefixOf_iff_prefix.1 henc) h
    rw [fromField_encryptedFrame hlen hquote] at hsender
    exact (Option.some.inj hsender).symm
  · obtain ⟨-, rfl⟩ := write_mem_broadcastMessage.1 h
    rw [fromField_messageFrame hlen hquote] at hsender
    exact (Option.some.inj hsender).symm
  · simp at h

/-- The effects of an iteration for an authorised session: those of one of its commands,
or a refusal by the rate limit. -/
theorem handlerIteration_authorized {h : Handler} {read : ReadResult}
    (hauth : (s.clients h.slot).authorized = true)
    (hw : .write ssl data ∈ (handlerIteration C s h env read).2) :
    data = rateLimitFrame ∨ ∃ command,
      .write ssl data ∈
        handleAuthorizedCommands C (s.noteActivity h.slot env.now) env h.slot command := by
  rcases handlerIteration_cases C s h env read with
    heq | heq | ⟨-, heq⟩ | heq | ⟨buffer, hne, hlt, command, rfl, -, -, -, heq⟩ <;> rw [heq] at hw
  · simp at hw
  · simp at hw
  · simp only [List.mem_singleton, Effect.write.injEq] at hw
    exact .inl hw.2
  · simp at hw
  · right
    have hauth' := (noteActivity_refreshes s h.slot env.now h.slot).authorized.trans hauth
    simp only [processClientCommand, hauth', Bool.not_true, Bool.false_eq_true, if_false] at hw
    exact ⟨command, hw⟩

end writes

/-- From an empty table, in every reachable state: registered nicks are valid, an
authorised session carries the nick of exactly one account, and no frame written for
an authorised session names a reserved word as its sender. -/
theorem no_impersonation {C : Crypto} {s : Server} (hs : Reachable C SecureUsers.empty s) :
    (∀ r ∈ s.users.rows, validateNickname r.nick = true) ∧
    (∀ i, 0 ≤ (s.clients i).fd → (s.clients i).authorized = true →
      ∃! r, r ∈ s.users.rows ∧ caseEq r.nick (s.clients i).nick = true) ∧
    (∀ conn h env read ssl data sender, s.handler? conn .looping = some h →
      (s.clients h.slot).authorized = true →
      .write ssl data ∈ (step C s (.iterate conn env read)).2 → fromField data = some sender →
      ∀ w ∈ forbidden, caseEq sender w = false) := by
  have hreg := Reachable.registered hs registered_empty
  have hinv := Reachable.sessionsInv hs
  refine ⟨fun r hr => (hreg r hr).1, fun i _ hauth => session_unique_row hinv hauth, ?_⟩
  intro conn h env read ssl data sender hh hauth hw hsender w hw'
  simp only [step, hh] at hw
  rcases handlerIteration_authorized hauth hw with rfl | ⟨command, hmem⟩
  · rw [show fromField rateLimitFrame = none by decide] at hsender
    exact absurd hsender (by simp)
  · have hactive := noteActivity_refreshes s h.slot env.now h.slot
    have hquote : (34 : UInt8) ∉ (s.clients h.slot).nick := fun hmem =>
      absurd (session_isNickByte hreg hinv hauth 34 hmem) (by decide)
    have hlen := (hinv.word _ hauth).length_le
    rw [← hactive.nick] at hquote hlen
    rw [fromField_handleAuthorizedCommands hlen hquote hmem hsender, hactive.nick]
    exact session_not_forbidden hreg hinv hauth w hw'

/-- The two logged-in clients carry registered nicks, and what `ann` says comes from `ann`. -/
theorem no_impersonation_ann :
    let s := (run Sample.crypto (Server.init SecureUsers.empty) Sample.chat).1
    (∀ i ∈ [Sample.firstSlot, Sample.secondSlot],
      ∃! r, r ∈ s.users.rows ∧ caseEq r.nick (s.clients i).nick = true) ∧
    .write (some 1) (messageFrame (ascii "ann") (ascii "hello")) ∈
      (step Sample.crypto s (.iterate 0 (Sample.env 1005 0) (Sample.line "hello"))).2 ∧
    ∀ w ∈ forbidden, caseEq (ascii "ann") w = false := by
  intro s
  have hs : Reachable Sample.crypto SecureUsers.empty s := ⟨Sample.chat, rfl⟩
  have hchat : Sample.Session s Sample.firstSlot 0 (ascii "ann") ∧
      Sample.Session s Sample.secondSlot 1 (ascii "bob") := Sample.chat_sessions
  have hwrite : .write (some 1) (messageFrame (ascii "ann") (ascii "hello")) ∈
      (step Sample.crypto s (.iterate 0 (Sample.env 1005 0) (Sample.line "hello"))).2 := by
    decide +kernel
  have hsender : fromField (messageFrame (ascii "ann") (ascii "hello")) = some (ascii "ann") := by
    decide
  clear_value s
  obtain ⟨⟨hh, hfd, hauth, -⟩, -, hfd', hauth', -⟩ := hchat
  obtain ⟨-, hrow, hfrom⟩ := no_impersonation hs
  refine ⟨fun i hi => ?_, hwrite, hfrom 0 _ _ _ _ _ _ hh hauth hwrite hsender⟩
  rcases List.mem_pair.1 hi with rfl | rfl
  · exact hrow _ hfd hauth
  · exact hrow _ hfd' hauth'

/-! ### Whom a name selects -/

theorem findClientByNick_eq_some {s : Server} {nick : Bytes} {i : Slot}
    (h : findClientByNick s nick = some i) :
    (s.clients i).online = true ∧ (s.clients i).nick = nick := by
  have := List.find?_some h
  simpa using this

theorem findClientByNick_isSome {s : Server} {nick : Bytes} {i : Slot}
    (honline : (s.clients i).online = true) (hnick : (s.clients i).nick = nick) :
    ∃ j, findClientByNick s nick = some j := by
  cases h : findClientByNick s nick with
  | some j => exact ⟨j, rfl⟩
  | none =>
    have := List.find?_eq_none.1 h i (List.mem_finRange i)
    simp [honline, hnick] at this

/-- The name of an account never selects another account's session. -/
theorem findClientByNick_account {s : Server} (hinv : SessionsInv s) {r : UserRow}
    (hr : r ∈ s.users.rows) {i : Slot} (h : findClientByNick s r.nick = some i) :
    (s.clients i).account = some r.id := by
  obtain ⟨honline, hnick⟩ := findClientByNick_eq_some h
  simp only [SecureClient.online, Bool.and_eq_true] at honline
  obtain ⟨r', hr', hacc, hn⟩ := hinv.account i honline.2
  rw [hnick] at hn
  rw [hacc, s.users.eq_of_caseEq hr' hr hn]

theorem selected_targetedLine {s : Server} {literal nick text : Bytes}
    (hlit : literal = ascii "/msg" ∨ literal = ascii "/send_enc") (hnick : IsWord 31 nick)
    {c : UInt8} {cs : Bytes} (htext : text = c :: cs) (hc : isSpace c = false) :
    selected s (targetedLine literal nick text) = findClientByNick s nick := by
  obtain ⟨message, hparse⟩ : ∃ message, parseTargeted literal (targetedLine literal nick text) =
      some (nick, message) := parseTargeted_targetedLine hnick htext hc
  rcases hlit with rfl | rfl
  · have hmsg : parseMsg (targetedLine (ascii "/msg") nick text) = some (nick, message) := hparse
    simp [selected, hmsg]
  · have henc : parseSendEnc (targetedLine (ascii "/send_enc") nick text) =
        some (nick, message) := hparse
    have hmsg : parseMsg (targetedLine (ascii "/send_enc") nick text) = none := rfl
    simp [selected, hmsg, henc]

/-- In every reachable state and for every account, a `/msg` or `/send_enc` line addressed
to its registered nick selects one of its sessions if and only if one of those online
was logged in under exactly that spelling. -/
theorem account_reached_iff {C : Crypto} {users : SecureUsers} (husers : Registered users)
    {s : Server} (hs : Reachable C users s) {r : UserRow} (hr : r ∈ s.users.rows)
    {literal : Bytes} (hlit : literal = ascii "/msg" ∨ literal = ascii "/send_enc")
    {c : UInt8} (hc : isSpace c = false) (cs : Bytes) :
    (∃ i, selected s (targetedLine literal r.nick (c :: cs)) = some i ∧
        (s.clients i).online = true ∧ (s.clients i).account = some r.id) ↔
      ∃ j, (s.clients j).online = true ∧ (s.clients j).account = some r.id ∧
        (s.clients j).nick = r.nick := by
  have hinv := Reachable.sessionsInv hs
  have hword := (Reachable.registered hs husers r hr).2
  rw [selected_targetedLine hlit hword rfl hc]
  refine ⟨?_, ?_⟩
  · rintro ⟨i, hfind, hon, hacc⟩
    exact ⟨i, hon, hacc, (findClientByNick_eq_some hfind).2⟩
  · rintro ⟨j, hon, -, hnick⟩
    obtain ⟨i, hfind⟩ := findClientByNick_isSome hon hnick
    exact ⟨i, hfind, (findClientByNick_eq_some hfind).1, findClientByNick_account hinv hr hfind⟩

theorem account_reached_bob :
    let s := (run Sample.crypto (Server.init SecureUsers.empty) Sample.chat).1
    ∀ r ∈ s.users.rows, r.nick = ascii "bob" →
      ∃ i, selected s (targetedLine (ascii "/msg") r.nick (ascii "hi")) = some i ∧
        (s.clients i).online = true ∧ (s.clients i).account = some r.id := by
  intro s r hr hnick
  have hs : Reachable Sample.crypto SecureUsers.empty s := ⟨Sample.chat, rfl⟩
  have hbob : ∀ r ∈ s.users.rows, r.nick = ascii "bob" →
      (s.clients Sample.secondSlot).online = true ∧
        (s.clients Sample.secondSlot).account = some r.id ∧
        (s.clients Sample.secondSlot).nick = r.nick := by decide +kernel
  clear_value s
  exact (account_reached_iff registered_empty hs hr (.inl rfl) (by decide) _).2
    ⟨Sample.secondSlot, hbob r hr hnick⟩

/-- `bob` logs in as `BOB`: his account is online, and `/msg bob hi` and `/send_enc bob hi`
by `ann` select nobody. -/
theorem other_spelling_unreachable :
    let s := (run Sample.crypto (Server.init SecureUsers.empty)
      (Sample.connected ++ Sample.joined ++
        [.iterate 0 (Sample.env 1003 17) (Sample.line "/register ann"),
          .iterate 1 (Sample.env 1003 34) (Sample.line "/register bob"),
          .iterate 0 (Sample.env 1004 0)
            (Sample.read (ascii "/login ann " ++ List.replicate 64 49 ++ [newline])),
          .iterate 1 (Sample.env 1004 0)
            (Sample.read (ascii "/login BOB " ++ List.replicate 64 50 ++ [newline]))])).1
    (∃ r ∈ s.users.rows, r.nick = ascii "bob" ∧
      (s.clients Sample.secondSlot).online = true ∧
      (s.clients Sample.secondSlot).account = some r.id) ∧
    (s.clients Sample.firstSlot).online = true ∧
    selected s (ascii "/msg bob hi") = none ∧ selected s (ascii "/send_enc bob hi") = none := by
  decide +kernel

end Mesh
