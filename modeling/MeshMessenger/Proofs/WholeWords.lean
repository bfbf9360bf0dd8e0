import MeshMessenger.Lib.Fields
import MeshMessenger.Proofs.Naming

/-! Whether the four commands with fields read them as whole words: the prefix dispatch,
the blanks of the formats that match nothing, and the widths of the conversions. -/

namespace Mesh

open CLib

/-! ### The formats as sequences of conversions -/

theorem parseRegister_iff {command nick : Bytes} :
    parseRegister command = some nick ↔ ∃ rest tail, command = ascii "/register" ++ rest ∧
      scanWords [31] rest = some ([nick], tail) := by
  simp only [parseRegister, scanWords, scanWord_skipSpace, Option.bind_eq_bind, Option.pure_def,
    Option.bind_eq_some_iff, scanLiteral_eq_some, Option.some.injEq, Prod.exists, Prod.mk.injEq,
    List.cons.injEq]
  refine ⟨?_, ?_⟩
  · rintro ⟨rest, hlit, word, tail, hword, rfl⟩
    exact ⟨rest, tail, hlit, word, tail, hword, [], tail, ⟨rfl, rfl⟩, ⟨rfl, rfl⟩, rfl⟩
  · rintro ⟨rest, tail, hlit, word, tail', hword, _, _, -, ⟨rfl, -⟩, -⟩
    exact ⟨rest, hlit, word, tail', hword, rfl⟩

theorem parseLogin_iff {command nick token : Bytes} :
    parseLogin command = some (nick, token) ↔ ∃ rest tail, command = ascii "/login" ++ rest ∧
      scanWords [31, 63] rest = some ([nick, token], tail) := by
  simp only [parseLogin, scanWords, scanWord_skipSpace, Option.bind_eq_bind, Option.pure_def,
    Option.bind_eq_some_iff, scanLiteral_eq_some, Option.some.injEq, Prod.exists, Prod.mk.injEq]
  refine ⟨?_, ?_⟩
  · rintro ⟨rest, hlit, n, mid, hnick, t, tail, htoken, rfl, rfl⟩
    exact ⟨rest, tail, hlit, n, mid, hnick, [t], tail,
      ⟨t, tail, htoken, [], tail, ⟨rfl, rfl⟩, rfl, rfl⟩, rfl, rfl⟩
  · rintro ⟨rest, tail, hlit, n, mid, hnick, ts, tail', ⟨t, tail'', htoken, us, _, ⟨rfl, -⟩, rfl, -⟩,
      heq, -⟩
    simp only [List.cons.injEq, and_true] at heq
    exact ⟨rest, hlit, n, mid, hnick, t, tail'', htoken, heq⟩

theorem parseTargeted_iff {literal command target text : Bytes} :
    parseTargeted literal command = some (target, text) ↔ ∃ rest tail,
      command = literal ++ rest ∧ scanWords [31] rest = some ([target], tail) ∧
        ∃ after, scanLine 2047 (skipSpace tail) = some (text, after) := by
  simp only [parseTargeted, scanWords, scanWord_skipSpace, Option.bind_eq_bind, Option.pure_def,
    Option.bind_eq_some_iff, scanLiteral_eq_some, Option.some.injEq, Prod.exists, Prod.mk.injEq]
  refine ⟨?_, ?_⟩
  · rintro ⟨rest, hlit, t, tail, htarget, m, after, htext, rfl, rfl⟩
    exact ⟨rest, tail, hlit, ⟨t, tail, htarget, [], tail, ⟨rfl, rfl⟩, rfl, rfl⟩, after, htext⟩
  · rintro ⟨rest, tail, hlit, ⟨t, tail', htarget, us, _, ⟨rfl, rfl⟩, heq, rfl⟩, after, htext⟩
    simp only [List.cons.injEq, and_true] at heq
    exact ⟨rest, hlit, t, _, htarget, text, after, htext, heq, rfl⟩

/-! ### Whole words -/

/-- The commands act on whole words of the line: each of the four only on a line whose
first word is its name, and only on the words that follow; so that the account made, the
session opened and the client written to have the name that was typed. -/
structure WholeWords (command : Bytes) : Prop where
  register : ∀ nick, parseRegister command = some nick → validateNickname nick = true →
    [ascii "/register", nick] <+: words command
  login : ∀ nick token, parseLogin command = some (nick, token) →
    [ascii "/login", nick, token] <+: words command
  msg : ∀ target text, parseMsg command = some (target, text) →
    [ascii "/msg", target] <+: words command
  send_enc : ∀ target text, parseSendEnc command = some (target, text) →
    [ascii "/send_enc", target] <+: words command
  registered : ∀ s env i ip, ∀ row ∈ (processRegistration s env i ip command).1.users.rows,
    row ∈ s.users.rows ∨ (words command)[1]? = some row.nick
  opened : ∀ s env i ip, (s.clients i).authorized = false →
    ((processLogin s env i ip command).1.clients i).authorized = true →
    (words command)[1]? = some ((processLogin s env i ip command).1.clients i).nick ∧
      (words command)[2]? = some ((processLogin s env i ip command).1.clients i).token
  delivered : ∀ C s env i ssl data, .write ssl data ∈ handlePrivateMessage s env i command ∨
    .write ssl data ∈ handleEncryptedMessage C s env i command →
    ∃ j, ssl = (s.clients j).ssl ∧ (s.clients j).online = true ∧
      (words command)[1]? = some (s.clients j).nick

/-- After the literal stand words that the command refuses, or white space and then words
that fit the widths of the format. -/
def Separated (literal : Bytes) (widths : List ℕ) (refused : List Bytes → Prop)
    (command : Bytes) : Prop :=
  ∀ rest, command = literal ++ rest →
    refused (words rest) ∨ (WordEnds rest ∧ ∀ p ∈ (words rest).zip widths, p.1.length ≤ p.2)

/-- No word is there, or the first is no valid nick, not even shortened: `/register` answers
`Invalid nickname` and registers nobody. -/
def NoNick (us : List Bytes) : Prop := ∀ u ∈ us.head?, validateNickname (u.take 31) = false

/-- There is one word at most, and not enough of it for two fields: the other commands name
nobody and answer nothing. -/
def OneField (us : List Bytes) : Prop := us = [] ∨ ∃ u, us = [u] ∧ u.length ≤ 31

def SpelledOut (command : Bytes) : Prop :=
  Separated (ascii "/register") [31] NoNick command ∧
  Separated (ascii "/login") [31, 63] OneField command ∧
  Separated (ascii "/msg") [31] OneField command ∧
  Separated (ascii "/send_enc") [31] OneField command

/-- One format: where it acts on what it read, the fields are whole words if and only if
the line separates them. -/
theorem separated_iff {literal : Bytes} (hne : literal ≠ [])
    (hspace : ∀ c ∈ literal, isSpace c = false) {widths : List ℕ} (hpos : ∀ w ∈ widths, 0 < w)
    {refused : List Bytes → Prop} {Acts : List Bytes → Bytes → Prop}
    (hrefused : ∀ rest, refused (words rest) ↔
      ∀ fields tail, scanWords widths rest = some (fields, tail) → ¬ Acts fields tail)
    (command : Bytes) :
    (∀ rest fields tail, command = literal ++ rest →
        scanWords widths rest = some (fields, tail) → Acts fields tail →
        literal :: fields <+: words command) ↔
      Separated literal widths refused command := by
  refine forall_congr' fun rest => ?_
  refine ⟨?_, ?_⟩
  · intro h hcommand
    by_cases hi : refused (words rest)
    · exact .inl hi
    · rw [hrefused] at hi
      push Not at hi
      obtain ⟨fields, tail, hscan, hacts⟩ := hi
      have hwhole := h fields tail hcommand hscan hacts
      rw [hcommand, cons_isPrefix_words hne hspace, scanWords_whole_iff hpos hscan] at hwhole
      exact .inr hwhole
  · intro h fields tail hcommand hscan hacts
    rcases h hcommand with hi | hwhole
    · exact absurd hacts ((hrefused rest).1 hi fields tail hscan)
    · rw [hcommand, cons_isPrefix_words hne hspace, scanWords_whole_iff hpos hscan]
      exact hwhole

theorem noNick_iff (rest : Bytes) :
    NoNick (words rest) ↔ ∀ fields tail, scanWords [31] rest = some (fields, tail) →
      ¬ ∃ nick, fields = [nick] ∧ validateNickname nick = true := by
  cases hwords : words rest with
  | nil =>
    refine iff_of_true (fun u hu => absurd hu (by simp)) fun fields tail hscan => ?_
    simp [scanWords, scanWord_eq_none hwords] at hscan
  | cons u us =>
    obtain ⟨tail, -, -, -, -, hword⟩ := scanWord_of_words (by decide : 0 < 31) hwords
    simp [NoNick, scanWords, hword]

/-- A second field can be read unless one word holds it all. -/
theorem oneField_iff (rest : Bytes) :
    OneField (words rest) ↔ ∀ word tail, scanWord 31 rest = some (word, tail) → words tail = [] := by
  cases hwords : words rest with
  | nil => simp [OneField, scanWord_eq_none hwords]
  | cons u us =>
    obtain ⟨tail, rfl, hends, hspace, -, hword⟩ := scanWord_of_words (by decide : 0 < 31) hwords
    have hrest : (∀ word t, scanWord 31 rest = some (word, t) → words t = []) ↔
        u.length ≤ 31 ∧ words tail = [] := by
      rw [← words_drop_append_eq_nil hspace hends, hword]
      simp
    rw [hrest]
    simp [OneField, and_comm]

theorem scanWord_isSome_iff {w : ℕ} (hw : 0 < w) {s : Bytes} :
    (∃ word tail, scanWord w s = some (word, tail)) ↔ words s ≠ [] := by
  cases hwords : words s with
  | nil => simp [scanWord_eq_none hwords]
  | cons u us =>
    obtain ⟨tail, -, -, -, -, hword⟩ := scanWord_of_words hw hwords
    simp [hword]

theorem scanLine_isSome_iff {w : ℕ} (hw : 0 < w) {s : Bytes} :
    (∃ line after, scanLine w (skipSpace s) = some (line, after)) ↔ words s ≠ [] := by
  rcases skipSpace_cases s with ⟨hskip, hwords⟩ | ⟨u, rest, hskip, hne, hspace, -, hwords⟩
  · simp [hskip, hwords, scanLine]
  · obtain ⟨c, u, rfl⟩ := List.exists_cons_of_ne_nil hne
    have hc : c ≠ newline := by
      rintro rfl
      exact absurd (hspace newline (by simp)) (by decide)
    obtain ⟨w, rfl⟩ := Nat.exists_eq_succ_of_ne_zero hw.ne'
    simp [hskip, hwords, scanLine, hc]

theorem oneField_iff_login (rest : Bytes) :
    OneField (words rest) ↔ ∀ fields tail, scanWords [31, 63] rest = some (fields, tail) →
      ¬ ∃ nick token, fields = [nick, token] := by
  rw [oneField_iff]
  simp only [scanWords, Option.bind_eq_bind, Option.pure_def, Option.bind_eq_some_iff,
    Option.some.injEq, Prod.exists, Prod.mk.injEq]
  refine ⟨?_, ?_⟩
  · rintro h _ _ ⟨word, mid, hword, _, _, ⟨token, tail, htoken, -⟩, -⟩
    exact absurd (h word mid hword) ((scanWord_isSome_iff (by decide)).1 ⟨token, tail, htoken⟩)
  · intro h word mid hword
    by_contra hne
    obtain ⟨token, tail, htoken⟩ := (scanWord_isSome_iff (by decide : 0 < 63)).2 hne
    exact h [word, token] tail ⟨word, mid, hword, [token], tail,
      ⟨token, tail, htoken, [], tail, ⟨rfl, rfl⟩, rfl, rfl⟩, rfl, rfl⟩ ⟨word, token, rfl⟩

theorem oneField_iff_targeted (rest : Bytes) :
    OneField (words rest) ↔ ∀ fields tail, scanWords [31] rest = some (fields, tail) →
      ¬ ∃ target, fields = [target] ∧
        ∃ text after, scanLine 2047 (skipSpace tail) = some (text, after) := by
  rw [oneField_iff]
  simp only [scanWords, Option.bind_eq_bind, Option.pure_def, Option.bind_eq_some_iff,
    Option.some.injEq, Prod.exists, Prod.mk.injEq, scanLine_isSome_iff (by decide : 0 < 2047)]
  refine ⟨?_, ?_⟩
  · rintro h _ tail ⟨word, mid, hword, _, _, ⟨-, rfl⟩, -, rfl⟩ ⟨-, -, htext⟩
    exact htext (h word _ hword)
  · intro h word mid hword
    by_contra hne
    exact h [word] mid ⟨word, mid, hword, [], mid, ⟨rfl, rfl⟩, rfl, rfl⟩ ⟨word, rfl, hne⟩

/-! ### The four commands -/

theorem isSpace_word {s : Bytes} (h : s.all (fun c => !isSpace c) = true) :
    ∀ c ∈ s, isSpace c = false := fun c hc => by simpa using List.all_eq_true.1 h c hc

theorem register_whole_iff (command : Bytes) :
    (∀ nick, parseRegister command = some nick → validateNickname nick = true →
        [ascii "/register", nick] <+: words command) ↔
      Separated (ascii "/register") [31] NoNick command := by
  rw [← separated_iff (by decide) (isSpace_word rfl) (by decide) noNick_iff command]
  refine ⟨?_, ?_⟩
  · rintro h rest _ tail hcommand hscan ⟨nick, rfl, hvalid⟩
    exact h nick (parseRegister_iff.2 ⟨rest, tail, hcommand, hscan⟩) hvalid
  · intro h nick hparse hvalid
    obtain ⟨rest, tail, hcommand, hscan⟩ := parseRegister_iff.1 hparse
    exact h rest [nick] tail hcommand hscan ⟨nick, rfl, hvalid⟩

theorem login_whole_iff (command : Bytes) :
    (∀ nick token, parseLogin command = some (nick, token) →
        [ascii "/login", nick, token] <+: words command) ↔
      Separated (ascii "/login") [31, 63] OneField command := by
  rw [← separated_iff (by decide) (isSpace_word rfl) (by decide) oneField_iff_login command]
  refine ⟨?_, ?_⟩
  · rintro h rest _ tail hcommand hscan ⟨nick, token, rfl⟩
    exact h nick token (parseLogin_iff.2 ⟨rest, tail, hcommand, hscan⟩)
  · intro h nick token hparse
    obtain ⟨rest, tail, hcommand, hscan⟩ := parseLogin_iff.1 hparse
    exact h rest [nick, token] tail hcommand hscan ⟨nick, token, rfl⟩

theorem targeted_whole_iff {literal : Bytes} (hne : literal ≠ [])
    (hspace : ∀ c ∈ literal, isSpace c = false) (command : Bytes) :
    (∀ target text, parseTargeted literal command = some (target, text) →
        [literal, target] <+: words command) ↔
      Separated literal [31] OneField command := by
  rw [← separated_iff hne hspace (by decide) oneField_iff_targeted command]
  refine ⟨?_, ?_⟩
  · rintro h rest _ tail hcommand hscan ⟨target, rfl, text, after, htext⟩
    exact h target text (parseTargeted_iff.2 ⟨rest, tail, hcommand, hscan, after, htext⟩)
  · intro h target text hparse
    obtain ⟨rest, tail, hcommand, hscan, after, htext⟩ := parseTargeted_iff.1 hparse
    exact h rest [target] tail hcommand hscan ⟨target, rfl, text, after, htext⟩

/-- The account that a registration makes has the nick it parsed. -/
theorem mem_rows_processRegistration {s : Server} {env : Env} {i : Slot} {ip command : Bytes}
    {row : UserRow} (h : row ∈ (processRegistration s env i ip command).1.users.rows) :
    row ∈ s.users.rows ∨
      (parseRegister command = some row.nick ∧ validateNickname row.nick = true) := by
  rcases processRegistration_cases s env i ip command with
    hrefused | ⟨nick, token, users, hparse, hvalid, -, hinsert, heq⟩
  · rw [hrefused.1] at h
    exact .inl h
  · rw [heq] at h
    simp only [(s.users.insert_eq_some hinsert).2, List.mem_append, List.mem_singleton] at h
    rcases h with h | rfl
    · exact .inl h
    · exact .inr ⟨hparse, hvalid⟩

/-- The session that a login opens has the nick and the token it parsed. -/
theorem authorized_processLogin {s : Server} {env : Env} {i : Slot} {ip command : Bytes}
    (hun : (s.clients i).authorized = false)
    (h : ((processLogin s env i ip command).1.clients i).authorized = true) :
    parseLogin command = some (((processLogin s env i ip command).1.clients i).nick,
      ((processLogin s env i ip command).1.clients i).token) := by
  rcases processLogin_cases s env i ip command with
    ⟨-, heq⟩ | ⟨nick, token, -, -, heq⟩ | ⟨nick, token, row, hparse, -, -, -, -, heq⟩
  · rw [heq, hun] at h
    exact absurd h (by simp)
  · rw [heq, hun] at h
    exact absurd h (by simp)
  · obtain ⟨⟨hnick, -⟩, htoken, -⟩ := parseLogin_eq_some hparse
    have hlen : token.length ≤ tokenLength := htoken.length_le.trans (by decide)
    rw [heq, hparse, loggedIn_clients, Function.update_self, login_nick _ hnick]
    change some (nick, token) = some (nick, strncpy tokenLength token)
    rw [strncpy_of_le hlen]

/-- A private or encrypted message goes to the client that the line selects. -/
theorem selected_of_write {C : Crypto} {s : Server} {env : Env} {i : Slot} {command : Bytes}
    {ssl : Option Conn} {data : Bytes}
    (h : .write ssl data ∈ handlePrivateMessage s env i command ∨
      .write ssl data ∈ handleEncryptedMessage C s env i command) :
    ∃ j, selected s command = some j ∧ ssl = (s.clients j).ssl := by
  rcases h with h | h
  · exact (write_mem_handlePrivateMessage h).1
  · refine (write_mem_handleEncryptedMessage ?_ h).1
    cases hparse : parseSendEnc command with
    | none => simp [handleEncryptedMessage, hparse] at h
    | some p => exact (parseTargeted_eq_some hparse).2.2

/-- For every line: the commands act on whole words if and only if the line spells its
fields out. -/
theorem whole_words_iff (command : Bytes) : WholeWords command ↔ SpelledOut command := by
  have hmsg := targeted_whole_iff (show ascii "/msg" ≠ [] by decide) (isSpace_word rfl) command
  have henc := targeted_whole_iff (show ascii "/send_enc" ≠ [] by decide) (isSpace_word rfl) command
  refine ⟨?_, ?_⟩
  · intro h
    exact ⟨(register_whole_iff command).1 h.register, (login_whole_iff command).1 h.login,
      hmsg.1 h.msg, henc.1 h.send_enc⟩
  · rintro ⟨hregister, hlogin, hmsg', henc'⟩
    rw [← register_whole_iff] at hregister
    rw [← login_whole_iff] at hlogin
    rw [← hmsg] at hmsg'
    rw [← henc] at henc'
    refine ⟨hregister, hlogin, hmsg', henc', ?_, ?_, ?_⟩
    · intro s env i ip row hrow
      rcases mem_rows_processRegistration hrow with hrow | ⟨hparse, hvalid⟩
      · exact .inl hrow
      · exact .inr (List.prefix_iff_getElem?.1 (hregister row.nick hparse hvalid) 1 (by simp))
    · intro s env i ip hun hauth
      have hwords := List.prefix_iff_getElem?.1 (hlogin _ _ (authorized_processLogin hun hauth))
      exact ⟨hwords 1 (by simp), hwords 2 (by simp)⟩
    · intro C s env i ssl data hwrite
      obtain ⟨j, hj, hssl⟩ := selected_of_write hwrite
      obtain ⟨⟨target, text⟩, hparse, hfind⟩ := Option.bind_eq_some_iff.1 hj
      obtain ⟨honline, hnick⟩ := findClientByNick_eq_some hfind
      refine ⟨j, hssl, honline, ?_⟩
      rw [hnick]
      rw [Option.orElse_eq_orElse, Option.orElse_eq_or, Option.or_eq_some_iff] at hparse
      rcases hparse with hparse | ⟨-, hparse⟩
      · exact List.prefix_iff_getElem?.1 (hmsg' target text hparse) 1 (by simp)
      · exact List.prefix_iff_getElem?.1 (henc' target text hparse) 1 (by simp)

/-- `ann` types `/msgbob hi`: no word of it is `/msg` or `bob`, and `bob` is sent `hi`. -/
theorem msgbob_reaches_bob :
    let s := (run Sample.crypto (Server.init SecureUsers.empty) Sample.chat).1
    let command := ascii "/msgbob hi"
    words command = [ascii "/msgbob", ascii "hi"] ∧
      .write (some 1) (privateFrame (ascii "ann") (ascii "bob") (ascii "hi")) ∈
        handlePrivateMessage s (Sample.env 1005 0) Sample.firstSlot command ∧
      ¬ WholeWords command := by
  intro s command
  have hwords : words command = [ascii "/msgbob", ascii "hi"] := by decide
  refine ⟨hwords, by decide +kernel, fun h => ?_⟩
  have hprefix := h.msg (ascii "bob") (ascii "hi") (by decide)
  rw [hwords] at hprefix
  exact absurd hprefix (by decide)

end Mesh
