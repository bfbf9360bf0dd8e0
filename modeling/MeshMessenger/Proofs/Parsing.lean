import MeshMessenger.Server.Commands
import MeshMessenger.Server.Input

/-! What the four command formats yield, and how they read the lines a client
composes. -/

namespace Mesh

open CLib

/-! ### Fields -/

theorem parseRegister_eq_some {command nick : Bytes} (h : parseRegister command = some nick) :
    IsWord 31 nick ∧ nick.Sublist command := by
  simp only [parseRegister, Option.bind_eq_bind, Option.bind_eq_some_iff, Option.pure_def,
    Option.some.injEq, Prod.exists] at h
  obtain ⟨rest, hlit, word, tail, hword, rfl⟩ := h
  exact ⟨scanWord_isWord hword,
    (scanWord_sublist hword).trans ((skipSpace_sublist _).trans (scanLiteral_sublist hlit))⟩

theorem parseLogin_eq_some {command nick token : Bytes}
    (h : parseLogin command = some (nick, token)) :
    (IsWord 31 nick ∧ nick.Sublist command) ∧ IsWord 63 token ∧ token.Sublist command := by
  simp only [parseLogin, Option.bind_eq_bind, Option.bind_eq_some_iff, Option.pure_def,
    Option.some.injEq, Prod.exists, Prod.mk.injEq] at h
  obtain ⟨rest, hlit, n, rest', hnick, t, rest'', htoken, rfl, rfl⟩ := h
  have hrest := (skipSpace_sublist _).trans (scanLiteral_sublist hlit)
  refine ⟨⟨scanWord_isWord hnick, (scanWord_sublist hnick).trans hrest⟩, scanWord_isWord htoken, ?_⟩
  exact (scanWord_sublist htoken).trans
    ((skipSpace_sublist _).trans ((scanWord_rest_sublist hnick).trans hrest))

theorem parseTargeted_eq_some {literal command target text : Bytes}
    (h : parseTargeted literal command = some (target, text)) :
    IsWord 31 target ∧ text ≠ [] ∧ literal <+: command := by
  simp only [parseTargeted, Option.bind_eq_bind, Option.bind_eq_some_iff, Option.pure_def,
    Option.some.injEq, Prod.exists, Prod.mk.injEq] at h
  obtain ⟨rest, hlit, n, rest', htarget, t, rest'', htext, rfl, rfl⟩ := h
  exact ⟨scanWord_isWord htarget, scanLine_ne_nil htext, rest, (scanLiteral_eq_some.1 hlit).symm⟩

/-- The target and the text come from the command, the text from one line of it. -/
theorem parseTargeted_sublist {literal command target text : Bytes}
    (h : parseTargeted literal command = some (target, text)) :
    target.Sublist command ∧ text.Sublist command ∧ newline ∉ text ∧ text.length ≤ 2047 := by
  simp only [parseTargeted, Option.bind_eq_bind, Option.bind_eq_some_iff, Option.pure_def,
    Option.some.injEq, Prod.exists, Prod.mk.injEq] at h
  obtain ⟨rest, hlit, n, rest', htarget, t, rest'', htext, rfl, rfl⟩ := h
  have hrest := (skipSpace_sublist _).trans (scanLiteral_sublist hlit)
  obtain ⟨hnl, hlen, hsub⟩ := scanLine_spec htext
  exact ⟨(scanWord_sublist htarget).trans hrest,
    hsub.trans ((skipSpace_sublist _).trans ((scanWord_rest_sublist htarget).trans hrest)), hnl, hlen⟩

/-! ### Dispatch by prefix -/

section dispatch

variable (C : Crypto) (s : Server) (env : Env) (i : Slot) (ip : Bytes) {command : Bytes}

theorem handleAuthorizedCommands_msg (h : ascii "/msg" <+: command) :
    handleAuthorizedCommands C s env i command = handlePrivateMessage s env i command := by
  obtain ⟨rest, rfl⟩ := h
  unfold handleAuthorizedCommands
  rw [if_neg (by rintro ⟨⟩), if_pos (by simp)]

/-- `handle_authorized_commands` hands these commands to `broadcast_message`. -/
structure IsBroadcast (command : Bytes) : Prop where
  not_online : command ≠ ascii "/online"
  not_msg : ¬ ascii "/msg" <+: command
  not_send_enc : ¬ ascii "/send_enc" <+: command

theorem handleAuthorizedCommands_broadcast (h : IsBroadcast command) (hne : command ≠ []) :
    handleAuthorizedCommands C s env i command =
      broadcastMessage s env (s.clients i).nick command := by
  unfold handleAuthorizedCommands
  rw [if_neg h.not_online, if_neg (mt List.isPrefixOf_iff_prefix.1 h.not_msg),
    if_neg (mt List.isPrefixOf_iff_prefix.1 h.not_send_enc), if_pos (validateMessage_iff.2 hne)]

/-- To an authorised session, a login line is a text to broadcast. -/
theorem handleAuthorizedCommands_login (h : ascii "/login" <+: command) :
    handleAuthorizedCommands C s env i command =
      broadcastMessage s env (s.clients i).nick command := by
  obtain ⟨rest, rfl⟩ := h
  refine handleAuthorizedCommands_broadcast C s env i ⟨?_, ?_, ?_⟩ (by simp [ascii])
  · rintro ⟨⟩
  · rintro ⟨rest', ⟨⟩⟩
  · rintro ⟨rest', ⟨⟩⟩

theorem handleUnauthorizedCommands_login (h : ascii "/login" <+: command) :
    handleUnauthorizedCommands s env i ip command = processLogin s env i ip command := by
  obtain ⟨rest, rfl⟩ := h
  unfold handleUnauthorizedCommands
  rw [if_neg (by rintro ⟨⟩), if_pos (by simp)]

theorem handleUnauthorizedCommands_msg (h : ascii "/msg" <+: command) :
    handleUnauthorizedCommands s env i ip command =
      (s, [.write (s.clients i).ssl authRequiredFrame]) := by
  obtain ⟨rest, rfl⟩ := h
  unfold handleUnauthorizedCommands
  rw [if_neg (by rintro ⟨⟩), if_neg (by rintro ⟨⟩), if_neg (by rintro ⟨⟩)]

end dispatch

/-! ### Lines composed by a client -/

def loginLine (nick token : Bytes) : Bytes := ascii "/login " ++ nick ++ ascii " " ++ token

def targetedLine (literal target text : Bytes) : Bytes :=
  literal ++ ascii " " ++ target ++ ascii " " ++ text

private theorem space_isSpace : isSpace 32 = true := by decide

private theorem ascii_space : ascii " " = [32] := by decide

private theorem ascii_login : ascii "/login " = ascii "/login" ++ [32] := by decide

theorem scanWord_space {w : ℕ} (s : Bytes) : scanWord w (skipSpace (32 :: s)) = scanWord w s := by
  rw [scanWord_skipSpace, scanWord_space_cons w space_isSpace]

/-- The nick of a login line is read whole, its token up to 63 bytes. -/
theorem parseLogin_loginLine {nick token : Bytes} (hn : IsWord 31 nick) (hne : token ≠ [])
    (ht : ∀ c ∈ token, isSpace c = false) :
    parseLogin (loginLine nick token) = some (nick, token.take 63) := by
  have hline : loginLine nick token = ascii "/login" ++ (32 :: (nick ++ 32 :: token)) := by
    simp [loginLine, ascii_login, ascii_space]
  simp only [parseLogin, hline, scanLiteral_append, Option.bind_eq_bind, Option.bind_some,
    scanWord_space, scanWord_word_space hn space_isSpace, scanWord_last (by decide : 0 < 63) hne ht,
    Option.pure_def]

section targetedLine

variable {literal target text : Bytes} (htarget : IsWord 31 target) {c : UInt8} {cs : Bytes}
  (htext : text = c :: cs) (hc : isSpace c = false)

include htarget htext hc

/-- The target of a targeted line is read whole. -/
theorem parseTargeted_targetedLine_eq :
    parseTargeted literal (targetedLine literal target text) =
      (scanLine 2047 text).map fun p => (target, p.1) := by
  have hline : targetedLine literal target text =
      literal ++ (32 :: (target ++ 32 :: text)) := by simp [targetedLine, ascii_space]
  have hskip : skipSpace (32 :: text) = text := by
    simp [skipSpace, htext, hc, space_isSpace]
  simp only [parseTargeted, hline, scanLiteral_append, Option.bind_eq_bind, Option.bind_some,
    scanWord_space, scanWord_word_space htarget space_isSpace, hskip, Option.pure_def]
  exact Option.map_eq_bind.symm

theorem parseTargeted_targetedLine :
    ∃ message,
      parseTargeted literal (targetedLine literal target text) = some (target, message) := by
  have hnl : c ≠ newline := by rintro rfl; exact absurd hc (by decide)
  obtain ⟨message, rest, hmsg⟩ : ∃ message rest, scanLine 2047 text = some (message, rest) := by
    refine ⟨_, _, scanLine_eq_some.2 ⟨rfl, ?_, rfl⟩⟩
    simp [htext, hnl]
  exact ⟨message, by rw [parseTargeted_targetedLine_eq htarget htext hc, hmsg]; rfl⟩

/-- So is a text of one line that fits. -/
theorem parseTargeted_targetedLine_text (hlen : text.length ≤ 2047) (hnl : newline ∉ text) :
    parseTargeted literal (targetedLine literal target text) = some (target, text) := by
  have hall : text.takeWhile (· != newline) = text := by
    refine List.takeWhile_eq_self_iff.2 fun b hb => ?_
    have hne : b ≠ newline := fun heq => hnl (heq ▸ hb)
    simpa using hne
  have hscan : scanLine 2047 text = some (text, []) := by
    refine scanLine_eq_some.2 ⟨?_, by simp [htext], by simp⟩
    rw [List.take_of_length_le hlen, hall]
  rw [parseTargeted_targetedLine_eq htarget htext hc, hscan]
  rfl

end targetedLine

end Mesh
