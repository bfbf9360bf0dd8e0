import MeshMessenger.Lib.Keystream
import MeshMessenger.Proofs.EncryptedFrames

/-! What an encrypted frame tells its recipient. The key is the sender's and the iv is
thrown away, so that with AES-GCM as a stream cipher two messages that look the same can
say different things. -/

namespace Mesh

open CLib Keystream

/-- AES-GCM as XOR with a stream determined by the key and the iv. -/
def keystreamCrypto (ks : Bytes → Bytes → ℕ → UInt8) (x25519 : Bytes → Option Bytes) : Crypto :=
  ⟨fun key iv plaintext => some (xorStream (ks key iv) plaintext), x25519⟩

/-- Two executions of `handle_encrypted_message`, by the clients in slots `i` and `i'`, that
write the same to the target are given the same text. -/
def FrameDetermines (C : Crypto) (s s' : Server) (env env' : Env) (i i' : Slot) (target : Bytes) :
    Prop :=
  ∀ buffer buffer' command command' text text', commandOf buffer = some command →
    commandOf buffer' = some command' → parseSendEnc command = some (target, text) →
    parseSendEnc command' = some (target, text') →
    handleEncryptedMessage C s env i command = handleEncryptedMessage C s' env' i' command' →
    text = text'

/-! ### The frame -/

theorem encryptedFrame_head (sender target data : Bytes) :
    encryptedFrame sender target data =
      encryptedHead sender target ++ (data ++ ascii "\"\x7d\n") := by
  simp [encryptedFrame, encryptedHead]

theorem encryptedFrame_length (sender target data : Bytes) :
    (encryptedFrame sender target data).length =
      sender.length + target.length + data.length + 49 := by
  have hopen : (ascii "\x7b\"type\":\"encrypted\",\"from\":\"").length = 28 := by decide
  have hto : (ascii "\",\"to\":\"").length = 8 := by decide
  have hdata : (ascii "\",\"data\":\"").length = 10 := by decide
  have htail : (ascii "\"\x7d\n").length = 3 := by decide
  simp only [encryptedFrame, List.length_append, hopen, hto, hdata, htail]
  omega

/-- A frame that fits determines the ciphertext in it. -/
theorem ciphertext_eq_of_frame_eq {sender target c c' : Bytes} (hsender : sender.length ≤ 31)
    (htarget : target.length ≤ 31) (hc : c.length ≤ 2047) (hc' : c'.length ≤ 2047)
    (h : snprintf bufferSize (encryptedFrame sender target (bioBase64 c)) =
      snprintf bufferSize (encryptedFrame sender target (bioBase64 c'))) : c = c' := by
  have hfits {d : Bytes} (hd : d.length ≤ 2047) :
      (encryptedFrame sender target (bioBase64 d)).length < bufferSize := by
    rw [encryptedFrame_length, bioBase64_length]
    simp only [bufferSize]
    omega
  rw [snprintf_of_lt (hfits hc), snprintf_of_lt (hfits hc'), encryptedFrame_head,
    encryptedFrame_head] at h
  exact bioBase64_injective (List.append_cancel_right (List.append_cancel_left h))

/-! ### Plain texts -/

/-- Bytes that a command can carry anywhere in its text. -/
def isPlainByte (c : UInt8) : Bool := !isFiltered c && !isSpace c && c != 0

theorem exists_plain_pair (d : UInt8) :
    ∃ a, isPlainByte a = true ∧ isPlainByte (a ^^^ d) = true := by
  -- all bytes from 128 on are plain, so that the high bit decides which one to take
  have hpair : ∀ d : UInt8, isPlainByte (if d < 128 then 193 else 65) = true ∧
      isPlainByte ((if d < 128 then 193 else 65) ^^^ d) = true := forall_byte (by decide +kernel)
  exact ⟨_, hpair d⟩

/-- A client can send every plain text to every name. -/
theorem plain_message {target : Bytes} (hword : IsWord 31 target)
    (hclean : ∀ c ∈ target, isFiltered c = false ∧ c ≠ 0) {k : ℕ} (hk : k < 2047)
    {f : ℕ → UInt8} (hf : ∀ m, isPlainByte (f m) = true) :
    ∃ buffer command, commandOf buffer = some command ∧
      parseSendEnc command = some (target, (List.range (k + 1)).map f) := by
  simp only [isPlainByte, Bool.and_eq_true, Bool.not_eq_true', bne_iff_ne] at hf
  set text := (List.range (k + 1)).map f with htext
  have htext' : text = f 0 :: (List.range k).map fun m => f (m + 1) := by
    rw [htext, List.range_succ_eq_map, List.map_cons, List.map_map]
    rfl
  have hmem : ∀ c ∈ text, isFiltered c = false ∧ isSpace c = false ∧ c ≠ 0 := by
    intro c hc
    obtain ⟨m, -, rfl⟩ := List.mem_map.1 hc
    exact ⟨(hf m).1.1, (hf m).1.2, (hf m).2⟩
  have hline : ∀ c ∈ targetedLine (ascii "/send_enc") target text,
      isFiltered c = false ∧ c ≠ 0 := by
    intro c hc
    simp only [targetedLine, List.mem_append] at hc
    rcases hc with (((hc | hc) | hc) | hc) | hc
    · exact clean_word rfl c hc
    · exact clean_word rfl c hc
    · exact hclean c hc
    · exact clean_word rfl c hc
    · exact ⟨(hmem c hc).1, (hmem c hc).2.2⟩
  refine ⟨targetedLine (ascii "/send_enc") target text ++ [newline],
    targetedLine (ascii "/send_enc") target text, ?_, ?_⟩
  · refine commandOf_line ?_ (fun h0 => (hline 0 h0).2 rfl) (fun c hc => (hline c hc).1) ?_
    · simp [targetedLine, ascii]
    · have hhead : (targetedLine (ascii "/send_enc") target text).head? = some 47 := rfl
      rw [hhead]
      decide
  · refine parseTargeted_targetedLine_text hword htext' (hf 0).1.2 ?_ fun hnl => ?_
    · rw [htext, List.length_map, List.length_range]
      omega
    · exact absurd (hmem newline hnl).2.1 (by decide)

/-! ### The two directions -/

section pair

variable (ks : Bytes → Bytes → ℕ → UInt8) (x25519 : Bytes → Option Bytes)

/-- With the stream cipher, every message to a client online is written. -/
theorem handleEncryptedMessage_keystream {s : Server} {i j : Slot} {env : Env}
    {command target text : Bytes} (hparse : parseSendEnc command = some (target, text))
    (hfind : findClientByNick s target = some j) :
    handleEncryptedMessage (keystreamCrypto ks x25519) s env i command =
      [.write (s.clients j).ssl (snprintf bufferSize (encryptedFrame (s.clients i).nick target
        (bioBase64 (xorStream (ks (s.clients i).sessionKey env.iv) text))))] := by
  have hne : xorStream (ks (s.clients i).sessionKey env.iv) text ≠ [] := fun h =>
    (parseTargeted_eq_some hparse).2.1 (xorStream_eq_nil.1 h)
  rw [handleEncryptedMessage_eq hparse hfind]
  simp only [keystreamCrypto, if_neg hne]

variable {s s' : Server} {i i' j j' : Slot} {target : Bytes} (env env' : Env)
  (hfind : findClientByNick s target = some j) (hfind' : findClientByNick s' target = some j')

include hfind hfind'

/-- Where the senders' streams agree, the frame determines the text. -/
theorem frameDetermines_of_agree (hlen : (s.clients i).nick.length ≤ 31)
    (hnick : (s.clients i).nick = (s'.clients i').nick)
    (hks : ∀ k < 2047, ks (s.clients i).sessionKey env.iv k =
      ks (s'.clients i').sessionKey env'.iv k) :
    FrameDetermines (keystreamCrypto ks x25519) s s' env env' i i' target := by
  intro buffer buffer' command command' text text' _ _ hparse hparse' heq
  obtain ⟨-, -, -, htext⟩ := parseTargeted_sublist hparse
  obtain ⟨-, -, -, htext'⟩ := parseTargeted_sublist hparse'
  rw [handleEncryptedMessage_keystream ks x25519 hparse hfind,
    handleEncryptedMessage_keystream ks x25519 hparse' hfind', List.cons.injEq,
    Effect.write.injEq, ← hnick] at heq
  have hcipher := ciphertext_eq_of_frame_eq hlen (parseTargeted_eq_some hparse).1.length_le
    (by rwa [xorStream_length]) (by rwa [xorStream_length]) heq.1.2
  exact (eq_iff_of_xorStream_eq hcipher).2 fun k hk => hks k (by omega)

/-- Where they differ, two texts give the same frame. -/
theorem agree_of_frameDetermines (hword : IsWord 31 target)
    (hclean : ∀ c ∈ target, isFiltered c = false ∧ c ≠ 0)
    (hnick : (s.clients i).nick = (s'.clients i').nick)
    (hssl : (s.clients j).ssl = (s'.clients j').ssl)
    (h : FrameDetermines (keystreamCrypto ks x25519) s s' env env' i i' target) {k : ℕ}
    (hk : k < 2047) : ks (s.clients i).sessionKey env.iv k =
      ks (s'.clients i').sessionKey env'.iv k := by
  choose pick hpick using exists_plain_pair
  set ks₁ := ks (s.clients i).sessionKey env.iv with hks₁
  set ks₂ := ks (s'.clients i').sessionKey env'.iv with hks₂
  have hplain (f : ℕ → UInt8) (hf : ∀ m, isPlainByte (f m) = true) :
      ∃ buffer command, commandOf buffer = some command ∧
        parseSendEnc command = some (target, (List.range (k + 1)).map f) :=
    plain_message hword hclean hk hf
  obtain ⟨buffer, command, hcommand, hparse⟩ :=
    hplain (fun m => pick (ks₁ m ^^^ ks₂ m)) fun m => (hpick _).1
  obtain ⟨buffer', command', hcommand', hparse'⟩ :=
    hplain (fun m => pick (ks₁ m ^^^ ks₂ m) ^^^ (ks₁ m ^^^ ks₂ m)) fun m => (hpick _).2
  have htext := h buffer buffer' command command' _ _ hcommand hcommand' hparse hparse' (by
    rw [handleEncryptedMessage_keystream ks x25519 hparse hfind,
      handleEncryptedMessage_keystream ks x25519 hparse' hfind', hnick, hssl, ← hks₁, ← hks₂,
      xorStream_shift])
  exact (eq_iff_of_xorStream_eq (xorStream_shift pick (k + 1))).1 htext k (by simp)

end pair

/-! ### Frames and texts -/

theorem session_nick_clean {s : Server} (hreg : Registered s.users) (hinv : SessionsInv s)
    {i : Slot} (hauth : (s.clients i).authorized = true) :
    ∀ c ∈ (s.clients i).nick, isFiltered c = false ∧ c ≠ 0 := by
  intro c hc
  obtain ⟨hfiltered, -, hnul⟩ := isNickByte_clean c (session_isNickByte hreg hinv hauth c hc)
  exact ⟨hfiltered, hnul⟩

/-- For every stream, every two reachable states with the target's slot alike, every two
authorised senders and every two ivs: the frame determines the text if and only if it
already tells the senders apart, or their streams agree as far as a text can reach. -/
theorem frame_determines_iff (ks : Bytes → Bytes → ℕ → UInt8) (x25519 : Bytes → Option Bytes)
    {users users' : SecureUsers} (husers : Registered users) (husers' : Registered users')
    {s s' : Server} (hs : Reachable (keystreamCrypto ks x25519) users s)
    (hs' : Reachable (keystreamCrypto ks x25519) users' s') {i i' : Slot}
    (hauth : (s.clients i).authorized = true) (hauth' : (s'.clients i').authorized = true)
    {target : Bytes} {j j' : Slot} (hfind : findClientByNick s target = some j)
    (hfind' : findClientByNick s' target = some j') (hslot : s.clients j = s'.clients j')
    (env env' : Env) :
    FrameDetermines (keystreamCrypto ks x25519) s s' env env' i i' target ↔
      (s.clients i).nick ≠ (s'.clients i').nick ∨
        ∀ k < 2047, ks (s.clients i).sessionKey env.iv k =
          ks (s'.clients i').sessionKey env'.iv k := by
  have hreg := Reachable.registered hs husers
  have hinv := Reachable.sessionsInv hs
  have hreg' := Reachable.registered hs' husers'
  have hinv' := Reachable.sessionsInv hs'
  obtain ⟨honline, htarget⟩ := findClientByNick_eq_some hfind
  have hauthj : (s.clients j).authorized = true := by
    simp only [SecureClient.online, Bool.and_eq_true] at honline
    exact honline.2
  refine ⟨?_, ?_⟩
  · intro h
    by_cases hnick : (s.clients i).nick = (s'.clients i').nick
    · right
      intro k hk
      refine agree_of_frameDetermines ks x25519 env env' hfind hfind' ?_ ?_ hnick
        (by rw [hslot]) h hk
      · exact htarget ▸ hinv.word j hauthj
      · exact htarget ▸ session_nick_clean hreg hinv hauthj
    · exact .inl hnick
  · intro h
    by_cases hnick : (s.clients i).nick = (s'.clients i').nick
    · exact frameDetermines_of_agree ks x25519 env env' hfind hfind' (hinv.word i hauth).length_le
        hnick (h.resolve_left fun hne => hne hnick)
    · intro buffer buffer' command command' text text' _ _ hparse hparse' heq
      rw [handleEncryptedMessage_keystream ks x25519 hparse hfind,
        handleEncryptedMessage_keystream ks x25519 hparse' hfind', List.cons.injEq,
        Effect.write.injEq] at heq
      have hfrom := congrArg fromField heq.1.2
      rw [fromField_encryptedFrame (hinv.word i hauth).length_le
          (session_fieldText hreg hinv hauth).1.quote_notMem,
        fromField_encryptedFrame (hinv'.word i' hauth').length_le
          (session_fieldText hreg' hinv' hauth').1.quote_notMem] at hfrom
      exact absurd (Option.some.inj hfrom) hnick

namespace Sample

/-- A stream that repeats the first byte of the iv. -/
def stream (_ iv : Bytes) (_ : ℕ) : UInt8 := iv.headD 0

/-- The environment of an encryption that draws this iv. -/
def envIv (first : UInt8) : Env := { env 1005 0 with iv := first :: List.replicate 11 0 }

end Sample

/-- Two messages of `ann` to `bob` under one iv: the frame determines the text. -/
theorem frame_determines_one_iv :
    let C := keystreamCrypto Sample.stream some
    let s := (run C (Server.init SecureUsers.empty) Sample.chat).1
    FrameDetermines C s s (Sample.envIv 3) (Sample.envIv 3) Sample.firstSlot Sample.firstSlot
      (ascii "bob") := by
  intro C s
  have hs : Reachable C SecureUsers.empty s := ⟨Sample.chat, rfl⟩
  obtain ⟨hauth, hfind⟩ : (s.clients Sample.firstSlot).authorized = true ∧
      findClientByNick s (ascii "bob") = some Sample.secondSlot := by decide +kernel
  clear_value s
  exact (frame_determines_iff Sample.stream some registered_empty registered_empty hs hs hauth
    hauth hfind hfind rfl _ _).2 (.inr fun _ _ => rfl)

/-- Under two ivs, `a` and `b` give `bob` the same frame. -/
theorem same_frame_two_texts :
    let C := keystreamCrypto Sample.stream some
    let s := (run C (Server.init SecureUsers.empty) Sample.chat).1
    handleEncryptedMessage C s (Sample.envIv 0) Sample.firstSlot (ascii "/send_enc bob a") =
        handleEncryptedMessage C s (Sample.envIv 3) Sample.firstSlot (ascii "/send_enc bob b") ∧
      handleEncryptedMessage C s (Sample.envIv 0) Sample.firstSlot (ascii "/send_enc bob a") ≠ [] ∧
      ¬ FrameDetermines C s s (Sample.envIv 0) (Sample.envIv 3) Sample.firstSlot Sample.firstSlot
        (ascii "bob") := by
  intro C s
  have hsame : handleEncryptedMessage C s (Sample.envIv 0) Sample.firstSlot
      (ascii "/send_enc bob a") =
        handleEncryptedMessage C s (Sample.envIv 3) Sample.firstSlot (ascii "/send_enc bob b") := by
    decide +kernel
  refine ⟨hsame, by decide +kernel, fun h => ?_⟩
  have htext := h (ascii "/send_enc bob a\n") (ascii "/send_enc bob b\n") _ _ (ascii "a")
    (ascii "b") (by decide) (by decide) (by decide) (by decide) hsame
  exact absurd htext (by decide)

end Mesh
