import MeshMessenger.Lib.Windows
import MeshMessenger.Proofs.Naming

/-! The rate limit over the life of a connection: what the loop counts in
`client->rate_limit` from the accept on, among the steps of all other threads. -/

namespace Mesh

open CLib Windows

/-! ### Arrivals -/

/-- The commands that arrive on slot `i` in a step, each with its time and whether the
limit lets it through. -/
def arrivals (i : Slot) (s : Server) : Event → List (ℤ × Bool)
  | .iterate conn env (.bytes _ _ _) =>
    match s.handler? conn .looping with
    | none => []
    | some h =>
      if h.slot = i ∧ 0 ≤ (s.clients i).fd then [(env.now, s.withinLimit i env.now)] else []
  | _ => []

/-- The machine with the arrivals on slot `i` as outputs. -/
def arrivalStep (C : Crypto) (i : Slot) (s : Server) (e : Event) : Server × List (ℤ × Bool) :=
  ((step C s e).1, arrivals i s e)

/-- The step gives slot `i` to no other connection. -/
def KeepsSlot (i : Slot) (s : Server) (e : Event) : Prop :=
  ∀ fd addr now, e = .connect fd addr now .success → freeSlot s ≠ some i

/-- The times of the arrivals that were let through. -/
def letThrough (arr : List (ℤ × Bool)) : List ℤ := (arr.filter Prod.snd).map Prod.fst

theorem letThrough_append (arr more : List (ℤ × Bool)) :
    letThrough (arr ++ more) = letThrough arr ++ letThrough more := by
  rw [letThrough, List.filter_append, List.map_append]
  rfl

def RateLimit.window (r : RateLimit) : Window := ⟨r.windowStart, r.count⟩

theorem checkRateLimit_window (r : RateLimit) (now : ℤ) :
    (checkRateLimit r now).1.window = (arrive maxRateLimit rateLimitWindow r.window now).1 ∧
      (checkRateLimit r now).2 = (arrive maxRateLimit rateLimitWindow r.window now).2 := by
  by_cases hend : now - r.windowStart > rateLimitWindow
  · have hend' : now - r.window.start > rateLimitWindow := hend
    rw [arrive_of_ended (by decide) hend']
    simp only [checkRateLimit, if_pos hend]
    exact ⟨rfl, rfl⟩
  · have hend' : ¬ now - r.window.start > rateLimitWindow := hend
    simp only [checkRateLimit, arrive, if_neg hend, if_neg hend']
    have hcount : r.window.count = r.count := rfl
    rw [hcount]
    split_ifs
    · exact ⟨rfl, rfl⟩
    · exact ⟨rfl, rfl⟩

/-! ### What the loop does with a line -/

/-- A line that the limit refuses is answered with one frame. -/
def refused (s : Server) (h : Handler) (env : Env) : Server × List Effect :=
  (s.noteActivity h.slot env.now, [.write (s.clients h.slot).ssl rateLimitFrame])

/-- A line that is let through goes on to `process_client_command`, if it holds a command. -/
def passedOn (C : Crypto) (s : Server) (h : Handler) (env : Env) (buffer : Bytes) :
    Server × List Effect :=
  match commandOf buffer with
  | none => (s.noteActivity h.slot env.now, [])
  | some command => processClientCommand C (s.noteActivity h.slot env.now) env h.slot h.ip command

/-- A line that is read on slot `i` arrives there once, and its flag says what the loop
does with it: only a refused line is answered with the frame of the limit, and only one that
is let through goes on. -/
def Enforced (C : Crypto) (i : Slot) (s : Server) (e : Event) : Prop :=
  ∀ conn env buffer hne hlt h, e = .iterate conn env (.bytes buffer hne hlt) →
    s.handler? conn .looping = some h → h.slot = i → 0 ≤ (s.clients i).fd →
    ∃ ok, arrivals i s e = [(env.now, ok)] ∧
      (ok = false ↔ step C s e = refused s h env) ∧
      (ok = false ↔ ∃ ssl, .write ssl rateLimitFrame ∈ (step C s e).2) ∧
      (ok = true ↔ step C s e = passedOn C s h env buffer)

theorem ne_rateLimitFrame {head data : Bytes} (h : head <+: data)
    (hne : ¬ head <+: rateLimitFrame) : data ≠ rateLimitFrame :=
  fun heq => hne (heq ▸ h)

theorem snprintf_ne_rateLimitFrame {head rest : Bytes} {n : ℕ} (hlen : head.length ≤ n - 1)
    (hne : ¬ head <+: rateLimitFrame) : snprintf n (head ++ rest) ≠ rateLimitFrame :=
  ne_rateLimitFrame (List.prefix_take_iff.2 ⟨List.prefix_append _ _, hlen⟩) hne

section refusals

variable {C : Crypto} {s : Server} {env : Env} {i : Slot} {ip command : Bytes}
  {ssl : Option Conn} {data : Bytes}

theorem broadcastMessage_ne_rateLimitFrame {sender message : Bytes}
    (h : .write ssl data ∈ broadcastMessage s env sender message) : data ≠ rateLimitFrame := by
  obtain ⟨-, rfl⟩ := write_mem_broadcastMessage.1 h
  simp only [messageFrame, List.append_assoc]
  exact snprintf_ne_rateLimitFrame (by decide) (by decide)

theorem handleAuthorizedCommands_ne_rateLimitFrame
    (h : .write ssl data ∈ handleAuthorizedCommands C s env i command) :
    data ≠ rateLimitFrame := by
  unfold handleAuthorizedCommands at h
  split_ifs at h with honline hmsg henc hvalid
  · exact ne_rateLimitFrame (sendOnlineUsers_isPrefix h) (by decide)
  · obtain ⟨-, target, message, rfl⟩ := write_mem_handlePrivateMessage h
    simp only [privateFrame, List.append_assoc]
    exact snprintf_ne_rateLimitFrame (by decide) (by decide)
  · obtain ⟨-, target, b64, rfl⟩ :=
      write_mem_handleEncryptedMessage (List.isPrefixOf_iff_prefix.1 henc) h
    simp only [encryptedFrame, List.append_assoc]
    exact snprintf_ne_rateLimitFrame (by decide) (by decide)
  · exact broadcastMessage_ne_rateLimitFrame h
  · simp at h

theorem processRegistration_ne_rateLimitFrame
    (h : .write ssl data ∈ (processRegistration s env i ip command).2) :
    data ≠ rateLimitFrame := by
  rcases processRegistration_cases s env i ip command with
    ⟨-, heq | ⟨message, -, heq⟩⟩ | ⟨nick, token, users, -, -, -, -, heq⟩
  · simp [heq] at h
  · simp only [heq, List.mem_singleton, Effect.write.injEq] at h
    rw [h.2]
    simp only [registerErrorFrame, List.append_assoc]
    exact ne_rateLimitFrame (List.prefix_append _ _) (by decide)
  · simp only [heq, registrationEffects, List.mem_cons, Effect.write.injEq, List.not_mem_nil,
      or_false, reduceCtorEq] at h
    rw [h.2]
    simp only [registerSuccessFrame, List.append_assoc]
    exact snprintf_ne_rateLimitFrame (by decide) (by decide)

theorem processLogin_ne_rateLimitFrame
    (h : .write ssl data ∈ (processLogin s env i ip command).2) : data ≠ rateLimitFrame := by
  rcases processLogin_cases s env i ip command with
    ⟨-, heq⟩ | ⟨nick, token, -, -, heq⟩ | ⟨nick, token, row, -, -, -, -, -, heq⟩
  · simp [heq] at h
  · simp only [heq, List.mem_cons, Effect.write.injEq, List.not_mem_nil, or_false,
      reduceCtorEq] at h
    rw [h.2]
    decide
  · simp only [heq, loginEffects, List.mem_cons, List.mem_append, Effect.write.injEq,
      List.not_mem_nil, or_false, reduceCtorEq] at h
    rcases h with ⟨-, rfl⟩ | h
    · simp only [loginSuccessFrame, List.append_assoc]
      exact snprintf_ne_rateLimitFrame (by decide) (by decide)
    · exact broadcastMessage_ne_rateLimitFrame h

/-- No command is answered with the frame of the limit. -/
theorem processClientCommand_ne_rateLimitFrame
    (h : .write ssl data ∈ (processClientCommand C s env i ip command).2) :
    data ≠ rateLimitFrame := by
  unfold processClientCommand at h
  split_ifs at h
  · unfold handleUnauthorizedCommands at h
    split_ifs at h
    · exact processRegistration_ne_rateLimitFrame h
    · exact processLogin_ne_rateLimitFrame h
    · simp only [List.mem_singleton, Effect.write.injEq] at h
      rw [h.2]
      decide
    · simp only [List.mem_singleton, Effect.write.injEq] at h
      rw [h.2]
      decide
  · exact handleAuthorizedCommands_ne_rateLimitFrame h

theorem passedOn_ne_rateLimitFrame {h : Handler} {buffer : Bytes}
    (hmem : .write ssl data ∈ (passedOn C s h env buffer).2) : data ≠ rateLimitFrame := by
  unfold passedOn at hmem
  cases hcommand : commandOf buffer with
  | none => simp [hcommand] at hmem
  | some command =>
    rw [hcommand] at hmem
    exact processClientCommand_ne_rateLimitFrame hmem

end refusals

theorem handleBuffer_eq (C : Crypto) (s : Server) (h : Handler) (env : Env) (buffer : Bytes) :
    handleBuffer C s h env buffer =
      if s.withinLimit h.slot env.now then passedOn C s h env buffer else refused s h env := by
  unfold handleBuffer passedOn refused
  cases s.withinLimit h.slot env.now with
  | false => rfl
  | true => rfl

theorem arrivals_enforced (C : Crypto) (i : Slot) (s : Server) (e : Event) :
    Enforced C i s e := by
  rintro conn env buffer hne hlt h rfl hh rfl hfd
  have hstep : step C s (.iterate conn env (.bytes buffer hne hlt)) =
      if s.withinLimit h.slot env.now then passedOn C s h env buffer else refused s h env := by
    simp only [step, hh, handlerIteration, if_neg (not_lt.2 hfd), handleBuffer_eq]
  have hsplit : passedOn C s h env buffer ≠ refused s h env := by
    intro heq
    have hmem : .write (s.clients h.slot).ssl rateLimitFrame ∈ (passedOn C s h env buffer).2 := by
      rw [heq]
      exact List.mem_singleton_self _
    exact passedOn_ne_rateLimitFrame hmem rfl
  refine ⟨s.withinLimit h.slot env.now, ?_, ?_⟩
  · simp only [arrivals, hh, if_pos (⟨trivial, hfd⟩ : True ∧ 0 ≤ (s.clients h.slot).fd)]
  · rw [hstep]
    cases s.withinLimit h.slot env.now with
    | false =>
      exact ⟨⟨fun _ => rfl, fun _ => rfl⟩, ⟨fun _ => ⟨_, List.mem_singleton_self _⟩, fun _ => rfl⟩,
        ⟨fun hfalse => absurd hfalse (by decide), fun heq => absurd heq.symm hsplit⟩⟩
    | true =>
      refine ⟨⟨fun hfalse => absurd hfalse (by decide), fun heq => absurd heq hsplit⟩,
        ⟨fun hfalse => absurd hfalse (by decide), ?_⟩, ⟨fun _ => rfl, fun _ => rfl⟩⟩
      rintro ⟨ssl, hmem⟩
      exact absurd rfl (passedOn_ne_rateLimitFrame hmem)

/-! ### One step -/

theorem initClientSignalProtocol_rateLimit (C : Crypto) (c : SecureClient) (env : StartEnv) :
    (initClientSignalProtocol C c env).1.rateLimit = c.rateLimit := by
  unfold initClientSignalProtocol
  cases env.storeOk with
  | false => rfl
  | true =>
    cases env.identityOk with
    | false => rfl
    | true =>
      cases env.regId with
      | none => rfl
      | some r =>
        cases env.sessionKey with
        | none => rfl
        | some k => cases env.chachaOk <;> rfl

theorem handlerPrologue_rateLimit (C : Crypto) (s : Server) (h : Handler) (env : StartEnv)
    (i : Slot) :
    ((handlerPrologue C s h env).1.clients i).rateLimit = (s.clients i).rateLimit := by
  have hinit := initClientSignalProtocol_rateLimit C (s.clients h.slot) env
  have hids : ((initClientSignalProtocol C (s.clients h.slot) env).1.identified env).rateLimit =
      (s.clients h.slot).rateLimit := hinit
  rcases handlerPrologue_cases C s h env with ⟨-, heq⟩ | ⟨-, heq⟩ | ⟨-, heq⟩ <;> rw [heq]
  · exact setClient_field hinit i
  · exact setClient_field hids i
  · exact setClient_field hids i

/-- A command leaves the rate limits as they are. -/
theorem processClientCommand_rateLimit (C : Crypto) (s : Server) (env : Env) (j : Slot)
    (ip command : Bytes) (i : Slot) :
    ((processClientCommand C s env j ip command).1.clients i).rateLimit =
      (s.clients i).rateLimit := by
  rcases processClientCommand_state C s env j ip command with
    ⟨users, heq⟩ | ⟨-, row, nick, token, heq⟩ <;> rw [heq]
  rw [loggedIn_clients]
  by_cases hi : i = j
  · rw [hi, Function.update_self]
    rfl
  · rw [Function.update_of_ne hi]

/-- A read of bytes counts as an arrival on its handler's slot, if the slot is open. -/
theorem handlerIteration_bytes_rateLimit (C : Crypto) (s : Server) (h : Handler) (env : Env)
    {buffer : Bytes} (hne : buffer ≠ []) (hlt : buffer.length < bufferSize) (i : Slot) :
    ((handlerIteration C s h env (.bytes buffer hne hlt)).1.clients i).rateLimit =
      if h.slot = i ∧ 0 ≤ (s.clients i).fd then
        (checkRateLimit (s.clients i).rateLimit env.now).1
      else (s.clients i).rateLimit := by
  by_cases hfd : (s.clients h.slot).fd < 0
  · have hno : ¬ (h.slot = i ∧ 0 ≤ (s.clients i).fd) := by
      rintro ⟨rfl, h0⟩
      exact absurd hfd (not_lt.2 h0)
    rw [if_neg hno, handlerIteration, if_pos hfd]
    rfl
  · have hnote : ((handlerIteration C s h env (.bytes buffer hne hlt)).1.clients i).rateLimit =
        ((s.noteActivity h.slot env.now).clients i).rateLimit := by
      rw [handlerIteration, if_neg hfd]
      simp only [handleBuffer]
      split_ifs
      · rfl
      · cases commandOf buffer with
        | none => rfl
        | some command => exact processClientCommand_rateLimit C _ env h.slot h.ip command i
    rw [hnote, Server.noteActivity]
    by_cases hi : i = h.slot
    · subst hi
      rw [setClient_self, if_pos ⟨rfl, not_lt.1 hfd⟩]
    · rw [setClient_ne _ _ _ hi, if_neg fun hslot => hi hslot.1.symm]

theorem handlerIteration_idle_rateLimit (C : Crypto) (s : Server) (h : Handler) (env : Env)
    {read : ReadResult} (hread : read = .error ∨ read = .zero) (i : Slot) :
    ((handlerIteration C s h env read).1.clients i).rateLimit = (s.clients i).rateLimit := by
  unfold handlerIteration
  rcases hread with rfl | rfl
  · simp only
    split_ifs
    · rfl
    · rfl
  · simp only
    split_ifs
    · rfl
    · rfl
    · rfl

theorem arrivals_step (C : Crypto) {i : Slot} {s : Server} {e : Event} (hkeep : KeepsSlot i s e) :
    (arrivals i s e = [] ∧
      ((step C s e).1.clients i).rateLimit = (s.clients i).rateLimit) ∨
    ∃ now, arrivals i s e = [(now, (checkRateLimit (s.clients i).rateLimit now).2)] ∧
      ((step C s e).1.clients i).rateLimit = (checkRateLimit (s.clients i).rateLimit now).1 := by
  cases e with
  | connect fd addr now handshake =>
    refine .inl ⟨rfl, ?_⟩
    simp only [step]
    rcases handleNewConnection_cases s fd addr now handshake with ⟨j, hfree, rfl, heq⟩ | heq <;>
      rw [heq]
    have hj : i ≠ j := fun hij => hkeep fd addr now rfl (hij ▸ hfree)
    exact congrArg SecureClient.rateLimit (setClient_ne _ _ _ hj)
  | start conn env =>
    refine .inl ⟨rfl, ?_⟩
    simp only [step]
    cases s.handler? conn .starting with
    | none => rfl
    | some h => exact handlerPrologue_rateLimit C s h env i
  | iterate conn env read =>
    simp only [step]
    cases hh : s.handler? conn .looping with
    | none =>
      refine .inl ⟨?_, rfl⟩
      cases read <;> simp [arrivals, hh]
    | some h =>
      cases read with
      | error => exact .inl ⟨rfl, handlerIteration_idle_rateLimit C s h env (.inl rfl) i⟩
      | zero => exact .inl ⟨rfl, handlerIteration_idle_rateLimit C s h env (.inr rfl) i⟩
      | bytes buffer hne hlt =>
        simp only [arrivals, hh, handlerIteration_bytes_rateLimit]
        split_ifs
        · exact .inr ⟨env.now, rfl, rfl⟩
        · exact .inl ⟨rfl, rfl⟩
  | exit conn env =>
    refine .inl ⟨rfl, ?_⟩
    simp only [step]
    cases s.handler? conn .exiting with
    | none => rfl
    | some h =>
      have hcleaned : (s.clients h.slot).cleaned.rateLimit = (s.clients h.slot).rateLimit := rfl
      exact setClient_field hcleaned i
  | sweep now =>
    refine .inl ⟨rfl, ?_⟩
    simp only [step, checkClientTimeouts]
    split_ifs
    · rfl
    · rfl

/-! ### Runs -/

/-- The window of slot `i` limits what has been let through since `connect`, if the times
of the arrivals do not decrease. -/
def SlotLimited (i : Slot) (connect : ℤ) (s : Server) (arr : List (ℤ × Bool)) : Prop :=
  (connect :: arr.map Prod.fst).Pairwise (· ≤ ·) →
    Limited maxRateLimit rateLimitWindow (s.clients i).rateLimit.window (letThrough arr) ∧
      (s.clients i).rateLimit.windowStart ∈ connect :: arr.map Prod.fst

theorem slotLimited_step (C : Crypto) {i : Slot} {connect : ℤ} (s : Server)
    (arr : List (ℤ × Bool)) (e : Event) (hkeep : KeepsSlot i s e)
    (h : SlotLimited i connect s arr) :
    SlotLimited i connect (arrivalStep C i s e).1 (arr ++ (arrivalStep C i s e).2) := by
  intro hsorted
  simp only [arrivalStep] at hsorted ⊢
  rcases arrivals_step C hkeep with ⟨hnone, hrate⟩ | ⟨now, hone, hrate⟩
  · rw [hnone, List.append_nil] at hsorted ⊢
    rw [hrate]
    exact h hsorted
  · rw [hone] at hsorted ⊢
    rw [List.map_append, ← List.cons_append, List.pairwise_append] at hsorted
    obtain ⟨hlimited, hstart⟩ := h hsorted.1
    have hnow : (s.clients i).rateLimit.windowStart ≤ now := hsorted.2.2 _ hstart now (by simp)
    obtain ⟨hwindow, hok⟩ := checkRateLimit_window (s.clients i).rateLimit now
    rw [hrate, letThrough_append]
    refine ⟨?_, ?_⟩
    · rw [hwindow, hok]
      have hnext := hlimited.arrive (by decide) (by decide) hnow
      cases hlet : (arrive maxRateLimit rateLimitWindow (s.clients i).rateLimit.window now).2 with
      | false => simpa [hlet, letThrough] using hnext
      | true => simpa [hlet, letThrough] using hnext
    · have hstart' : (checkRateLimit (s.clients i).rateLimit now).1.windowStart =
          (checkRateLimit (s.clients i).rateLimit now).1.window.start := rfl
      rw [List.map_append, ← List.cons_append, List.mem_append, hstart', hwindow]
      rcases arrive_start maxRateLimit rateLimitWindow
        (s.clients i).rateLimit.window now with heq | heq
      · rw [heq]
        exact .inl hstart
      · rw [heq]
        exact .inr (by simp)

theorem handleNewConnection_success {s : Server} {i : Slot} (hfree : freeSlot s = some i) (fd : ℕ)
    (addr : SockAddr) (now : ℤ) :
    handleNewConnection s fd addr now .success = (accepted s i fd addr now, []) := by
  unfold handleNewConnection
  generalize freeSlot s = free at hfree
  subst hfree
  rfl

theorem slotLimited_accepted (s : Server) (i : Slot) (fd : ℕ) (addr : SockAddr) (connect : ℤ) :
    SlotLimited i connect (accepted s i fd addr connect) [] := by
  have hrate : ((accepted s i fd addr connect).clients i).rateLimit = ⟨connect, 0⟩ :=
    congrArg SecureClient.rateLimit (setClient_self s i _)
  intro _
  rw [hrate]
  exact ⟨limited_start connect, List.mem_singleton_self connect⟩

theorem run_slotLimited (C : Crypto) {s : Server} {i : Slot} {connect : ℤ}
    (h : SlotLimited i connect s []) {es : List Event}
    (hkeep : Runs.Along (step C) (KeepsSlot i) s es) :
    SlotLimited i connect (run C s es).1 (Runs.run (arrivalStep C i) s es).2 := by
  have hsame (s : Server) (e : Event) : (arrivalStep C i s e).1 = (step C s e).1 := rfl
  have hkeep' : Runs.Along (arrivalStep C i) (KeepsSlot i) s es := hkeep.congr hsame
  have hrun := hkeep'.trace_invariant (I := SlotLimited i connect)
    (fun s arr e hk hs => slotLimited_step C s arr e hk hs) h
  rwa [Runs.run_fst_congr hsame] at hrun

theorem withinLimit_of_ended {s : Server} {i : Slot} {now : ℤ}
    (h : now - (s.clients i).rateLimit.windowStart > rateLimitWindow) :
    s.withinLimit i now = true := by
  have hend : now - (s.clients i).rateLimit.window.start > rateLimitWindow := h
  rw [Server.withinLimit, (checkRateLimit_window _ now).2, arrive_of_ended (by decide) hend]

namespace Sample

/-- Ten commands in the last second of the first window and ten in the next. -/
def hurried : List Event :=
  .start 0 (startEnv 1000) ::
    (List.replicate 10 (.iterate 0 (env 1060 0) (line "hi")) ++
      List.replicate 10 (.iterate 0 (env 1061 0) (line "hi")))

end Sample

/-- From its accept on, as long as its slot is given to no other connection and its
arrivals' times do not decrease: the counter stays within its bound, no closed interval of
a window's length has more than twice as many commands that are let through, and a command
after the end of the window is. The bound is attained, and the flags are those the loop
acts on. -/
theorem rate_limit_over_time :
    (∀ (C : Crypto) (s : Server) (i : Slot) (fd : ℕ) (addr : SockAddr) (connect : ℤ)
      (es : List Event), freeSlot s = some i →
      let s₁ := (step C s (.connect fd addr connect .success)).1
      let s₂ := (run C s₁ es).1
      let arr := (Runs.run (arrivalStep C i) s₁ es).2
      Runs.Along (step C) (KeepsSlot i) s₁ es →
      (connect :: arr.map Prod.fst).Pairwise (· ≤ ·) →
      (s₂.clients i).rateLimit.count ≤ maxRateLimit ∧
        (∀ a, between a (a + rateLimitWindow) (letThrough arr) ≤ 2 * maxRateLimit) ∧
        ∀ now, now - (s₂.clients i).rateLimit.windowStart > rateLimitWindow →
          s₂.withinLimit i now = true) ∧
    (∃ (C : Crypto) (s : Server) (i : Slot) (fd : ℕ) (addr : SockAddr) (connect : ℤ)
      (es : List Event), freeSlot s = some i ∧
      let s₁ := (step C s (.connect fd addr connect .success)).1
      let arr := (Runs.run (arrivalStep C i) s₁ es).2
      Runs.Along (step C) (KeepsSlot i) s₁ es ∧
        (connect :: arr.map Prod.fst).Pairwise (· ≤ ·) ∧
        ∃ a, between a (a + rateLimitWindow) (letThrough arr) = 2 * maxRateLimit) ∧
    ∀ (C : Crypto) (i : Slot) (s : Server) (e : Event), Enforced C i s e := by
  refine ⟨?_, ?_, arrivals_enforced⟩
  · intro C s i fd addr connect es hfree s₁ s₂ arr hkeep hsorted
    have hs₁ : s₁ = accepted s i fd addr connect := by
      simp only [s₁, step, handleNewConnection_success hfree]
    have hstart : SlotLimited i connect s₁ [] := hs₁ ▸ slotLimited_accepted s i fd addr connect
    obtain ⟨hlimited, -⟩ := run_slotLimited C hstart hkeep hsorted
    exact ⟨hlimited.count_le, hlimited.stretch, fun now hnow => withinLimit_of_ended hnow⟩
  · refine ⟨Sample.crypto, (step Sample.crypto (Server.init SecureUsers.empty) (.sweep 1000)).1,
      Sample.firstSlot, 5, Sample.addr, 1000, Sample.hurried, ?_, ?_, ?_, 1060, ?_⟩
    · decide +kernel
    · refine Runs.Along.of_forall_mem (fun e he s fd addr now heq => ?_) _
      subst heq
      simp [Sample.hurried] at he
    · decide +kernel
    · decide +kernel

end Mesh
