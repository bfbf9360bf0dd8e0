import MeshMessenger.Proofs.Moves

/-! Invariants of every reachable state: accounts persist, registered nicks are
valid, an authorised session carries its account's nick, and no two slots share
a connection. -/

namespace Mesh

open CLib

/-! ### Accounts persist -/

/-- Every account of `U` is still in `U'`, with its nick, token and lock. -/
def Keeps (U U' : SecureUsers) : Prop :=
  ∀ r ∈ U.rows, ∃ r' ∈ U'.rows,
    r'.id = r.id ∧ r'.nick = r.nick ∧ r'.token = r.token ∧ r'.isLocked = r.isLocked

theorem Keeps.refl (U : SecureUsers) : Keeps U U := fun r hr => ⟨r, hr, rfl, rfl, rfl, rfl⟩

theorem Keeps.trans {U V W : SecureUsers} (h : Keeps U V) (h' : Keeps V W) : Keeps U W := by
  intro r hr
  obtain ⟨r', hr', hid, hn, ht, hl⟩ := h r hr
  obtain ⟨r'', hr'', hid', hn', ht', hl'⟩ := h' r' hr'
  exact ⟨r'', hr'', hid'.trans hid, hn'.trans hn, ht'.trans ht, hl'.trans hl⟩

theorem keeps_insert {U U' : SecureUsers} {nick token ip key : Bytes} {regId : ℕ} {level : ℤ}
    (h : U.insert nick token ip regId key level = some U') : Keeps U U' := by
  intro r hr
  rw [(U.insert_eq_some h).2]
  exact ⟨r, List.mem_append_left _ hr, rfl, rfl, rfl, rfl⟩

theorem keeps_updateLastLogin (U : SecureUsers) (nick : Bytes) (now : ℤ) :
    Keeps U (U.updateLastLogin nick now) := by
  intro r hr
  exact ⟨SecureUsers.touch nick now r, List.mem_map_of_mem hr, by simp⟩

theorem keeps_loggedIn (s : Server) (env : Env) (i : Slot) (row : UserRow) (nick token : Bytes) :
    Keeps s.users (loggedIn s env i row nick token).users := by
  rw [loggedIn_users]
  split
  · exact keeps_updateLastLogin _ _ _
  · exact Keeps.refl _

theorem Move.keeps {s s' : Server} (h : Move s s') : Keeps s.users s'.users := by
  cases h with
  | phase conn ip phase => exact Keeps.refl _
  | refresh i hc => exact Keeps.refl _
  | register hvalid hword hinsert => exact keeps_insert hinsert
  | login env hauth hword hfind => exact keeps_loggedIn _ _ _ _ _ _
  | exit hh => exact Keeps.refl _
  | sweep now => exact Keeps.refl _

theorem step_keeps (C : Crypto) (s : Server) (e : Event) : Keeps s.users (step C s e).1.users :=
  step_preserve (I := fun t => Keeps s.users t.users) C (fun _ _ _ _ _ h _ => h)
    (fun _ _ h hm => h.trans hm.keeps) (Keeps.refl _) e

theorem run_keeps (C : Crypto) (s : Server) (es : List Event) :
    Keeps s.users (run C s es).1.users :=
  Runs.run_invariant (I := fun t => Keeps s.users t.users)
    (fun t e h => h.trans (step_keeps C t e)) (Keeps.refl _) es

/-! ### Registered nicks -/

/-- Every row could have been written by `process_registration`. -/
def Registered (U : SecureUsers) : Prop :=
  ∀ r ∈ U.rows, validateNickname r.nick = true ∧ IsWord 31 r.nick

theorem registered_empty : Registered SecureUsers.empty := by
  intro r hr
  exact absurd hr (by simp [SecureUsers.empty])

theorem registered_updateLastLogin {U : SecureUsers} (h : Registered U) (nick : Bytes) (now : ℤ) :
    Registered (U.updateLastLogin nick now) := by
  intro r hr
  obtain ⟨r₀, hr₀, rfl⟩ := List.mem_map.1 hr
  simpa using h r₀ hr₀

theorem registered_insert {U U' : SecureUsers} (h : Registered U) {nick token ip key : Bytes}
    {regId : ℕ} {level : ℤ} (hvalid : validateNickname nick = true) (hword : IsWord 31 nick)
    (hinsert : U.insert nick token ip regId key level = some U') : Registered U' := by
  intro r hr
  rw [(U.insert_eq_some hinsert).2] at hr
  rcases List.mem_append.1 hr with hr | hr
  · exact h r hr
  · rw [List.mem_singleton.1 hr]
    exact ⟨hvalid, hword⟩

theorem Move.registered {s s' : Server} (h : Registered s.users) (hm : Move s s') :
    Registered s'.users := by
  cases hm with
  | phase conn ip phase => exact h
  | refresh i hc => exact h
  | register hvalid hword hinsert => exact registered_insert h hvalid hword hinsert
  | login env hauth hword hfind =>
    rw [loggedIn_users]
    split
    · exact registered_updateLastLogin h _ _
    · exact h
  | exit hh => exact h
  | sweep now => exact h

theorem Reachable.registered {C : Crypto} {users : SecureUsers} {s : Server}
    (h : Reachable C users s) (husers : Registered users) : Registered s.users :=
  h.of_moves (I := fun s => Registered s.users) husers (fun _ _ _ _ _ h _ => h)
    fun _ _ h hm => hm.registered h

/-! ### One slot under a move -/

/-- `c'` is the same session as `c`, on the same connection, perhaps closed. -/
structure SameSession (c c' : SecureClient) : Prop where
  ssl : c'.ssl = c.ssl
  nick : c'.nick = c.nick
  authorized : c'.authorized = c.authorized
  account : c'.account = c.account

theorem SameSession.refl (c : SecureClient) : SameSession c c := ⟨rfl, rfl, rfl, rfl⟩

/-- A move leaves a slot's session alone, wipes it, or logs it in. -/
theorem Move.slot_cases {s s' : Server} (h : Move s s') (j : Slot) :
    SameSession (s.clients j) (s'.clients j) ∨
    s'.clients j = (s.clients j).cleaned ∨
    ∃ row nick token, IsWord 31 nick ∧ s.users.findUnlocked nick = some row ∧
      s'.clients j = ((s.clients j).load row).login nick token := by
  cases h with
  | phase conn ip phase => exact .inl (.refl _)
  | @refresh i c hc =>
    by_cases hj : j = i
    · subst hj
      rw [setClient_self]
      exact .inl ⟨hc.ssl, hc.nick, hc.authorized, hc.account⟩
    · rw [setClient_ne _ _ _ hj]
      exact .inl (.refl _)
  | register hvalid hword hinsert => exact .inl (.refl _)
  | @login i nick token row env hauth hword hfind =>
    rw [loggedIn_clients]
    by_cases hj : j = i
    · subst hj
      exact .inr (.inr ⟨row, nick, token, hword, hfind, by simp⟩)
    · rw [Function.update_of_ne hj]
      exact .inl (.refl _)
  | @exit h hh =>
    by_cases hj : j = h.slot
    · subst hj
      exact .inr (.inl (setClient_self _ _ _))
    · refine .inl ?_
      change SameSession _ ((s.setClient h.slot _).clients j)
      rw [setClient_ne _ _ _ hj]
      exact .refl _
  | sweep now =>
    refine .inl ?_
    simp only [checkClientTimeouts]
    split
    · exact ⟨rfl, rfl, rfl, rfl⟩
    · exact .refl _

/-! ### Authorised sessions -/

/-- The 31 bytes `strncpy` copies hold every scanned nick. -/
theorem login_nick (c : SecureClient) {nick : Bytes} (h : IsWord 31 nick) (token : Bytes) :
    (c.login nick token).nick = nick := strncpy_of_le h.length_le

/-- Every authorised session was authorised by an account whose nick it carries. -/
structure SessionsInv (s : Server) : Prop where
  word : ∀ i, (s.clients i).authorized = true → IsWord 31 (s.clients i).nick
  account : ∀ i, (s.clients i).authorized = true → ∃ r ∈ s.users.rows,
    (s.clients i).account = some r.id ∧ caseEq r.nick (s.clients i).nick = true

theorem sessionsInv_init (users : SecureUsers) : SessionsInv (Server.init users) := by
  refine ⟨?_, ?_⟩ <;> intro i h <;> simp [Server.init, SecureClient.zero] at h

theorem sessionsInv_accepted {s : Server} (h : SessionsInv s) (i : Slot) (fd : ℕ) (addr : SockAddr)
    (now : ℤ) : SessionsInv (accepted s i fd addr now) := by
  have hslot (j : Slot) : (accepted s i fd addr now).clients j = s.clients j ∨
      ((accepted s i fd addr now).clients j).authorized = false := by
    by_cases hj : j = i
    · subst hj
      right
      simp [accepted, newClient, SecureClient.zero]
    · exact .inl (setClient_ne _ _ _ hj)
  refine ⟨?_, ?_⟩
  · intro j hj
    rcases hslot j with heq | hun
    · rw [heq] at hj ⊢
      exact h.word j hj
    · rw [hun] at hj
      exact absurd hj (by simp)
  · intro j hj
    rcases hslot j with heq | hun
    · rw [heq] at hj ⊢
      exact h.account j hj
    · rw [hun] at hj
      exact absurd hj (by simp)

theorem Move.sessionsInv {s s' : Server} (h : SessionsInv s) (hm : Move s s') : SessionsInv s' := by
  refine ⟨?_, ?_⟩
  · intro j hj
    rcases hm.slot_cases j with hsame | hclean | ⟨row, nick, token, hword, -, hlogin⟩
    · rw [hsame.nick]
      exact h.word j (hsame.authorized ▸ hj)
    · rw [hclean] at hj
      simp [SecureClient.cleaned] at hj
    · rw [hlogin, login_nick _ hword]
      exact hword
  · intro j hj
    rcases hm.slot_cases j with hsame | hclean | ⟨row, nick, token, hword, hfind, hlogin⟩
    · obtain ⟨r, hr, hacc, hnick⟩ := h.account j (hsame.authorized ▸ hj)
      obtain ⟨r', hr', hid, hn, -, -⟩ := hm.keeps r hr
      exact ⟨r', hr', by rw [hsame.account, hacc, hid], by rw [hsame.nick, hn]; exact hnick⟩
    · rw [hclean] at hj
      simp [SecureClient.cleaned] at hj
    · obtain ⟨hrow, hn, -⟩ := s.users.findUnlocked_eq_some.1 hfind
      obtain ⟨r', hr', hid, hn', -, -⟩ := hm.keeps row hrow
      refine ⟨r', hr', by rw [hlogin, hid]; rfl, ?_⟩
      rw [hlogin, hn', login_nick _ hword]
      exact hn

theorem Reachable.sessionsInv {C : Crypto} {users : SecureUsers} {s : Server}
    (h : Reachable C users s) : SessionsInv s :=
  h.of_moves (sessionsInv_init users)
    (fun _ i fd addr now h _ => sessionsInv_accepted h i fd addr now)
    fun _ _ h hm => hm.sessionsInv h

/-! ### Connections -/

/-- Connections are numbered below the counter and sit in one slot each. -/
structure ConnInv (s : Server) : Prop where
  ssl_lt : ∀ i c, (s.clients i).ssl = some c → c < s.totalConnections
  ssl_inj : ∀ i j c, (s.clients i).ssl = some c → (s.clients j).ssl = some c → i = j

theorem Move.ssl {s s' : Server} (h : Move s s') (j : Slot) :
    (s'.clients j).ssl = (s.clients j).ssl ∨ (s'.clients j).ssl = none := by
  rcases h.slot_cases j with hsame | hclean | ⟨row, nick, token, -, -, hlogin⟩
  · exact .inl hsame.ssl
  · rw [hclean]; exact .inr rfl
  · rw [hlogin]; exact .inl rfl

theorem Moves.ssl {s s' : Server} (h : Moves s s') (j : Slot) :
    (s'.clients j).ssl = (s.clients j).ssl ∨ (s'.clients j).ssl = none := by
  refine Moves.preserve (I := fun t => (t.clients j).ssl = (s.clients j).ssl ∨
    (t.clients j).ssl = none) (fun t t' ht hm => ?_) h (.inl rfl)
  rcases hm.ssl j with hsame | hnone
  · rwa [hsame]
  · exact .inr hnone

theorem Move.totalConnections {s s' : Server} (h : Move s s') :
    s'.totalConnections = s.totalConnections := by
  cases h <;> first | rfl | exact loggedIn_totalConnections _ _ _ _ _ _

theorem Move.connInv {s s' : Server} (h : ConnInv s) (hm : Move s s') : ConnInv s' := by
  have hback (j : Slot) (c : Conn) (hc : (s'.clients j).ssl = some c) :
      (s.clients j).ssl = some c := by
    rcases hm.ssl j with h | h
    · rw [← h, hc]
    · rw [h] at hc; exact absurd hc (by simp)
  refine ⟨fun i c hc => ?_, fun i j c hi hj => h.ssl_inj i j c (hback i c hi) (hback j c hj)⟩
  rw [hm.totalConnections]
  exact h.ssl_lt i c (hback i c hc)

theorem connInv_accepted {s : Server} (h : ConnInv s) (i : Slot) (fd : ℕ) (addr : SockAddr)
    (now : ℤ) : ConnInv (accepted s i fd addr now) := by
  have hnew : ((accepted s i fd addr now).clients i).ssl = some s.totalConnections := by
    simp [accepted, newClient]
  have hold (j : Slot) (hj : j ≠ i) :
      ((accepted s i fd addr now).clients j).ssl = (s.clients j).ssl := by
    change ((s.setClient i _).clients j).ssl = _
    rw [setClient_ne _ _ _ hj]
  refine ⟨?_, ?_⟩
  · intro j c hc
    change c < s.totalConnections + 1
    by_cases hj : j = i
    · rw [hj, hnew] at hc
      obtain rfl := Option.some.inj hc
      exact Nat.lt_succ_self _
    · rw [hold j hj] at hc
      exact Nat.lt_succ_of_lt (h.ssl_lt j c hc)
  · intro j k c hj hk
    -- the new connection's number is above every number in use
    have fresh (l : Slot) (hl : l ≠ i) (hc : (s.clients l).ssl = some s.totalConnections) : False :=
      absurd (h.ssl_lt l _ hc) (lt_irrefl _)
    by_cases hji : j = i <;> by_cases hki : k = i
    · rw [hji, hki]
    · rw [hji, hnew] at hj
      rw [hold k hki, ← hj] at hk
      exact (fresh k hki hk).elim
    · rw [hki, hnew] at hk
      rw [hold j hji, ← hk] at hj
      exact (fresh j hji hj).elim
    · rw [hold j hji] at hj
      rw [hold k hki] at hk
      exact h.ssl_inj j k c hj hk

theorem connInv_init (users : SecureUsers) : ConnInv (Server.init users) := by
  refine ⟨?_, ?_⟩
  · intro i c h; simp [Server.init, SecureClient.zero] at h
  · intro i j c h; simp [Server.init, SecureClient.zero] at h

theorem Reachable.connInv {C : Crypto} {users : SecureUsers} {s : Server}
    (h : Reachable C users s) : ConnInv s :=
  h.of_moves (connInv_init users) (fun _ i fd addr now h _ => connInv_accepted h i fd addr now)
    fun _ _ h hm => hm.connInv h

theorem connInv_step (C : Crypto) (s : Server) (e : Event) (hs : ConnInv s) :
    ConnInv (step C s e).1 :=
  step_preserve C (fun _ i fd addr now hs _ => connInv_accepted hs i fd addr now)
    (fun _ _ hs hm => hm.connInv hs) hs e

end Mesh
