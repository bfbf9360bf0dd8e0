import MeshMessenger.Proofs.Invariants

/-! Which tokens open an account, over single calls and over runs. -/

namespace Mesh

open CLib

/-! ### What authenticates -/

/-- An unlocked row with this nick stores exactly this token. -/
def StoredToken (U : SecureUsers) (nick token : Bytes) : Prop :=
  ∃ row ∈ U.rows, row.isLocked = false ∧ caseEq row.nick nick = true ∧ row.token = token

/-- The token is a proper prefix of the one stored for the unlocked nick. -/
def ShortToken (U : SecureUsers) (nick token : Bytes) : Prop :=
  ∃ row ∈ U.rows, row.isLocked = false ∧ caseEq row.nick nick = true ∧
    token <+: row.token ∧ token ≠ row.token

instance (U : SecureUsers) (nick token : Bytes) : Decidable (StoredToken U nick token) :=
  inferInstanceAs (Decidable (∃ row ∈ U.rows,
    row.isLocked = false ∧ caseEq row.nick nick = true ∧ row.token = token))

instance (U : SecureUsers) (nick token : Bytes) : Decidable (ShortToken U nick token) :=
  inferInstanceAs (Decidable (∃ row ∈ U.rows, row.isLocked = false ∧
    caseEq row.nick nick = true ∧ token <+: row.token ∧ token ≠ row.token))

theorem authenticateUser_exact_iff {s : Server} {env : Env} {i : Slot} {nick token : Bytes}
    (hsel : env.selectOk = true) (ht : NulFree token) :
    ((authenticateUser s env i nick token).2 = true ↔ StoredToken s.users nick token) ↔
      ¬ ShortToken s.users nick token := by
  rw [authenticateUser_snd_iff hsel ht]
  refine ⟨?_, ?_⟩
  · rintro hexact ⟨row, hrow, hl, hn, hp, hne⟩
    obtain ⟨row', hrow', -, hn', heq⟩ := hexact.1 ⟨row, hrow, hl, hn, hp⟩
    -- nicks are unique, so the two rows are one
    obtain rfl := s.users.eq_of_caseEq hrow' hrow (caseEq_trans hn' (caseEq_symm hn))
    exact hne heq.symm
  · intro hshort
    refine ⟨?_, ?_⟩
    · rintro ⟨row, hrow, hl, hn, hp⟩
      refine ⟨row, hrow, hl, hn, ?_⟩
      by_contra hne
      exact hshort ⟨row, hrow, hl, hn, hp, fun h => hne h.symm⟩
    · rintro ⟨row, hrow, hl, hn, rfl⟩
      exact ⟨row, hrow, hl, hn, List.prefix_refl _⟩

/-! ### Becoming authorised -/

/-- The nick and the token that `process_login` reads in the line an event delivers. -/
def Event.presented : Event → Option (Bytes × Bytes)
  | .iterate _ _ (.bytes buffer _ _) => (commandOf buffer).bind parseLogin
  | _ => none

theorem processClientCommand_authorizes {C : Crypto} {s : Server} {env : Env} {i j : Slot}
    {ip command : Bytes} (hbefore : (s.clients j).authorized = false)
    (hafter : ((processClientCommand C s env i ip command).1.clients j).authorized = true) :
    ∃ nick token row, parseLogin command = some (nick, token) ∧
      s.users.findUnlocked nick = some row ∧
      constantTimeCompare (stored row.token) (stored token) token.length = true ∧
      ((processClientCommand C s env i ip command).1.clients j).account = some row.id := by
  unfold processClientCommand at hafter ⊢
  cases hauth : (s.clients i).authorized with
  | true => simp [hauth, hbefore] at hafter
  | false =>
    simp only [hauth, Bool.not_false, if_true, handleUnauthorizedCommands] at hafter ⊢
    split_ifs at hafter ⊢ with hreg hlogin hhelp
    · rcases processRegistration_cases s env i ip command with h | ⟨n, t, U, -, -, -, -, h⟩
      · rw [h.1, hbefore] at hafter
        exact absurd hafter (by simp)
      · rw [h] at hafter
        exact absurd (hbefore.symm.trans hafter) (by simp)
    · rcases processLogin_cases s env i ip command with
        ⟨-, h⟩ | ⟨n, t, -, -, h⟩ | ⟨n, t, row, hp, -, -, hfind, hcmp, h⟩
      · rw [h, hbefore] at hafter
        exact absurd hafter (by simp)
      · rw [h, hbefore] at hafter
        exact absurd hafter (by simp)
      · refine ⟨n, t, row, hp, hfind, hcmp, ?_⟩
        rw [h, loggedIn_clients] at hafter ⊢
        by_cases hj : j = i
        · subst hj
          simp [SecureClient.login, SecureClient.load]
        · rw [Function.update_of_ne hj, hbefore] at hafter
          exact absurd hafter (by simp)
    · rw [hbefore] at hafter
      exact absurd hafter (by simp)
    · rw [hbefore] at hafter
      exact absurd hafter (by simp)

theorem handlerPrologue_authorized (C : Crypto) (s : Server) (h : Handler) (env : StartEnv)
    (j : Slot) :
    ((handlerPrologue C s h env).1.clients j).authorized = (s.clients j).authorized :=
  ((handlerPrologue_handlers C s h env).2.2 j).1

theorem accepted_authorized {s : Server} {i j : Slot} {fd : ℕ} {addr : SockAddr} {now : ℤ}
    (h : ((accepted s i fd addr now).clients j).authorized = true) :
    (s.clients j).authorized = true := by
  by_cases hj : j = i
  · subst hj
    simp [accepted, newClient, SecureClient.zero] at h
  · change ((s.setClient i _).clients j).authorized = true at h
    rwa [setClient_ne _ _ _ hj] at h

/-- No event other than a loop iteration authorises a slot. -/
theorem step_authorized_of_not_iterate {C : Crypto} {s : Server} {e : Event} {j : Slot}
    (he : ∀ conn env read, e ≠ .iterate conn env read)
    (h : ((step C s e).1.clients j).authorized = true) : (s.clients j).authorized = true := by
  cases e with
  | connect fd addr now handshake =>
    unfold step handleNewConnection at h
    cases hfree : freeSlot s with
    | none => simpa [hfree] using h
    | some i =>
      rw [hfree] at h
      cases handshake with
      | success => exact accepted_authorized h
      | wantRead => exact h
      | wantWrite => exact h
      | failed => exact h
  | start conn env =>
    simp only [step] at h
    cases hh : s.handler? conn .starting with
    | none => simpa [hh] using h
    | some hd =>
      rw [hh] at h
      rwa [← handlerPrologue_authorized C s hd env j]
  | iterate conn env read => exact absurd rfl (he conn env read)
  | exit conn env =>
    simp only [step] at h
    cases hh : s.handler? conn .exiting with
    | none => simpa [hh] using h
    | some hd =>
      rw [hh] at h
      change ((s.setClient hd.slot _).clients j).authorized = true at h
      by_cases hj : j = hd.slot
      · subst hj
        simp [SecureClient.cleaned] at h
      · rwa [setClient_ne _ _ _ hj] at h
  | sweep now =>
    simp only [step, checkClientTimeouts] at h
    split at h <;> exact h

/-- A slot becomes authorised only in an iteration that presents a nick and a
prefix of the token its account stores. -/
theorem step_authorizes {C : Crypto} {s : Server} {e : Event} {j : Slot}
    (hbefore : (s.clients j).authorized = false)
    (hafter : ((step C s e).1.clients j).authorized = true) :
    ∃ nick token row, e.presented = some (nick, token) ∧ row ∈ s.users.rows ∧ row.isLocked = false ∧
      caseEq row.nick nick = true ∧ token <+: row.token ∧
      ((step C s e).1.clients j).account = some row.id := by
  by_cases he : ∃ conn env read, e = .iterate conn env read
  · obtain ⟨conn, env, read, rfl⟩ := he
    simp only [step] at hafter ⊢
    cases hh : s.handler? conn .looping with
    | none => simp [hh, hbefore] at hafter
    | some h =>
      simp only [hh] at hafter ⊢
      have hactive := noteActivity_refreshes s h.slot env.now j
      rcases handlerIteration_cases C s h env read with
        heq | heq | ⟨-, heq⟩ | heq | ⟨buffer, hne, hlt, command, rfl, -, -, hcommand, heq⟩
      · rw [heq] at hafter
        exact absurd (hbefore.symm.trans hafter) (by simp)
      · rw [heq] at hafter
        exact absurd (hbefore.symm.trans hafter) (by simp)
      · rw [heq, hactive.authorized, hbefore] at hafter
        exact absurd hafter (by simp)
      · rw [heq, hactive.authorized, hbefore] at hafter
        exact absurd hafter (by simp)
      · rw [heq] at hafter ⊢
        obtain ⟨nick, token, row, hparse, hfind, hcmp, haccount⟩ :=
          processClientCommand_authorizes (hactive.authorized.trans hbefore) hafter
        obtain ⟨hrow, hn, hl⟩ := s.users.findUnlocked_eq_some.1 hfind
        have hnul : NulFree token :=
          (commandOf_nulFree hcommand).of_sublist (parseLogin_eq_some hparse).2.2
        exact ⟨nick, token, row, by simp [Event.presented, hcommand, hparse], hrow, hl, hn,
          (constantTimeCompare_isPrefix (stored_holds _) (stored_holds _) hnul).1 hcmp, haccount⟩
  · push Not at he
    rw [step_authorized_of_not_iterate he hafter] at hbefore
    exact absurd hbefore (by simp)

/-! ### Exactness -/

/-- The step presents no proper prefix of a stored token. -/
def PresentsWhole (s : Server) (e : Event) : Prop :=
  ∀ p ∈ e.presented, ¬ ShortToken s.users p.1 p.2

/-- Whatever slot the step authorises for an account, it presents that account's
complete token. -/
def AuthorisesWhole (C : Crypto) (s : Server) (e : Event) : Prop :=
  ∀ j, (s.clients j).authorized = false → ((step C s e).1.clients j).authorized = true →
    ∃ nick, ∃ row ∈ s.users.rows, row.isLocked = false ∧ caseEq row.nick nick = true ∧
      ((step C s e).1.clients j).account = some row.id ∧ e.presented = some (nick, row.token)

theorem authorisesWhole_of_presentsWhole (C : Crypto) {s : Server} {e : Event}
    (h : PresentsWhole s e) : AuthorisesWhole C s e := by
  intro j hbefore hafter
  obtain ⟨nick, token, row, hp, hrow, hl, hn, hpre, haccount⟩ := step_authorizes hbefore hafter
  have hwhole : token = row.token := by
    by_contra hne
    exact h _ hp ⟨row, hrow, hl, hn, hpre, hne⟩
  exact ⟨nick, row, hrow, hl, hn, haccount, hwhole ▸ hp⟩

/-- For every table, nick and token read from a line, the answer is exact if and
only if the token is not a proper prefix of the stored one; and in every run whose
logins present no proper prefix, slots are authorised by complete tokens only. -/
theorem authentication_exact (C : Crypto) :
    (∀ (s : Server) (env : Env) (i : Slot) (buffer command nick token : Bytes),
      env.selectOk = true → commandOf buffer = some command →
      parseLogin command = some (nick, token) →
      (((authenticateUser s env i nick token).2 = true ↔ StoredToken s.users nick token) ↔
        ¬ ShortToken s.users nick token)) ∧
    (∀ (users : SecureUsers) (es : List Event),
      Runs.Along (step C) PresentsWhole (Server.init users) es →
      Runs.Along (step C) (AuthorisesWhole C) (Server.init users) es) := by
  refine ⟨?_, ?_⟩
  · intro s env i buffer command nick token hsel hcommand hparse
    exact authenticateUser_exact_iff hsel
      ((commandOf_nulFree hcommand).of_sublist (parseLogin_eq_some hparse).2.2)
  · intro users es h
    exact h.mono fun s e => authorisesWhole_of_presentsWhole C

namespace Sample

/-- A table with one account, whose token is six bytes long. -/
def annTable : SecureUsers :=
  SecureUsers.empty.add (ascii "ann") (ascii "s3cret") (ascii "127.0.0.1") 7 zeroKey 1
    (by simp [SecureUsers.Admits, SecureUsers.empty])

def annLogin : List Event := connected ++ [.iterate 0 (env 1001 0) (line "/login Ann s3cret")]

end Sample

theorem authentication_exact_ann :
    ((authenticateUser (Server.init Sample.annTable) (Sample.env 0 0) Sample.firstSlot
        (ascii "Ann") (ascii "s3cret")).2 = true ↔
      StoredToken Sample.annTable (ascii "Ann") (ascii "s3cret")) ∧
    Runs.Along (step Sample.crypto) (AuthorisesWhole Sample.crypto) (Server.init Sample.annTable)
      Sample.annLogin ∧
    ((run Sample.crypto (Server.init Sample.annTable) Sample.annLogin).1.clients
      Sample.firstSlot).authorized = true := by
  refine ⟨((authentication_exact Sample.crypto).1 _ _ _ (ascii "/login Ann s3cret\n")
    (ascii "/login Ann s3cret") _ _ rfl (by decide) (by decide)).2 (by decide),
    (authentication_exact Sample.crypto).2 _ _ ?_, by decide +kernel⟩
  unfold PresentsWhole
  decide +kernel

/-- One digit of the stored token is enough. -/
theorem one_digit_authenticates :
    let s := (run Sample.crypto (Server.init SecureUsers.empty) Sample.registered).1
    let e := Event.iterate 0 (Sample.env 1002 0) (Sample.line "/login bob 1")
    e.presented = some (ascii "bob", ascii "1") ∧
    (authenticateUser s (Sample.env 1002 0) Sample.firstSlot (ascii "bob") (ascii "1")).2 = true ∧
    ¬ StoredToken s.users (ascii "bob") (ascii "1") ∧
    ((step Sample.crypto s e).1.clients Sample.firstSlot).authorized = true := by
  decide +kernel

end Mesh
