import MeshMessenger.Proofs.Slots
import MeshMessenger.Proofs.Peers

/-! The identifiers of a session. Both are made of the clock in seconds and the
process id, so two handlers get different ones exactly when they read different
seconds. -/

namespace Mesh

open CLib

/-! ### What the clock determines -/

/-- The values of `time_t` and of a process id. -/
structure StartEnv.InRange (env : StartEnv) : Prop where
  now : env.now.natAbs ≤ 2 ^ 63
  pid : env.pid < 2 ^ 31

theorem peerIdOf_eq {now : ℤ} {pid : ℕ} (hnow : now.natAbs ≤ 2 ^ 63) (hpid : pid < 2 ^ 31) :
    peerIdOf now pid = ascii "secure_peer_" ++ intDec now ++ ascii "_" ++ natDec pid := by
  apply snprintf_of_lt
  have hhead : (ascii "secure_peer_").length = 12 ∧ (ascii "_").length = 1 := by decide
  have hdec := intDec_length_le (by decide : 0 < 19) (lt_of_le_of_lt hnow (by decide))
  have hpid' := natDec_length_le (by decide : 0 < 10) (lt_trans hpid (by decide))
  simp only [List.length_append]
  omega

/-- The 64 bytes of the field hold the whole id, so equal ids mean equal seconds. -/
theorem peerIdOf_inj {a b : ℤ} {pid : ℕ} (ha : a.natAbs ≤ 2 ^ 63) (hb : b.natAbs ≤ 2 ^ 63)
    (hpid : pid < 2 ^ 31) : peerIdOf a pid = peerIdOf b pid ↔ a = b := by
  refine ⟨fun h => ?_, fun h => by rw [h]⟩
  rw [peerIdOf_eq ha hpid, peerIdOf_eq hb hpid] at h
  have hleft := List.append_cancel_right (List.append_cancel_right h)
  exact intDec_injective (List.append_cancel_left hleft)

/-- The shift drops the upper half of the clock. -/
theorem sessionIdOf_inj {a b : ℤ} {pid : ℕ} :
    sessionIdOf a pid = sessionIdOf b pid ↔ a % 2 ^ 32 = b % 2 ^ 32 := by
  unfold sessionIdOf
  omega

/-- Neither identifier is the same. -/
def DistinctIds (x y : Bytes × ℕ) : Prop := x.1 ≠ y.1 ∧ x.2 ≠ y.2

theorem DistinctIds.symm {x y : Bytes × ℕ} (h : DistinctIds x y) : DistinctIds y x :=
  ⟨h.1.symm, h.2.symm⟩

/-- The clock reads for the peer ids differ, and those for the session ids differ modulo `2 ^ 32`. -/
def DistinctClocks (a b : StartEnv) : Prop :=
  a.now ≠ b.now ∧ a.sessionNow % 2 ^ 32 ≠ b.sessionNow % 2 ^ 32

theorem distinctIds_iff {a b : StartEnv} (ha : a.InRange) (hb : b.InRange) (hpid : a.pid = b.pid) :
    DistinctIds a.ids b.ids ↔ DistinctClocks a b := by
  simp only [DistinctIds, DistinctClocks, StartEnv.ids, hpid]
  rw [Ne, Ne, peerIdOf_inj ha.now hb.now hb.pid, sessionIdOf_inj]

/-! ### The prologues of a run -/

/-- The prologue that a step runs as far as the identifiers. -/
def prologueOf (C : Crypto) (s : Server) : Event → List (Conn × StartEnv)
  | .start conn env =>
    match s.handler? conn .starting with
    | none => []
    | some h => if (initClientSignalProtocol C (s.clients h.slot) env).2 then [(conn, env)] else []
  | _ => []

/-- The machine with its prologues as outputs. -/
def prologueStep (C : Crypto) (s : Server) (e : Event) : Server × List (Conn × StartEnv) :=
  ((step C s e).1, prologueOf C s e)

/-- The prologues of a run that computed identifiers, in order. -/
def prologues (C : Crypto) (s : Server) (es : List Event) : List (Conn × StartEnv) :=
  (Runs.run (prologueStep C) s es).2

/-! ### Where a session's identifiers come from -/

/-- Every prologue belongs to a connection of its own, and the identifiers of a
looping handler's slot and of an authorised session are those of its prologue. -/
structure IdsLogged (s : Server) (log : List (Conn × StartEnv)) : Prop where
  counted : ∀ x ∈ log, x.1 < s.totalConnections
  started : ∀ x ∈ log, ∀ h ∈ s.handlers, h.conn = x.1 → h.phase ≠ .starting
  nodup : (log.map Prod.fst).Nodup
  looping : ∀ h ∈ s.handlers, h.phase = .looping →
    ∃ env, (h.conn, env) ∈ log ∧ (s.clients h.slot).ids = env.ids
  authorized : ∀ i, (s.clients i).authorized = true →
    ∃ conn env, (conn, env) ∈ log ∧ (s.clients i).ssl = some conn ∧ (s.clients i).ids = env.ids

/-- A handler of `s'` is one of `s`, no nearer to its prologue's end. -/
def Succeeds (h h' : Handler) : Prop :=
  h.conn = h'.conn ∧ h.slot = h'.slot ∧ (h'.phase = .looping → h.phase = .looping) ∧
    (h'.phase = .starting → h.phase = .starting)

/-- A step without a prologue: handlers go on or exit, identifiers stay, and a
session is authorised as before or by its looping handler. -/
theorem IdsLogged.of_quiet {s s' : Server} {log : List (Conn × StartEnv)} (hlog : IdsLogged s log)
    (hex : Exclusive s) (hids : ∀ i, (s'.clients i).ids = (s.clients i).ids)
    (htotal : s'.totalConnections = s.totalConnections)
    (hhandlers : ∀ h' ∈ s'.handlers, ∃ h ∈ s.handlers, Succeeds h h')
    (hauth : ∀ i, (s'.clients i).authorized = true → (s'.clients i).ssl = (s.clients i).ssl ∧
      ((s.clients i).authorized = true ∨ ∃ h ∈ s.handlers, h.phase = .looping ∧ h.slot = i)) :
    IdsLogged s' log := by
  refine ⟨?_, ?_, hlog.nodup, ?_, ?_⟩
  · rw [htotal]
    exact hlog.counted
  · intro x hx h' hh' hconn hphase
    obtain ⟨h, hh, hc, -, -, hstart⟩ := hhandlers h' hh'
    exact hlog.started x hx h hh (hc.trans hconn) (hstart hphase)
  · intro h' hh' hphase
    obtain ⟨h, hh, hc, hslot, hloop, -⟩ := hhandlers h' hh'
    obtain ⟨env, hmem, henv⟩ := hlog.looping h hh (hloop hphase)
    refine ⟨env, hc ▸ hmem, ?_⟩
    rw [hids, ← hslot]
    exact henv
  · intro i hi
    obtain ⟨hssl, hold | ⟨h, hh, hphase, rfl⟩⟩ := hauth i hi
    · obtain ⟨conn, env, hmem, hconn, henv⟩ := hlog.authorized i hold
      exact ⟨conn, env, hmem, hssl.trans hconn, (hids i).trans henv⟩
    · obtain ⟨env, hmem, henv⟩ := hlog.looping h hh hphase
      exact ⟨h.conn, env, hmem, hssl.trans (hex.own_conn h hh), (hids _).trans henv⟩

theorem IdsLogged.accepted {s : Server} {log : List (Conn × StartEnv)} (hlog : IdsLogged s log)
    {i : Slot} (hidle : ∀ h ∈ s.handlers, h.slot ≠ i) (fd : ℕ) (addr : SockAddr) (now : ℤ) :
    IdsLogged (accepted s i fd addr now) log := by
  have hne (j : Slot) (hj : j ≠ i) : (Mesh.accepted s i fd addr now).clients j = s.clients j :=
    setClient_ne _ _ _ hj
  refine ⟨fun x hx => Nat.lt_succ_of_lt (hlog.counted x hx), ?_, hlog.nodup, ?_, ?_⟩
  · intro x hx h hh hconn
    rcases List.mem_append.1 hh with hh | hh
    · exact hlog.started x hx h hh hconn
    · have hlt := hlog.counted x hx
      rw [List.mem_singleton.1 hh] at hconn
      rw [← hconn] at hlt
      exact absurd hlt (lt_irrefl _)
  · intro h hh hphase
    rcases List.mem_append.1 hh with hh | hh
    · rw [hne _ (hidle h hh)]
      exact hlog.looping h hh hphase
    · rw [List.mem_singleton.1 hh] at hphase
      exact absurd hphase (by simp)
  · intro j hj
    have hji : j ≠ i := by
      rintro rfl
      simp [Mesh.accepted, newClient, SecureClient.zero] at hj
    rw [hne j hji] at hj ⊢
    exact hlog.authorized j hj

theorem setHandler_succeeds {s : Server} {conn : Conn} {ip : Bytes} {h' : Handler}
    (hh' : h' ∈ (s.setHandler conn ip .exiting).handlers) : ∃ h ∈ s.handlers, Succeeds h h' := by
  obtain ⟨h, hh, rfl⟩ := List.mem_map.1 hh'
  refine ⟨h, hh, ?_⟩
  split_ifs
  · exact ⟨rfl, rfl, fun hp => absurd hp (by simp), fun hp => absurd hp (by simp)⟩
  · exact ⟨rfl, rfl, id, id⟩

/-- A prologue that computes identifiers logs them for its own connection. -/
theorem IdsLogged.prologue (C : Crypto) {s : Server} {log : List (Conn × StartEnv)}
    (hlog : IdsLogged s log) (hex : Exclusive s) (hcount : HandlersCounted s) (hinj : ConnInv s)
    {h : Handler} (hh : h ∈ s.handlers) (hphase : h.phase = .starting) {env : StartEnv}
    (hok : (initClientSignalProtocol C (s.clients h.slot) env).2 = true) :
    IdsLogged (handlerPrologue C s h env).1 (log ++ [(h.conn, env)]) := by
  obtain ⟨⟨ip, phase, hne, -, hhandlers⟩, htotal, hsession⟩ := handlerPrologue_handlers C s h env
  obtain ⟨-, -, hother, hids⟩ := handlerPrologue_peers C s h env
  rw [if_pos hok] at hids
  refine ⟨?_, ?_, ?_, ?_, ?_⟩
  · intro x hx
    rw [htotal]
    rcases List.mem_append.1 hx with hx | hx
    · exact hlog.counted x hx
    · rw [List.mem_singleton.1 hx]
      exact hcount h hh
  · intro x hx g' hg' hconn hstart
    rw [hhandlers] at hg'
    obtain ⟨g, hg, rfl⟩ := List.mem_map.1 hg'
    split_ifs at hconn hstart with hgh
    · exact hne hstart
    · rcases List.mem_append.1 hx with hx | hx
      · exact hlog.started x hx g hg hconn hstart
      · rw [List.mem_singleton.1 hx] at hconn
        exact hgh hconn
  · rw [List.map_append]
    refine hlog.nodup.append (List.nodup_singleton _) ?_
    simp only [List.map_cons, List.map_nil, List.disjoint_singleton]
    intro hmem
    obtain ⟨x, hx, hconn⟩ := List.mem_map.1 hmem
    exact hlog.started x hx h hh hconn.symm hphase
  · intro g' hg' hloop
    rw [hhandlers] at hg'
    obtain ⟨g, hg, rfl⟩ := List.mem_map.1 hg'
    by_cases hgh : g = h
    · subst hgh
      simp only [if_true]
      exact ⟨env, List.mem_append_right _ (List.mem_singleton_self _), hids⟩
    · -- a handler of another slot, and so of another connection
      have hslot : g.slot ≠ h.slot := fun heq => hgh (hex.slot_inj g hg h hh heq)
      have hconn : g.conn ≠ h.conn := fun heq =>
        hslot (hinj.ssl_inj _ _ h.conn (heq ▸ hex.own_conn g hg) (hex.own_conn h hh))
      simp only [if_neg hconn] at hloop ⊢
      obtain ⟨env', hmem, henv⟩ := hlog.looping g hg hloop
      rw [hother _ hslot]
      exact ⟨env', List.mem_append_left _ hmem, henv⟩
  · intro i hi
    rw [(hsession i).1] at hi
    by_cases hi' : i = h.slot
    · subst hi'
      exact ⟨h.conn, env, List.mem_append_right _ (List.mem_singleton_self _),
        (hsession _).2.trans (hex.own_conn h hh), hids⟩
    · obtain ⟨conn, env', hmem, hssl, henv⟩ := hlog.authorized i hi
      rw [hother i hi']
      exact ⟨conn, env', List.mem_append_left _ hmem, hssl, henv⟩

/-! ### The steps without identifiers -/

section Quiet

variable {s : Server} {log : List (Conn × StartEnv)}

theorem succeeds_self (hs : List Handler) : ∀ h' ∈ hs, ∃ h ∈ hs, Succeeds h h' :=
  fun h' hh' => ⟨h', hh', rfl, rfl, id, id⟩

theorem IdsLogged.failedPrologue (C : Crypto) (hlog : IdsLogged s log) (hex : Exclusive s)
    {h : Handler} {env : StartEnv}
    (hfail : ¬ (initClientSignalProtocol C (s.clients h.slot) env).2 = true) :
    IdsLogged (handlerPrologue C s h env).1 log := by
  obtain ⟨⟨ip, phase, -, hexit, hhandlers⟩, htotal, hsession⟩ := handlerPrologue_handlers C s h env
  obtain ⟨-, -, hother, hids⟩ := handlerPrologue_peers C s h env
  rw [if_neg hfail] at hids
  rw [hexit (by simpa using hfail)] at hhandlers
  refine hlog.of_quiet hex (fun i => ?_) htotal (fun h' hh' => ?_) (fun i hi => ?_)
  · by_cases hi : i = h.slot
    · rw [hi]
      exact hids
    · rw [hother i hi]
  · rw [hhandlers] at hh'
    exact setHandler_succeeds hh'
  · exact ⟨(hsession i).2, .inl ((hsession i).1 ▸ hi)⟩

/-- A login authorises the slot of a looping handler, whose identifiers are logged. -/
theorem IdsLogged.loggedIn (hlog : IdsLogged s log) (hex : Exclusive s) {h : Handler}
    (hh : h ∈ s.handlers) (hphase : h.phase = .looping) (env : Env) (row : UserRow)
    (nick token : Bytes) :
    IdsLogged (Mesh.loggedIn (s.noteActivity h.slot env.now) env h.slot row nick token) log := by
  have hnote (i : Slot) := noteActivity_refreshes s h.slot env.now i
  refine hlog.of_quiet hex (fun i => ?_) ?_ ?_ fun i hi => ?_
  · exact (loggedIn_ids _ _ _ _ _ _ i).trans (noteActivity_ids s h.slot env.now i)
  · exact loggedIn_totalConnections _ _ _ _ _ _
  · rw [loggedIn_handlers]
    exact succeeds_self _
  · rw [loggedIn_clients] at hi ⊢
    by_cases hi' : i = h.slot
    · subst hi'
      rw [Function.update_self]
      exact ⟨(hnote _).ssl, .inr ⟨h, hh, hphase, rfl⟩⟩
    · rw [Function.update_of_ne hi'] at hi ⊢
      exact ⟨(hnote i).ssl, .inl ((hnote i).authorized ▸ hi)⟩

theorem IdsLogged.iteration (C : Crypto) (hlog : IdsLogged s log) (hex : Exclusive s)
    {h : Handler} (hh : h ∈ s.handlers) (hphase : h.phase = .looping) (env : Env)
    (read : ReadResult) : IdsLogged (handlerIteration C s h env read).1 log := by
  have hnote (i : Slot) := noteActivity_refreshes s h.slot env.now i
  rcases handlerIteration_state C s h env read with
    heq | heq | ⟨users, heq⟩ | ⟨-, -, row, nick, token, heq⟩ <;> rw [heq]
  · exact hlog.of_quiet hex (fun _ => rfl) rfl (fun _ => setHandler_succeeds)
      fun i hi => ⟨rfl, .inl hi⟩
  · exact hlog
  · exact hlog.of_quiet hex (noteActivity_ids s h.slot env.now) rfl (succeeds_self _)
      fun i hi => ⟨(hnote i).ssl, .inl ((hnote i).authorized ▸ hi)⟩
  · exact hlog.loggedIn hex hh hphase env row nick token

theorem IdsLogged.exited (hlog : IdsLogged s log) (hex : Exclusive s) (h : Handler) (env : Env) :
    IdsLogged (handlerExit s h env).1 log := by
  have hset (i : Slot) : (handlerExit s h env).1.clients i =
      if i = h.slot then (s.clients h.slot).cleaned else s.clients i := by
    change (s.setClient h.slot _).clients i = _
    split_ifs with hi
    · rw [hi, setClient_self]
    · exact setClient_ne _ _ _ hi
  refine hlog.of_quiet hex (fun i => ?_) rfl (fun h' hh' => ?_) fun i hi => ?_
  · simp only [hset i]
    split_ifs with hi
    · rw [hi]
      rfl
    · rfl
  · exact ⟨h', List.mem_of_mem_filter hh', rfl, rfl, id, id⟩
  · simp only [hset i] at hi ⊢
    split_ifs at hi ⊢ with hi'
    · exact absurd hi (by simp [SecureClient.cleaned])
    · exact ⟨rfl, .inl hi⟩

theorem IdsLogged.swept (hlog : IdsLogged s log) (hex : Exclusive s) (now : ℤ) :
    IdsLogged (checkClientTimeouts s now).1 log := by
  refine hlog.of_quiet hex (fun i => ?_) rfl (succeeds_self _) fun i hi => ?_
  · simp only [checkClientTimeouts]
    split_ifs <;> rfl
  · simp only [checkClientTimeouts] at hi ⊢
    split_ifs at hi ⊢
    · exact ⟨rfl, .inl hi⟩
    · exact ⟨rfl, .inl hi⟩

end Quiet

/-! ### Runs -/

/-- What the prologues of a run establish, step by step. -/
structure LoggedInv (s : Server) (log : List (Conn × StartEnv)) : Prop where
  ids : IdsLogged s log
  exclusive : Exclusive s
  counted : HandlersCounted s
  conns : ConnInv s

theorem idsLogged_step (C : Crypto) {s : Server} {log : List (Conn × StartEnv)}
    (h : LoggedInv s log) (e : Event) (hidle : AcceptsIdle s e) :
    IdsLogged (step C s e).1 (log ++ prologueOf C s e) := by
  cases e with
  | connect fd addr now handshake =>
    simp only [step, prologueOf, List.append_nil]
    rcases handleNewConnection_cases s fd addr now handshake with ⟨i, hfree, rfl, heq⟩ | heq <;>
      rw [heq]
    · exact h.ids.accepted (hidle fd addr now i rfl hfree) fd addr now
    · exact h.ids
  | start conn env =>
    simp only [step, prologueOf]
    cases hg : s.handler? conn .starting with
    | none =>
      rw [List.append_nil]
      exact h.ids
    | some g =>
      obtain ⟨hmem, rfl, hphase⟩ := handler?_eq_some hg
      simp only
      split_ifs with hok
      · exact h.ids.prologue C h.exclusive h.counted h.conns hmem hphase hok
      · rw [List.append_nil]
        exact h.ids.failedPrologue C h.exclusive hok
  | iterate conn env read =>
    simp only [step, prologueOf, List.append_nil]
    cases hg : s.handler? conn .looping with
    | none => exact h.ids
    | some g =>
      obtain ⟨hmem, rfl, hphase⟩ := handler?_eq_some hg
      exact h.ids.iteration C h.exclusive hmem hphase env read
  | exit conn env =>
    simp only [step, prologueOf, List.append_nil]
    cases s.handler? conn .exiting with
    | none => exact h.ids
    | some g => exact h.ids.exited h.exclusive g env
  | sweep now =>
    simp only [step, prologueOf, List.append_nil]
    exact h.ids.swept h.exclusive now

theorem run_logged (C : Crypto) {s : Server} {log : List (Conn × StartEnv)} (h : LoggedInv s log)
    (es : List Event) (hidle : Runs.Along (step C) AcceptsIdle s es) :
    LoggedInv (run C s es).1 (log ++ prologues C s es) := by
  induction es generalizing s log with
  | nil =>
    change LoggedInv s (log ++ [])
    rwa [List.append_nil]
  | cons e es ih =>
    have hnext : LoggedInv (step C s e).1 (log ++ prologueOf C s e) :=
      ⟨idsLogged_step C h e hidle.1, exclusive_step C s e h.exclusive hidle.1,
        handlersCounted_step C s e h.counted, connInv_step C s e h.conns⟩
    have hrest := ih hnext hidle.2
    rwa [List.append_assoc] at hrest

theorem loggedInv_init (users : SecureUsers) : LoggedInv (Server.init users) [] := by
  have hno (h : Handler) : h ∉ (Server.init users).handlers := by simp [Server.init]
  have hids : IdsLogged (Server.init users) [] := by
    refine ⟨?_, ?_, List.nodup_nil, ?_, ?_⟩
    · simp
    · simp
    · intro h hh
      exact absurd hh (hno h)
    · intro i hi
      simp [Server.init, SecureClient.zero] at hi
  have hex : Exclusive (Server.init users) := by
    refine ⟨?_, ?_⟩ <;> intro h hh <;> exact absurd hh (hno h)
  have hcounted : HandlersCounted (Server.init users) := by
    intro h hh
    exact absurd hh (hno h)
  exact ⟨hids, hex, hcounted, connInv_init users⟩

/-- Two sessions on different connections have the identifiers of two prologues. -/
theorem LoggedInv.distinctIds {s : Server} {log : List (Conn × StartEnv)} (h : LoggedInv s log)
    (hlog : log.Pairwise fun x y => DistinctIds x.2.ids y.2.ids) {i j : Slot} (hij : i ≠ j)
    (hi : (s.clients i).authorized = true) (hj : (s.clients j).authorized = true) :
    DistinctIds (s.clients i).ids (s.clients j).ids := by
  obtain ⟨conn, env, hmem, hssl, hids⟩ := h.ids.authorized i hi
  obtain ⟨conn', env', hmem', hssl', hids'⟩ := h.ids.authorized j hj
  have hsymm : Std.Symm fun x y : Conn × StartEnv => DistinctIds x.2.ids y.2.ids :=
    ⟨fun x y hxy => hxy.symm⟩
  have hne : (conn, env) ≠ (conn', env') := by
    intro heq
    have hconn : conn = conn' := congrArg Prod.fst heq
    exact hij (h.conns.ssl_inj i j conn hssl (hconn ▸ hssl'))
  have hdistinct := hlog.forall hmem hmem' hne
  rwa [← hids, ← hids'] at hdistinct

/-- In every run of one process the identifiers that two handlers compute are
different if and only if the clock reads they are made of are, and then, as long
as accepted connections get slots of their own, so are those of any two live
sessions. -/
theorem session_ids_distinct_iff (C : Crypto) (users : SecureUsers) (es : List Event) (pid : ℕ)
    (hprocess : ∀ x ∈ prologues C (Server.init users) es, x.2.InRange ∧ x.2.pid = pid) :
    let log := prologues C (Server.init users) es
    let s := (run C (Server.init users) es).1
    (log.Pairwise (fun x y => DistinctIds x.2.ids y.2.ids) ↔
        log.Pairwise fun x y => DistinctClocks x.2 y.2) ∧
      ((log.Pairwise fun x y => DistinctClocks x.2 y.2) →
        Runs.Along (step C) AcceptsIdle (Server.init users) es →
        ∀ i j, i ≠ j → (s.clients i).online = true → (s.clients j).online = true →
          DistinctIds (s.clients i).ids (s.clients j).ids) := by
  intro log s
  have hiff : log.Pairwise (fun x y => DistinctIds x.2.ids y.2.ids) ↔
      log.Pairwise fun x y => DistinctClocks x.2 y.2 := by
    refine List.Pairwise.iff_of_mem fun {x y} hx hy => ?_
    obtain ⟨hrange, hpid⟩ := hprocess x hx
    obtain ⟨hrange', hpid'⟩ := hprocess y hy
    exact distinctIds_iff hrange hrange' (hpid.trans hpid'.symm)
  refine ⟨hiff, fun hclocks hidle i j hij hi hj => ?_⟩
  have hlogged := run_logged C (loggedInv_init users) es hidle
  rw [List.nil_append] at hlogged
  have hauth (k : Slot) (hk : (s.clients k).online = true) : (s.clients k).authorized = true := by
    simp only [SecureClient.online, Bool.and_eq_true] at hk
    exact hk.2
  exact hlogged.distinctIds (hiff.2 hclocks) hij (hauth i hi) (hauth j hj)

/-- Clients that arrive two seconds apart. -/
theorem session_ids_distinct_two_seconds :
    (prologues Sample.crypto (Server.init SecureUsers.empty)
      (Sample.connected ++ Sample.joined)).Pairwise
      fun x y => DistinctIds x.2.ids y.2.ids := by
  have hlog : prologues Sample.crypto (Server.init SecureUsers.empty)
      (Sample.connected ++ Sample.joined) =
      [(0, Sample.startEnv 1000), (1, Sample.startEnv 1002)] := by
    decide +kernel
  refine (session_ids_distinct_iff Sample.crypto SecureUsers.empty _ 42 ?_).1.2 ?_
  · rw [hlog]
    intro x hx
    simp only [List.mem_cons, List.not_mem_nil, or_false] at hx
    rcases hx with rfl | rfl
    · exact ⟨⟨by decide, by decide⟩, rfl⟩
    · exact ⟨⟨by decide, by decide⟩, rfl⟩
  · rw [hlog]
    simp [DistinctClocks, Sample.startEnv]

/-- Two clients that arrive in the same second and log in are two peers of one id. -/
theorem same_second_same_ids :
    let s := (run Sample.crypto (Server.init SecureUsers.empty) (Sample.connected ++
      [.connect 6 Sample.addr 1000 .success, .start 1 (Sample.startEnv 1000)] ++
      Sample.chat.drop 5)).1
    onlineSlots s = [Sample.firstSlot, Sample.secondSlot] ∧
      (s.clients Sample.firstSlot).ids = (s.clients Sample.secondSlot).ids ∧
      s.peers.map SecurePeer.peerId =
        [ascii "secure_peer_1000_42", ascii "secure_peer_1000_42"] := by
  decide +kernel

end Mesh
