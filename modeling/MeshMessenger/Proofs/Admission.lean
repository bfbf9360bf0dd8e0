import MeshMessenger.Proofs.Slots

/-! When a connection is admitted. The slots start at `fd = 0`, which the
free-slot test takes for busy, until the first timeout sweep sets them to -1;
from then on a busy slot has a live handler. The one `SSL_accept` call decides,
so a handshake that needs a second call is refused. -/

namespace Mesh

open CLib

/-- What `handle_new_connection` sees of the results a socket has for `SSL_accept`: the first. -/
def sslAccept : List Handshake → Handshake
  | [] => .failed
  | result :: _ => result

/-- Results that ask for another `SSL_accept` call. -/
def Retryable (wants : List Handshake) : Prop := ∀ w ∈ wants, w = .wantRead ∨ w = .wantWrite

/-- `handle_new_connection` puts the connection into a slot, starts a handler and closes nothing. -/
def Admitted (s : Server) (fd : ℕ) (addr : SockAddr) (now : ℤ) (script : List Handshake) : Prop :=
  ∃ i, handleNewConnection s fd addr now (sslAccept script) = (accepted s i fd addr now, [])

/-- The run has had a sweep that finds the slots of the static initialiser timed out. -/
def Swept (es : List Event) : Prop := ∃ now, .sweep now ∈ es ∧ connectionTimeout < now

/-! ### Before the first sweep -/

theorem freeSlot_init (users : SecureUsers) : freeSlot (Server.init users) = none := by
  refine List.find?_eq_none.2 fun i _ => ?_
  simp [Server.init, SecureClient.zero]

theorem step_init (C : Crypto) (users : SecureUsers) (e : Event)
    (h : ∀ now, e = .sweep now → now ≤ connectionTimeout) :
    (step C (Server.init users) e).1 = Server.init users := by
  cases e with
  | connect fd addr now handshake =>
    unfold step handleNewConnection
    rw [freeSlot_init]
  | start conn env => rfl
  | iterate conn env read => rfl
  | exit conn env => rfl
  | sweep now =>
    have hnow := h now rfl
    have hkeep : ¬ now - SecureClient.zero.lastActivity > connectionTimeout := by
      change ¬ now - 0 > connectionTimeout
      omega
    simp [step, checkClientTimeouts, timedOut, Server.init, hkeep]

/-! ### After it -/

/-- A busy slot has a live handler, and a connection has one handler. -/
structure SlotsAccounted (s : Server) : Prop where
  busy : ∀ i, 0 ≤ (s.clients i).fd → ∃ h ∈ s.handlers, h.slot = i
  conn_slot : ∀ h ∈ s.handlers, ∀ h' ∈ s.handlers, h.conn = h'.conn → h.slot = h'.slot
  counted : HandlersCounted s

theorem slotsAccounted_swept (users : SecureUsers) {now : ℤ} (h : connectionTimeout < now) :
    SlotsAccounted (checkClientTimeouts (Server.init users) now).1 := by
  refine ⟨fun i hi => ?_, fun h hh => ?_, fun h hh => ?_⟩
  · have hout : timedOut now SecureClient.zero = true := by
      simp [timedOut, SecureClient.zero, h]
    simp [checkClientTimeouts, Server.init, hout] at hi
  · exact absurd hh (by simp [checkClientTimeouts, Server.init])
  · exact absurd hh (by simp [checkClientTimeouts, Server.init])

/-- A handler outlives every move but the exit of its own connection. -/
theorem Move.handler_survives {s s' : Server} (hm : Move s s') {h : Handler}
    (hh : h ∈ s.handlers) :
    (∃ h' ∈ s'.handlers, h'.slot = h.slot) ∨
    ∃ g ∈ s.handlers, g.conn = h.conn ∧ (s'.clients g.slot).fd < 0 := by
  cases hm with
  | phase conn ip phase =>
    refine .inl ⟨_, List.mem_map_of_mem hh, ?_⟩
    split_ifs <;> rfl
  | refresh i hc => exact .inl ⟨h, hh, rfl⟩
  | register hvalid hword hinsert => exact .inl ⟨h, hh, rfl⟩
  | login env hauth hword hfind => exact .inl ⟨h, by simpa using hh, rfl⟩
  | @exit g hg =>
    by_cases hconn : g.conn = h.conn
    · refine .inr ⟨g, hg, hconn, ?_⟩
      change ((s.setClient g.slot _).clients g.slot).fd < 0
      rw [setClient_self]
      simp only [SecureClient.cleaned]
      split_ifs with hfd
      · decide
      · omega
    · refine .inl ⟨h, List.mem_filter.2 ⟨hh, ?_⟩, rfl⟩
      simpa using Ne.symm hconn
  | sweep now => exact .inl ⟨h, hh, rfl⟩

/-- A move makes no free slot busy. -/
theorem Move.fd_nonneg {s s' : Server} (hm : Move s s') {i : Slot} (hi : 0 ≤ (s'.clients i).fd) :
    0 ≤ (s.clients i).fd := by
  cases hm with
  | phase conn ip phase => exact hi
  | @refresh j c hc =>
    by_cases hj : i = j
    · subst hj
      rw [setClient_self, hc.fd] at hi
      exact hi
    · rwa [setClient_ne _ _ _ hj] at hi
  | register hvalid hword hinsert => exact hi
  | @login j nick token row env hauth hword hfind =>
    rw [loggedIn_clients] at hi
    by_cases hj : i = j
    · subst hj
      rw [Function.update_self] at hi
      exact hi
    · rwa [Function.update_of_ne hj] at hi
  | @exit g hg =>
    change 0 ≤ ((s.setClient g.slot _).clients i).fd at hi
    by_cases hj : i = g.slot
    · rw [hj, setClient_self] at hi
      rw [hj]
      by_contra hneg
      simp [SecureClient.cleaned, hneg] at hi
    · rwa [setClient_ne _ _ _ hj] at hi
  | sweep now =>
    simp only [checkClientTimeouts] at hi
    split_ifs at hi with hout
    · exact absurd hi (by simp)
    · exact hi

theorem Move.slotsAccounted {s s' : Server} (hs : SlotsAccounted s) (hm : Move s s') :
    SlotsAccounted s' := by
  refine ⟨?_, ?_, ?_⟩
  · intro i hi
    obtain ⟨h, hh, hslot⟩ := hs.busy i (hm.fd_nonneg hi)
    rcases hm.handler_survives hh with ⟨h', hh', hslot'⟩ | ⟨g, hg, hconn, hfree⟩
    · exact ⟨h', hh', hslot'.trans hslot⟩
    · -- the handler that exited was this slot's own, which is now free
      rw [hs.conn_slot g hg h hh hconn, hslot] at hfree
      omega
  · intro h hh h' hh' hconn
    obtain ⟨a, ha, hac, has⟩ := hm.handler_mem hh
    obtain ⟨b, hb, hbc, hbs⟩ := hm.handler_mem hh'
    rw [← has, ← hbs]
    apply hs.conn_slot a ha b hb
    rw [hac, hbc, hconn]
  · exact hm.handlersCounted hs.counted

theorem accepted_slotsAccounted {s : Server} (hs : SlotsAccounted s) (i : Slot) (fd : ℕ)
    (addr : SockAddr) (now : ℤ) : SlotsAccounted (accepted s i fd addr now) := by
  refine ⟨?_, ?_, ?_⟩
  · intro j hj
    by_cases hji : j = i
    · exact ⟨_, List.mem_append_right _ (List.mem_singleton_self _), hji.symm⟩
    · change 0 ≤ ((s.setClient i _).clients j).fd at hj
      rw [setClient_ne _ _ _ hji] at hj
      obtain ⟨h, hh, hslot⟩ := hs.busy j hj
      exact ⟨h, List.mem_append_left _ hh, hslot⟩
  · intro h hh h' hh' hconn
    rcases List.mem_append.1 hh with hh | hh <;> rcases List.mem_append.1 hh' with hh' | hh'
    · exact hs.conn_slot h hh h' hh' hconn
    · -- a new connection's number is above every number in use
      rw [List.mem_singleton.1 hh'] at hconn
      exact absurd (hs.counted h hh) (by rw [hconn]; exact lt_irrefl _)
    · rw [List.mem_singleton.1 hh] at hconn
      exact absurd (hs.counted h' hh') (by rw [← hconn]; exact lt_irrefl _)
    · rw [List.mem_singleton.1 hh, List.mem_singleton.1 hh']
  · exact accepted_handlersCounted hs.counted i fd addr now

theorem slotsAccounted_step (C : Crypto) (s : Server) (e : Event) (hs : SlotsAccounted s) :
    SlotsAccounted (step C s e).1 :=
  step_preserve C (fun _ i fd addr now hs _ => accepted_slotsAccounted hs i fd addr now)
    (fun _ _ => Move.slotsAccounted) hs e

/-- A run either leaves the static initialiser untouched or accounts for its slots. -/
theorem run_swept (C : Crypto) (users : SecureUsers) (es : List Event) :
    (¬ Swept es ∧ (run C (Server.init users) es).1 = Server.init users) ∨
    (Swept es ∧ SlotsAccounted (run C (Server.init users) es).1) := by
  induction es using List.reverseRecOn with
  | nil =>
    refine .inl ⟨?_, rfl⟩
    rintro ⟨now, hmem, -⟩
    exact absurd hmem (by simp)
  | append_singleton es e ih =>
    rw [run, Runs.run_append]
    rcases ih with ⟨hno, hinit⟩ | ⟨⟨now, hmem, hnow⟩, hacc⟩
    · by_cases he : ∀ now, e = .sweep now → now ≤ connectionTimeout
      · refine .inl ⟨?_, ?_⟩
        · rintro ⟨now, hmem, hnow⟩
          rcases List.mem_append.1 hmem with hmem | hmem
          · exact hno ⟨now, hmem, hnow⟩
          · have := he now (List.mem_singleton.1 hmem).symm
            omega
        · change (step C (run C (Server.init users) es).1 e).1 = _
          rw [hinit]
          exact step_init C users e he
      · push Not at he
        obtain ⟨now, rfl, hnow⟩ := he
        refine .inr ⟨⟨now, by simp, hnow⟩, ?_⟩
        change SlotsAccounted (step C (run C (Server.init users) es).1 (.sweep now)).1
        rw [hinit]
        exact slotsAccounted_swept users hnow
    · exact .inr ⟨⟨now, List.mem_append_left _ hmem, hnow⟩, slotsAccounted_step C _ e hacc⟩

/-! ### Room -/

/-- With fewer live handlers than slots, one slot is free. -/
theorem freeSlot_of_room {s : Server} (hs : SlotsAccounted s)
    (hroom : s.handlers.length < maxClients) : ∃ i, freeSlot s = some i := by
  by_contra hnone
  have hfull : freeSlot s = none := by
    cases h : freeSlot s with
    | none => rfl
    | some i => exact absurd ⟨i, h⟩ hnone
  have hbusy (i : Slot) : i ∈ (s.handlers.map Handler.slot).toFinset := by
    have hfd := List.find?_eq_none.1 hfull i (List.mem_finRange i)
    obtain ⟨h, hh, hslot⟩ := hs.busy i (by simpa using hfd)
    exact List.mem_toFinset.2 (List.mem_map.2 ⟨h, hh, hslot⟩)
  have hcard : maxClients ≤ s.handlers.length := by
    calc maxClients = (Finset.univ : Finset Slot).card := by simp
      _ ≤ (s.handlers.map Handler.slot).toFinset.card := Finset.card_le_card fun i _ => hbusy i
      _ ≤ (s.handlers.map Handler.slot).length := List.toFinset_card_le _
      _ = s.handlers.length := List.length_map _
  omega

theorem admitted_of_free {s : Server} {i : Slot} (hfree : freeSlot s = some i) (fd : ℕ)
    (addr : SockAddr) (now : ℤ) : Admitted s fd addr now [.success] := by
  refine ⟨i, ?_⟩
  unfold handleNewConnection
  rw [hfree]
  rfl

theorem not_admitted_of_full {s : Server} (hfull : freeSlot s = none) (fd : ℕ) (addr : SockAddr)
    (now : ℤ) (script : List Handshake) : ¬ Admitted s fd addr now script := by
  rintro ⟨i, hi⟩
  unfold handleNewConnection at hi
  rw [hfull] at hi
  exact absurd (Prod.mk.inj hi).2 (by simp)

theorem not_admitted_of_retry {w : Handshake} (hw : w = .wantRead ∨ w = .wantWrite) (s : Server)
    (fd : ℕ) (addr : SockAddr) (now : ℤ) (script : List Handshake) :
    ¬ Admitted s fd addr now (w :: script) := by
  rintro ⟨i, hi⟩
  unfold handleNewConnection at hi
  cases hfree : freeSlot s with
  | none =>
    rw [hfree] at hi
    exact absurd (Prod.mk.inj hi).2 (by simp)
  | some j =>
    rw [hfree] at hi
    rcases hw with rfl | rfl <;> exact absurd (Prod.mk.inj hi).2 (by simp)

/-- In every run and with room in the table, a connection whose handshake would
succeed is admitted if and only if it needs a single `SSL_accept` call and the
monitor has swept the initial slots. -/
theorem admitted_iff (C : Crypto) (users : SecureUsers) (es : List Event) (fd : ℕ)
    (addr : SockAddr) (now : ℤ) (wants : List Handshake) (hwants : Retryable wants)
    (hroom : (run C (Server.init users) es).1.handlers.length < maxClients) :
    Admitted (run C (Server.init users) es).1 fd addr now (wants ++ [.success]) ↔
      wants = [] ∧ Swept es := by
  cases wants with
  | cons w wants =>
    have hretry := not_admitted_of_retry (hwants w List.mem_cons_self)
      (run C (Server.init users) es).1 fd addr now (wants ++ [.success])
    simpa using hretry
  | nil =>
    rcases run_swept C users es with ⟨hno, hinit⟩ | ⟨hswept, hacc⟩
    · have hfull := not_admitted_of_full (freeSlot_init users) fd addr now [.success]
      rw [hinit]
      simpa [hno] using hfull
    · obtain ⟨i, hfree⟩ := freeSlot_of_room hacc hroom
      have hadm := admitted_of_free hfree fd addr now
      simpa [hswept] using hadm

/-- After a sweep an idle server admits a client whose first `SSL_accept` succeeds. -/
theorem admitted_after_sweep :
    Admitted (run Sample.crypto (Server.init SecureUsers.empty) [.sweep 1000]).1 5 Sample.addr 1000
      [.success] := by
  have hswept : Swept [.sweep 1000] := ⟨1000, List.mem_singleton_self _, by decide⟩
  have hroom : (run Sample.crypto (Server.init SecureUsers.empty) [.sweep 1000]).1.handlers.length <
      maxClients := by decide
  exact (admitted_iff Sample.crypto SecureUsers.empty [.sweep 1000] 5 Sample.addr 1000 []
    (by simp [Retryable]) hroom).2 ⟨rfl, hswept⟩

/-- A freshly started server refuses its first client, and a swept one refuses a
client whose handshake takes a second call. -/
theorem connection_refused_with_room :
    let fresh := (run Sample.crypto (Server.init SecureUsers.empty) []).1
    let swept := (run Sample.crypto (Server.init SecureUsers.empty) [.sweep 1000]).1
    fresh.handlers.length < maxClients ∧
      ¬ Admitted fresh 5 Sample.addr 1000 ([] ++ [.success]) ∧
      swept.handlers.length < maxClients ∧ Retryable [.wantRead] ∧
      ¬ Admitted swept 5 Sample.addr 1000 ([.wantRead] ++ [.success]) := by
  refine ⟨by decide, ?_, by decide, ?_, ?_⟩
  · exact not_admitted_of_full (freeSlot_init _) 5 Sample.addr 1000 _
  · intro w hw
    exact .inl (List.mem_singleton.1 hw)
  · exact not_admitted_of_retry (.inl rfl) _ 5 Sample.addr 1000 _

end Mesh
