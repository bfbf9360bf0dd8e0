import MeshMessenger.Proofs.Invariants

/-! Which handler threads share a client slot. The free-slot test looks at `fd`
alone, and the timeout sweep clears `fd` under a handler that is still alive. -/

namespace Mesh

open CLib

/-- No two live handlers use one slot, and the slot of a live handler holds the
connection the handler was started for. -/
structure Exclusive (s : Server) : Prop where
  slot_inj : ∀ h ∈ s.handlers, ∀ h' ∈ s.handlers, h.slot = h'.slot → h = h'
  own_conn : ∀ h ∈ s.handlers, (s.clients h.slot).ssl = some h.conn

/-- The step does not accept a connection into a slot with a live handler. -/
def AcceptsIdle (s : Server) (e : Event) : Prop :=
  ∀ fd addr now i, e = .connect fd addr now .success → freeSlot s = some i →
    ∀ h ∈ s.handlers, h.slot ≠ i

/-! ### Handlers under a move -/

/-- A move leaves a handler's connection and slot alone. -/
theorem Move.handler_mem {s s' : Server} (hm : Move s s') {h' : Handler} (hh : h' ∈ s'.handlers) :
    ∃ h ∈ s.handlers, h.conn = h'.conn ∧ h.slot = h'.slot := by
  cases hm with
  | phase conn ip phase =>
    obtain ⟨h, hmem, rfl⟩ := List.mem_map.1 hh
    exact ⟨h, hmem, by split <;> exact ⟨rfl, rfl⟩⟩
  | refresh i hc => exact ⟨h', hh, rfl, rfl⟩
  | register hvalid hword hinsert => exact ⟨h', hh, rfl, rfl⟩
  | login env hauth hword hfind => exact ⟨h', by simpa using hh, rfl, rfl⟩
  | exit hmem => exact ⟨h', List.mem_of_mem_filter hh, rfl, rfl⟩
  | sweep now => exact ⟨h', hh, rfl, rfl⟩

/-- Handlers serve connections that have been counted. -/
def HandlersCounted (s : Server) : Prop := ∀ h ∈ s.handlers, h.conn < s.totalConnections

theorem Move.handlersCounted {s s' : Server} (hs : HandlersCounted s) (hm : Move s s') :
    HandlersCounted s' := by
  intro h' hh
  obtain ⟨h, hmem, hconn, -⟩ := hm.handler_mem hh
  rw [hm.totalConnections, ← hconn]
  exact hs h hmem

theorem accepted_handlersCounted {s : Server} (hs : HandlersCounted s) (i : Slot) (fd : ℕ)
    (addr : SockAddr) (now : ℤ) : HandlersCounted (accepted s i fd addr now) := by
  intro h hh
  change h.conn < s.totalConnections + 1
  rcases List.mem_append.1 hh with hh | hh
  · exact Nat.lt_succ_of_lt (hs h hh)
  · rw [List.mem_singleton.1 hh]
    exact Nat.lt_succ_self _

theorem handlersCounted_step (C : Crypto) (s : Server) (e : Event) (hs : HandlersCounted s) :
    HandlersCounted (step C s e).1 :=
  step_preserve C (fun _ i fd addr now hs _ => accepted_handlersCounted hs i fd addr now)
    (fun _ _ => Move.handlersCounted) hs e

/-! ### Exclusion -/

theorem Move.exclusive {s s' : Server} (hs : Exclusive s) (hm : Move s s') : Exclusive s' := by
  cases hm with
  | phase conn ip phase =>
    refine ⟨?_, ?_⟩
    · intro h hh h' hh' hslot
      obtain ⟨a, ha, rfl⟩ := List.mem_map.1 hh
      obtain ⟨b, hb, rfl⟩ := List.mem_map.1 hh'
      have hab : a.slot = b.slot := by
        revert hslot
        split_ifs <;> exact id
      rw [hs.slot_inj a ha b hb hab]
    · intro h hh
      obtain ⟨a, ha, rfl⟩ := List.mem_map.1 hh
      have := hs.own_conn a ha
      split_ifs <;> exact this
  | @refresh i c hc =>
    refine ⟨hs.slot_inj, fun h hh => ?_⟩
    rw [setClient_field (f := SecureClient.ssl) hc.ssl h.slot]
    exact hs.own_conn h hh
  | register hvalid hword hinsert => exact ⟨hs.slot_inj, hs.own_conn⟩
  | @login i nick token row env hauth hword hfind =>
    refine ⟨?_, ?_⟩
    · rw [loggedIn_handlers]
      exact hs.slot_inj
    · intro h hh
      rw [loggedIn_handlers] at hh
      rw [loggedIn_clients]
      by_cases hi : h.slot = i
      · rw [hi, Function.update_self, ← hi]
        exact hs.own_conn h hh
      · rw [Function.update_of_ne hi]
        exact hs.own_conn h hh
  | @exit h hh =>
    have hmem {a : Handler} (ha : a ∈ s.handlers.filter fun h' => h'.conn != h.conn) :
        a ∈ s.handlers ∧ a ≠ h := by
      obtain ⟨ha, hne⟩ := List.mem_filter.1 ha
      refine ⟨ha, ?_⟩
      rintro rfl
      simp at hne
    refine ⟨fun a ha b hb => hs.slot_inj a (hmem ha).1 b (hmem hb).1, fun a ha => ?_⟩
    -- a surviving handler is another one, so it does not use the slot that is wiped
    have hslot : a.slot ≠ h.slot := fun heq => (hmem ha).2 (hs.slot_inj a (hmem ha).1 h hh heq)
    change ((s.setClient h.slot _).clients a.slot).ssl = _
    rw [setClient_ne _ _ _ hslot]
    exact hs.own_conn a (hmem ha).1
  | sweep now =>
    refine ⟨hs.slot_inj, fun h hh => ?_⟩
    rw [← hs.own_conn h hh]
    simp only [checkClientTimeouts]
    split_ifs <;> rfl

theorem accepted_exclusive {s : Server} (hs : Exclusive s) {i : Slot}
    (hidle : ∀ h ∈ s.handlers, h.slot ≠ i) (fd : ℕ) (addr : SockAddr) (now : ℤ) :
    Exclusive (accepted s i fd addr now) := by
  refine ⟨?_, ?_⟩
  · intro h hh h' hh' hslot
    rcases List.mem_append.1 hh with hh | hh <;> rcases List.mem_append.1 hh' with hh' | hh'
    · exact hs.slot_inj h hh h' hh' hslot
    · rw [List.mem_singleton.1 hh'] at hslot
      exact absurd hslot (hidle h hh)
    · rw [List.mem_singleton.1 hh] at hslot
      exact absurd hslot.symm (hidle h' hh')
    · rw [List.mem_singleton.1 hh, List.mem_singleton.1 hh']
  · intro h hh
    rcases List.mem_append.1 hh with hh | hh
    · change ((s.setClient i _).clients h.slot).ssl = _
      rw [setClient_ne _ _ _ (hidle h hh)]
      exact hs.own_conn h hh
    · rw [List.mem_singleton.1 hh]
      simp [accepted, newClient]

/-- An accept into a slot with a live handler breaks the exclusion. -/
theorem not_exclusive_accepted {s : Server} (hcount : HandlersCounted s) {i : Slot} {h : Handler}
    (hh : h ∈ s.handlers) (hslot : h.slot = i) (fd : ℕ) (addr : SockAddr) (now : ℤ) :
    ¬ Exclusive (accepted s i fd addr now) := by
  intro hex
  have heq := hex.slot_inj h (List.mem_append_left _ hh) _
    (List.mem_append_right _ (List.mem_singleton_self _)) hslot
  have := hcount h hh
  rw [heq] at this
  exact lt_irrefl _ this

theorem exclusive_step (C : Crypto) (s : Server) (e : Event) (hs : Exclusive s)
    (hidle : AcceptsIdle s e) : Exclusive (step C s e).1 := by
  rcases step_cases C s e with ⟨i, fd, addr, now, hfree, he, hstep⟩ | hmoves
  · rw [hstep]
    exact accepted_exclusive hs (hidle fd addr now i he hfree) fd addr now
  · exact Moves.preserve (fun _ _ => Move.exclusive) hmoves hs

theorem acceptsIdle_of_exclusive (C : Crypto) (s : Server) (e : Event) (hs : HandlersCounted s)
    (hex : Exclusive (step C s e).1) : AcceptsIdle s e := by
  rintro fd addr now i rfl hfree h hh hslot
  have hstep : (step C s (.connect fd addr now .success)).1 = accepted s i fd addr now := by
    unfold step handleNewConnection
    rw [hfree]
    rfl
  rw [hstep] at hex
  exact not_exclusive_accepted hs hh hslot fd addr now hex

/-- In a run, slots are exclusive in every state if and only if every accept takes a
slot whose handler has ended. -/
theorem slots_exclusive_iff (C : Crypto) (users : SecureUsers) (es : List Event) :
    Runs.Always (step C) Exclusive (Server.init users) es ↔
      Runs.Along (step C) AcceptsIdle (Server.init users) es := by
  have hcount : HandlersCounted (Server.init users) := by
    intro h hh
    simp [Server.init] at hh
  have hex : Exclusive (Server.init users) := by
    refine ⟨?_, ?_⟩ <;> intro h hh <;> simp [Server.init] at hh
  refine Runs.always_iff_along (fun s e => handlersCounted_step C s e) ?_ hcount hex es
  intro s e hs hs'
  exact ⟨acceptsIdle_of_exclusive C s e hs, exclusive_step C s e hs'⟩

/-- A client times out, a second one is accepted into its slot, and the first
client's handler, still in its loop, reads from and answers the second. -/
theorem swept_slot_shared :
    let events := Sample.connected ++ [.sweep 1301, .connect 6 Sample.addr 1301 .success,
      .start 1 (Sample.startEnv 1301)]
    let s := (run Sample.crypto (Server.init SecureUsers.empty) events).1
    s.handlers.map (fun h => (h.conn, h.slot, h.phase)) =
        [(0, Sample.firstSlot, .looping), (1, Sample.firstSlot, .looping)] ∧
      (s.clients Sample.firstSlot).ssl = some 1 ∧
      writtenTo 1 (step Sample.crypto s (.iterate 0 (Sample.env 1302 0) (Sample.line "/help"))).2 =
        helpFrame := by
  decide +kernel

end Mesh
