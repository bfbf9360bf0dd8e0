import MeshMessenger.Proofs.Slots
import MeshMessenger.Server.Lifecycle

/-! Which closes hit a descriptor the server owns. Every close of the program
does, except those of a slot that still has the `fd = 0` of the static
initialiser, that of `honeypot_fd`, which nothing ever opens, and the second one
of `epoll_fd`. -/

namespace Mesh

open CLib Descriptors

/-! ### Steps that close nothing -/

theorem closes_append (e e' : List Effect) : closes (e ++ e') = closes e ++ closes e' :=
  List.filterMap_append

theorem closes_of_isMessage {effects : List Effect} (h : ∀ e ∈ effects, e.IsMessage) :
    closes effects = [] := by
  refine List.filterMap_eq_nil_iff.2 fun e he => ?_
  have hmessage := h e he
  cases e with
  | write ssl data => rfl
  | save row => rfl
  | close fd => exact hmessage.elim
  | audit eventType nick ip details => rfl

theorem closes_broadcastMessage (s : Server) (env : Env) (sender message : Bytes) :
    closes (broadcastMessage s env sender message) = [] :=
  closes_of_isMessage isMessage_broadcastMessage

theorem closes_handleAuthorizedCommands (C : Crypto) (s : Server) (env : Env) (i : Slot)
    (command : Bytes) : closes (handleAuthorizedCommands C s env i command) = [] :=
  closes_of_isMessage isMessage_handleAuthorizedCommands

theorem closes_handleUnauthorizedCommands (s : Server) (env : Env) (i : Slot)
    (ip command : Bytes) : closes (handleUnauthorizedCommands s env i ip command).2 = [] := by
  unfold handleUnauthorizedCommands
  split_ifs
  · rcases processRegistration_cases s env i ip command with
      ⟨-, h | ⟨message, -, h⟩⟩ | ⟨n, t, U, -, -, -, -, h⟩ <;> rw [h] <;> rfl
  · rcases processLogin_cases s env i ip command with
      ⟨-, h⟩ | ⟨n, t, -, -, h⟩ | ⟨n, t, row, -, -, -, -, -, h⟩ <;> rw [h]
    · rfl
    · rfl
    · change closes (_ :: (broadcastMessage _ _ _ _ ++ _)) = []
      rw [← List.singleton_append, closes_append, closes_append, closes_broadcastMessage]
      rfl
  · rfl
  · rfl

/-- The step leaves the slots' descriptors alone and closes none. -/
structure Quiet (s : Server) (r : Server × List Effect) : Prop where
  fd : ∀ i, (r.1.clients i).fd = (s.clients i).fd
  closes : closes r.2 = []

theorem handlerPrologue_quiet (C : Crypto) (s : Server) (h : Handler) (env : StartEnv) :
    Quiet s (handlerPrologue C s h env) := by
  have hinit := initClientSignalProtocol_refreshes C (s.clients h.slot) env
  rcases handlerPrologue_cases C s h env with ⟨-, heq⟩ | ⟨-, heq⟩ | ⟨-, heq⟩ <;> rw [heq]
  · exact ⟨setClient_field hinit.fd, rfl⟩
  · exact ⟨setClient_field (hinit.identified env).fd, rfl⟩
  · exact ⟨setClient_field (hinit.identified env).fd, rfl⟩

theorem processClientCommand_quiet (C : Crypto) (s : Server) (env : Env) (i : Slot)
    (ip command : Bytes) : Quiet s (processClientCommand C s env i ip command) := by
  refine ⟨fun j => ?_, ?_⟩
  · rcases processClientCommand_state C s env i ip command with
      ⟨users, heq⟩ | ⟨-, row, nick, token, heq⟩
    · rw [heq]
    · rw [heq, loggedIn_clients]
      by_cases hj : j = i
      · subst hj
        rw [Function.update_self]
        rfl
      · rw [Function.update_of_ne hj]
  · unfold processClientCommand
    split_ifs
    · exact closes_handleUnauthorizedCommands s env i ip command
    · exact closes_handleAuthorizedCommands C s env i command

theorem handlerIteration_quiet (C : Crypto) (s : Server) (h : Handler) (env : Env)
    (read : ReadResult) : Quiet s (handlerIteration C s h env read) := by
  have hnote (i : Slot) := (noteActivity_refreshes s h.slot env.now i).fd
  rcases handlerIteration_cases C s h env read with
    heq | heq | ⟨-, heq⟩ | heq | ⟨_, _, _, command, -, -, -, -, heq⟩ <;> rw [heq]
  · exact ⟨fun _ => rfl, rfl⟩
  · exact ⟨fun _ => rfl, rfl⟩
  · exact ⟨hnote, rfl⟩
  · exact ⟨hnote, rfl⟩
  · have hquiet := processClientCommand_quiet C (s.noteActivity h.slot env.now) env h.slot h.ip
      command
    exact ⟨fun i => (hquiet.fd i).trans (hnote i), hquiet.closes⟩

theorem Moves.handler_mem {s s' : Server} (hm : Moves s s') {h' : Handler}
    (hh : h' ∈ s'.handlers) : ∃ h ∈ s.handlers, h.conn = h'.conn ∧ h.slot = h'.slot := by
  induction hm generalizing h' with
  | refl => exact ⟨h', hh, rfl, rfl⟩
  | tail _ hm ih =>
    obtain ⟨a, ha, hac, has⟩ := hm.handler_mem hh
    obtain ⟨b, hb, hbc, hbs⟩ := ih ha
    exact ⟨b, hb, hbc.trans hac, hbs.trans has⟩

/-! ### What the process holds -/

/-- The descriptors of the main thread that it still has to close. -/
def Process.mainFds (p : Process) : List ℤ :=
  match p.main with
  | .bind | .listen | .epollCreate => [p.serverFd]
  | .epollCtl | .loop => [p.serverFd, p.epollFd]
  | .closeEpoll => [p.epollFd]
  | _ => []

def Process.slotFd (p : Process) (i : Slot) : ℤ := (p.server.clients i).fd

/-- The slots above 0 and the main thread hold different descriptors, all of
them owned, and descriptor 0 is the inherited one. -/
structure Held (p : Process) (t : Table) : Prop where
  zero_opened : 0 ∈ t.opened
  zero_unowned : 0 ∉ t.owned
  owned_opened : t.owned ⊆ t.opened
  slot : ∀ i, 0 < p.slotFd i → p.slotFd i ∈ t.owned
  slot_inj : ∀ i j, 0 < p.slotFd i → p.slotFd i = p.slotFd j → i = j
  main : ∀ fd ∈ p.mainFds, fd ∈ t.owned
  main_nodup : p.mainFds.Nodup
  apart : ∀ i, 0 < p.slotFd i → p.slotFd i ∉ p.mainFds
  handler : ∀ h ∈ p.server.handlers, p.slotFd h.slot ≠ 0
  honeypot : p.honeypotFd = 0
  running : p.main ≠ .closeEpollAgain ∧ p.main ≠ .finished

theorem held_init (users : SecureUsers) : Held (Process.init users) Table.std := by
  have hslot (i : Slot) : ¬ 0 < (Process.init users).slotFd i := lt_irrefl 0
  exact {
    zero_opened := by simp [Table.std]
    zero_unowned := by simp [Table.std]
    owned_opened := by simp [Table.std]
    slot := fun i hi => absurd hi (hslot i)
    slot_inj := fun i _ hi => absurd hi (hslot i)
    main := fun fd hfd => absurd hfd (by simp [Process.mainFds, Process.init])
    main_nodup := by simp [Process.mainFds, Process.init]
    apart := fun i hi => absurd hi (hslot i)
    handler := fun h hh => absurd hh (by simp [Process.init, Server.init])
    honeypot := rfl
    running := by simp [Process.init] }

/-- A step that closes distinct owned descriptors, lets go of them, and takes
hold of no others. -/
theorem Held.close {p p' : Process} {t : Table} (h : Held p t) (fds : List ℤ)
    (hnodup : fds.Nodup) (howned : ∀ fd ∈ fds, fd ∈ t.owned)
    (hslot : ∀ i, 0 < p'.slotFd i → p'.slotFd i = p.slotFd i ∧ p.slotFd i ∉ fds)
    (hmain : p'.mainFds.Sublist p.mainFds) (hleft : ∀ fd ∈ p'.mainFds, fd ∉ fds)
    (hhandler : ∀ g ∈ p'.server.handlers, p'.slotFd g.slot ≠ 0)
    (hhoneypot : p'.honeypotFd = p.honeypotFd)
    (hrunning : p'.main ≠ .closeEpollAgain ∧ p'.main ≠ .finished) :
    Obeys Op.Owned t (fds.map .close) ∧ Held p' (t.after (fds.map .close)) := by
  refine ⟨owned_closes hnodup howned, ?_⟩
  have hzero : (0 : ℤ) ∉ fds := fun hmem => h.zero_unowned (howned 0 hmem)
  exact {
    zero_opened := mem_opened_closes.2 ⟨h.zero_opened, hzero⟩
    zero_unowned := fun hmem => h.zero_unowned (mem_owned_closes.1 hmem).1
    owned_opened := fun fd hfd => by
      obtain ⟨hfd, hnot⟩ := mem_owned_closes.1 hfd
      exact mem_opened_closes.2 ⟨h.owned_opened hfd, hnot⟩
    slot := fun i hi => by
      obtain ⟨heq, hnot⟩ := hslot i hi
      rw [heq] at hi ⊢
      exact mem_owned_closes.2 ⟨h.slot i hi, hnot⟩
    slot_inj := fun i j hi hij => by
      have heq := (hslot i hi).1
      have heq' := (hslot j (hij ▸ hi)).1
      apply h.slot_inj i j (heq ▸ hi)
      rw [← heq, ← heq', hij]
    main := fun fd hfd => mem_owned_closes.2 ⟨h.main fd (hmain.subset hfd), hleft fd hfd⟩
    main_nodup := h.main_nodup.sublist hmain
    apart := fun i hi hmem => by
      have heq := (hslot i hi).1
      rw [heq] at hi hmem
      exact h.apart i hi (hmain.subset hmem)
    handler := hhandler
    honeypot := hhoneypot.trans h.honeypot
    running := hrunning }

/-- A fresh descriptor is none of those held. -/
theorem Held.fresh {p : Process} {t : Table} (h : Held p t) {fd : ℤ} (hfd : fd ∉ t.opened) :
    fd ≠ 0 ∧ (∀ i, 0 < p.slotFd i → p.slotFd i ≠ fd) ∧ fd ∉ p.mainFds := by
  refine ⟨?_, ?_, ?_⟩
  · rintro rfl
    exact hfd h.zero_opened
  · rintro i hi rfl
    exact hfd (h.owned_opened (h.slot i hi))
  · exact fun hmem => hfd (h.owned_opened (h.main fd hmem))

/-- A step that opens a descriptor and keeps it in a slot or in the main thread, or drops it. -/
theorem Held.opened {p p' : Process} {t : Table} (h : Held p t) {fd : ℤ} (hfd : fd ∉ t.opened)
    (hslot : ∀ i, 0 < p'.slotFd i → p'.slotFd i = p.slotFd i ∨ p'.slotFd i = fd)
    (hmain : p'.mainFds = p.mainFds ∨ p'.mainFds = p.mainFds ++ [fd])
    (hnew : ∀ i j, 0 < fd → p'.slotFd i = fd → p'.slotFd j = fd →
      i = j ∧ p'.mainFds = p.mainFds)
    (hhandler : ∀ g ∈ p'.server.handlers, p'.slotFd g.slot ≠ 0)
    (hhoneypot : p'.honeypotFd = p.honeypotFd)
    (hrunning : p'.main ≠ .closeEpollAgain ∧ p'.main ≠ .finished) :
    Held p' (t.apply (.opened fd)) := by
  obtain ⟨hne, hapart, hfree⟩ := h.fresh hfd
  exact {
    zero_opened := Finset.mem_insert_of_mem h.zero_opened
    zero_unowned := fun hmem => by
      rcases Finset.mem_insert.1 hmem with heq | hmem
      · exact hne heq.symm
      · exact h.zero_unowned hmem
    owned_opened := Finset.insert_subset_insert fd h.owned_opened
    slot := fun i hi => by
      rcases hslot i hi with heq | heq
      · rw [heq] at hi ⊢
        exact Finset.mem_insert_of_mem (h.slot i hi)
      · rw [heq]
        exact Finset.mem_insert_self fd t.owned
    slot_inj := fun i j hi hij => by
      rcases hslot i hi with hi' | hi' <;> rcases hslot j (hij ▸ hi) with hj' | hj'
      · apply h.slot_inj i j (hi' ▸ hi)
        rw [← hi', ← hj', hij]
      · exact absurd (hi'.symm.trans (hij.trans hj')) (hapart i (hi' ▸ hi))
      · rw [hij] at hi hi'
        exact absurd (hj'.symm.trans hi') (hapart j (hj' ▸ hi))
      · exact (hnew i j (hi' ▸ hi) hi' hj').1
    main := fun fd' hmem => by
      rcases hmain with heq | heq <;> rw [heq] at hmem
      · exact Finset.mem_insert_of_mem (h.main fd' hmem)
      · rcases List.mem_append.1 hmem with hmem | hmem
        · exact Finset.mem_insert_of_mem (h.main fd' hmem)
        · rw [List.mem_singleton.1 hmem]
          exact Finset.mem_insert_self fd t.owned
    main_nodup := by
      rcases hmain with heq | heq <;> rw [heq]
      · exact h.main_nodup
      · refine h.main_nodup.append (List.nodup_singleton fd) ?_
        simpa using hfree
    apart := fun i hi hmem => by
      rcases hslot i hi with heq | heq
      · rcases hmain with hm | hm <;> rw [hm, heq] at hmem
        · exact h.apart i (heq ▸ hi) hmem
        · rcases List.mem_append.1 hmem with hmem | hmem
          · exact h.apart i (heq ▸ hi) hmem
          · exact hapart i (heq ▸ hi) (List.mem_singleton.1 hmem)
      · rw [(hnew i i (heq ▸ hi) heq heq).2, heq] at hmem
        exact hfree hmem
    handler := hhandler
    honeypot := hhoneypot.trans h.honeypot
    running := hrunning }

/-! ### The main thread -/

/-- The step does not close the descriptor 0 of an unused slot, nor `honeypot_fd`. -/
def Harmless (p : Process) : ProcessEvent → Prop
  | .main _ => ∀ i, p.main = .cleanupClient i → ∃ h : i < maxClients, p.slotFd ⟨i, h⟩ ≠ 0
  | .thread (.sweep now) => p.main.threaded = true →
      ∀ i, timedOut now (p.server.clients i) = true → p.slotFd i ≠ 0
  | .thread _ => True

/-- The main thread closes the first of its descriptors. -/
theorem Held.letGo {p p' : Process} {t : Table} (h : Held p t) (fds : List ℤ)
    (hfds : p.mainFds = fds ++ p'.mainFds) (hserver : p'.server = p.server)
    (hhoneypot : p'.honeypotFd = p.honeypotFd)
    (hrunning : p'.main ≠ .closeEpollAgain ∧ p'.main ≠ .finished) :
    Obeys Op.Owned t (fds.map .close) ∧ Held p' (t.after (fds.map .close)) := by
  have hslot (i : Slot) : p'.slotFd i = p.slotFd i := by rw [Process.slotFd, hserver]; rfl
  have hnodup := h.main_nodup
  rw [hfds, List.nodup_append'] at hnodup
  have hmain (fd : ℤ) (hfd : fd ∈ fds) : fd ∈ p.mainFds := by
    rw [hfds]
    exact List.mem_append_left _ hfd
  refine h.close fds hnodup.1 (fun fd hfd => h.main fd (hmain fd hfd)) ?_ ?_ ?_ ?_ hhoneypot
    hrunning
  · intro i hi
    rw [hslot i] at hi
    exact ⟨hslot i, fun hmem => h.apart i hi (hmain _ hmem)⟩
  · rw [hfds]
    exact List.sublist_append_right _ _
  · exact fun fd hfd hmem => hnodup.2.2 hmem hfd
  · intro g hg
    rw [hslot]
    rw [hserver] at hg
    exact h.handler g hg

/-- The main thread opens a descriptor. -/
theorem Held.mainOpened {p p' : Process} {t : Table} (h : Held p t) {fd : ℤ}
    (hfd : fd ∉ t.opened) (hfds : p'.mainFds = p.mainFds ++ [fd])
    (hserver : p'.server = p.server) (hhoneypot : p'.honeypotFd = p.honeypotFd)
    (hrunning : p'.main ≠ .closeEpollAgain ∧ p'.main ≠ .finished) :
    Held p' (t.apply (.opened fd)) := by
  have hslot (i : Slot) : p'.slotFd i = p.slotFd i := by rw [Process.slotFd, hserver]; rfl
  refine h.opened hfd (fun i _ => .inl (hslot i)) (.inr hfds) ?_ ?_ hhoneypot hrunning
  · intro i j hpos hi _
    rw [hslot i] at hi
    exact absurd hi ((h.fresh hfd).2.1 i (hi ▸ hpos))
  · intro g hg
    rw [hslot]
    rw [hserver] at hg
    exact h.handler g hg

/-- The descriptor of a slot that holds one is closed and the slot emptied. -/
theorem Held.emptySlot {p p' : Process} {t : Table} (h : Held p t) {i : Slot}
    (hpos : 0 < p.slotFd i) (hslot : p'.slotFd i = -1)
    (hother : ∀ j, j ≠ i → p'.slotFd j = p.slotFd j)
    (hmain : p'.mainFds = p.mainFds) (hhandlers : ∀ g ∈ p'.server.handlers, g ∈ p.server.handlers)
    (hhoneypot : p'.honeypotFd = p.honeypotFd)
    (hrunning : p'.main ≠ .closeEpollAgain ∧ p'.main ≠ .finished) :
    Obeys Op.Owned t [.close (p.slotFd i)] ∧ Held p' (t.after [.close (p.slotFd i)]) := by
  refine h.close [p.slotFd i] (List.nodup_singleton _) ?_ ?_ ?_ ?_ ?_ hhoneypot hrunning
  · intro fd hfd
    rw [List.mem_singleton.1 hfd]
    exact h.slot i hpos
  · intro j hj
    have hji : j ≠ i := by
      rintro rfl
      omega
    rw [hother j hji] at hj ⊢
    refine ⟨rfl, fun hmem => hji ?_⟩
    exact h.slot_inj j i hj (List.mem_singleton.1 hmem)
  · rw [hmain]
  · intro fd hfd hmem
    rw [List.mem_singleton.1 hmem, hmain] at hfd
    exact h.apart i hpos hfd
  · intro g hg
    by_cases hgi : g.slot = i
    · rw [hgi, hslot]
      decide
    · rw [hother _ hgi]
      exact h.handler g (hhandlers g hg)

theorem cleaned_fd {c : SecureClient} (h : 0 ≤ c.fd) : c.cleaned.fd = -1 := by
  simp [SecureClient.cleaned, h]

theorem cleanupClient_held {server : Server} {serverFd epollFd honeypotFd : ℤ} {i : ℕ} {t : Table}
    (h : Held ⟨.cleanupClient i, serverFd, epollFd, honeypotFd, server⟩ t) (hi : i < maxClients)
    (hne : (server.clients ⟨i, hi⟩).fd ≠ 0) (result : Option ℕ) :
    let r := Process.mainStep ⟨.cleanupClient i, serverFd, epollFd, honeypotFd, server⟩ result
    Obeys Op.Owned t r.2 ∧ Held r.1 (t.after r.2) := by
  simp only [Process.mainStep, hi, dite_true]
  by_cases hfd : 0 ≤ (server.clients ⟨i, hi⟩).fd
  · simp only [hfd, if_true, cleanupClientResources]
    refine h.emptySlot (i := ⟨i, hi⟩) (lt_of_le_of_ne hfd (Ne.symm hne)) ?_ ?_ rfl (fun _ => id) rfl
      (by simp)
    · change ((server.setClient ⟨i, hi⟩ _).clients ⟨i, hi⟩).fd = -1
      rw [setClient_self, cleaned_fd hfd]
    · intro j hj
      change ((server.setClient ⟨i, hi⟩ _).clients j).fd = _
      rw [setClient_ne _ _ _ hj]
      rfl
  · simp only [hfd, if_false]
    exact h.letGo [] rfl rfl rfl (by simp)

theorem mainStep_held {p : Process} {t : Table} (h : Held p t) (result : Option ℕ)
    (hfresh : Obeys Op.Fresh t (p.mainStep result).2) (hharm : Harmless p (.main result)) :
    Obeys Op.Owned t (p.mainStep result).2 ∧
      Held (p.mainStep result).1 (t.after (p.mainStep result).2) := by
  obtain ⟨main, serverFd, epollFd, honeypotFd, server⟩ := p
  cases main with
  | socket =>
    cases result with
    | none => exact h.letGo [] rfl rfl rfl (by simp [Process.mainStep])
    | some fd =>
      exact ⟨⟨trivial, trivial⟩, h.mainOpened hfresh.1 rfl rfl rfl (by simp [Process.mainStep])⟩
  | bind =>
    cases result with
    | none => exact h.letGo [serverFd] rfl rfl rfl (by simp [Process.mainStep])
    | some fd => exact h.letGo [] rfl rfl rfl (by simp [Process.mainStep])
  | listen =>
    cases result with
    | none => exact h.letGo [serverFd] rfl rfl rfl (by simp [Process.mainStep])
    | some fd => exact h.letGo [] rfl rfl rfl (by simp [Process.mainStep])
  | epollCreate =>
    cases result with
    | none => exact h.letGo [serverFd] rfl rfl rfl (by simp [Process.mainStep])
    | some fd =>
      exact ⟨⟨trivial, trivial⟩, h.mainOpened hfresh.1 rfl rfl rfl (by simp [Process.mainStep])⟩
  | epollCtl =>
    cases result with
    | none => exact h.letGo [serverFd, epollFd] rfl rfl rfl (by simp [Process.mainStep])
    | some fd => exact h.letGo [] rfl rfl rfl (by simp [Process.mainStep])
  | loop => exact h.letGo [serverFd] rfl rfl rfl (by simp [Process.mainStep])
  | closeEpoll => exact h.letGo [epollFd] rfl rfl rfl (by simp [Process.mainStep])
  | cleanupClient i =>
    obtain ⟨hi, hne⟩ := hharm i rfl
    exact cleanupClient_held h hi hne result
  | closeEpollAgain => exact absurd rfl h.running.1
  | failed => exact ⟨trivial, h⟩
  | finished => exact absurd rfl h.running.2

/-! ### The other threads -/

/-- The table and the process after a step of the server machine. -/
def ThreadHeld (p : Process) (t : Table) (ops : List Op) (s : Server) : Prop :=
  Obeys Op.Owned t ops ∧ Held { p with server := s } (t.after ops)

section thread

variable {p : Process} {t : Table} (h : Held p t)

include h

theorem quiet_held {r : Server × List Effect} (hquiet : Quiet p.server r)
    (hhandlers : ∀ g' ∈ r.1.handlers, ∃ g ∈ p.server.handlers, g.slot = g'.slot) :
    ThreadHeld p t ((closes r.2).map .close) r.1 := by
  rw [hquiet.closes]
  refine h.close [] List.nodup_nil (by simp) ?_ (List.Sublist.refl _) (by simp) ?_ rfl
    h.running
  · exact fun i _ => ⟨hquiet.fd i, by simp⟩
  · intro g' hg'
    obtain ⟨g, hg, hslot⟩ := hhandlers g' hg'
    have hfd := h.handler g hg
    rw [hslot] at hfd
    change (r.1.clients g'.slot).fd ≠ 0
    rw [hquiet.fd]
    exact hfd

theorem refused_held {fd : ℕ} (hfd : (fd : ℤ) ∉ t.opened) :
    ThreadHeld p t [.opened fd, .close fd] p.server := by
  obtain ⟨-, hapart, hfree⟩ := h.fresh hfd
  have hopened : Held p (t.apply (.opened fd)) := by
    refine h.opened hfd (fun i _ => .inl rfl) (.inl rfl) ?_ h.handler rfl h.running
    intro i j hpos hi
    exact absurd hi (hapart i (hi ▸ hpos))
  have hclose := hopened.close [(fd : ℤ)] (List.nodup_singleton _)
    (by simp [Table.apply]) (fun i hi => ⟨rfl, by simpa using hapart i hi⟩) (List.Sublist.refl _)
    (fun fd' hfd' hmem => hfree (List.mem_singleton.1 hmem ▸ hfd')) h.handler rfl h.running
  exact ⟨⟨trivial, hclose.1⟩, hclose.2⟩

theorem accepted_held {fd : ℕ} (hfd : (fd : ℤ) ∉ t.opened) (i : Slot) (addr : SockAddr)
    (now : ℤ) : ThreadHeld p t [.opened fd] (accepted p.server i fd addr now) := by
  obtain ⟨hne, hapart, hfree⟩ := h.fresh hfd
  have hslot (j : Slot) : ((accepted p.server i fd addr now).clients j).fd =
      if j = i then (fd : ℤ) else p.slotFd j := by
    change ((p.server.setClient i _).clients j).fd = _
    split_ifs with hj
    · rw [hj, setClient_self]
      rfl
    · rw [setClient_ne _ _ _ hj]
      rfl
  refine ⟨⟨trivial, trivial⟩, h.opened hfd ?_ (.inl rfl) ?_ ?_ rfl h.running⟩
  · intro j _
    change ((accepted p.server i fd addr now).clients j).fd = _ ∨
      ((accepted p.server i fd addr now).clients j).fd = _
    rw [hslot j]
    split_ifs with hj
    · exact .inr rfl
    · exact .inl rfl
  · intro j k hpos hj hk
    change ((accepted p.server i fd addr now).clients j).fd = _ at hj
    change ((accepted p.server i fd addr now).clients k).fd = _ at hk
    -- another slot with the new descriptor would have held it before
    have hnew (l : Slot) (hl : ((accepted p.server i fd addr now).clients l).fd = fd) : l = i := by
      by_contra hli
      rw [hslot l, if_neg hli] at hl
      exact hapart l (hl ▸ hpos) hl
    exact ⟨(hnew j hj).trans (hnew k hk).symm, rfl⟩
  · intro g hg
    change ((accepted p.server i fd addr now).clients g.slot).fd ≠ 0
    rw [hslot]
    split_ifs with hgi
    · exact hne
    · rcases List.mem_append.1 hg with hg | hg
      · exact h.handler g hg
      · exact absurd (by rw [List.mem_singleton.1 hg]) hgi

omit h in
theorem closes_handlerExit (s : Server) (g : Handler) (env : Env) :
    closes (handlerExit s g env).2 =
      if 0 ≤ (s.clients g.slot).fd then [(s.clients g.slot).fd] else [] := by
  simp only [handlerExit, cleanupClientResources]
  rw [closes_append]
  have hnotices : closes (if (s.clients g.slot).authorized then
      broadcastMessage s env system (leaveNotice (s.clients g.slot).nick) ++
        [.audit (ascii "CLIENT_DISCONNECT") (s.clients g.slot).nick g.ip
          (ascii "Client disconnected normally")] else []) = [] := by
    split
    · rw [closes_append, closes_broadcastMessage]
      rfl
    · rfl
  rw [hnotices]
  split <;> rfl

theorem exit_held {g : Handler} (hg : g ∈ p.server.handlers) (env : Env) :
    ThreadHeld p t ((closes (handlerExit p.server g env).2).map .close)
      (handlerExit p.server g env).1 := by
  have hsub : ∀ a ∈ (handlerExit p.server g env).1.handlers, a ∈ p.server.handlers :=
    fun a ha => List.mem_of_mem_filter ha
  have hother (j : Slot) (hj : j ≠ g.slot) :
      ((handlerExit p.server g env).1.clients j).fd = p.slotFd j := by
    change ((p.server.setClient g.slot _).clients j).fd = _
    rw [setClient_ne _ _ _ hj]
    rfl
  have hself : ((handlerExit p.server g env).1.clients g.slot).fd =
      (p.server.clients g.slot).cleaned.fd := by
    change ((p.server.setClient g.slot _).clients g.slot).fd = _
    rw [setClient_self]
  rw [closes_handlerExit]
  split_ifs with hfd
  · exact h.emptySlot (lt_of_le_of_ne hfd (h.handler g hg).symm) (hself.trans (cleaned_fd hfd))
      hother rfl hsub rfl h.running
  · have hfd' (j : Slot) : ((handlerExit p.server g env).1.clients j).fd = p.slotFd j := by
      by_cases hj : j = g.slot
      · rw [hj, hself]
        simp only [Process.slotFd] at hfd ⊢
        simp [SecureClient.cleaned, hfd]
      · exact hother j hj
    refine h.close [] List.nodup_nil (by simp) ?_ (List.Sublist.refl _) (by simp) ?_ rfl
      h.running
    · exact fun i _ => ⟨hfd' i, by simp⟩
    · intro a ha
      change ((handlerExit p.server g env).1.clients a.slot).fd ≠ 0
      rw [hfd']
      exact h.handler a (hsub a ha)

omit h in
theorem closes_sweep (s : Server) (now : ℤ) :
    closes (checkClientTimeouts s now).2 =
      ((List.finRange maxClients).filter fun i => timedOut now (s.clients i)).map
        fun i => (s.clients i).fd := by
  simp only [checkClientTimeouts]
  generalize (List.finRange maxClients).filter (fun i => timedOut now (s.clients i)) = l
  induction l with
  | nil => rfl
  | cons i l ih => exact congrArg _ ih

theorem sweep_held {now : ℤ}
    (hharm : ∀ i, timedOut now (p.server.clients i) = true → p.slotFd i ≠ 0) :
    ThreadHeld p t ((closes (checkClientTimeouts p.server now).2).map .close)
      (checkClientTimeouts p.server now).1 := by
  have hpos (i : Slot) (hi : timedOut now (p.server.clients i) = true) : 0 < p.slotFd i := by
    have hne := hharm i hi
    simp only [timedOut, Bool.and_eq_true, decide_eq_true_eq] at hi
    exact lt_of_le_of_ne hi.1 hne.symm
  have hslot (i : Slot) : ((checkClientTimeouts p.server now).1.clients i).fd =
      if timedOut now (p.server.clients i) then -1 else p.slotFd i := by
    simp only [checkClientTimeouts]
    split_ifs <;> rfl
  rw [closes_sweep]
  refine h.close _ ?_ ?_ ?_ (List.Sublist.refl _) ?_ ?_ rfl h.running
  · refine List.Nodup.map_on ?_ ((List.nodup_finRange maxClients).filter _)
    intro i hi j _ hij
    exact h.slot_inj i j (hpos i (List.mem_filter.1 hi).2) hij
  · intro fd hfd
    obtain ⟨i, hi, rfl⟩ := List.mem_map.1 hfd
    exact h.slot i (hpos i (List.mem_filter.1 hi).2)
  · intro i hi
    change 0 < ((checkClientTimeouts p.server now).1.clients i).fd at hi
    change ((checkClientTimeouts p.server now).1.clients i).fd = _ ∧ _
    rw [hslot i] at hi ⊢
    split_ifs at hi ⊢ with hout
    · exact absurd hi (by decide)
    · refine ⟨rfl, fun hmem => ?_⟩
      obtain ⟨j, hj, hji⟩ := List.mem_map.1 hmem
      have hj' := (List.mem_filter.1 hj).2
      rw [h.slot_inj j i (hpos j hj') hji] at hj'
      exact hout hj'
  · intro fd hfd hmem
    obtain ⟨i, hi, rfl⟩ := List.mem_map.1 hmem
    exact h.apart i (hpos i (List.mem_filter.1 hi).2) hfd
  · intro g hg
    change ((checkClientTimeouts p.server now).1.clients g.slot).fd ≠ 0
    rw [hslot]
    split_ifs
    · decide
    · exact h.handler g hg

end thread

/-! ### Whole runs -/

theorem threadStep_held (C : Crypto) {p : Process} {t : Table} (h : Held p t) (e : Event)
    (hfresh : Obeys Op.Fresh t (p.threadStep C e).2) (hharm : Harmless p (.thread e)) :
    Obeys Op.Owned t (p.threadStep C e).2 ∧
      Held (p.threadStep C e).1 (t.after (p.threadStep C e).2) := by
  unfold Process.threadStep at hfresh ⊢
  split_ifs at hfresh ⊢ with htake
  · change ThreadHeld p t _ _
    cases e with
    | connect fd addr now handshake =>
      have hfd : (fd : ℤ) ∉ t.opened := hfresh.1
      simp only [step]
      rcases handleNewConnection_cases p.server fd addr now handshake with ⟨i, -, -, heq⟩ | heq <;>
        rw [heq]
      · exact accepted_held h hfd i addr now
      · exact refused_held h hfd
    | start conn env =>
      simp only [step]
      cases hh : p.server.handler? conn .starting with
      | none => exact ⟨trivial, h⟩
      | some g =>
        refine quiet_held h (handlerPrologue_quiet C p.server g env) fun g' hg' => ?_
        obtain ⟨a, ha, -, hslot⟩ := (handlerPrologue_moves C p.server g env).handler_mem hg'
        exact ⟨a, ha, hslot⟩
    | iterate conn env read =>
      simp only [step]
      cases hh : p.server.handler? conn .looping with
      | none => exact ⟨trivial, h⟩
      | some g =>
        refine quiet_held h (handlerIteration_quiet C p.server g env read) fun g' hg' => ?_
        obtain ⟨a, ha, -, hslot⟩ := (handlerIteration_moves C p.server g env read).handler_mem hg'
        exact ⟨a, ha, hslot⟩
    | exit conn env =>
      simp only [step]
      cases hh : p.server.handler? conn .exiting with
      | none => exact ⟨trivial, h⟩
      | some g => exact exit_held h (List.mem_of_find?_eq_some hh) env
    | sweep now =>
      simp only [step, accepts, List.nil_append]
      exact sweep_held h (hharm htake)
  · exact ⟨trivial, h⟩

theorem harmless_of_owned (C : Crypto) {p : Process} {t : Table} (h : Held p t) (e : ProcessEvent)
    (howned : Obeys Op.Owned t (processStep C p e).2) : Harmless p e := by
  cases e with
  | main result =>
    intro i hmain
    simp only [processStep, Process.mainStep, hmain] at howned
    by_cases hi : i < maxClients
    · refine ⟨hi, fun hzero => ?_⟩
      simp only [Process.slotFd] at hzero
      simp only [hi, dite_true, hzero, le_refl, if_true, cleanupClientResources] at howned
      exact h.zero_unowned howned.1
    · simp only [hi, dite_false, h.honeypot, le_refl, if_true] at howned
      exact absurd howned.1 h.zero_unowned
  | thread e =>
    cases e with
    | connect fd addr now handshake => trivial
    | start conn env => trivial
    | iterate conn env read => trivial
    | exit conn env => trivial
    | sweep now =>
      intro hthreaded i hout hzero
      have hclosed : (0 : ℤ) ∈ closes (checkClientTimeouts p.server now).2 := by
        rw [closes_sweep, ← hzero]
        exact List.mem_map.2 ⟨i, List.mem_filter.2 ⟨List.mem_finRange i, hout⟩, rfl⟩
      have htake : p.canTake (.sweep now) = true := hthreaded
      simp only [processStep, Process.threadStep, htake, if_true, step, accepts,
        List.nil_append] at howned
      generalize closes (checkClientTimeouts p.server now).2 = fds at hclosed howned
      exact not_owned_closes hclosed h.zero_unowned howned

/-- One step: with what the process holds accounted for, its closes are owned
exactly when the step is harmless, and then what it holds stays accounted for. -/
theorem processStep_held (C : Crypto) {p : Process} {t : Table} (h : Held p t) (e : ProcessEvent)
    (hfresh : Obeys Op.Fresh t (processStep C p e).2) (hharm : Harmless p e) :
    Obeys Op.Owned t (processStep C p e).2 ∧
      Held (processStep C p e).1 (t.after (processStep C p e).2) := by
  cases e with
  | main result => exact mainStep_held h result hfresh hharm
  | thread e => exact threadStep_held C h e hfresh hharm

theorem owned_iff_harmless (C : Crypto) {p : Process} {t : Table} (h : Held p t)
    (es : List ProcessEvent) (hfresh : Obeys Op.Fresh t (processRun C p es).2) :
    Obeys Op.Owned t (processRun C p es).2 ↔ Runs.Along (processStep C) Harmless p es := by
  induction es generalizing p t with
  | nil => exact Iff.rfl
  | cons e es ih =>
    rw [processRun, Runs.run_cons, obeys_append] at hfresh
    rw [processRun, Runs.run_cons, obeys_append]
    refine ⟨?_, ?_⟩
    · rintro ⟨howned, hrest⟩
      have hharm := harmless_of_owned C h e howned
      exact ⟨hharm, (ih (processStep_held C h e hfresh.1 hharm).2 hfresh.2).1 hrest⟩
    · rintro ⟨hharm, hrest⟩
      have hstep := processStep_held C h e hfresh.1 hharm
      exact ⟨hstep.1, (ih hstep.2 hfresh.2).2 hrest⟩

theorem held_of_harmless (C : Crypto) {p : Process} {t : Table} (h : Held p t)
    (es : List ProcessEvent) (hfresh : Obeys Op.Fresh t (processRun C p es).2)
    (hharm : Runs.Along (processStep C) Harmless p es) :
    Held (processRun C p es).1 (t.after (processRun C p es).2) := by
  induction es generalizing p t with
  | nil => exact h
  | cons e es ih =>
    rw [processRun, Runs.run_cons, obeys_append] at hfresh
    rw [processRun, Runs.run_cons, after_append]
    exact ih (processStep_held C h e hfresh.1 hharm.1).2 hfresh.2 hharm.2

/-- In every run whose descriptors come fresh from the kernel, every close hits a
descriptor the server owns if and only if no sweep and no cleanup reaches a slot
at the initial 0 and the main thread does not get to `honeypot_fd`; a run that
shuts down always does. -/
theorem closes_owned_iff (C : Crypto) (users : SecureUsers) (es : List ProcessEvent)
    (hkernel : Obeys Op.Fresh Table.std (processRun C (Process.init users) es).2) :
    (Obeys Op.Owned Table.std (processRun C (Process.init users) es).2 ↔
        Runs.Along (processStep C) Harmless (Process.init users) es) ∧
      ((processRun C (Process.init users) es).1.main = .finished →
        ¬ Obeys Op.Owned Table.std (processRun C (Process.init users) es).2) := by
  have hiff := owned_iff_harmless C (held_init users) es hkernel
  refine ⟨hiff, fun hfinished howned => ?_⟩
  exact (held_of_harmless C (held_init users) es hkernel (hiff.1 howned)).running.2 hfinished

/-- The calls of a start that gets to the loop. -/
def Sample.startup : List ProcessEvent :=
  [.main (some 3), .main (some 0), .main (some 0), .main (some 4), .main (some 0)]

/-- A client that is refused before the first sweep, and a start that fails at
`epoll_ctl`, close what they own. -/
theorem closes_owned_refused_client :
    Obeys Op.Owned Table.std (processRun Sample.crypto (Process.init SecureUsers.empty)
        (Sample.startup ++ [.thread (.connect 5 Sample.addr 1000 .success)])).2 ∧
      Obeys Op.Owned Table.std (processRun Sample.crypto (Process.init SecureUsers.empty)
        [.main (some 3), .main (some 0), .main (some 0), .main (some 4), .main none]).2 := by
  refine ⟨(closes_owned_iff _ _ _ ?_).1.2 ?_, (closes_owned_iff _ _ _ ?_).1.2 ?_⟩
  · decide +kernel
  · exact ⟨nofun, nofun, nofun, nofun, nofun, trivial, trivial⟩
  · decide +kernel
  · exact ⟨nofun, nofun, nofun, nofun, nofun, trivial⟩

/-- The first sweep closes descriptor 0 once for every slot of the static initialiser. -/
theorem unowned_descriptors_closed :
    let trace := (processRun Sample.crypto (Process.init SecureUsers.empty)
      (Sample.startup ++ [.thread (.sweep 1000)])).2
    Obeys Op.Fresh Table.std trace ∧ ¬ Obeys Op.Owned Table.std trace ∧
      trace = [.opened 3, .opened 4] ++ List.replicate maxClients (.close 0) := by
  decide +kernel

end Mesh
