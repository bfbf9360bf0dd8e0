import MeshMessenger.P2p.Wire

/-! The senders against the receiver. A direct message is a length and that many bytes, and
comes back whole up to the receiver's limit; a group message starts with the group's name,
which the receiver takes for a length. -/

namespace Mesh.P2p

open CLib

/-- The receiver gives back what the connection was to carry. -/
def Understood (c : Connection) : Prop := receive c.sends.flatten = some c.message

/-- The call sends a direct message whose ciphertext is within the receiver's limit. -/
def SendCall.Fits (E : Ciphers) (net : Network) : SendCall → Prop
  | .direct _ recipient msg =>
    ∀ u, findUser net recipient = some u →
      (E.serialize u.addr (cstr msg)).val.length ≤ maxMessageLen
  | .group _ _ _ => False

/-! ### The receiver -/

theorem receive_header {n : ℕ} (hn : n < 2 ^ 64) (rest : Bytes) :
    receive (leBytes 8 n ++ rest) =
      if n > maxMessageLen then none else some (.direct (rest.take n)) := by
  have hsplit : (leBytes 8 n ++ rest).splitAt 8 = (leBytes 8 n, rest) := by
    rw [List.splitAt_eq, List.take_left' (leBytes_length 8 n), List.drop_left' (leBytes_length 8 n)]
  have hsize : ofLeBytes (leBytes 8 n) = n := ofLeBytes_leBytes (by norm_num; exact hn)
  simp only [receive, hsplit, hsize, List.splitAt_eq]

theorem receive_ne_group (stream name iv tag ciphertext : Bytes) :
    receive stream ≠ some (.group name iv tag ciphertext) := by
  simp only [receive]
  split_ifs <;> simp

theorem understood_direct_iff (u : UserInfo) (buf : SignalBuffer) :
    Understood ⟨u, .direct buf.val, [leBytes 8 buf.val.length, buf.val]⟩ ↔
      buf.val.length ≤ maxMessageLen := by
  have hflat : [leBytes 8 buf.val.length, buf.val].flatten =
      leBytes 8 buf.val.length ++ buf.val := by simp
  rw [Understood, hflat, receive_header buf.property]
  split_ifs with hlong
  · simpa using hlong
  · simpa using hlong

/-! ### The senders -/

theorem mem_sendDirectMessage {E : Ciphers} {net : Network} {connects : Bool} {recipient : Name}
    {msg : Bytes} {c : Connection}
    (h : c ∈ (sendDirectMessage E net connects recipient msg).connections) :
    ∃ u, findUser net recipient = some u ∧
      c = ⟨u, .direct (E.serialize u.addr (cstr msg)).val,
        [leBytes 8 (E.serialize u.addr (cstr msg)).val.length,
          (E.serialize u.addr (cstr msg)).val]⟩ := by
  unfold sendDirectMessage at h
  cases hu : findUser net recipient with
  | none => simp [hu, Sent.failed] at h
  | some u =>
    cases connects with
    | false => simp [hu, Sent.failed] at h
    | true =>
      simp only [hu, if_true, List.mem_singleton] at h
      exact ⟨u, rfl, h⟩

theorem groupConnection_message {net : Network} {reached : Bool} {name : NameBuffer} {s : Sealed}
    {member : Name} {c : Connection} (h : groupConnection net reached name s member = some c) :
    c.message = .group name.val s.iv.val s.tag.val s.ciphertext := by
  simp only [groupConnection, Option.ite_none_left_eq_some] at h
  obtain ⟨-, h⟩ := h
  split at h
  · exact absurd h (by simp)
  · simp only [Option.ite_none_right_eq_some, Option.some.injEq] at h
    obtain ⟨-, rfl⟩ := h
    rfl

theorem mem_sendGroupMessage {E : Ciphers} {net : Network} {connects : ℕ → Bool}
    {name : NameBuffer} {msg : Bytes} {c : Connection}
    (h : c ∈ (sendGroupMessage E net connects name msg).connections) :
    ∃ iv tag ciphertext, c.message = .group name.val iv tag ciphertext := by
  simp only [sendGroupMessage] at h
  split at h
  · simp [Sent.failed] at h
  · split at h
    · simp [Sent.failed] at h
    · split_ifs at h
      · simp [Sent.failed] at h
      · obtain ⟨⟨member, j⟩, -, hc⟩ := List.mem_filterMap.1 h
        exact ⟨_, _, _, groupConnection_message hc⟩

/-- On every connection of every send, the receiver gives back the message if and only if
it is a direct message within its limit. -/
theorem understood_iff {E : Ciphers} {net : Network} {call : SendCall} {c : Connection}
    (h : c ∈ (call.send E net).connections) : Understood c ↔ call.Fits E net := by
  cases call with
  | direct connects recipient msg =>
    obtain ⟨u, hu, rfl⟩ := mem_sendDirectMessage h
    rw [understood_direct_iff]
    simp [SendCall.Fits, hu]
  | group connects name msg =>
    obtain ⟨iv, tag, ciphertext, hmessage⟩ := mem_sendGroupMessage h
    refine iff_of_false (fun hreceive => ?_) id
    rw [Understood, hmessage] at hreceive
    exact receive_ne_group _ _ _ _ _ hreceive

namespace Sample

def ann : Name := ⟨ascii "ann", by unfold NulFree; decide⟩

def bob : Name := ⟨ascii "bob", by unfold NulFree; decide⟩

def team : Name := ⟨ascii "team", by unfold NulFree; decide⟩

def teamBuffer : NameBuffer := ⟨ascii "team" ++ List.replicate 28 0, by decide⟩

def localhost : Ip := ⟨ascii "127.0.0.1", by unfold NulFree; decide⟩

/-- `ann` knows `bob` and shares a group with him. -/
def network : Network :=
  (Runs.run directoryStep (initNetwork true ann.val 8888).1
    [.addUser bob localhost 8889 1000, .createGroup team (List.replicate 32 7),
      .joinGroup team bob]).1

/-- A cipher with a byte of overhead, and one with none. -/
def ciphers : Ciphers where
  serialize _ text := ⟨(0x33 :: text).take 8192, by
    rw [List.length_take]
    omega⟩
  encryptAesGcm _ text :=
    some ⟨⟨List.replicate 12 1, by decide⟩, ⟨List.replicate 16 2, by decide⟩, text.map (· ^^^ 0x5a)⟩

end Sample

/-- What `ann` tells `bob` comes back whole. -/
theorem understood_hello :
    let sent := (SendCall.direct true Sample.bob (ascii "hello")).send Sample.ciphers Sample.network
    ∃ c ∈ sent.connections, sent.result = 0 ∧ Understood c := by
  intro sent
  have hsent : sent.connections.length = 1 ∧ sent.result = 0 := by decide +kernel
  obtain ⟨c, hc⟩ := List.exists_mem_of_length_pos (by rw [hsent.1]; exact Nat.one_pos)
  refine ⟨c, hc, hsent.2, (understood_iff hc).2 fun u _ => ?_⟩
  show ((0x33 :: cstr (ascii "hello")).take 8192).length ≤ 4096
  decide

/-- What `ann` tells the group is sent to `bob`, whose receiver takes the name for a length
and closes the connection. -/
theorem group_message_dropped :
    let sent := (SendCall.group (fun _ => true) Sample.teamBuffer (ascii "hello")).send
      Sample.ciphers Sample.network
    ∃ c ∈ sent.connections, sent.result = 0 ∧ c.peer.username = Sample.bob ∧
      receive c.sends.flatten = none ∧ ¬ Understood c := by
  intro sent
  have hsent : sent.result = 0 ∧ sent.connections.length = 1 ∧
      ∀ c ∈ sent.connections, c.peer.username = Sample.bob ∧ receive c.sends.flatten = none := by
    decide +kernel
  obtain ⟨c, hc⟩ := List.exists_mem_of_length_pos (by rw [hsent.2.1]; exact Nat.one_pos)
  obtain ⟨hbob, hnone⟩ := hsent.2.2 c hc
  refine ⟨c, hc, hsent.1, hbob, hnone, fun h => ?_⟩
  rw [Understood, hnone] at h
  exact absurd h (by simp)

end Mesh.P2p
