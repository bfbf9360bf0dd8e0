import MeshMessenger.P2p.Sockets
import MeshMessenger.Proofs.Wire

/-! Which ways of splitting the stream of a direct message the receiver can read. -/

namespace Mesh.P2p

open CLib

theorem recv_eq (n : ℕ) (c : Bytes) (rest : List Bytes) : (recv n (c :: rest)).1 = c.take n := by
  rw [recv]
  split_ifs with h
  · exact (List.take_of_length_le h).symm
  · rfl

theorem overlay_of_length {got old : Bytes} (h : got.length = old.length) : overlay got old = got := by
  rw [overlay, h, List.drop_length, List.append_nil]

/-- A length with 255 as its last byte is beyond the receiver's limit. -/
theorem maxMessageLen_lt_ofLeBytes {b : Bytes} (h : b.length = 7) :
    maxMessageLen < ofLeBytes (b ++ [255]) := by
  rw [ofLeBytes, List.map_append, Nat.ofDigits_append, List.length_map, h]
  have hdigit : Nat.ofDigits 256 (List.map UInt8.toNat [255]) = 255 := by decide
  rw [hdigit, maxMessageLen]
  omega

/-- A first `recv` that does not fill `msg_len` leaves its last byte to the stack. -/
theorem receiverTurn_short {c : Bytes} (hc : c.length < 8) (rest : List Bytes) (heap : ℕ → UInt8) :
    receiverTurn ⟨List.replicate 8 255, rfl⟩ heap (c :: rest) = none := by
  have hrecv : recv 8 (c :: rest) = (c, rest) := by rw [recv, if_pos (by omega)]
  have hheader : overlay c (List.replicate 8 255) =
      (c ++ List.replicate (7 - c.length) 255) ++ [255] := by
    have hcount : 8 - c.length = (7 - c.length) + 1 := by omega
    rw [overlay, List.drop_replicate, hcount, List.replicate_succ', List.append_assoc]
  have hlarge := maxMessageLen_lt_ofLeBytes (b := c ++ List.replicate (7 - c.length) 255) (by
    rw [List.length_append, List.length_replicate]
    omega)
  simp only [receiverTurn, hrecv, hheader]
  rw [if_pos hlarge]

/-- What is left of the stream once the whole prefix was read at once. -/
def afterPrefix (d : Bytes) (rest : List Bytes) : List Bytes := if d = [] then rest else d :: rest

theorem receiverTurn_header {n : ℕ} (hn : n ≤ maxMessageLen) (d : Bytes) (rest : List Bytes)
    (stack : { b : Bytes // b.length = 8 }) (heap : ℕ → UInt8) :
    receiverTurn stack heap ((leBytes 8 n ++ d) :: rest) =
      some (overlay (recv n (afterPrefix d rest)).1 ((List.range n).map heap), n) := by
  have hpre := leBytes_length 8 n
  have hrecv : recv 8 ((leBytes 8 n ++ d) :: rest) = (leBytes 8 n, afterPrefix d rest) := by
    unfold afterPrefix
    split_ifs with hd
    · rw [hd, List.append_nil, recv, if_pos hpre.le]
    · have hpos := List.length_pos_iff.2 hd
      rw [recv, if_neg (by rw [List.length_append]; omega), List.take_left' hpre,
        List.drop_left' hpre]
  have hheader : ofLeBytes (overlay (leBytes 8 n) stack.val) = n := by
    rw [overlay_of_length (hpre.trans stack.property.symm)]
    apply ofLeBytes_leBytes
    rw [maxMessageLen] at hn
    omega
  simp only [receiverTurn, hrecv, hheader]
  rw [if_neg (by omega)]

/-- The second `recv` must bring the whole ciphertext, or the heap shows through. -/
theorem overlay_eq_iff {got ct : Bytes} (h : got <+: ct) :
    (∀ heap : ℕ → UInt8, overlay got ((List.range ct.length).map heap) = ct) ↔ got = ct := by
  refine ⟨fun hall => ?_, fun heq heap => ?_⟩
  · by_contra hne
    have hlt : got.length < ct.length := by
      refine lt_of_le_of_ne h.length_le fun heq => hne (h.eq_of_length heq)
    have hall' := hall fun i => ct.getD i 0 + 1
    have hbyte : (overlay got ((List.range ct.length).map fun i => ct.getD i 0 + 1))[got.length]? =
        some (ct[got.length] + 1) := by
      rw [overlay, List.getElem?_append_right le_rfl, Nat.sub_self, List.getElem?_drop, Nat.add_zero,
        List.getElem?_map, List.getElem?_range hlt]
      simp [hlt]
    rw [hall', List.getElem?_eq_getElem hlt] at hbyte
    have := Option.some.inj hbyte
    simp at this
  · rw [heq, overlay_of_length (by simp)]

/-- With the prefix read, what arrives first must be all of the ciphertext. -/
theorem afterPrefix_whole_iff {d ct : Bytes} {rest : List Bytes} (hrest : ∀ x ∈ rest, x ≠ [])
    (hsplit : d ++ rest.flatten = ct) :
    (recv ct.length (afterPrefix d rest)).1 = ct ↔
      (d = ct ∧ rest = []) ∨ (d = [] ∧ rest = [ct]) := by
  have hnil {l : List Bytes} (hl : ∀ x ∈ l, x ≠ []) (hflat : l.flatten = []) : l = [] := by
    cases l with
    | nil => rfl
    | cons x l => exact absurd (List.flatten_eq_nil_iff.1 hflat x (by simp)) (hl x (by simp))
  -- a first piece that has all the bytes leaves nothing for the others
  have hfirst {x : Bytes} {l : List Bytes} (hl : ∀ y ∈ l, y ≠ []) (hflat : x ++ l.flatten = ct)
      (hx : x.take ct.length = ct) : x = ct ∧ l = [] := by
    have hle : ct.length ≤ x.length := by
      rw [← hx, List.length_take]
      exact (min_le_right _ _)
    have hlength := congrArg List.length hflat
    rw [List.length_append] at hlength
    have hempty := List.length_eq_zero_iff.1 (by omega : l.flatten.length = 0)
    rw [hempty, List.append_nil] at hflat
    exact ⟨hflat, hnil hl hempty⟩
  by_cases hd : d = []
  · rw [afterPrefix, if_pos hd]
    rw [hd, List.nil_append] at hsplit
    cases rest with
    | nil =>
      rw [List.flatten_nil] at hsplit
      simp [recv, hd, ← hsplit]
    | cons x rest =>
      rw [recv_eq]
      refine ⟨fun h => Or.inr ⟨hd, ?_⟩, fun h => ?_⟩
      · obtain ⟨rfl, rfl⟩ := hfirst (fun y hy => hrest y (by simp [hy])) hsplit h
        rfl
      · obtain ⟨-, hcons⟩ | ⟨-, hcons⟩ := h
        · cases hcons
        · obtain ⟨rfl, -⟩ := List.cons.inj hcons
          exact List.take_length
  · rw [afterPrefix, if_neg hd, recv_eq]
    refine ⟨fun h => Or.inl (hfirst hrest hsplit h), fun h => ?_⟩
    obtain ⟨rfl, -⟩ | ⟨hnil, -⟩ := h
    · exact List.take_length
    · exact absurd hnil hd

theorem recv_isPrefix (n : ℕ) (chunks : List Bytes) : (recv n chunks).1 <+: chunks.flatten := by
  cases chunks with
  | nil => exact List.nil_prefix
  | cons c rest =>
    rw [recv_eq, List.flatten_cons]
    exact (List.take_prefix n c).trans (List.prefix_append _ _)

theorem flatten_afterPrefix (d : Bytes) (rest : List Bytes) :
    (afterPrefix d rest).flatten = d ++ rest.flatten := by
  unfold afterPrefix
  split_ifs with hd
  · rw [hd, List.nil_append]
  · exact List.flatten_cons

/-- The receiver and a stream of a length and that many bytes, in any pieces. -/
theorem receiverTurn_iff {ct : Bytes} (hlen : ct.length ≤ maxMessageLen) {chunks : List Bytes}
    (hchunks : ∀ x ∈ chunks, x ≠ []) (hsplit : chunks.flatten = leBytes 8 ct.length ++ ct) :
    (∀ stack heap, receiverTurn stack heap chunks = some (ct, ct.length)) ↔
      chunks = [leBytes 8 ct.length ++ ct] ∨ chunks = [leBytes 8 ct.length, ct] := by
  have hpre := leBytes_length 8 ct.length
  cases chunks with
  | nil =>
    have := congrArg List.length hsplit
    rw [List.flatten_nil, List.length_append, hpre, List.length_nil] at this
    omega
  | cons x rest =>
    rw [List.flatten_cons] at hsplit
    by_cases hx : x.length < 8
    · refine iff_of_false (fun h => ?_) ?_
      · have hread := h ⟨List.replicate 8 255, rfl⟩ fun _ => 0
        rw [receiverTurn_short hx] at hread
        cases hread
      · rintro (h | h)
        · rw [(List.cons.inj h).1, List.length_append] at hx
          omega
        · rw [(List.cons.inj h).1] at hx
          omega
    · -- the first piece holds the prefix and a part `d` of the ciphertext
      obtain ⟨d, rfl⟩ : leBytes 8 ct.length <+: x := by
        have hboth := List.prefix_append (leBytes 8 ct.length) ct
        rw [← hsplit] at hboth
        exact List.prefix_of_prefix_length_le hboth (List.prefix_append _ _) (by omega)
      rw [List.append_assoc] at hsplit
      have htail := List.append_cancel_left hsplit
      have hrest : ∀ y ∈ rest, y ≠ [] := fun y hy => hchunks y (by simp [hy])
      have hgot : (recv ct.length (afterPrefix d rest)).1 <+: ct := by
        have hboth := recv_isPrefix ct.length (afterPrefix d rest)
        rwa [flatten_afterPrefix, htail] at hboth
      have hread : (∀ stack heap, receiverTurn stack heap
          ((leBytes 8 ct.length ++ d) :: rest) = some (ct, ct.length)) ↔
          (recv ct.length (afterPrefix d rest)).1 = ct := by
        simp only [receiverTurn_header hlen, Option.some.injEq, Prod.mk.injEq, and_true]
        rw [← overlay_eq_iff hgot]
        exact ⟨fun h => h ⟨List.replicate 8 0, rfl⟩, fun h _ => h⟩
      rw [hread, afterPrefix_whole_iff hrest htail]
      simp

/-- In one piece the receiver reads from a stream what `receive` says. -/
theorem receiverTurn_single {n : ℕ} (hn : n ≤ maxMessageLen) {data : Bytes} (hdata : n ≤ data.length)
    (stack : { b : Bytes // b.length = 8 }) (heap : ℕ → UInt8) :
    (receiverTurn stack heap [leBytes 8 n ++ data]).map (fun r => Message.direct r.1) =
      receive (leBytes 8 n ++ data) := by
  have hgot : (recv n (afterPrefix data [])).1 = data.take n := by
    unfold afterPrefix
    split_ifs with hd
    · rw [hd, List.take_nil]
      rfl
    · exact recv_eq n data []
  have hlength : (data.take n).length = ((List.range n).map heap).length := by
    rw [List.length_take, List.length_map, List.length_range, Nat.min_eq_left hdata]
  rw [receiverTurn_header hn, hgot, overlay_of_length hlength,
    receive_header (by rw [maxMessageLen] at hn; omega), if_neg (by omega)]
  rfl

/-- A direct message is passed on as it was sent, whatever is in the receiver's memory,
exactly if it arrives in one piece or in the two pieces of the `send` calls. -/
theorem reception_whole_iff {E : Ciphers} {net : Network} {connects : Bool} {recipient : Name}
    {msg ct : Bytes} {c : Connection} {chunks : List Bytes}
    (hc : c ∈ (sendDirectMessage E net connects recipient msg).connections)
    (hct : c.message = .direct ct) (hlen : ct.length ≤ maxMessageLen)
    (hchunks : ∀ x ∈ chunks, x ≠ []) (hsplit : chunks.flatten = c.sends.flatten) :
    (∀ stack heap, receiverTurn stack heap chunks = some (ct, ct.length)) ↔
      chunks = [c.sends.flatten] ∨ chunks = c.sends := by
  obtain ⟨u, -, rfl⟩ := mem_sendDirectMessage hc
  obtain rfl := Message.direct.inj hct
  have hflat : [leBytes 8 (E.serialize u.addr (cstr msg)).val.length,
      (E.serialize u.addr (cstr msg)).val].flatten =
      leBytes 8 (E.serialize u.addr (cstr msg)).val.length ++
        (E.serialize u.addr (cstr msg)).val := by simp
  rw [hflat] at hsplit ⊢
  exact receiverTurn_iff hlen hchunks hsplit

namespace Sample

/-- What `ann` sends to `bob`: a message of six bytes. -/
def helloConnection : Connection where
  peer := ⟨bob, localhost, 8889, ⟨bob.val, 1⟩, 1000⟩
  message := .direct (0x33 :: ascii "hello")
  sends := [leBytes 8 6, 0x33 :: ascii "hello"]

theorem helloConnection_mem :
    helloConnection ∈ (sendDirectMessage ciphers network true bob (ascii "hello")).connections := by
  decide +kernel

end Sample

/-- The two pieces in which `ann` sent the message. -/
theorem reception_in_two_pieces :
    Sample.helloConnection.sends.length = 2 ∧ ∀ stack heap,
      receiverTurn stack heap Sample.helloConnection.sends = some (0x33 :: ascii "hello", 6) :=
  ⟨rfl, (reception_whole_iff Sample.helloConnection_mem rfl (by decide) (by decide) rfl).2
    (Or.inr rfl)⟩

/-- The same message with its first byte on its own. -/
theorem reception_split_prefix :
    Sample.helloConnection ∈
      (sendDirectMessage Sample.ciphers Sample.network true Sample.bob (ascii "hello")).connections ∧
    Sample.helloConnection.sends.flatten =
      [[6], [0, 0, 0, 0, 0, 0, 0] ++ 0x33 :: ascii "hello"].flatten ∧
    receiverTurn ⟨List.replicate 8 255, rfl⟩ (fun _ => 0)
      [[6], [0, 0, 0, 0, 0, 0, 0] ++ 0x33 :: ascii "hello"] = none ∧
    receiverTurn ⟨List.replicate 8 0, rfl⟩ (fun _ => 0)
      [[6], [0, 0, 0, 0, 0, 0, 0] ++ 0x33 :: ascii "hello"] = some ([0, 0, 0, 0, 0, 0], 6) :=
  ⟨Sample.helloConnection_mem, by decide, by decide, by decide⟩

end Mesh.P2p
