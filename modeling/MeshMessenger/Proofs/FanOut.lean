import MeshMessenger.P2p.Sockets
import MeshMessenger.Proofs.Directory
import MeshMessenger.Proofs.Wire

/-! A group message goes to every other member that is known, once each and in the order of
the members, whatever fails on the way; where it goes depends on the addresses. -/

namespace Mesh.P2p

open CLib

/-! ### What a fan-out should do -/

/-- The members other than the local user that `find_user` knows. -/
def otherMembers (net : Network) (members : List Name) : List Name :=
  members.filter fun m => m ≠ net.localUsername ∧ (findUser net m).isSome

/-- The address is the user's `ip` and `port`. -/
structure UserInfo.LocatedAt (u : UserInfo) (addr : SockAddrIn) : Prop where
  ip : inetPton u.ip.val = some addr.sinAddr
  port : u.port = addr.sinPort

/-- The attempt to reach a known member that meets `turn`: none without a socket, otherwise
one to the address of the member, with the frame once it is connected. -/
def RightAttempt (net : Network) (turn : Turn) (frame : List Bytes) (a : Attempt) : Prop :=
  ∃ u, findUser net a.member = some u ∧
    if turn.socket then
      ∃ addr, u.LocatedAt addr ∧
        a = if turn.connect then .sent a.member addr frame else .refused a.member addr
    else a = .noSocket a.member

/-- Every other known member is attempted once, in order, with the right outcome; the message
is saved once and the call succeeds. -/
structure RightFanOut (net : Network) (turns : ℕ → Turn) (members : List Name)
    (frame : List Bytes) (row : SavedMessage) (t : FanOut) : Prop where
  result : t.result = 0
  saved : t.saved = [row]
  reached : t.attempts.map Attempt.member = otherMembers net members
  attempts : ∀ a ∈ t.attempts, ∃ j, members[j]? = some a.member ∧
    RightAttempt net (turns j) frame a

/-! ### The loop -/

/-- The attempt that the loop makes for a known member. -/
def attemptOf (turn : Turn) (u : UserInfo) (member : Name) (frame : List Bytes) : Attempt :=
  if turn.socket then
    if turn.connect then .sent member (sockAddrIn turn.stack u) frame
    else .refused member (sockAddrIn turn.stack u)
  else .noSocket member

theorem attemptOf_member (turn : Turn) (u : UserInfo) (member : Name) (frame : List Bytes) :
    (attemptOf turn u member frame).member = member := by
  unfold attemptOf
  split_ifs <;> rfl

section Loop

variable (net : Network) (turns : ℕ → Turn) (frame : List Bytes)

/-- One turn: an attempt for another member that is known, and none for anyone else. -/
theorem groupAttempts_cons (j : ℕ) (m : Name) (members : List Name) :
    (∃ u, m ≠ net.localUsername ∧ findUser net m = some u ∧
      groupAttempts net turns frame j (m :: members) =
        attemptOf (turns j) u m frame :: groupAttempts net turns frame (j + 1) members) ∨
    ((m = net.localUsername ∨ findUser net m = none) ∧
      groupAttempts net turns frame j (m :: members) =
        groupAttempts net turns frame (j + 1) members) := by
  by_cases hlocal : m = net.localUsername
  · exact Or.inr ⟨Or.inl hlocal, by rw [groupAttempts, if_pos hlocal]⟩
  · cases hu : findUser net m with
    | none => exact Or.inr ⟨Or.inr rfl, by rw [groupAttempts, if_neg hlocal, hu]⟩
    | some u =>
      refine Or.inl ⟨u, hlocal, rfl, ?_⟩
      rw [groupAttempts, if_neg hlocal, hu, attemptOf]
      split_ifs <;> rfl

theorem groupAttempts_members (j : ℕ) (members : List Name) :
    (groupAttempts net turns frame j members).map Attempt.member = otherMembers net members := by
  induction members generalizing j with
  | nil => rfl
  | cons m members ih =>
    obtain ⟨u, hlocal, hu, heq⟩ | ⟨hskip, heq⟩ :=
      groupAttempts_cons net turns frame j m members
    · rw [heq, List.map_cons, attemptOf_member, ih, otherMembers, otherMembers,
        List.filter_cons_of_pos (by simp [hlocal, hu])]
    · rw [heq, ih, otherMembers, otherMembers, List.filter_cons_of_neg]
      obtain hlocal | hnone := hskip
      · simp [hlocal]
      · simp [hnone]

variable {net turns frame}

theorem mem_groupAttempts {j : ℕ} {members : List Name} {a : Attempt}
    (h : a ∈ groupAttempts net turns frame j members) :
    ∃ k u, members[k]? = some a.member ∧ findUser net a.member = some u ∧
      a = attemptOf (turns (j + k)) u a.member frame := by
  induction members generalizing j with
  | nil => simp [groupAttempts] at h
  | cons m members ih =>
    have hrest (h : a ∈ groupAttempts net turns frame (j + 1) members) :
        ∃ k u, (m :: members)[k]? = some a.member ∧ findUser net a.member = some u ∧
          a = attemptOf (turns (j + k)) u a.member frame := by
      obtain ⟨k, u, hk, hu, ha⟩ := ih h
      refine ⟨k + 1, u, hk, hu, ?_⟩
      rwa [Nat.add_right_comm] at ha
    obtain ⟨u, -, hu, heq⟩ | ⟨-, heq⟩ :=
      groupAttempts_cons net turns frame j m members
    · rw [heq] at h
      obtain rfl | h := List.mem_cons.1 h
      · rw [attemptOf_member]
        exact ⟨0, u, rfl, hu, rfl⟩
      · exact hrest h
    · rw [heq] at h
      exact hrest h

end Loop

/-! ### Where the attempts go -/

/-- The texts and numbers that `inet_pton` and `htons` pass on as they are. -/
def UserInfo.Reachable (u : UserInfo) : Prop :=
  (inetPton u.ip.val).isSome ∧ 0 ≤ u.port ∧ u.port < 65536

instance (u : UserInfo) : Decidable u.Reachable :=
  inferInstanceAs (Decidable ((inetPton u.ip.val).isSome ∧ 0 ≤ u.port ∧ u.port < 65536))

theorem locatedAt_sockAddrIn_iff {u : UserInfo} {stack : List UInt8} :
    (∃ addr, u.LocatedAt addr ∧ sockAddrIn stack u = addr) ↔ u.Reachable := by
  refine ⟨?_, fun h => ⟨sockAddrIn stack u, ⟨?_, ?_⟩, rfl⟩⟩
  · rintro ⟨addr, hu, rfl⟩
    have hport : u.port = ((u.port % 65536).toNat : ℤ) := hu.port
    refine ⟨by rw [hu.ip]; rfl, ?_, ?_⟩ <;> omega
  · obtain ⟨ip, hip⟩ := Option.isSome_iff_exists.1 h.1
    rw [sockAddrIn, hip]
    rfl
  · have hport := h.2
    change u.port = ((u.port % 65536).toNat : ℤ)
    omega

theorem rightAttempt_attemptOf {net : Network} (turn : Turn) (frame : List Bytes) {m : Name}
    {u : UserInfo} (hu : findUser net m = some u) (h : u.Reachable) :
    RightAttempt net turn frame (attemptOf turn u m frame) := by
  refine ⟨u, by rw [attemptOf_member, hu], ?_⟩
  rw [attemptOf_member, attemptOf]
  split_ifs
  all_goals first
    | exact ⟨sockAddrIn turn.stack u, (locatedAt_sockAddrIn_iff.2 h).elim fun addr haddr =>
        haddr.2 ▸ haddr.1, rfl⟩
    | rfl

theorem reachable_of_rightAttempt {net : Network} {turn : Turn} {frame : List Bytes} {m : Name}
    {u : UserInfo} (hu : findUser net m = some u) (hsocket : turn.socket = true)
    (hconnect : turn.connect = true) (h : RightAttempt net turn frame (attemptOf turn u m frame)) :
    u.Reachable := by
  obtain ⟨u', hu', h⟩ := h
  rw [attemptOf_member, hu] at hu'
  obtain rfl := Option.some.inj hu'
  rw [if_pos hsocket] at h
  obtain ⟨addr, haddr, heq⟩ := h
  rw [if_pos hconnect, attemptOf_member, attemptOf, if_pos hsocket, if_pos hconnect] at heq
  exact locatedAt_sockAddrIn_iff.1 ⟨addr, haddr, (Attempt.sent.inj heq).2.1⟩

/-! ### Whole calls -/

theorem find?_group {net : Network} (h : net.WellFormed) {g : GroupChat} (hg : g ∈ net.groups)
    {name : Bytes} (hname : g.groupName.val = name) :
    (net.groups.find? fun g => g.groupName.val = name) = some g := by
  have hnodup := h.groups_nodup
  generalize net.groups = groups at hg hnodup
  induction groups with
  | nil => simp at hg
  | cons x groups ih =>
    rw [List.map_cons, List.nodup_cons] at hnodup
    obtain rfl | hg := List.mem_cons.1 hg
    · rw [List.find?_cons_of_pos (by simpa using hname)]
    · have hne : x.groupName.val ≠ name := by
        intro heq
        refine hnodup.1 (List.mem_map.2 ⟨g, hg, ?_⟩)
        exact Subtype.ext (hname.trans heq.symm)
      rw [List.find?_cons_of_neg (by simpa using hne), ih hg hnodup.2]

theorem sendGroupMessageAttempts_eq {E : Ciphers} {net : Network} (h : net.WellFormed)
    {g : GroupChat} (hg : g ∈ net.groups) {name : NameBuffer}
    (hname : g.groupName.val = cstr name.val) {msg : Bytes} {s : Sealed}
    (hs : E.encryptAesGcm g.groupKey (cstr msg) = some s) (hne : s.ciphertext ≠ [])
    (turns : ℕ → Turn) :
    sendGroupMessageAttempts E net turns name msg =
      ⟨0, groupAttempts net turns (groupFrame name s) 0 g.members,
        [⟨net.localUsername.val, [], cstr name.val, cstr msg, true⟩]⟩ := by
  have hpos := List.length_pos_iff.2 hne
  rw [sendGroupMessageAttempts, find?_group h hg hname]
  simp only [hs]
  rw [if_neg (by omega)]

/-- The frames that are sent are those of the completed connections. -/
def Attempt.frame? : Attempt → Option (Name × List Bytes)
  | sent m _ sends => some (m, sends)
  | _ => none

theorem groupAttempts_connections {net : Network} {turns : ℕ → Turn} {name : NameBuffer}
    {s : Sealed} (j : ℕ) (members : List Name) :
    (groupAttempts net turns (groupFrame name s) j members).filterMap Attempt.frame? =
      ((members.zipIdx j).filterMap fun (member, k) =>
        groupConnection net ((turns k).socket && (turns k).connect) name s member).map
        fun c => (c.peer.username, c.sends) := by
  induction members generalizing j with
  | nil => rfl
  | cons m members ih =>
    rw [List.zipIdx_cons, List.filterMap_cons]
    obtain ⟨u, hlocal, hu, heq⟩ | ⟨hskip, heq⟩ :=
      groupAttempts_cons net turns (groupFrame name s) j m members
    · have hname : u.username = m := (Tables.row?_some hu).2
      rw [heq, List.filterMap_cons, ih]
      cases hsocket : (turns j).socket <;> cases hconnect : (turns j).connect <;>
        simp [attemptOf, hsocket, hconnect, Attempt.frame?, groupConnection, hlocal, hu, hname,
          groupFrame]
    · have hnone : groupConnection net ((turns j).socket && (turns j).connect) name s m = none := by
        obtain hlocal | hnone := hskip
        · rw [groupConnection, if_pos hlocal]
        · rw [groupConnection, hnone]
          split_ifs <;> rfl
      rw [heq, ih]
      simp only [hnone]

/-- Attempt by attempt or connection by connection, it is the same call. -/
theorem sendGroupMessageAttempts_sent (E : Ciphers) (net : Network) (turns : ℕ → Turn)
    (name : NameBuffer) (msg : Bytes) :
    let t := sendGroupMessageAttempts E net turns name msg
    let sent := sendGroupMessage E net (fun j => (turns j).socket && (turns j).connect) name msg
    t.result = sent.result ∧ t.saved = sent.saved ∧
      t.attempts.filterMap Attempt.frame? =
        sent.connections.map fun c => (c.peer.username, c.sends) := by
  simp only [sendGroupMessageAttempts, sendGroupMessage]
  cases net.groups.find? fun g => g.groupName.val = cstr name.val with
  | none => exact ⟨rfl, rfl, rfl⟩
  | some g =>
    cases hs : E.encryptAesGcm g.groupKey (cstr msg) with
    | none => simp only [hs]; exact ⟨rfl, rfl, rfl⟩
    | some s =>
      simp only [hs]
      split_ifs
      · exact ⟨rfl, rfl, rfl⟩
      · exact ⟨rfl, rfl, groupAttempts_connections 0 g.members⟩

/-- After any calls of the directory, for a group and a message that is encrypted: the other
known members are distinct, and `send_group_message` reaches each of them as it should,
whatever fails, exactly if they all have an IPv4 address and a port of sixteen bits. -/
theorem fan_out_right_iff {E : Ciphers} {opened : Bool} {username : Bytes} {port : ℤ}
    {calls : List DirectoryCall} {net : Network}
    (hnet : net = (Runs.run directoryStep (initNetwork opened username port).1 calls).1)
    {g : GroupChat} (hg : g ∈ net.groups) {name : NameBuffer}
    (hname : g.groupName.val = cstr name.val) {msg : Bytes}
    (hmsg : cstr msg ≠ [] ∧ (cstr msg).length < maxMessageLen) {s : Sealed}
    (hs : E.encryptAesGcm g.groupKey (cstr msg) = some s)
    (hgcm : s.ciphertext.length = (cstr msg).length) :
    (otherMembers net g.members).Nodup ∧
    ((∀ turns, RightFanOut net turns g.members (groupFrame name s)
        ⟨net.localUsername.val, [], cstr name.val, cstr msg, true⟩
        (sendGroupMessageAttempts E net turns name msg)) ↔
      ∀ m ∈ otherMembers net g.members, ∀ u, findUser net m = some u → u.Reachable) := by
  have hwf : net.WellFormed := hnet ▸ (run_history opened username port calls).wellFormed
  have hne : s.ciphertext ≠ [] := by
    rw [← List.length_pos_iff, hgcm]
    exact List.length_pos_iff.2 hmsg.1
  refine ⟨(hwf.groups g hg).members_nodup.filter _, fun h m hm u hu => ?_, fun h turns => ?_⟩
  · -- with every socket and connection at hand, the attempt for `m` shows its address
    have hright := h fun _ => ⟨true, true, []⟩
    rw [sendGroupMessageAttempts_eq hwf hg hname hs hne] at hright
    obtain ⟨a, ha, rfl⟩ := List.mem_map.1 (hright.reached.symm ▸ hm)
    obtain ⟨k, u', -, hu', heq⟩ := mem_groupAttempts ha
    obtain ⟨j, -, hattempt⟩ := hright.attempts a ha
    rw [heq] at hattempt
    rw [hu] at hu'
    obtain rfl := Option.some.inj hu'
    exact reachable_of_rightAttempt hu rfl rfl hattempt
  · rw [sendGroupMessageAttempts_eq hwf hg hname hs hne]
    refine ⟨rfl, rfl, groupAttempts_members net turns _ 0 g.members, fun a ha => ?_⟩
    obtain ⟨k, u, hk, hu, heq⟩ := mem_groupAttempts ha
    have hmem : a.member ∈ otherMembers net g.members := by
      rw [← groupAttempts_members net turns (groupFrame name s) 0 g.members]
      exact List.mem_map_of_mem ha
    have hright := rightAttempt_attemptOf (turns (0 + k)) (groupFrame name s) hu
      (h a.member hmem u hu)
    rw [← heq, Nat.zero_add] at hright
    exact ⟨k, hk, hright⟩

namespace Sample

def teamKey : Bytes := List.replicate 32 7

def teamChat : GroupChat := ⟨team, [ann, bob], teamKey⟩

theorem iv_length : (List.replicate 12 (1 : UInt8)).length = 12 := rfl

theorem tag_length : (List.replicate 16 (2 : UInt8)).length = 16 := rfl

/-- `hello`, encrypted for the group. -/
def sealedHello : Sealed := ⟨⟨_, iv_length⟩, ⟨_, tag_length⟩, (ascii "hello").map (· ^^^ 0x5a)⟩

def loopback6 : Ip := ⟨ascii "::1", by unfold NulFree; decide⟩

def eve : Name := ⟨ascii "eve", by unfold NulFree; decide⟩

/-- As `network`, with another member. -/
def network3 : Network :=
  (Runs.run directoryStep (initNetwork true ann.val 8888).1
    [.addUser eve localhost 8890 1000, .addUser bob localhost 8889 1000, .createGroup team teamKey,
      .joinGroup team bob, .joinGroup team eve]).1

def teamChat3 : GroupChat := ⟨team, [ann, bob, eve], teamKey⟩

/-- As `network`, but `bob` has an IPv6 address. -/
def network6 : Network :=
  (Runs.run directoryStep (initNetwork true ann.val 8888).1
    [.addUser bob loopback6 8889 1000, .createGroup team teamKey, .joinGroup team bob]).1

end Sample

/-- The fan-out to `bob` and then to `eve`, whatever fails. -/
theorem fan_out_to_both :
    Sample.teamChat3 ∈ Sample.network3.groups ∧
    otherMembers Sample.network3 Sample.teamChat3.members = [Sample.bob, Sample.eve] ∧
    ∀ turns, RightFanOut Sample.network3 turns [Sample.ann, Sample.bob, Sample.eve]
      (groupFrame Sample.teamBuffer Sample.sealedHello)
      ⟨Sample.ann.val, [], ascii "team", ascii "hello", true⟩
      (sendGroupMessageAttempts Sample.ciphers Sample.network3 turns Sample.teamBuffer
        (ascii "hello")) := by
  obtain ⟨hgroup, hothers, hreachable⟩ : Sample.teamChat3 ∈ Sample.network3.groups ∧
      otherMembers Sample.network3 Sample.teamChat3.members = [Sample.bob, Sample.eve] ∧
      ∀ m ∈ otherMembers Sample.network3 Sample.teamChat3.members,
        ∀ u ∈ findUser Sample.network3 m, u.Reachable := by decide +kernel
  have hmsg : cstr (ascii "hello") ≠ [] ∧ (cstr (ascii "hello")).length < maxMessageLen := by
    decide
  have hs : Sample.ciphers.encryptAesGcm Sample.teamChat3.groupKey (cstr (ascii "hello")) =
      some Sample.sealedHello := rfl
  have hname : Sample.teamChat3.groupName.val = cstr Sample.teamBuffer.val := by decide
  exact ⟨hgroup, hothers, (fan_out_right_iff (show Sample.network3 = _ from rfl) hgroup
    hname hmsg hs (by decide)).2.2 hreachable⟩

/-- With an IPv6 address, the message for `bob` goes to the address that was on the stack. -/
theorem fan_out_stale_address :
    inetPton Sample.loopback6.val = none ∧ Sample.teamChat ∈ Sample.network6.groups ∧
    (sendGroupMessageAttempts Sample.ciphers Sample.network6
        (fun _ => ⟨true, true, [10, 0, 0, 9]⟩) Sample.teamBuffer (ascii "hello")).attempts =
      [.sent Sample.bob ⟨[10, 0, 0, 9], 8889⟩
        (groupFrame Sample.teamBuffer Sample.sealedHello)] ∧
    ¬ RightFanOut Sample.network6 (fun _ => ⟨true, true, [10, 0, 0, 9]⟩) Sample.teamChat.members
      (groupFrame Sample.teamBuffer Sample.sealedHello)
      ⟨Sample.ann.val, [], ascii "team", ascii "hello", true⟩
      (sendGroupMessageAttempts Sample.ciphers Sample.network6
        (fun _ => ⟨true, true, [10, 0, 0, 9]⟩) Sample.teamBuffer (ascii "hello")) := by
  have hattempts : (sendGroupMessageAttempts Sample.ciphers Sample.network6
      (fun _ => ⟨true, true, [10, 0, 0, 9]⟩) Sample.teamBuffer (ascii "hello")).attempts =
      [.sent Sample.bob ⟨[10, 0, 0, 9], 8889⟩
        (groupFrame Sample.teamBuffer Sample.sealedHello)] := by decide +kernel
  obtain ⟨hnone, hgroup, hbob⟩ : inetPton Sample.loopback6.val = none ∧
      Sample.teamChat ∈ Sample.network6.groups ∧
      ∀ u ∈ findUser Sample.network6 Sample.bob, u.ip = Sample.loopback6 := by decide +kernel
  refine ⟨hnone, hgroup, hattempts, fun h => ?_⟩
  obtain ⟨j, -, u, hu, hright⟩ := h.attempts _ (hattempts ▸ List.mem_singleton_self _)
  obtain ⟨addr, haddr, -⟩ := hright
  have hip := haddr.ip
  rw [hbob u hu, hnone] at hip
  cases hip

end Mesh.P2p
