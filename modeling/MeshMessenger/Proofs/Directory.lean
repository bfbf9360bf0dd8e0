import MeshMessenger.P2p.Network

/-! The directory as a pair of bounded finite maps. The tables are searched by name, so what
makes them maps is that no name occurs twice in one; every branch of every call keeps it so. -/

namespace Mesh.P2p

open CLib Tables

/-! ### The maps -/

/-- Where each user is reached, and who is in each group. -/
structure Directory where
  users : Finmap fun _ : Name => Ip × ℤ
  groups : Finmap fun _ : Name => Finset Name

/-- What a call makes of the maps, the groups it creates starting with `owner` in them;
`none` when it is refused. -/
def Directory.call (owner : Name) (d : Directory) : DirectoryCall → Option Directory
  | .addUser u ip port _ =>
    if u ∈ d.users ∨ d.users.keys.card < maxUsers then
      some { d with users := d.users.insert u (ip, port) }
    else none
  | .createGroup g _ =>
    if g ∈ d.groups ∨ maxUsers ≤ d.groups.keys.card then none
    else some { d with groups := d.groups.insert g {owner} }
  | .joinGroup g u =>
    match d.groups.lookup g with
    | none => none
    | some members =>
      if u ∈ members ∨ maxUsers ≤ members.card then none
      else some { d with groups := d.groups.insert g (insert u members) }

def UserInfo.address (u : UserInfo) : Ip × ℤ := (u.ip, u.port)

def GroupChat.memberSet (g : GroupChat) : Finset Name := g.members.toFinset

def Network.directory (net : Network) : Directory :=
  ⟨toMap UserInfo.username UserInfo.address net.users,
    toMap GroupChat.groupName GroupChat.memberSet net.groups⟩

/-! ### What every call keeps -/

structure GroupChat.WellFormed (owner : Name) (g : GroupChat) : Prop where
  members_nodup : g.members.Nodup
  members_le : g.members.length ≤ maxUsers
  first : g.members.head? = some owner

structure Network.WellFormed (net : Network) : Prop where
  users_nodup : (net.users.map UserInfo.username).Nodup
  users_le : net.users.length ≤ maxUsers
  groups_nodup : (net.groups.map GroupChat.groupName).Nodup
  groups_le : net.groups.length ≤ maxUsers
  groups : ∀ g ∈ net.groups, g.WellFormed net.localUsername

/-- The calls that the directory has no room for or that find what they would make. -/
def Refused (net : Network) : DirectoryCall → Prop
  | .addUser u _ _ _ =>
    u ∉ net.users.map UserInfo.username ∧ net.users.length = maxUsers
  | .createGroup g _ =>
    g ∈ net.groups.map GroupChat.groupName ∨ net.groups.length = maxUsers
  | .joinGroup g u =>
    g ∉ net.groups.map GroupChat.groupName ∨
      ∃ chat ∈ net.groups, chat.groupName = g ∧
        (u ∈ chat.members ∨ chat.members.length = maxUsers)

/-- A call either is refused, in the tables as in the maps, and leaves the tables as they
are, or does to the maps that the tables stand for what it should. -/
def Refines (net : Network) (call : DirectoryCall) : Prop :=
  Refused net call ∧ net.directory.call net.localUsername call = none ∧
      call.apply net = (net, -1) ∨
    ¬ Refused net call ∧ (call.apply net).2 = 0 ∧ (call.apply net).1.WellFormed ∧
      net.directory.call net.localUsername call = some (call.apply net).1.directory

/-! ### The calls, branch by branch -/

theorem addUser_eq {net : Network} (h : net.WellFormed) (u : Name) (ip : Ip) (port now : ℤ) :
    addUser net u ip port now =
      match findUser net u with
      | some r =>
        ({ net with
            users := setRow UserInfo.username u { r with ip := ip, port := port, lastSeen := now }
              net.users }, 0)
      | none =>
        if net.users.length < maxUsers then
          ({ net with users := net.users ++ [⟨u, ip, port, ⟨u.val, 1⟩, now⟩] }, 0)
        else (net, -1) := by
  rw [addUser, scan_eq (fun r hr => if_neg hr) h.users_nodup, findUser]
  cases hrow : row? UserInfo.username u net.users with
  | none => rfl
  | some r =>
    have hr := (row?_some hrow).2
    simp only [hr, if_true, Turn.map]

theorem createGroup_eq {net : Network} (h : net.WellFormed) (g : Name) (key : Bytes) :
    createGroup net g key =
      if g ∈ net.groups.map GroupChat.groupName then (net, -1)
      else if net.groups.length < maxUsers then
        ({ net with groups := net.groups ++ [⟨g, [net.localUsername], key⟩] }, 0)
      else (net, -1) := by
  rw [createGroup, scan_eq (fun r hr => if_neg hr) h.groups_nodup]
  cases hrow : row? GroupChat.groupName g net.groups with
  | none => rw [if_neg (row?_eq_none.1 hrow)]
  | some r =>
    obtain ⟨hmem, hr⟩ := row?_some hrow
    have hg : g ∈ net.groups.map GroupChat.groupName := hr ▸ List.mem_map_of_mem hmem
    simp only [hr, if_true, Turn.map, if_pos hg]

theorem joinGroup_eq {net : Network} (h : net.WellFormed) (g u : Name) :
    joinGroup net g u =
      match row? GroupChat.groupName g net.groups with
      | none => (net, -1)
      | some chat =>
        if u ∈ chat.members then (net, -1)
        else if chat.members.length < maxUsers then
          ({ net with
              groups := setRow GroupChat.groupName g { chat with members := chat.members ++ [u] }
                net.groups }, 0)
        else (net, -1) := by
  rw [joinGroup, scan_eq (fun r hr => if_neg hr) h.groups_nodup]
  cases hrow : row? GroupChat.groupName g net.groups with
  | none => rfl
  | some chat =>
    have hr := (row?_some hrow).2
    simp only [hr, if_true]
    split_ifs <;> rfl

/-! ### Well-formed tables stay so -/

theorem Network.WellFormed.setUser {net : Network} (h : net.WellFormed) {u : Name} {r : UserInfo}
    (hr : r.username = u) :
    { net with users := setRow UserInfo.username u r net.users }.WellFormed := by
  refine { h with users_nodup := ?_, users_le := ?_ }
  · rw [setRow_keys hr]
    exact h.users_nodup
  · rw [setRow_length]
    exact h.users_le

theorem Network.WellFormed.newUser {net : Network} (h : net.WellFormed) {r : UserInfo}
    (hr : r.username ∉ net.users.map UserInfo.username) (hroom : net.users.length < maxUsers) :
    { net with users := net.users ++ [r] }.WellFormed := by
  refine { h with users_nodup := ?_, users_le := ?_ }
  · rw [List.map_append, List.map_singleton]
    exact nodup_append_singleton h.users_nodup hr
  · rw [List.length_append]
    exact hroom

theorem Network.WellFormed.setGroup {net : Network} (h : net.WellFormed) {g : Name}
    {chat : GroupChat} (hname : chat.groupName = g) (hchat : chat.WellFormed net.localUsername) :
    { net with groups := setRow GroupChat.groupName g chat net.groups }.WellFormed := by
  refine { h with groups_nodup := ?_, groups_le := ?_, groups := ?_ }
  · rw [setRow_keys hname]
    exact h.groups_nodup
  · rw [setRow_length]
    exact h.groups_le
  · intro other hother
    rcases mem_setRow hother with rfl | hold
    · exact hchat
    · exact h.groups other hold

theorem Network.WellFormed.newGroup {net : Network} (h : net.WellFormed) {chat : GroupChat}
    (hname : chat.groupName ∉ net.groups.map GroupChat.groupName)
    (hroom : net.groups.length < maxUsers) (hchat : chat.WellFormed net.localUsername) :
    { net with groups := net.groups ++ [chat] }.WellFormed := by
  refine { h with groups_nodup := ?_, groups_le := ?_, groups := ?_ }
  · rw [List.map_append, List.map_singleton]
    exact nodup_append_singleton h.groups_nodup hname
  · rw [List.length_append]
    exact hroom
  · intro other hother
    rcases List.mem_append.1 hother with hold | hnew
    · exact h.groups other hold
    · rw [List.mem_singleton.1 hnew]
      exact hchat

/-- A group with one more member. -/
theorem GroupChat.WellFormed.join {owner u : Name} {chat : GroupChat} (h : chat.WellFormed owner)
    (hu : u ∉ chat.members) (hroom : chat.members.length < maxUsers) :
    GroupChat.WellFormed owner { chat with members := chat.members ++ [u] } := by
  refine ⟨nodup_append_singleton h.members_nodup hu, ?_, ?_⟩
  · rw [List.length_append]
    exact hroom
  · rw [List.head?_append, h.first]
    rfl

/-! ### The calls refine the maps -/

theorem addUser_refines {net : Network} (h : net.WellFormed) (u : Name) (ip : Ip)
    (port now : ℤ) : Refines net (.addUser u ip port now) := by
  have hmem : u ∈ net.directory.users ↔ u ∈ net.users.map UserInfo.username := mem_toMap
  have hcard : net.directory.users.keys.card = net.users.length := card_keys_toMap h.users_nodup
  simp only [Refines, Refused, Directory.call, hmem, hcard, DirectoryCall.apply,
    addUser_eq h u ip port now]
  cases hrow : findUser net u with
  | some r =>
    obtain ⟨hr, hru⟩ := row?_some hrow
    have hu : u ∈ net.users.map UserInfo.username := hru ▸ List.mem_map_of_mem hr
    refine .inr ⟨fun hnot => hnot.1 hu, rfl, h.setUser hru, ?_⟩
    rw [if_pos (.inl hu)]
    simp only [Network.directory]
    rw [toMap_setRow hu (by exact hru)]
    rfl
  | none =>
    have hu := row?_eq_none.1 hrow
    by_cases hroom : net.users.length < maxUsers
    · rw [if_pos (.inr hroom), if_pos hroom]
      refine .inr ⟨fun hfull => by omega, rfl, h.newUser hu hroom, ?_⟩
      simp only [Network.directory]
      rw [toMap_append_singleton hu]
      rfl
    · have hfull : net.users.length = maxUsers := le_antisymm h.users_le (not_lt.1 hroom)
      rw [if_neg hroom, if_neg (not_or.2 ⟨hu, hroom⟩)]
      exact .inl ⟨⟨hu, hfull⟩, rfl, rfl⟩

theorem createGroup_refines {net : Network} (h : net.WellFormed) (g : Name) (key : Bytes) :
    Refines net (.createGroup g key) := by
  have hmem : g ∈ net.directory.groups ↔ g ∈ net.groups.map GroupChat.groupName := mem_toMap
  have hcard : net.directory.groups.keys.card = net.groups.length := card_keys_toMap h.groups_nodup
  simp only [Refines, Refused, Directory.call, hmem, hcard, DirectoryCall.apply,
    createGroup_eq h g key]
  by_cases hg : g ∈ net.groups.map GroupChat.groupName
  · rw [if_pos hg, if_pos (.inl hg)]
    exact .inl ⟨.inl hg, rfl, rfl⟩
  · rw [if_neg hg]
    by_cases hroom : net.groups.length < maxUsers
    · rw [if_pos hroom, if_neg (not_or.2 ⟨hg, not_le.2 hroom⟩)]
      have hone : (⟨g, [net.localUsername], key⟩ : GroupChat).WellFormed net.localUsername :=
        ⟨List.nodup_singleton _, by simp [maxUsers], rfl⟩
      refine .inr ⟨not_or.2 ⟨hg, hroom.ne⟩, rfl, h.newGroup hg hroom hone, ?_⟩
      simp only [Network.directory]
      rw [toMap_append_singleton hg]
      rfl
    · have hfull : net.groups.length = maxUsers := le_antisymm h.groups_le (not_lt.1 hroom)
      rw [if_neg hroom, if_pos (.inr (not_lt.1 hroom))]
      exact .inl ⟨.inr hfull, rfl, rfl⟩

theorem joinGroup_refines {net : Network} (h : net.WellFormed) (g u : Name) :
    Refines net (.joinGroup g u) := by
  have hlookup : net.directory.groups.lookup g =
      (row? GroupChat.groupName g net.groups).map GroupChat.memberSet := lookup_toMap g net.groups
  simp only [Refines, Refused, Directory.call, hlookup, DirectoryCall.apply, joinGroup_eq h g u]
  cases hrow : row? GroupChat.groupName g net.groups with
  | none => exact .inl ⟨.inl (row?_eq_none.1 hrow), rfl, rfl⟩
  | some chat =>
    obtain ⟨hchat, rfl⟩ := row?_some hrow
    have hwf := h.groups chat hchat
    have hg : chat.groupName ∈ net.groups.map GroupChat.groupName := List.mem_map_of_mem hchat
    have hcard : chat.memberSet.card = chat.members.length :=
      List.toFinset_card_of_nodup hwf.members_nodup
    have hmem : u ∈ chat.memberSet ↔ u ∈ chat.members := List.mem_toFinset
    -- no other group has the name
    have honly (other : GroupChat) (hother : other ∈ net.groups)
        (hname : other.groupName = chat.groupName) : other = chat :=
      List.inj_on_of_nodup_map h.groups_nodup hother hchat hname
    simp only [Option.map_some, hcard, hmem]
    by_cases hu : u ∈ chat.members
    · rw [if_pos hu, if_pos (.inl hu)]
      exact .inl ⟨.inr ⟨chat, hchat, rfl, .inl hu⟩, rfl, rfl⟩
    · rw [if_neg hu]
      by_cases hroom : chat.members.length < maxUsers
      · have hname : (⟨chat.groupName, chat.members ++ [u], chat.groupKey⟩ : GroupChat).groupName =
            chat.groupName := rfl
        rw [if_pos hroom, if_neg (not_or.2 ⟨hu, not_le.2 hroom⟩)]
        refine .inr ⟨?_, rfl, h.setGroup hname (hwf.join hu hroom), ?_⟩
        · rintro (habsent | ⟨other, hother, hname, hrefuse⟩)
          · exact habsent hg
          · rw [honly other hother hname] at hrefuse
            exact hrefuse.elim hu hroom.ne
        · simp only [Network.directory]
          have hset : (chat.members ++ [u]).toFinset = insert u chat.members.toFinset := by
            ext name
            simp
          rw [toMap_setRow hg hname, GroupChat.memberSet, GroupChat.memberSet, hset]
      · have hfull := le_antisymm hwf.members_le (not_lt.1 hroom)
        rw [if_neg hroom, if_pos (.inr (not_lt.1 hroom))]
        exact .inl ⟨.inr ⟨chat, hchat, rfl, .inr hfull⟩, rfl, rfl⟩

theorem apply_refines {net : Network} (h : net.WellFormed) (call : DirectoryCall) :
    Refines net call := by
  cases call with
  | addUser u ip port now => exact addUser_refines h u ip port now
  | createGroup g key => exact createGroup_refines h g key
  | joinGroup g u => exact joinGroup_refines h g u

/-! ### Whole call sequences -/

theorem initNetwork_wellFormed (opened : Bool) (username : Bytes) (port : ℤ) :
    (initNetwork opened username port).1.WellFormed :=
  ⟨List.nodup_nil, Nat.zero_le _, List.nodup_nil, Nat.zero_le _, fun g hg =>
    absurd hg (by simp [initNetwork])⟩

/-- The tables are well formed, and every user is at the address of the last successful
`add_user` in the history. -/
structure History (net : Network) (past : List (DirectoryCall × ℤ)) : Prop where
  wellFormed : net.WellFormed
  address : ∀ u, net.directory.users.lookup u = (past.filterMap (addedAddress u)).getLast?

theorem addedAddress_refused (u : Name) (call : DirectoryCall) :
    addedAddress u (call, -1) = none := by
  cases call <;> rfl

/-- What a call that is not refused does to where the users are. -/
theorem Directory.call_users {owner : Name} {d d' : Directory} {call : DirectoryCall}
    (h : d.call owner call = some d') (u : Name) :
    d'.users.lookup u = (addedAddress u (call, 0)).or (d.users.lookup u) := by
  cases call with
  | addUser v ip port now =>
    simp only [Directory.call, Option.ite_none_right_eq_some, Option.some.injEq] at h
    obtain ⟨-, rfl⟩ := h
    by_cases hv : v = u
    · subst hv
      simp [addedAddress, Finmap.lookup_insert]
    · simp [addedAddress, hv, Finmap.lookup_insert_of_ne _ (Ne.symm hv)]
  | createGroup g key =>
    simp only [Directory.call, Option.ite_none_left_eq_some, Option.some.injEq] at h
    obtain ⟨-, rfl⟩ := h
    rfl
  | joinGroup g v =>
    simp only [Directory.call] at h
    split at h
    · exact absurd h (by simp)
    · simp only [Option.ite_none_left_eq_some, Option.some.injEq] at h
      obtain ⟨-, rfl⟩ := h
      rfl

theorem History.step {net : Network} {past : List (DirectoryCall × ℤ)} (h : History net past)
    (call : DirectoryCall) :
    History (directoryStep net call).1 (past ++ (directoryStep net call).2) := by
  have hlast (result : ℤ) (u : Name) :
      ((past ++ [(call, result)]).filterMap (addedAddress u)).getLast? =
        (addedAddress u (call, result)).or (net.directory.users.lookup u) := by
    rw [List.filterMap_append, List.getLast?_append, h.address u]
    cases hadded : addedAddress u (call, result) <;> simp [hadded]
  obtain ⟨-, -, hrefused⟩ | ⟨-, hok, hwf, hcall⟩ := apply_refines h.wellFormed call
  · rw [directoryStep, hrefused]
    exact ⟨h.wellFormed, fun u => by rw [hlast, addedAddress_refused, Option.none_or]⟩
  · refine ⟨hwf, fun u => ?_⟩
    rw [directoryStep, hok, hlast]
    exact Directory.call_users hcall u

theorem run_history (opened : Bool) (username : Bytes) (port : ℤ) (calls : List DirectoryCall) :
    History (Runs.run directoryStep (initNetwork opened username port).1 calls).1
      (Runs.run directoryStep (initNetwork opened username port).1 calls).2 := by
  have hinit : History (initNetwork opened username port).1 [] :=
    ⟨initNetwork_wellFormed opened username port, fun u => rfl⟩
  exact Runs.run_trace_invariant (fun _ _ call h => h.step call) hinit calls

/-- For every sequence of calls after `init_network`: the tables are within bounds, with
distinct names, distinct members and the local user first in every group; a user is found
exactly when an `add_user` of it succeeded, at the address of the last one; and whatever
call comes next returns 0 or -1, -1 exactly when it is refused, in which case it changes
nothing, and does to the tables what it does to the maps they stand for. -/
theorem directory_refines_maps (opened : Bool) (username : Bytes) (port : ℤ)
    (calls : List DirectoryCall) :
    let net := (Runs.run directoryStep (initNetwork opened username port).1 calls).1
    let past := (Runs.run directoryStep (initNetwork opened username port).1 calls).2
    net.WellFormed ∧
      (∀ u, (findUser net u).map UserInfo.address = (past.filterMap (addedAddress u)).getLast?) ∧
      ∀ call : DirectoryCall,
        ((call.apply net).2 = -1 ↔ Refused net call) ∧
        ((call.apply net).2 = 0 ↔ ¬ Refused net call) ∧
        ((call.apply net).2 = -1 → (call.apply net).1 = net) ∧
        (call.apply net).1.directory =
          (net.directory.call net.localUsername call).getD net.directory := by
  intro net past
  have hhistory : History net past := run_history opened username port calls
  clear_value net past
  refine ⟨hhistory.wellFormed, fun u => ?_, fun call => ?_⟩
  · rw [← hhistory.address u]
    exact (lookup_toMap u net.users).symm
  · obtain ⟨hrefused, hnone, happly⟩ | ⟨hallowed, hok, -, hcall⟩ :=
      apply_refines hhistory.wellFormed call
    · simp [hrefused, hnone, happly]
    · simp [hallowed, hok, hcall]

end Mesh.P2p
