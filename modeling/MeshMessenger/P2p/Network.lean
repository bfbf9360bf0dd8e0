import MeshMessenger.Lib.CString
import MeshMessenger.Lib.Runs
import MeshMessenger.Lib.Tables

/-! The directory of `p2p_messenger/network.c`: who can be reached where, and who is in
which group. An array of the source and its count are a list here; the database, the
Signal store and the mutex, which serialises the calls, have no part in it. -/

namespace Mesh.P2p

open CLib Tables

def maxUsers : ℕ := 100

/-- `char[MAX_USERNAME_LEN]` and `char[MAX_GROUP_NAME_LEN]`. -/
abbrev Name : Type := CStr 32

/-- `char[INET6_ADDRSTRLEN]`. -/
abbrev Ip : Type := CStr 46

structure SignalAddress where
  name : Bytes
  deviceId : ℤ
deriving DecidableEq

structure UserInfo where
  username : Name
  ip : Ip
  port : ℤ
  addr : SignalAddress
  lastSeen : ℤ
deriving DecidableEq

structure GroupChat where
  groupName : Name
  members : List Name
  groupKey : Bytes
deriving DecidableEq

structure Network where
  users : List UserInfo
  groups : List GroupChat
  localUsername : Name
  localPort : ℤ
deriving DecidableEq

/-- The state that `init_network` leaves, and its result; `opened` is whether
`sqlite3_open` succeeds. -/
def initNetwork (opened : Bool) (username : Bytes) (port : ℤ) : Network × ℤ :=
  (⟨[], [], CStr.strncpy 31 username, port⟩, if opened then 0 else -1)

/-- `now` is what `time(0)` returns. -/
def addUser (net : Network) (username : Name) (ip : Ip) (port now : ℤ) : Network × ℤ :=
  match scan (fun u : UserInfo =>
      if u.username = username then .done { u with ip := ip, port := port, lastSeen := now }
      else .next) net.users with
  | .done users => ({ net with users := users }, 0)
  | .fail => (net, -1)
  | .next =>
    if net.users.length < maxUsers then
      let u : UserInfo := ⟨username, ip, port, ⟨username.val, 1⟩, now⟩
      ({ net with users := net.users ++ [u] }, 0)
    else (net, -1)

def findUser (net : Network) (username : Name) : Option UserInfo :=
  row? UserInfo.username username net.users

/-- `key` is what `RAND_bytes` writes. -/
def createGroup (net : Network) (name : Name) (key : Bytes) : Network × ℤ :=
  match scan (fun g : GroupChat => if g.groupName = name then .fail else .next) net.groups with
  | .done groups => ({ net with groups := groups }, 0)
  | .fail => (net, -1)
  | .next =>
    if net.groups.length < maxUsers then
      let g : GroupChat := ⟨name, [net.localUsername], key⟩
      ({ net with groups := net.groups ++ [g] }, 0)
    else (net, -1)

/-- The outer loop goes on after a group of that name that is full. -/
def joinGroup (net : Network) (name user : Name) : Network × ℤ :=
  match scan (fun g : GroupChat =>
      if g.groupName = name then
        if user ∈ g.members then .fail
        else if g.members.length < maxUsers then .done { g with members := g.members ++ [user] }
        else .next
      else .next) net.groups with
  | .done groups => ({ net with groups := groups }, 0)
  | .fail => (net, -1)
  | .next => (net, -1)

/-! ### Call sequences -/

inductive DirectoryCall where
  | addUser (username : Name) (ip : Ip) (port now : ℤ)
  | createGroup (name : Name) (key : Bytes)
  | joinGroup (name user : Name)
deriving DecidableEq

def DirectoryCall.apply (net : Network) : DirectoryCall → Network × ℤ
  | .addUser username ip port now => P2p.addUser net username ip port now
  | .createGroup name key => P2p.createGroup net name key
  | .joinGroup name user => P2p.joinGroup net name user

def directoryStep (net : Network) (call : DirectoryCall) : Network × List (DirectoryCall × ℤ) :=
  ((call.apply net).1, [(call, (call.apply net).2)])

def addedAddress (username : Name) : DirectoryCall × ℤ → Option (Ip × ℤ)
  | (.addUser u ip port _, 0) => if u = username then some (ip, port) else none
  | _ => none

end Mesh.P2p
