import MeshMessenger.P2p.Network

/-! The two senders and the receiver of `p2p_messenger/network.c`, up to the bytes on a
connection. What the Signal library and AES-GCM make of a text are parameters; sizes are
those of a 64-bit little-endian host. -/

namespace Mesh.P2p

open CLib

def maxMessageLen : ℕ := 4096

inductive Message where
  | direct (ciphertext : Bytes)
  | group (name iv tag ciphertext : Bytes)
deriving DecidableEq

/-- A `signal_buffer`: its length is a `size_t`. -/
abbrev SignalBuffer : Type := { b : Bytes // b.length < 2 ^ 64 }

/-- The 32 bytes at a `group_name` argument, the string's terminator among them. -/
abbrev NameBuffer : Type := { b : Bytes // b.length = 32 ∧ (0 : UInt8) ∈ b }

structure Sealed where
  iv : { b : Bytes // b.length = 12 }
  tag : { b : Bytes // b.length = 16 }
  ciphertext : Bytes

structure Ciphers where
  serialize : SignalAddress → Bytes → SignalBuffer
  /-- `encrypt_aes_gcm` of a text under a key; `none` when it returns -1. -/
  encryptAesGcm : Bytes → Bytes → Option Sealed

structure SavedMessage where
  fromUser : Bytes
  toUser : Bytes
  groupName : Bytes
  data : Bytes
  isGroup : Bool
deriving DecidableEq

structure Connection where
  peer : UserInfo
  message : Message
  sends : List Bytes
deriving DecidableEq

structure Sent where
  result : ℤ
  connections : List Connection
  saved : List SavedMessage
deriving DecidableEq

def Sent.failed : Sent := ⟨-1, [], []⟩

/-- `connects` is whether `socket` and `connect` succeed. -/
def sendDirectMessage (E : Ciphers) (net : Network) (connects : Bool) (recipient : Name)
    (msg : Bytes) : Sent :=
  match findUser net recipient with
  | none => .failed
  | some u =>
    let buf := (E.serialize u.addr (cstr msg)).val
    if connects then
      ⟨0, [⟨u, .direct buf, [leBytes 8 buf.length, buf]⟩],
        [⟨net.localUsername.val, recipient.val, [], buf, false⟩]⟩
    else .failed

def groupConnection (net : Network) (reached : Bool) (name : NameBuffer) (s : Sealed)
    (member : Name) : Option Connection :=
  if member = net.localUsername then none
  else
    match findUser net member with
    | none => none
    | some u =>
      if reached then
        some ⟨u, .group name.val s.iv.val s.tag.val s.ciphertext,
          [name.val, s.iv.val, s.tag.val, leBytes 4 s.ciphertext.length, s.ciphertext]⟩
      else none

/-- `connects j` is whether `socket` and `connect` succeed for the `j`-th member. -/
def sendGroupMessage (E : Ciphers) (net : Network) (connects : ℕ → Bool) (name : NameBuffer)
    (msg : Bytes) : Sent :=
  match net.groups.find? fun g => g.groupName.val = cstr name.val with
  | none => .failed
  | some g =>
    match E.encryptAesGcm g.groupKey (cstr msg) with
    | none => .failed
    | some s =>
      if s.ciphertext.length ≤ 0 then .failed
      else
        ⟨0, g.members.zipIdx.filterMap fun (member, j) =>
            groupConnection net (connects j) name s member,
          [⟨net.localUsername.val, [], cstr name.val, cstr msg, true⟩]⟩

/-- What `receiver_thread` makes of the bytes on a connection: `none` when it closes it
without reading a message. -/
def receive (stream : Bytes) : Option Message :=
  let (header, rest) := stream.splitAt 8
  let msgLen := ofLeBytes header
  if msgLen > maxMessageLen then none
  else
    let (buf, _) := rest.splitAt msgLen
    some (.direct buf)

/-! ### Both senders -/

inductive SendCall where
  | direct (connects : Bool) (recipient : Name) (msg : Bytes)
  | group (connects : ℕ → Bool) (name : NameBuffer) (msg : Bytes)

def SendCall.send (E : Ciphers) (net : Network) : SendCall → Sent
  | .direct connects recipient msg => sendDirectMessage E net connects recipient msg
  | .group connects name msg => sendGroupMessage E net connects name msg

end Mesh.P2p
