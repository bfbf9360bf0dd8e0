import MeshMessenger.P2p.Wire

/-! The socket calls of `p2p_messenger/network.c`: the address a sender connects to, every
attempt of a fan-out, and what the `recv` calls of the receiver leave in its memory. -/

namespace Mesh.P2p

open CLib

/-! ### Addresses -/

def octet (s : Bytes) : Option UInt8 :=
  let value := s.foldl (fun n c => n * 10 + (c.toNat - 48)) 0
  if s ≠ [] ∧ s.all (fun c => 48 ≤ c && c ≤ 57) ∧ (s.head? = some 48 → s = [48]) ∧ value ≤ 255 then
    some (UInt8.ofNat value)
  else none

/-- `inet_pton(AF_INET, ...)`, which writes nothing when the text is not an IPv4 address. -/
def inetPton (s : Bytes) : Option (List UInt8) :=
  let parts := s.splitOn 46
  if parts.length = 4 then parts.mapM octet else none

structure SockAddrIn where
  sinAddr : List UInt8
  sinPort : ℕ
deriving DecidableEq

def sockAddrIn (stack : List UInt8) (u : UserInfo) : SockAddrIn where
  sinAddr := (inetPton u.ip.val).getD stack
  sinPort := (u.port % 65536).toNat

/-! ### Fan-out -/

/-- What one turn of the loop meets: whether `socket` and `connect` succeed, and what is on
the stack where `addr` is declared. -/
structure Turn where
  socket : Bool
  connect : Bool
  stack : List UInt8

inductive Attempt where
  | noSocket (member : Name)
  | refused (member : Name) (addr : SockAddrIn)
  | sent (member : Name) (addr : SockAddrIn) (sends : List Bytes)
deriving DecidableEq

def Attempt.member : Attempt → Name
  | noSocket m => m
  | refused m _ => m
  | sent m _ _ => m

def groupFrame (name : NameBuffer) (s : Sealed) : List Bytes :=
  [name.val, s.iv.val, s.tag.val, leBytes 4 s.ciphertext.length, s.ciphertext]

def groupAttempts (net : Network) (turns : ℕ → Turn) (frame : List Bytes) :
    ℕ → List Name → List Attempt
  | _, [] => []
  | j, member :: members =>
    if member = net.localUsername then groupAttempts net turns frame (j + 1) members
    else
      match findUser net member with
      | none => groupAttempts net turns frame (j + 1) members
      | some u =>
        if (turns j).socket then
          let addr := sockAddrIn (turns j).stack u
          if (turns j).connect then
            .sent member addr frame :: groupAttempts net turns frame (j + 1) members
          else .refused member addr :: groupAttempts net turns frame (j + 1) members
        else .noSocket member :: groupAttempts net turns frame (j + 1) members

structure FanOut where
  result : ℤ
  attempts : List Attempt
  saved : List SavedMessage
deriving DecidableEq

def sendGroupMessageAttempts (E : Ciphers) (net : Network) (turns : ℕ → Turn) (name : NameBuffer)
    (msg : Bytes) : FanOut :=
  match net.groups.find? fun g => g.groupName.val = cstr name.val with
  | none => ⟨-1, [], []⟩
  | some g =>
    match E.encryptAesGcm g.groupKey (cstr msg) with
    | none => ⟨-1, [], []⟩
    | some s =>
      if s.ciphertext.length ≤ 0 then ⟨-1, [], []⟩
      else
        ⟨0, groupAttempts net turns (groupFrame name s) 0 g.members,
          [⟨net.localUsername.val, [], cstr name.val, cstr msg, true⟩]⟩

/-! ### Reception -/

/-- One `recv` of at most `n` bytes, from a stream that arrives in pieces. -/
def recv (n : ℕ) : List Bytes → Bytes × List Bytes
  | [] => ([], [])
  | c :: rest => if c.length ≤ n then (c, rest) else (c.take n, c.drop n :: rest)

def overlay (got old : Bytes) : Bytes := got ++ old.drop got.length

/-- One turn of the loop of `receiver_thread`: the bytes and the length it passes to
`session_cipher_decrypt`, if it gets there. `stack` is what `msg_len` holds before it is
read, `heap` what `malloc` returns. -/
def receiverTurn (stack : { b : Bytes // b.length = 8 }) (heap : ℕ → UInt8)
    (chunks : List Bytes) : Option (Bytes × ℕ) :=
  let (got, chunks) := recv 8 chunks
  let msgLen := ofLeBytes (overlay got stack.val)
  if msgLen > maxMessageLen then none
  else
    let (got, _) := recv msgLen chunks
    some (overlay got ((List.range msgLen).map heap), msgLen)

end Mesh.P2p
