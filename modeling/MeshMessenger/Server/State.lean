import Mathlib.Logic.Function.Basic
import MeshMessenger.Server.Users

/-! The state of the server process, the outcomes its environment chooses, and
the effects a step has outside that state. `secure_messages` and `audit_logs`
are only ever inserted into, so they are outputs here and not state. -/

namespace Mesh

open CLib

abbrev Slot := Fin maxClients

/-- An accepted TLS connection, numbered in the order of acceptance. It stands
for the `SSL` object and for the peer at its other end. -/
abbrev Conn := ℕ

structure SockAddr where
  a : UInt8
  b : UInt8
  c : UInt8
  d : UInt8
  port : UInt16

/-- `inet_ntop` of an IPv4 address. -/
def inetNtop (addr : SockAddr) : Bytes :=
  natDec addr.a.toNat ++ [46] ++ natDec addr.b.toNat ++ [46] ++ natDec addr.c.toNat ++ [46] ++
    natDec addr.d.toNat

structure RateLimit where
  windowStart : ℤ
  count : ℕ

/-- `secure_client_t`, without the fields that nothing reads. `account` is not
in the source: it records the id of the row that authorised the session. -/
structure SecureClient where
  fd : ℤ
  ssl : Option Conn
  nick : Bytes
  token : Bytes
  sessionKey : Bytes
  authorized : Bool
  lastActivity : ℤ
  addr : SockAddr
  rateLimit : RateLimit
  regId : ℕ
  peerId : Bytes
  publicKey : Bytes
  securityLevel : ℤ
  sessionId : ℕ
  account : Option ℕ

def zeroKey : Bytes := List.replicate 32 0

/-- The all-zero structure of the static initialiser and of `memset`. -/
def SecureClient.zero : SecureClient where
  fd := 0
  ssl := none
  nick := []
  token := []
  sessionKey := zeroKey
  authorized := false
  lastActivity := 0
  addr := ⟨0, 0, 0, 0, 0⟩
  rateLimit := ⟨0, 0⟩
  regId := 0
  peerId := []
  publicKey := zeroKey
  securityLevel := 0
  sessionId := 0
  account := none

def SecureClient.online (c : SecureClient) : Bool := decide (0 ≤ c.fd) && c.authorized

structure SecurePeer where
  peerId : Bytes
  addr : SockAddr
  lastSeen : ℤ
  publicKey : Bytes
  isConnected : Bool

/-- Where a `secure_client_handler` thread stands. -/
inductive Phase where
  | starting
  | looping
  | exiting
  deriving DecidableEq

/-- A live `secure_client_handler`: the connection it was started for, the slot
its `client` pointer points into and its `ip_str`. -/
structure Handler where
  conn : Conn
  slot : Slot
  ip : Bytes
  phase : Phase
  deriving DecidableEq

structure Server where
  clients : Slot → SecureClient
  handlers : List Handler
  users : SecureUsers
  peers : List SecurePeer
  totalConnections : ℕ

def Server.init (users : SecureUsers) : Server where
  clients := fun _ => SecureClient.zero
  handlers := []
  users := users
  peers := []
  totalConnections := 0

def Server.setClient (s : Server) (i : Slot) (c : SecureClient) : Server :=
  { s with clients := Function.update s.clients i c }

section setClient

variable (s : Server) (i : Slot) (c : SecureClient)

@[simp] theorem setClient_self : (s.setClient i c).clients i = c := by simp [Server.setClient]

theorem setClient_ne {j : Slot} (h : j ≠ i) : (s.setClient i c).clients j = s.clients j := by
  simp [Server.setClient, h]

/-- A field that the update leaves alone is as it was in every slot. -/
theorem setClient_field {α : Type} {f : SecureClient → α} {s : Server} {i : Slot}
    {c : SecureClient} (h : f c = f (s.clients i)) (j : Slot) :
    f ((s.setClient i c).clients j) = f (s.clients j) := by
  by_cases hj : j = i
  · rw [hj, setClient_self, h]
  · rw [setClient_ne _ _ _ hj]

@[simp] theorem setClient_handlers : (s.setClient i c).handlers = s.handlers := rfl

@[simp] theorem setClient_users : (s.setClient i c).users = s.users := rfl

@[simp] theorem setClient_peers : (s.setClient i c).peers = s.peers := rfl

@[simp] theorem setClient_totalConnections :
    (s.setClient i c).totalConnections = s.totalConnections := rfl

end setClient

/-! ### Effects -/

structure MessageRow where
  fromUser : Bytes
  toUser : Bytes
  groupName : Bytes
  data : Bytes
  isGroup : Bool
  deriving DecidableEq

inductive Effect where
  | write (ssl : Option Conn) (data : Bytes)
  | close (fd : ℤ)
  | save (row : MessageRow)
  | audit (eventType userNick ip details : Bytes)
  deriving DecidableEq

def writtenTo (conn : Conn) (effects : List Effect) : Bytes :=
  effects.flatMap fun
    | .write (some c) data => if c = conn then data else []
    | _ => []

def savedRows (effects : List Effect) : List MessageRow :=
  effects.filterMap fun
    | .save row => some row
    | _ => none

theorem writtenTo_append (conn : Conn) (e e' : List Effect) :
    writtenTo conn (e ++ e') = writtenTo conn e ++ writtenTo conn e' := List.flatMap_append

theorem writtenTo_cons (conn : Conn) (e : Effect) (es : List Effect) :
    writtenTo conn (e :: es) = writtenTo conn [e] ++ writtenTo conn es :=
  writtenTo_append conn [e] es

theorem writtenTo_write (conn : Conn) (ssl : Option Conn) (data : Bytes) :
    writtenTo conn [.write ssl data] = if ssl = some conn then data else [] := by
  cases ssl <;> simp [writtenTo]

theorem savedRows_append (e e' : List Effect) :
    savedRows (e ++ e') = savedRows e ++ savedRows e' := List.filterMap_append

/-! ### What the environment decides -/

/-- The cryptographic library calls whose result other clients can observe. -/
structure Crypto where
  aesGcm : Bytes → Bytes → Bytes → Option Bytes
  /-- The X25519 public key of a private key, if it can be computed. -/
  x25519 : Bytes → Option Bytes

/-- One loop iteration's clock, its random draws and whether its database
statements can be prepared and stepped. -/
structure Env where
  now : ℤ
  selectOk : Bool
  insertOk : Bool
  updateOk : Bool
  saveOk : Bool
  random : Option TokenBytes
  iv : Bytes

/-- The environment of a handler's prologue, which reads the clock for the peer
id and again for the session id. -/
structure StartEnv where
  now : ℤ
  sessionNow : ℤ
  pid : ℕ
  storeOk : Bool
  identityOk : Bool
  regId : Option ℕ
  sessionKey : Option Bytes
  chachaOk : Bool
  sessionTokenOk : Bool
  deriving DecidableEq

/-- What `ssl_safe_read` gave the loop: an error, nothing (a timeout, a failed
`select` or a closed connection), or at least one byte. -/
inductive ReadResult where
  | error
  | zero
  | bytes (buf : Bytes) (ne_nil : buf ≠ []) (length_lt : buf.length < bufferSize)

end Mesh
