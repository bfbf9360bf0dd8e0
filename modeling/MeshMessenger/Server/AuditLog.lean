import MeshMessenger.Lib.CharArray
import MeshMessenger.Lib.Runs
import MeshMessenger.Server.State

/-! The audit trail: `log_security_event` over the array `server.audit_logs`, whose entries
are used again from the first one on when the last one has been filled, and
`save_audit_log_to_db`. -/

namespace Mesh

open CLib

def maxAuditLogs : ℕ := 1000

/-- `audit_log_t`, without the hash, which nothing writes. -/
structure AuditLog where
  eventType : CharArray 31
  /-- `char[MAX_NICK_LENGTH]`. -/
  userNick : CharArray 30
  /-- `char[INET6_ADDRSTRLEN]`. -/
  ipAddress : CharArray 45
  details : CharArray 511
  timestamp : ℤ

def AuditLog.zero : AuditLog := ⟨.zero 31, .zero 30, .zero 45, .zero 511, 0⟩

structure AuditTrail where
  auditLogs : Fin maxAuditLogs → AuditLog
  auditLogCount : ℕ

def AuditTrail.zero : AuditTrail := ⟨fun _ => AuditLog.zero, 0⟩

/-- The arguments of `log_security_event`, `none` for a null pointer, with what `time`
returns and whether the row can be inserted. -/
structure AuditCall where
  eventType : Bytes
  userNick : Option Bytes
  ip : Option Bytes
  details : Option Bytes
  now : ℤ
  insertOk : Bool

structure AuditRow where
  eventType : Bytes
  userNick : Bytes
  ipAddress : Bytes
  details : Bytes
  timestamp : ℤ
  deriving DecidableEq

def AuditLog.fill (log : AuditLog) (call : AuditCall) : AuditLog where
  eventType := log.eventType.strncpy call.eventType
  userNick :=
    match call.userNick with
    | some userNick => log.userNick.strncpy userNick
    | none => log.userNick.clear
  ipAddress :=
    match call.ip with
    | some ip => log.ipAddress.strncpy ip
    | none => log.ipAddress
  details :=
    match call.details with
    | some details => log.details.strncpy details
    | none => log.details
  timestamp := call.now

def saveAuditLogToDb (log : AuditLog) (insertOk : Bool) : List AuditRow :=
  if insertOk then
    [⟨log.eventType.text, log.userNick.text, log.ipAddress.text, log.details.text, log.timestamp⟩]
  else []

def logSecurityEvent (trail : AuditTrail) (call : AuditCall) : AuditTrail × List AuditRow :=
  let i : Fin maxAuditLogs :=
    if h : trail.auditLogCount < maxAuditLogs then ⟨trail.auditLogCount, h⟩ else ⟨0, by decide⟩
  let log := (trail.auditLogs i).fill call
  (⟨Function.update trail.auditLogs i log, i.val + 1⟩, saveAuditLogToDb log call.insertOk)

/-! ### The calls of the server -/

inductive AuditEvent where
  | clientConnect | clientDisconnect | userRegister | userLogin | loginFailed
  deriving DecidableEq

def AuditEvent.eventType : AuditEvent → Bytes
  | .clientConnect => ascii "CLIENT_CONNECT"
  | .clientDisconnect => ascii "CLIENT_DISCONNECT"
  | .userRegister => ascii "USER_REGISTER"
  | .userLogin => ascii "USER_LOGIN"
  | .loginFailed => ascii "LOGIN_FAILED"

def AuditEvent.details : AuditEvent → Bytes
  | .clientConnect => ascii "New client connection established"
  | .clientDisconnect => ascii "Client disconnected normally"
  | .userRegister => ascii "New user registered successfully"
  | .userLogin => ascii "User logged in successfully"
  | .loginFailed => ascii "Failed login attempt"

/-- A call as the server makes it: with a nick, and the address of the client. -/
structure ServerCall where
  event : AuditEvent
  nick : { nick : Bytes // NulFree nick ∧ nick.length ≤ maxNickLength }
  addr : SockAddr
  now : ℤ
  insertOk : Bool

def ServerCall.call (c : ServerCall) : AuditCall :=
  ⟨c.event.eventType, some c.nick.val, some (inetNtop c.addr), some c.event.details, c.now,
    c.insertOk⟩

def ServerCall.row (c : ServerCall) : AuditRow :=
  ⟨c.event.eventType, c.nick.val, inetNtop c.addr, c.event.details, c.now⟩

def auditRows (calls : List ServerCall) : List AuditRow :=
  (Runs.run logSecurityEvent AuditTrail.zero (calls.map ServerCall.call)).2

end Mesh
