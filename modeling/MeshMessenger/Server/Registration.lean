import MeshMessenger.Lib.Runs
import MeshMessenger.Server.Commands

/-! `process_registration` as any number of handler threads run it at once. The
existence check, the token generation, the INSERT and the reply are separate steps
over one shared table; sqlite makes each statement atomic and nothing else does. -/

namespace Mesh

open CLib

/-- What a client brings to its INSERT and to the reply. The level is a C `int`. -/
structure Registrant where
  ip : Bytes
  regId : ℕ
  publicKey : Bytes
  securityLevel : ℤ
  level_fits : securityLevel.natAbs ≤ 2 ^ 31

/-- Where a client's thread stands in `process_registration`. -/
inductive RegPhase where
  | idle
  | checking (nick : Bytes)
  | generating (nick : Bytes)
  | saving (nick token : Bytes)
  | answering (nick token : Bytes) (saved : Bool)

structure RegState where
  users : SecureUsers
  phase : ℕ → RegPhase

inductive RegEvent where
  /-- A `/register` command arrives; it is parsed and the nick validated. -/
  | submit (client : ℕ) (command : Bytes)
  | check (client : ℕ) (selectOk : Bool)
  | generate (client : ℕ) (random : Option TokenBytes)
  | save (client : ℕ) (insertOk : Bool)
  | answer (client : ℕ)

inductive RegOutput where
  | inserted (client : ℕ) (row : UserRow)
  | reply (client : ℕ) (frame : Bytes)

def RegState.goto (s : RegState) (client : ℕ) (phase : RegPhase) : RegState :=
  { s with phase := Function.update s.phase client phase }

def regError (client : ℕ) (message : String) : RegOutput :=
  .reply client (registerErrorFrame (ascii message))

/-- One step of one client. An event for a client that stands elsewhere changes nothing. -/
def regStep (info : ℕ → Registrant) (s : RegState) : RegEvent → RegState × List RegOutput
  | .submit c command =>
    match s.phase c with
    | .idle =>
      match parseRegister command with
      | none => (s.goto c .idle, [regError c "Invalid nickname"])
      | some nick =>
        if validateNickname nick then (s.goto c (.checking nick), [])
        else (s.goto c .idle, [regError c "Invalid nickname"])
    | _ => (s, [])
  | .check c selectOk =>
    match s.phase c with
    | .checking nick =>
      if selectOk && s.users.hasNick nick then
        (s.goto c .idle, [regError c "Nickname already exists"])
      else (s.goto c (.generating nick), [])
    | _ => (s, [])
  | .generate c random =>
    match s.phase c with
    | .generating nick =>
      match generateSecureToken (tokenLength + 1) random with
      | none => (s.goto c .idle, [])
      | some token => (s.goto c (.saving nick token), [])
    | _ => (s, [])
  | .save c insertOk =>
    match s.phase c with
    | .saving nick token =>
      let r := info c
      match (if insertOk then s.users.insert nick token r.ip r.regId r.publicKey r.securityLevel
        else none) with
      | none => (s.goto c (.answering nick token false), [])
      | some users =>
        ({ s.goto c (.answering nick token true) with users := users },
          [.inserted c (s.users.newRow nick token r.ip r.regId r.publicKey r.securityLevel)])
    | _ => (s, [])
  | .answer c =>
    match s.phase c with
    | .answering nick token true =>
      (s.goto c .idle,
        [.reply c (snprintf 512 (registerSuccessFrame nick token (info c).securityLevel))])
    | .answering _ _ false => (s.goto c .idle, [regError c "Database error"])
    | _ => (s, [])

abbrev regRun (info : ℕ → Registrant) (s : RegState) (es : List RegEvent) :
    RegState × List RegOutput :=
  Runs.run (regStep info) s es

def RegState.init (users : SecureUsers) : RegState := ⟨users, fun _ => .idle⟩

/-! ### What can be read off the outputs -/

def tokenHead : Bytes := ascii "\",\"token\":\""

/-- The nick and the token in a `success` reply; nothing for any other frame. -/
def successReply (frame : Bytes) : Option (Bytes × Bytes) := do
  let rest ← scanLiteral successHead frame
  let nick := rest.takeWhile (· != 34)
  let rest ← scanLiteral tokenHead (rest.drop nick.length)
  return (nick, rest.takeWhile (· != 34))

def RegOutput.row? : RegOutput → Option UserRow
  | .inserted _ row => some row
  | .reply _ _ => none

def insertsOf (client : ℕ) (out : List RegOutput) : List (Bytes × Bytes) :=
  out.filterMap fun
    | .inserted c row => if c = client then some (row.nick, row.token) else none
    | .reply _ _ => none

def successesOf (client : ℕ) (out : List RegOutput) : List (Bytes × Bytes) :=
  out.filterMap fun
    | .inserted _ _ => none
    | .reply c frame => if c = client then successReply frame else none

/-- A row is added and its owner not yet told. -/
def RegPhase.pending : RegPhase → List (Bytes × Bytes)
  | .answering nick token true => [(nick, token)]
  | _ => []

end Mesh
