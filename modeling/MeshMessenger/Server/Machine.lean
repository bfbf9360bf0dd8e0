import MeshMessenger.Lib.Runs
import MeshMessenger.Server.Commands
import MeshMessenger.Server.Input

/-! The server as a machine. Its atomic steps are one `handle_new_connection`,
the prologue of a `secure_client_handler` thread, one iteration of its loop, its
exit with the cleanup, and one `check_client_timeouts` sweep. An event for a
handler that does not exist, or stands elsewhere, changes nothing. -/

namespace Mesh

open CLib

inductive Handshake where
  | success
  | wantRead
  | wantWrite
  | failed
  deriving DecidableEq

inductive Event where
  /-- `accept` returned `fd` and the single `SSL_accept` call its result. -/
  | connect (fd : ℕ) (addr : SockAddr) (now : ℤ) (handshake : Handshake)
  | start (conn : Conn) (env : StartEnv)
  | iterate (conn : Conn) (env : Env) (read : ReadResult)
  | exit (conn : Conn) (env : Env)
  | sweep (now : ℤ)

/-! ### Accepting -/

def freeSlot (s : Server) : Option Slot :=
  (List.finRange maxClients).find? fun i => decide ((s.clients i).fd < 0)

def newClient (fd : ℕ) (conn : Conn) (addr : SockAddr) (now : ℤ) : SecureClient :=
  { SecureClient.zero with
    fd := fd
    ssl := some conn
    addr := addr
    lastActivity := now
    securityLevel := 1
    rateLimit := ⟨now, 0⟩ }

def handleNewConnection (s : Server) (fd : ℕ) (addr : SockAddr) (now : ℤ)
    (handshake : Handshake) : Server × List Effect :=
  match freeSlot s with
  | none => (s, [.close fd])
  | some i =>
    if handshake ≠ .success then (s, [.close fd])
    else
      let conn := s.totalConnections
      ({ s.setClient i (newClient fd conn addr now) with
          handlers := s.handlers ++ [⟨conn, i, [], .starting⟩]
          totalConnections := s.totalConnections + 1 }, [])

/-! ### The handler thread -/

def Server.handler? (s : Server) (conn : Conn) (phase : Phase) : Option Handler :=
  s.handlers.find? fun h => h.conn == conn && h.phase == phase

def Server.setHandler (s : Server) (conn : Conn) (ip : Bytes) (phase : Phase) : Server :=
  { s with
    handlers := s.handlers.map fun h =>
      if h.conn = conn then { h with ip := ip, phase := phase } else h }

def initClientSignalProtocol (C : Crypto) (client : SecureClient) (env : StartEnv) :
    SecureClient × Bool :=
  if !env.storeOk then (client, false)
  else if !env.identityOk then (client, false)
  else
    match env.regId with
    | none => (client, false)
    | some regId =>
      let client := { client with regId := regId }
      match env.sessionKey with
      | none => (client, false)
      | some key =>
        let client := { client with sessionKey := key }
        if !env.chachaOk then (client, false)
        else ({ client with publicKey := (C.x25519 key).getD client.publicKey }, true)

/-- `(uint64_t)time(NULL) << 32 | (uint32_t)getpid()`. -/
def sessionIdOf (now : ℤ) (pid : ℕ) : ℕ := (now % 2 ^ 32).toNat * 2 ^ 32 + pid % 2 ^ 32

def peerIdOf (now : ℤ) (pid : ℕ) : Bytes :=
  snprintf 64 (ascii "secure_peer_" ++ intDec now ++ ascii "_" ++ natDec pid)

/-- `secure_client_handler` up to its loop. -/
def handlerPrologue (C : Crypto) (s : Server) (h : Handler) (env : StartEnv) :
    Server × List Effect :=
  let ip := inetNtop (s.clients h.slot).addr
  match initClientSignalProtocol C (s.clients h.slot) env with
  | (client, false) => ((s.setClient h.slot client).setHandler h.conn ip .exiting, [])
  | (client, true) =>
    let client := { client with
      peerId := peerIdOf env.now env.pid
      sessionId := sessionIdOf env.sessionNow env.pid }
    let s := s.setClient h.slot client
    if !env.sessionTokenOk then (s.setHandler h.conn ip .exiting, [])
    else
      (s.setHandler h.conn ip .looping,
        [.write client.ssl welcomeFrame,
          .audit (ascii "CLIENT_CONNECT") (ascii "unknown") ip
            (ascii "New client connection established")])

def checkRateLimit (r : RateLimit) (now : ℤ) : RateLimit × Bool :=
  let r := if now - r.windowStart > rateLimitWindow then ⟨now, 0⟩ else r
  if r.count ≥ maxRateLimit then (r, false) else ({ r with count := r.count + 1 }, true)

def Server.noteActivity (s : Server) (i : Slot) (now : ℤ) : Server :=
  s.setClient i { s.clients i with
    lastActivity := now
    rateLimit := (checkRateLimit (s.clients i).rateLimit now).1 }

/-- The rate limit lets a command of slot `i` through. -/
def Server.withinLimit (s : Server) (i : Slot) (now : ℤ) : Bool :=
  (checkRateLimit (s.clients i).rateLimit now).2

def handleBuffer (C : Crypto) (s : Server) (h : Handler) (env : Env) (buffer : Bytes) :
    Server × List Effect :=
  if !s.withinLimit h.slot env.now then
    (s.noteActivity h.slot env.now, [.write (s.clients h.slot).ssl rateLimitFrame])
  else
    match commandOf buffer with
    | none => (s.noteActivity h.slot env.now, [])
    | some command =>
      processClientCommand C (s.noteActivity h.slot env.now) env h.slot h.ip command

def handlerIteration (C : Crypto) (s : Server) (h : Handler) (env : Env) (read : ReadResult) :
    Server × List Effect :=
  if (s.clients h.slot).fd < 0 then (s.setHandler h.conn h.ip .exiting, [])
  else
    match read with
    | .error => (s.setHandler h.conn h.ip .exiting, [])
    | .zero =>
      if env.now - (s.clients h.slot).lastActivity > connectionTimeout then
        (s.setHandler h.conn h.ip .exiting, [])
      else (s, [])
    | .bytes buffer _ _ => handleBuffer C s h env buffer

def SecureClient.cleaned (c : SecureClient) : SecureClient :=
  { c with
    ssl := none
    fd := if 0 ≤ c.fd then -1 else c.fd
    nick := []
    token := []
    sessionKey := zeroKey
    publicKey := zeroKey
    authorized := false
    account := none }

def cleanupClientResources (s : Server) (i : Slot) : Server × List Effect :=
  (s.setClient i (s.clients i).cleaned,
    if 0 ≤ (s.clients i).fd then [.close (s.clients i).fd] else [])

/-- The `cleanup` label of `secure_client_handler`, and the end of the thread. -/
def handlerExit (s : Server) (h : Handler) (env : Env) : Server × List Effect :=
  let client := s.clients h.slot
  let notices : List Effect :=
    if client.authorized then
      broadcastMessage s env system (leaveNotice client.nick) ++
        [.audit (ascii "CLIENT_DISCONNECT") client.nick h.ip (ascii "Client disconnected normally")]
    else []
  let (s, closes) := cleanupClientResources s h.slot
  ({ s with handlers := s.handlers.filter fun h' => h'.conn != h.conn }, notices ++ closes)

/-! ### The monitor -/

def timedOut (now : ℤ) (c : SecureClient) : Bool :=
  decide (0 ≤ c.fd) && decide (now - c.lastActivity > connectionTimeout)

def checkClientTimeouts (s : Server) (now : ℤ) : Server × List Effect :=
  ({ s with
      clients := fun i =>
        if timedOut now (s.clients i) then { s.clients i with fd := -1 } else s.clients i },
    ((List.finRange maxClients).filter fun i => timedOut now (s.clients i)).map fun i =>
      .close (s.clients i).fd)

/-! ### The machine -/

def step (C : Crypto) (s : Server) : Event → Server × List Effect
  | .connect fd addr now handshake => handleNewConnection s fd addr now handshake
  | .start conn env =>
    match s.handler? conn .starting with
    | none => (s, [])
    | some h => handlerPrologue C s h env
  | .iterate conn env read =>
    match s.handler? conn .looping with
    | none => (s, [])
    | some h => handlerIteration C s h env read
  | .exit conn env =>
    match s.handler? conn .exiting with
    | none => (s, [])
    | some h => handlerExit s h env
  | .sweep now => checkClientTimeouts s now

abbrev run (C : Crypto) (s : Server) (es : List Event) : Server × List Effect :=
  Runs.run (step C) s es

abbrev Reachable (C : Crypto) (users : SecureUsers) (s : Server) : Prop :=
  Runs.Reachable (step C) (Server.init users) s

/-! ### A well-behaved environment, for concrete runs -/

namespace Sample

def crypto : Crypto := ⟨fun _ _ plaintext => some plaintext, some⟩

def env (now : ℤ) (seed : UInt8) : Env where
  now := now
  selectOk := true
  insertOk := true
  updateOk := true
  saveOk := true
  random := some ⟨List.replicate tokenLength seed, List.length_replicate⟩
  iv := []

def startEnv (now : ℤ) : StartEnv :=
  ⟨now, now, 42, true, true, some 7, some zeroKey, true, true⟩

def addr : SockAddr := ⟨127, 0, 0, 1, 40000⟩

def firstSlot : Slot := ⟨0, by decide⟩

def secondSlot : Slot := ⟨1, by decide⟩

def read (buffer : Bytes) : ReadResult :=
  if h : buffer ≠ [] ∧ buffer.length < bufferSize then .bytes buffer h.1 h.2 else .zero

/-- One line delivered in one read. -/
def line (s : String) : ReadResult := read (ascii s ++ [newline])

def connected : List Event :=
  [.sweep 1000, .connect 5 addr 1000 .success, .start 0 (startEnv 1000)]

def joined : List Event := [.connect 6 addr 1002 .success, .start 1 (startEnv 1002)]

/-- The first client registers, with a token of 64 ones. -/
def registered : List Event :=
  connected ++ [.iterate 0 (env 1001 17) (line "/register bob")]

/-- Two clients register as `ann` and `bob`, with tokens of 64 ones and 64 twos, and log in. -/
def chat : List Event :=
  connected ++ joined ++
    [.iterate 0 (env 1003 17) (line "/register ann"),
      .iterate 1 (env 1003 34) (line "/register bob"),
      .iterate 0 (env 1004 0) (read (ascii "/login ann " ++ List.replicate 64 49 ++ [newline])),
      .iterate 1 (env 1004 0) (read (ascii "/login bob " ++ List.replicate 64 50 ++ [newline]))]

/-- Slot `i` holds an open, logged-in session of `nick` on connection `conn`. -/
def Session (s : Server) (i : Slot) (conn : Conn) (nick : Bytes) : Prop :=
  s.handler? conn .looping = some ⟨conn, i, ascii "127.0.0.1", .looping⟩ ∧
    0 ≤ (s.clients i).fd ∧ (s.clients i).authorized = true ∧ (s.clients i).ssl = some conn ∧
    (s.clients i).nick = nick ∧ s.withinLimit i 1005 = true

instance (s : Server) (i : Slot) (conn : Conn) (nick : Bytes) :
    Decidable (Session s i conn nick) := instDecidableAnd

theorem chat_sessions :
    let s := (run crypto (Server.init SecureUsers.empty) chat).1
    Session s firstSlot 0 (ascii "ann") ∧ Session s secondSlot 1 (ascii "bob") := by
  decide +kernel

theorem find_bob_chat :
    findClientByNick (run crypto (Server.init SecureUsers.empty) chat).1 (ascii "bob") =
      some secondSlot := by
  decide +kernel

end Sample

end Mesh
