import MeshMessenger.Lib.Descriptors
import MeshMessenger.Server.Machine

/-! The life of the server process: the database that `init_secure_database`
opens, the system calls of `start_ultra_secure_server`, its loop among the
handler and monitor threads, and the shutdown with `global_cleanup`. -/

namespace Mesh

open CLib Descriptors

/-! ### The database file -/

def masterKeyLength : ℕ := 32

abbrev MasterKey := { key : Bytes // key.length = masterKeyLength }

structure DatabaseFile where
  key : MasterKey
  users : SecureUsers

/-- What `init_secure_database` gets from its calls: the random master key,
whether the second key could be drawn, and whether the database can be opened,
keyed and written to. -/
structure DatabaseCalls where
  masterKey : Option MasterKey
  quantumKeyOk : Bool
  openOk : Bool
  pragmaKeyOk : Bool
  tablesOk : Bool

/-- `init_secure_database` over the file that is there, if any: the database it
leaves open. The first CREATE TABLE is what reads the file, and reading it needs
the key the file was created with. -/
def initSecureDatabase (calls : DatabaseCalls) (file : Option DatabaseFile) :
    Option DatabaseFile :=
  match calls.masterKey with
  | none => none
  | some masterKey =>
    if !calls.quantumKeyOk then none
    else if !calls.openOk then none
    else if !calls.pragmaKeyOk then none
    else
      match file with
      | none => if calls.tablesOk then some ⟨masterKey, SecureUsers.empty⟩ else none
      | some db => if db.key = masterKey ∧ calls.tablesOk then some db else none

def startServer (calls : DatabaseCalls) (file : Option DatabaseFile) : Option Server :=
  (initSecureDatabase calls file).map fun db => Server.init db.users

/-! ### The main thread -/

def closes (effects : List Effect) : List ℤ :=
  effects.filterMap fun
    | .close fd => some fd
    | _ => none

/-- Where `start_ultra_secure_server` stands after the database and the TLS
context are set up: at one of its system calls, in its loop, at one of the
closes after it, or at its end. -/
inductive MainAt where
  | socket
  | bind
  | listen
  | epollCreate
  | epollCtl
  | loop
  | closeEpoll
  | cleanupClient (i : ℕ)
  | closeEpollAgain
  | failed
  | finished
  deriving DecidableEq

/-- The other threads exist: from the loop on, until the process ends. -/
def MainAt.threaded : MainAt → Bool
  | loop | closeEpoll | cleanupClient _ | closeEpollAgain => true
  | _ => false

/-- `serverFd` is the local of `start_ultra_secure_server`, the other two descriptors
are fields of the static `server`. -/
structure Process where
  main : MainAt
  serverFd : ℤ
  epollFd : ℤ
  honeypotFd : ℤ
  server : Server

def Process.init (users : SecureUsers) : Process := ⟨.socket, 0, 0, 0, Server.init users⟩

/-- A step of the main thread, with what its system call returned, or a step of
the server machine. -/
inductive ProcessEvent where
  | main (result : Option ℕ)
  | thread (e : Event)

def Process.mainStep (p : Process) (result : Option ℕ) : Process × List Op :=
  match p.main, result with
  | .socket, some fd => ({ p with main := .bind, serverFd := fd }, [.opened fd])
  | .socket, none => ({ p with main := .failed }, [])
  | .bind, some _ => ({ p with main := .listen }, [])
  | .bind, none => ({ p with main := .failed }, [.close p.serverFd])
  | .listen, some _ => ({ p with main := .epollCreate }, [])
  | .listen, none => ({ p with main := .failed }, [.close p.serverFd])
  | .epollCreate, some fd => ({ p with main := .epollCtl, epollFd := fd }, [.opened fd])
  | .epollCreate, none => ({ p with main := .failed, epollFd := -1 }, [.close p.serverFd])
  | .epollCtl, some _ => ({ p with main := .loop }, [])
  | .epollCtl, none => ({ p with main := .failed }, [.close p.serverFd, .close p.epollFd])
  -- `running` has been cleared
  | .loop, _ => ({ p with main := .closeEpoll }, [.close p.serverFd])
  | .closeEpoll, _ => ({ p with main := .cleanupClient 0 }, [.close p.epollFd])
  | .cleanupClient i, _ =>
    if h : i < maxClients then
      let (server, effects) :=
        if 0 ≤ (p.server.clients ⟨i, h⟩).fd then cleanupClientResources p.server ⟨i, h⟩
        else (p.server, [])
      ({ p with main := .cleanupClient (i + 1), server := server },
        (closes effects).map .close)
    else
      ({ p with main := .closeEpollAgain },
        if 0 ≤ p.honeypotFd then [.close p.honeypotFd] else [])
  | .closeEpollAgain, _ =>
    ({ p with main := .finished }, if 0 ≤ p.epollFd then [.close p.epollFd] else [])
  | .failed, _ => (p, [])
  | .finished, _ => (p, [])

def accepts : Event → List Op
  | .connect fd _ _ _ => [.opened fd]
  | _ => []

/-- The main thread accepts in its loop only; the other threads run on during the shutdown. -/
def Process.canTake (p : Process) : Event → Bool
  | .connect _ _ _ _ => p.main == .loop
  | _ => p.main.threaded

def Process.threadStep (C : Crypto) (p : Process) (e : Event) : Process × List Op :=
  if p.canTake e then
    ({ p with server := (step C p.server e).1 },
      accepts e ++ (closes (step C p.server e).2).map .close)
  else (p, [])

def processStep (C : Crypto) (p : Process) : ProcessEvent → Process × List Op
  | .main result => p.mainStep result
  | .thread e => p.threadStep C e

abbrev processRun (C : Crypto) (p : Process) (es : List ProcessEvent) : Process × List Op :=
  Runs.run (processStep C) p es

end Mesh
