import MeshMessenger.Server.Frames

/-! The command handlers of `server.c`. A handler that leaves the server's state
alone returns its effects only; `processRegistration` and `processLogin` also
return the state they leave. -/

namespace Mesh

open CLib

/-! ### Parsing: the four `sscanf` formats -/

/-- `"/register %31s"`. -/
def parseRegister (command : Bytes) : Option Bytes := do
  let rest ← scanLiteral (ascii "/register") command
  let (nick, _) ← scanWord 31 (skipSpace rest)
  return nick

/-- `"/login %31s %63s"`. -/
def parseLogin (command : Bytes) : Option (Bytes × Bytes) := do
  let rest ← scanLiteral (ascii "/login") command
  let (nick, rest) ← scanWord 31 (skipSpace rest)
  let (token, _) ← scanWord 63 (skipSpace rest)
  return (nick, token)

/-- A literal, then `" %31s %2047[^\n]"`: the format of `/msg` and `/send_enc`. -/
def parseTargeted (literal command : Bytes) : Option (Bytes × Bytes) := do
  let rest ← scanLiteral literal command
  let (target, rest) ← scanWord 31 (skipSpace rest)
  let (text, _) ← scanLine 2047 (skipSpace rest)
  return (target, text)

def parseMsg (command : Bytes) : Option (Bytes × Bytes) := parseTargeted (ascii "/msg") command

def parseSendEnc (command : Bytes) : Option (Bytes × Bytes) :=
  parseTargeted (ascii "/send_enc") command

/-! ### Messages -/

def saveMessage (env : Env) (fromUser toUser data : Bytes) : List Effect :=
  if env.saveOk then [.save ⟨fromUser, toUser, [], data, false⟩] else []

theorem writtenTo_saveMessage (c : Conn) (env : Env) (sender target data : Bytes) :
    writtenTo c (saveMessage env sender target data) = [] := by
  unfold saveMessage
  split <;> rfl

def findClientByNick (s : Server) (nick : Bytes) : Option Slot :=
  (List.finRange maxClients).find? fun i => (s.clients i).online && (s.clients i).nick == nick

def onlineSlots (s : Server) : List Slot :=
  (List.finRange maxClients).filter fun i => (s.clients i).online

def broadcastMessage (s : Server) (env : Env) (sender message : Bytes) : List Effect :=
  saveMessage env sender [] message ++
    (onlineSlots s).map fun i =>
      .write (s.clients i).ssl (snprintf bufferSize (messageFrame sender message))

def sendPrivateMessage (s : Server) (env : Env) (sender target message : Bytes) : List Effect :=
  match findClientByNick s target with
  | none => []
  | some i =>
    saveMessage env sender target message ++
      if (s.clients i).online then
        [.write (s.clients i).ssl (snprintf bufferSize (privateFrame sender target message))]
      else []

def encryptMessageForUser (C : Crypto) (s : Server) (env : Env) (i : Slot)
    (recipient plaintext : Bytes) : Option Bytes :=
  match findClientByNick s recipient with
  | none => none
  | some _ =>
    match C.aesGcm (s.clients i).sessionKey env.iv plaintext with
    | none => none
    | some ciphertext => if ciphertext.length ≤ 0 then none else some (bioBase64 ciphertext)

/-! ### Commands of authorised clients -/

def sendOnlineUsers (s : Server) (i : Slot) : List Effect :=
  let cat (list src : Bytes) : Bytes := strncat list src (bufferSize - list.length - 1)
  let list := (onlineSlots s).foldl
    (fun (list, first) j =>
      let list := if first then list else cat list (ascii ",")
      (cat (cat (cat list (ascii "\"")) (s.clients j).nick) (ascii "\""), false))
    (ascii "\x7b\"type\":\"online\",\"users\":[", true)
  [.write (s.clients i).ssl (cat list.1 (ascii "]\x7d\n"))]

def handlePrivateMessage (s : Server) (env : Env) (i : Slot) (command : Bytes) : List Effect :=
  match parseMsg command with
  | none => []
  | some (target, message) =>
    if validateMessage message then sendPrivateMessage s env (s.clients i).nick target message
    else []

def handleEncryptedMessage (C : Crypto) (s : Server) (env : Env) (i : Slot) (command : Bytes) :
    List Effect :=
  match parseSendEnc command with
  | none => []
  | some (target, rawMsg) =>
    match encryptMessageForUser C s env i target rawMsg with
    | none => []
    | some encryptedB64 =>
      match findClientByNick s target with
      | none => []
      | some j =>
        [.write (s.clients j).ssl
          (snprintf bufferSize (encryptedFrame (s.clients i).nick target encryptedB64))]

def handleAuthorizedCommands (C : Crypto) (s : Server) (env : Env) (i : Slot) (command : Bytes) :
    List Effect :=
  if command = ascii "/online" then sendOnlineUsers s i
  else if (ascii "/msg").isPrefixOf command then handlePrivateMessage s env i command
  else if (ascii "/send_enc").isPrefixOf command then handleEncryptedMessage C s env i command
  else if validateMessage command then broadcastMessage s env (s.clients i).nick command
  else []

/-! ### Registration and login -/

def checkNicknameExists (s : Server) (env : Env) (nick : Bytes) : Bool :=
  env.selectOk && s.users.hasNick nick

def saveUserToDatabase (s : Server) (env : Env) (i : Slot) (nick token ip : Bytes) :
    Option SecureUsers :=
  if env.insertOk then
    s.users.insert nick token ip (s.clients i).regId (s.clients i).publicKey
      (s.clients i).securityLevel
  else none

def processRegistration (s : Server) (env : Env) (i : Slot) (ip command : Bytes) :
    Server × List Effect :=
  let reply (frame : Bytes) : Effect := .write (s.clients i).ssl frame
  match parseRegister command with
  | none => (s, [reply (registerErrorFrame (ascii "Invalid nickname"))])
  | some nick =>
    if !validateNickname nick then (s, [reply (registerErrorFrame (ascii "Invalid nickname"))])
    else if checkNicknameExists s env nick then
      (s, [reply (registerErrorFrame (ascii "Nickname already exists"))])
    else
      match generateSecureToken (tokenLength + 1) env.random with
      | none => (s, [])
      | some token =>
        match saveUserToDatabase s env i nick token ip with
        | none => (s, [reply (registerErrorFrame (ascii "Database error"))])
        | some users =>
          ({ s with users := users },
            [reply (snprintf 512 (registerSuccessFrame nick token (s.clients i).securityLevel)),
              .audit (ascii "USER_REGISTER") nick ip (ascii "New user registered successfully")])

def updateLastLogin (s : Server) (env : Env) (nick : Bytes) : Server :=
  if env.updateOk then { s with users := s.users.updateLastLogin nick env.now } else s

/-- The client as `authenticate_user` fills it from the matching row. -/
def SecureClient.load (c : SecureClient) (row : UserRow) : SecureClient :=
  { c with
    regId := row.regId
    publicKey := (row.publicKey.map (·.take 32)).getD c.publicKey
    securityLevel := row.securityLevel
    account := some row.id }

def authenticateUser (s : Server) (env : Env) (i : Slot) (nick token : Bytes) : Server × Bool :=
  if !env.selectOk then (s, false)
  else
    match s.users.findUnlocked nick with
    | none => (s, false)
    | some row =>
      if constantTimeCompare (stored row.token) (stored token) token.length then
        (updateLastLogin (s.setClient i ((s.clients i).load row)) env nick, true)
      else (s, false)

def addPeerToNetwork (s : Server) (env : Env) (peerId : Bytes) (addr : SockAddr)
    (publicKey : Bytes) : Server :=
  if s.peers.length ≥ maxClients then s
  else { s with peers := s.peers ++ [⟨strncpy 63 peerId, addr, env.now, publicKey, true⟩] }

/-- The client as `process_login` marks it after a successful authentication. -/
def SecureClient.login (c : SecureClient) (nick token : Bytes) : SecureClient :=
  { c with
    nick := strncpy maxNickLength nick
    token := strncpy tokenLength token
    authorized := true }

def processLogin (s : Server) (env : Env) (i : Slot) (ip command : Bytes) :
    Server × List Effect :=
  match parseLogin command with
  | none => (s, [])
  | some (nick, token) =>
    match authenticateUser s env i nick token with
    | (s, true) =>
      let client := (s.clients i).login nick token
      let s := s.setClient i client
      let s := addPeerToNetwork s env client.peerId client.addr client.publicKey
      (s, .write client.ssl (snprintf 256 (loginSuccessFrame nick client.sessionId)) ::
        broadcastMessage s env system (joinNotice nick) ++
        [.audit (ascii "USER_LOGIN") nick ip (ascii "User logged in successfully")])
    | (s, false) =>
      (s, [.write (s.clients i).ssl loginErrorFrame,
        .audit (ascii "LOGIN_FAILED") nick ip (ascii "Failed login attempt")])

def handleUnauthorizedCommands (s : Server) (env : Env) (i : Slot) (ip command : Bytes) :
    Server × List Effect :=
  if (ascii "/register").isPrefixOf command then processRegistration s env i ip command
  else if (ascii "/login").isPrefixOf command then processLogin s env i ip command
  else if (ascii "/help").isPrefixOf command then (s, [.write (s.clients i).ssl helpFrame])
  else (s, [.write (s.clients i).ssl authRequiredFrame])

def processClientCommand (C : Crypto) (s : Server) (env : Env) (i : Slot) (ip command : Bytes) :
    Server × List Effect :=
  if !(s.clients i).authorized then handleUnauthorizedCommands s env i ip command
  else (s, handleAuthorizedCommands C s env i command)

end Mesh
