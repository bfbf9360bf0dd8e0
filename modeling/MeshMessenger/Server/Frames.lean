import MeshMessenger.Server.State

/-! The JSON lines `server.c` writes, and the base64 filter inside one of them. -/

namespace Mesh

open CLib

def welcomeFrame : Bytes :=
  ascii "\x7b\"type\":\"welcome\",\"version\":\"4.0\",\"security\":\"enhanced\"\x7d\n"

def rateLimitFrame : Bytes :=
  ascii "\x7b\"type\":\"error\",\"message\":\"Rate limit exceeded\"\x7d\n"

def authRequiredFrame : Bytes :=
  ascii "\x7b\"type\":\"error\",\"message\":\"Authentication required\"\x7d\n"

def registerErrorFrame (message : Bytes) : Bytes :=
  ascii "\x7b\"type\":\"register\",\"status\":\"error\",\"message\":\"" ++ message ++
    ascii "\"\x7d\n"

def registerSuccessFrame (nick token : Bytes) (securityLevel : ℤ) : Bytes :=
  ascii "\x7b\"type\":\"register\",\"status\":\"success\",\"nick\":\"" ++ nick ++
    ascii "\",\"token\":\"" ++ token ++ ascii "\",\"security_level\":" ++ intDec securityLevel ++
    ascii "\x7d\n"

/-- How the reply to a successful registration begins. -/
def successHead : Bytes := ascii "\x7b\"type\":\"register\",\"status\":\"success\",\"nick\":\""

def loginErrorFrame : Bytes :=
  ascii "\x7b\"type\":\"login\",\"status\":\"error\",\"message\":\"Invalid credentials\"\x7d\n"

def loginSuccessFrame (nick : Bytes) (sessionId : ℕ) : Bytes :=
  ascii "\x7b\"type\":\"login\",\"status\":\"success\",\"nick\":\"" ++ nick ++
    ascii "\",\"session_id\":\"" ++ natDec sessionId ++ ascii "\"\x7d\n"

def helpFrame : Bytes :=
  ascii "\x7b\"type\":\"help\",\"commands\":[" ++
    ascii "\"/register <nick> - Register new account\"," ++
    ascii "\"/login <nick> <token> - Login to account\"," ++
    ascii "\"/msg <user> <text> - Send private message\"," ++
    ascii "\"/online - List online users\"," ++
    ascii "\"/help - This help message\"" ++ ascii "]\x7d\n"

def messageFrame (sender text : Bytes) : Bytes :=
  ascii "\x7b\"type\":\"message\",\"from\":\"" ++ sender ++ ascii "\",\"text\":\"" ++ text ++
    ascii "\"\x7d\n"

def privateFrame (sender target text : Bytes) : Bytes :=
  ascii "\x7b\"type\":\"private\",\"from\":\"" ++ sender ++ ascii "\",\"to\":\"" ++ target ++
    ascii "\",\"text\":\"" ++ text ++ ascii "\"\x7d\n"

def encryptedFrame (sender target data : Bytes) : Bytes :=
  ascii "\x7b\"type\":\"encrypted\",\"from\":\"" ++ sender ++ ascii "\",\"to\":\"" ++ target ++
    ascii "\",\"data\":\"" ++ data ++ ascii "\"\x7d\n"

def system : Bytes := ascii "System"

def joinNotice (nick : Bytes) : Bytes :=
  snprintf 256 (ascii "User " ++ nick ++ ascii " joined the secure network")

def leaveNotice (nick : Bytes) : Bytes :=
  snprintf 256 (ascii "User " ++ nick ++ ascii " disconnected")

/-! ### Base64 -/

def base64Char (n : ℕ) : UInt8 :=
  (ascii "ABCDEFGHIJKLMNOPQRSTUVWXYZabcdefghijklmnopqrstuvwxyz0123456789+/").getD n 0

def base64 : Bytes → Bytes
  | [] => []
  | [a] => [base64Char (a.toNat / 4), base64Char (a.toNat % 4 * 16), 61, 61]
  | [a, b] => [base64Char (a.toNat / 4), base64Char (a.toNat % 4 * 16 + b.toNat / 16),
      base64Char (b.toNat % 16 * 4), 61]
  | a :: b :: c :: rest => base64Char (a.toNat / 4) ::
      base64Char (a.toNat % 4 * 16 + b.toNat / 16) ::
      base64Char (b.toNat % 16 * 4 + c.toNat / 64) :: base64Char (c.toNat % 64) :: base64 rest

/-- `BIO_f_base64` without the NO_NL flag: a newline ends every 64 characters,
which encode 48 bytes, and the last line. -/
def bioBase64 (data : Bytes) : Bytes :=
  (List.range ((data.length + 47) / 48)).flatMap fun k =>
    base64 ((data.drop (48 * k)).take 48) ++ [newline]

end Mesh
