import MeshMessenger.Server.Machine

/-! The whole of `ssl_safe_read`, with `select` and the folding of its outcomes into
one integer, and the machine over events that say what the call meets. -/

namespace Mesh

open CLib

/-! ### The call -/

theorem sslReadLoop_length_le {maxLen : ℕ} (script : List SslRead) {acc : Bytes}
    (h : acc.length ≤ maxLen - 1) : (sslReadLoop maxLen acc script).1.length ≤ maxLen - 1 := by
  induction script generalizing acc with
  | nil => exact h
  | cons r script ih =>
    by_cases hroom : acc.length < maxLen - 1
    · cases r with
      | wantRead =>
        simp only [sslReadLoop, hroom, if_true]
        exact ih h
      | fail =>
        simp only [sslReadLoop, hroom, if_true]
        exact h
      | data b bs =>
        simp only [sslReadLoop, hroom, if_true]
        have hbuffer : (acc ++ (b :: bs).take (maxLen - acc.length - 1)).length ≤ maxLen - 1 := by
          rw [List.length_append, List.length_take]
          omega
        split_ifs
        · exact hbuffer
        · exact ih hbuffer
    · rw [sslReadLoop_full hroom]
      exact h

theorem sslSafeRead_length_lt (script : List SslRead) :
    (sslSafeRead bufferSize script).1.length < bufferSize :=
  Nat.lt_of_le_pred (by decide) (sslReadLoop_length_le script (Nat.zero_le _))

/-- What a call of `ssl_safe_read` meets: the descriptor of its `SSL`, the result of
`select` and the results of the `SSL_read` calls. -/
structure ReadCall where
  sslFd : ℤ
  selected : ℤ
  script : List SslRead

/-- What `ssl_safe_read` returns: -1, 0 or the bytes it read, which it counts. -/
def ReadCall.result (call : ReadCall) : ReadResult :=
  if call.sslFd < 0 then .error
  else if call.selected ≤ 0 then .zero
  else if h : (sslSafeRead bufferSize call.script).1 = [] then .zero
  else .bytes (sslSafeRead bufferSize call.script).1 h (sslSafeRead_length_lt call.script)

def failsFirst : List SslRead → Bool
  | .wantRead :: rest => failsFirst rest
  | .fail :: _ => true
  | _ => false

/-- The socket is readable, and there is nothing to read but the end of the connection. -/
structure ReadCall.PeerClosed (call : ReadCall) : Prop where
  sslFd : 0 ≤ call.sslFd
  readable : 0 < call.selected
  fails : failsFirst call.script = true

instance (call : ReadCall) : Decidable call.PeerClosed :=
  decidable_of_iff (0 ≤ call.sslFd ∧ 0 < call.selected ∧ failsFirst call.script = true)
    ⟨fun h => ⟨h.1, h.2.1, h.2.2⟩, fun h => ⟨h.sslFd, h.readable, h.fails⟩⟩

/-! ### The machine -/

/-- The events of the machine, with what `ssl_safe_read` meets in place of what it
returns. -/
inductive CallEvent where
  | connect (fd : ℕ) (addr : SockAddr) (now : ℤ) (handshake : Handshake)
  | start (conn : Conn) (env : StartEnv)
  | iterate (conn : Conn) (env : Env) (call : ReadCall)
  | exit (conn : Conn) (env : Env)
  | sweep (now : ℤ)

def CallEvent.event : CallEvent → Event
  | connect fd addr now handshake => .connect fd addr now handshake
  | start conn env => .start conn env
  | iterate conn env call => .iterate conn env call.result
  | exit conn env => .exit conn env
  | sweep now => .sweep now

def callStep (C : Crypto) (s : Server) (e : CallEvent) : Server × List Effect := step C s e.event

def closedReader (s : Server) : CallEvent → Option Handler
  | .iterate conn _ call =>
    match s.handler? conn .looping with
    | none => none
    | some h => if 0 ≤ (s.clients h.slot).fd ∧ call.PeerClosed then some h else none
  | _ => none

def foundClosed (s : Server) (e : CallEvent) : List Conn :=
  match closedReader s e with
  | none => []
  | some h => (s.clients h.slot).ssl.toList

def closedStep (C : Crypto) (s : Server) (e : CallEvent) : Server × List Conn :=
  ((callStep C s e).1, foundClosed s e)

end Mesh
