import MeshMessenger.Lib.CString

/-! Both definitions of `ssl_safe_write`, over the outcomes of their `SSL_write` calls
and what each test of the loop finds in `server.running`. -/

namespace Mesh

open CLib

def intOfSize (n : ℕ) : ℤ := (n : ℤ).bmod (2 ^ 32)

/-- The next thing `SSL_write` has to report. The connection takes as many bytes as it
is offered, up to one more than `extra`. -/
inductive SslWrite where
  | accept (extra : ℕ)
  | want
  | fatal
  deriving DecidableEq

inductive WriteReply where
  | wrote (n : ℕ)
  | retry
  | fatal
  deriving DecidableEq

/-- `SSL_write` of `num` bytes, an `int`: it is an error to offer no bytes or fewer. -/
def SslWrite.reply (num : ℤ) : SslWrite → WriteReply
  | accept extra => if 0 < num then .wrote (min (extra + 1) num.toNat) else .fatal
  | want => .retry
  | fatal => .fatal

/-- What a call of `ssl_safe_write` has done where the script ends: its result, once it
has returned, the bytes that were accepted and the replies it got. -/
structure Written where
  result : Option ℤ
  wire : Bytes
  replies : List WriteReply
  deriving DecidableEq

namespace Written

def after (w : Written) (accepted : Bytes) (reply : WriteReply) : Written where
  result := w.result
  wire := accepted ++ w.wire
  replies := reply :: w.replies

def returned (result : ℤ) : Written := ⟨some result, [], []⟩

def waiting : Written := ⟨none, [], []⟩

end Written

/-- The loop of the first definition, with `total` bytes written. The `k`-th test of its
condition from here finds `running k`. -/
def sslWriteLoop (data : Bytes) : (ℕ → Bool) → ℕ → List SslWrite → Written
  | running, total, [] =>
    if total < data.length ∧ running 0 = true then .waiting else .returned (intOfSize total)
  | running, total, outcome :: script =>
    if total < data.length ∧ running 0 = true then
      match outcome.reply (intOfSize (data.length - total)) with
      | .wrote n =>
        (sslWriteLoop data (fun k => running (k + 1)) (total + n) script).after
          ((data.drop total).take n) (.wrote n)
      | .retry => (sslWriteLoop data (fun k => running (k + 1)) total script).after [] .retry
      | .fatal => (Written.returned (-1)).after [] .fatal
    else .returned (intOfSize total)

def sslSafeWrite (data : Bytes) (running : ℕ → Bool) (script : List SslWrite) : Written :=
  sslWriteLoop data running 0 script

/-- The loop of the second definition, which does not look at `server.running`. -/
def sslWriteLoopSecond (data : Bytes) : ℕ → List SslWrite → Written
  | total, [] => if total < data.length then .waiting else .returned (intOfSize total)
  | total, outcome :: script =>
    if total < data.length then
      match outcome.reply (intOfSize (data.length - total)) with
      | .wrote n =>
        (sslWriteLoopSecond data (total + n) script).after ((data.drop total).take n) (.wrote n)
      | .retry => (sslWriteLoopSecond data total script).after [] .retry
      | .fatal => (Written.returned (-1)).after [] .fatal
    else .returned (intOfSize total)

def sslSafeWriteSecond (data : Bytes) (script : List SslWrite) : Written :=
  sslWriteLoopSecond data 0 script

end Mesh
