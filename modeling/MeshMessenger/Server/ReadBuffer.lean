import MeshMessenger.Server.Input
import MeshMessenger.Server.Writes

/-! `ssl_safe_read` on the cells of its buffer, after `select` found the socket readable:
the `size_t` arithmetic of the requests and the `int` that `SSL_read` is given. The two
definitions of the function differ in a cast that changes nothing. -/

namespace Mesh

open CLib

def sizeSub (a b : ℕ) : ℕ := (a + 2 ^ 64 - b) % 2 ^ 64

inductive ReadReply where
  | read (chunk : Bytes)
  | wantRead
  | failed
  deriving DecidableEq

/-- `SSL_read` of up to `num` bytes, an `int`: it is an error to ask for no bytes or fewer. -/
def SslRead.reply (num : ℤ) : SslRead → ReadReply
  | data b bs => if 0 < num then .read ((b :: bs).take num.toNat) else .failed
  | wantRead => .wantRead
  | fail => .failed

structure Request where
  total : ℕ
  num : ℤ
  deriving DecidableEq

/-- Writes bytes to the cells from `i` on; `none` where they are not all in the buffer. -/
def storeAt (buffer : Bytes) (i : ℕ) (s : Bytes) : Option Bytes :=
  if i + s.length ≤ buffer.length then some (buffer.take i ++ s ++ buffer.drop (i + s.length))
  else none

/-- How far a call of `ssl_safe_read` is where the script ends. -/
inductive ReadEnd where
  | returned (result : ℤ) (total : ℕ) (buffer : Bytes)
  | waiting (total : ℕ) (buffer : Bytes)
  | outside
  deriving DecidableEq

structure Reading where
  requests : List Request
  last : ReadEnd
  deriving DecidableEq

namespace Reading

def after (r : Reading) (request : Request) : Reading := ⟨request :: r.requests, r.last⟩

def finish (buffer : Bytes) (total : ℕ) : Reading :=
  match storeAt buffer total [0] with
  | none => ⟨[], .outside⟩
  | some buffer => ⟨[], .returned (intOfSize total) total buffer⟩

end Reading

def sslReadCells (maxLen : ℕ) : Bytes → ℕ → List SslRead → Reading
  | buffer, total, [] =>
    if total < sizeSub maxLen 1 then ⟨[], .waiting total buffer⟩ else .finish buffer total
  | buffer, total, outcome :: script =>
    if total < sizeSub maxLen 1 then
      let num := intOfSize (sizeSub (sizeSub maxLen total) 1)
      match outcome.reply num with
      | .read chunk =>
        match storeAt buffer total chunk with
        | none => ⟨[⟨total, num⟩], .outside⟩
        | some buffer =>
          let next := total + chunk.length
          if buffer[next - 1]? = some newline then (Reading.finish buffer next).after ⟨total, num⟩
          else (sslReadCells maxLen buffer next script).after ⟨total, num⟩
      | .wantRead => (sslReadCells maxLen buffer total script).after ⟨total, num⟩
      | .failed => (Reading.finish buffer total).after ⟨total, num⟩
    else .finish buffer total

def sslSafeReadCells (maxLen : ℕ) (buffer : Bytes) (script : List SslRead) : Reading :=
  sslReadCells maxLen buffer 0 script

/-! ### What is to be read -/

/-- The chunks that a call is to take, with `room` cells before the last one, and whether
they end it: a chunk that ends in a newline does, a full buffer, and a failure. -/
def taken : ℕ → List SslRead → List Bytes × Bool
  | 0, _ => ([], true)
  | _ + 1, [] => ([], false)
  | room + 1, .wantRead :: script => taken (room + 1) script
  | _ + 1, .fail :: _ => ([], true)
  | room + 1, .data b bs :: script =>
    let chunk := (b :: bs).take (room + 1)
    if chunk.getLast? = some newline then ([chunk], true)
    else
      let later := taken (room + 1 - chunk.length) script
      (chunk :: later.1, later.2)

/-- What a call does that stays in its buffer and loses nothing. -/
structure ReadsWell (maxLen : ℕ) (buffer : Bytes) (script : List SslRead) (r : Reading) : Prop where
  requests : ∀ request ∈ r.requests,
    1 ≤ request.num ∧ request.total + request.num ≤ maxLen - 1
  last :
    let content := (taken (maxLen - 1) script).1.flatten
    content.length ≤ maxLen - 1 ∧
    r.last =
      if (taken (maxLen - 1) script).2 then
        .returned content.length content.length
          (content ++ 0 :: buffer.drop (content.length + 1))
      else .waiting content.length (content ++ buffer.drop content.length)

end Mesh
