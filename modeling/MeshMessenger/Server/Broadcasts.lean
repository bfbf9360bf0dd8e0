import MeshMessenger.Lib.Runs
import MeshMessenger.Server.Commands

/-! `broadcast_message` at the grain at which the handler threads interleave.
`server.mutex` is initialised and never locked, so between two turns of one
call's loop any other call may take turns of its own, and any other thread may
write to `server.clients`. -/

namespace Mesh

open CLib

/-- A call in progress: its `json`, and its loop variable. -/
structure BroadcastCall where
  json : Bytes
  i : ℕ
deriving DecidableEq

/-- The clients, and the calls begun so far in the order in which they began. -/
structure Broadcasting where
  clients : Slot → SecureClient
  calls : List BroadcastCall

inductive BroadcastEvent where
  /-- A handler enters `broadcast_message`: all before the loop. -/
  | call (env : Env) (sender message : Bytes)
  | turn (k : ℕ)
  /-- Another thread writes to a slot. -/
  | update (i : Slot) (client : SecureClient)

inductive BroadcastOutput where
  | saved (effect : Effect)
  | written (k : ℕ) (i : Slot) (effect : Effect)
deriving DecidableEq

def BroadcastOutput.effect : BroadcastOutput → Effect
  | .saved effect => effect
  | .written _ _ effect => effect

def Broadcasting.standsAt (b : Broadcasting) (k : ℕ) : Option Slot := do
  let call ← b.calls[k]?
  if h : call.i < maxClients then some ⟨call.i, h⟩ else none

def writeTurn (b : Broadcasting) (k : ℕ) (i : Slot) (json : Bytes) : List BroadcastOutput :=
  if (b.clients i).online then [.written k i (.write (b.clients i).ssl json)] else []

def broadcastStep (b : Broadcasting) : BroadcastEvent → Broadcasting × List BroadcastOutput
  | .call env sender message =>
    let json := snprintf bufferSize (messageFrame sender message)
    ({ b with calls := b.calls ++ [⟨json, 0⟩] },
      (saveMessage env sender [] message).map .saved)
  | .turn k =>
    match b.calls[k]? with
    | none => (b, [])
    | some call =>
      if h : call.i < maxClients then
        ({ b with calls := b.calls.set k { call with i := call.i + 1 } },
          writeTurn b k ⟨call.i, h⟩ call.json)
      else (b, [])
  | .update i client => ({ b with clients := Function.update b.clients i client }, [])

def Broadcasting.passed (b : Broadcasting) (k : ℕ) (i : Slot) : Prop :=
  ∃ call, b.calls[k]? = some call ∧ i.val < call.i

instance (b : Broadcasting) (k : ℕ) (i : Slot) : Decidable (b.passed k i) :=
  decidable_of_iff (b.calls[k]?.any fun call => decide (i.val < call.i)) (by
    cases h : b.calls[k]? <;> simp [Broadcasting.passed, h])

def framesOf : List BroadcastEvent → List Bytes
  | [] => []
  | .call _ sender message :: es =>
    snprintf bufferSize (messageFrame sender message) :: framesOf es
  | .turn _ :: es => framesOf es
  | .update _ _ :: es => framesOf es

def writesOf (k : ℕ) (i : Slot) (out : List BroadcastOutput) : List Effect :=
  out.filterMap fun
    | .written m j effect => if m = k ∧ j = i then some effect else none
    | .saved _ => none

/-- The calls that have written to slot `i`, in the order of their writes. -/
def received (i : Slot) (out : List BroadcastOutput) : List ℕ :=
  out.filterMap fun
    | .written k j _ => if j = i then some k else none
    | .saved _ => none

@[simp] theorem received_append (i : Slot) (out out' : List BroadcastOutput) :
    received i (out ++ out') = received i out ++ received i out' :=
  List.filterMap_append

@[simp] theorem writesOf_append (k : ℕ) (i : Slot) (out out' : List BroadcastOutput) :
    writesOf k i (out ++ out') = writesOf k i out ++ writesOf k i out' :=
  List.filterMap_append

end Mesh
