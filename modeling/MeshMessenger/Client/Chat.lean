import MeshMessenger.Lib.Channels
import MeshMessenger.Proofs.ClientLines
import MeshMessenger.Server.Machine

/-! The server and the clients at the other ends of its connections. A handler reads
what its client sent next; what the server writes to a connection arrives there in
order, in any pieces and at any time. -/

namespace Mesh

open CLib Channels

/-- `readyRead` is emitted for data only. -/
def receive (J : JsonReader) (client : ChatClient) (data : Bytes) : ChatClient × List ClientEvent :=
  if data = [] then (client, []) else onReadyRead J client data

theorem receive_nil (J : JsonReader) (client : ChatClient) : receive J client [] = (client, []) :=
  rfl

theorem receive_append (J : JsonReader) (client : ChatClient) (data more : Bytes) :
    receive J client (data ++ more) =
      ((receive J (receive J client data).1 more).1,
        (receive J client data).2 ++ (receive J (receive J client data).1 more).2) := by
  by_cases hdata : data = []
  · simp [hdata, receive_nil]
  · by_cases hmore : more = []
    · simp [hmore, receive_nil]
    · have hboth : data ++ more ≠ [] := by simp [hdata]
      simp only [receive, hdata, hmore, hboth, if_false]
      exact onReadyRead_append J client data more

/-- What an event of the server finds in the streams: the handler reads through the `ssl`
of its slot, if that is still open. -/
def readNeeds (s : Server) : Event → Need Conn UInt8
  | .iterate conn _ (.bytes buffer _ _) =>
    match s.handler? conn .looping with
    | none => .nothing
    | some h =>
      if (s.clients h.slot).fd < 0 then .nothing
      else
        match (s.clients h.slot).ssl with
        | none => .never
        | some c => .next c buffer
  | _ => .nothing

def chat (C : Crypto) (J : JsonReader) :
    Hub Server Event Effect Conn ChatClient ClientEvent UInt8 where
  step := step C
  sent := writtenTo
  sent_append := writtenTo_append
  needs := readNeeds
  feed := receive J
  feed_nil := receive_nil J
  feed_append := receive_append J

/-- The client as its constructor leaves it. -/
def ChatClient.fresh : ChatClient := ⟨[], false, []⟩

abbrev Chat := Net Server Conn ChatClient UInt8

abbrev ChatEvent := Channels.Event Mesh.Event Conn UInt8

abbrev ChatOutput := Channels.Output Mesh.Event Effect Conn ClientEvent UInt8

def Chat.start (users : SecureUsers) : Chat := Hub.start (Server.init users) .fresh

abbrev chatRun (C : Crypto) (J : JsonReader) (s : Chat) (es : List ChatEvent) :
    Chat × List ChatOutput := (chat C J).run s es

theorem chat_accounts (C : Crypto) (J : JsonReader) (s : Chat) (es : List ChatEvent) :
    Hub.Accounts (chat C J) s (chatRun C J s es).2 (chatRun C J s es).1 := Hub.accounts_run s es

/-- The server in a chat goes through a run of its own. -/
theorem chat_machine (C : Crypto) (J : JsonReader) (s : Chat) (es : List ChatEvent) :
    run C s.machine (Output.acts (chatRun C J s es).2) =
      ((chatRun C J s es).1.machine, Output.emitted (chatRun C J s es).2) :=
  (chat_accounts C J s es).machine

/-- In every run from the start, what has arrived at a client is where the bytes written to
its connection begin, and it has handled them as if they had come at once. -/
theorem chat_received (C : Crypto) (J : JsonReader) (users : SecureUsers) (es : List ChatEvent)
    (c : Conn) :
    let r := chatRun C J (Chat.start users) es
    Output.arrived c r.2 ++ r.1.down c = writtenTo c (Output.emitted r.2) ∧
      receive J .fresh (Output.arrived c r.2) = (r.1.parties c, Output.signals c r.2) := by
  have h := chat_accounts C J (Chat.start users) es
  exact ⟨(h.down c).symm, h.parties c⟩

end Mesh
