import MeshMessenger.Proofs.Authentication
import MeshMessenger.Proofs.IssuedTokens
import MeshMessenger.Proofs.Secrecy
import MeshMessenger.Proofs.Naming
import MeshMessenger.Proofs.Slots
import MeshMessenger.Proofs.Registration
import MeshMessenger.Proofs.Framing
import MeshMessenger.Proofs.Broadcast
import MeshMessenger.Proofs.FailedCommands
import MeshMessenger.Proofs.Admission
import MeshMessenger.Proofs.Descriptors
import MeshMessenger.Proofs.Restart
import MeshMessenger.Proofs.Peers
import MeshMessenger.Proofs.SessionIds
import MeshMessenger.Proofs.BroadcastOrder
import MeshMessenger.Proofs.Directory
import MeshMessenger.Proofs.Wire
import MeshMessenger.Proofs.Linkage
import MeshMessenger.Proofs.RateLimit
import MeshMessenger.Proofs.AuditLog
import MeshMessenger.Proofs.WholeWords
import MeshMessenger.Proofs.PrivateFrames
import MeshMessenger.Proofs.EncryptedFrames
import MeshMessenger.Proofs.Decryption
import MeshMessenger.Proofs.OnlineList
import MeshMessenger.Proofs.TokenBuffer
import MeshMessenger.Proofs.MessageLength
import MeshMessenger.Proofs.ClosedConnections
import MeshMessenger.Proofs.Writes
import MeshMessenger.Proofs.Reception
import MeshMessenger.Proofs.FanOut
import MeshMessenger.Proofs.StringDecryption
import MeshMessenger.Proofs.Conditions
import MeshMessenger.Proofs.ReadBuffer
import MeshMessenger.Proofs.Variables
import MeshMessenger.Proofs.TokensKept
import MeshMessenger.Proofs.Agreement
