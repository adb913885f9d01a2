import Spolks.Lib.Transition
import Spolks.Lib.Memory
import Spolks.Lib.Tiling
import Spolks.Lab5.Peer
import Spolks.Lab5.Invariant
import Spolks.Lab5.Sync
import Spolks.Lab5.Results
import Spolks.Lab5.Async
import Spolks.Lab5.Moves
import Spolks.Lab5.FailStop
import Spolks.Lab5.Termination
import Spolks.Matrix.Rounded
import Spolks.Lab5.Main
import Spolks.Lib.MachineInt
import Spolks.Lab5.Ints
import Spolks.Lab6.Collective
import Spolks.Lab6.Product
import Spolks.Lab6.Blocks
import Spolks.Lib.Rounds
import Spolks.Lab6.Interleaving
import Spolks.Lib.Chunks
import Spolks.Lib.Loop
import Spolks.Transfer.NetSender
import Spolks.Lib.OnesComplement
import Spolks.Ping.Checksum
import Spolks.Transfer.Agreement
import Spolks.Ping.Packet
import Spolks.Ping.Run
import Spolks.Ping.Target
import Spolks.Ping.Liveness
import Spolks.Ping.Replies
import Spolks.Ping.Accounting
import Spolks.Ping.Wire
import Spolks.Lab6.Grouping
import Spolks.Transfer.Complete
import Spolks.Transfer.Broken
import Spolks.Transfer.Connection
import Spolks.Transfer.Halting
import Spolks.Transfer.Outcomes
import Spolks.Transfer.Sides
import Spolks.Transfer.Programs
import Spolks.Sockcore.Connect
import Spolks.Transfer.Options
import Spolks.Transfer.Main
import Spolks.Lib.Terminated
import Spolks.Lab2.Server
import Spolks.Chat.Datagram
import Spolks.Chat.Broadcast
import Spolks.Chat.Membership
import Spolks.Chat.Multicast
import Spolks.Chat.Transparency
import Spolks.Chat.Replies
import Spolks.Chat.Conversation
import Spolks.Chat.RoundTrip
import Spolks.Chat.Peers
import Spolks.Chat.InOrder
import Spolks.Lib.Access
import Spolks.Ping.Reference
import Spolks.Ping.Unresolved
import Spolks.Sockcore.Setup
import Spolks.Sockcore.Port
import Spolks.Transfer.Progress
import Spolks.Transfer.Counters
import Spolks.Transfer.Lab4Main
import Spolks.Transfer.Siblings
import Spolks.Transfer.Assigned
import Spolks.Lab6.Finalize
import Spolks.Lab6.Bounds
import Spolks.Lab6.FileName
import Spolks.Lib.Scan
import Spolks.Lab6.Input
import Spolks.Lab6.Exact
