import Sozvon.PacketMapRuns
import Sozvon.Runs
import Sozvon.DownTrack
import Sozvon.GroupPointer
import Sozvon.Commands
import Sozvon.LockOrder
import Sozvon.ClearPolicy
import Sozvon.WorkerMode
import Sozvon.AttachFailure
import Sozvon.StaleMessages
import Sozvon.Commitment
import Sozvon.Agreement
import Sozvon.Seats
import Sozvon.Waiting
import Sozvon.Roster
import Sozvon.ChatDelivery
import Sozvon.TokenFailures
import Sozvon.Tickets
import Sozvon.Lobby
import Sozvon.LoginLimiter
import Sozvon.ClientAddress
import Sozvon.TokenRequests
import Sozvon.Descriptions
import Sozvon.LocalTracks
import Sozvon.TokenMessages
import Sozvon.Utf16
import Sozvon.ChatTurns
import Sozvon.EncryptedChat
import Sozvon.ReplayLogs
import Sozvon.ResumeSession
import Sozvon.ExactlyOnce
import Sozvon.RefusedMessages
import Sozvon.PacketCache
import Sozvon.RecentPackets
import Sozvon.ReceiverStats
import Sozvon.LossBitmap
import Sozvon.Nacks
import Sozvon.PacketBounds
import Sozvon.NextPacket
import Sozvon.LayerSelection
import Sozvon.Retransmission
import Sozvon.TurnServer
import Sozvon.ServerFile
import Sozvon.Unbounded
import Sozvon.TokenGroups
import Sozvon.SdpRoundTrip
import Sozvon.SdpPatch
import Sozvon.WriterCalls
import Sozvon.RtcpTimes
import Sozvon.Alignment
import Sozvon.Recovery
import Sozvon.Recordings
import Sozvon.ChatKeys
import Sozvon.BitrateControl
import Sozvon.ConnectionQuality
import Sozvon.GroupPermission
import Sozvon.HostKeys
import Sozvon.Installs
import Sozvon.Knocks
import Sozvon.FileTransfers
import Sozvon.TimeConversions
import Sozvon.ReportLimits
import Sozvon.Estimators
import Sozvon.ReplayWindows
import Sozvon.GuestNames
import Sozvon.EntityTags
import Sozvon.PictureIds
import Sozvon.Keyframes
import Sozvon.RoomLinks
import Sozvon.Streams
import Sozvon.Routing
import Sozvon.StreamLinks
import Sozvon.StreamClosing
import Sozvon.StreamQueues
import Sozvon.StreamDelivery
import Sozvon.StreamOffers
import Sozvon.Accounts
import Sozvon.AccountStore
import Sozvon.AccountTags
