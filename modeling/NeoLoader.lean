import NeoLoader.AvailabilityCount
import NeoLoader.RoutingRoot
import NeoLoader.HopLimits
import NeoLoader.FrameRelayHistory
import NeoLoader.SessionCounters
import NeoLoader.ForgedFrames
import NeoLoader.ChannelForgery
import NeoLoader.LookupCounters
import NeoLoader.LookupConvergence
import NeoLoader.SpreadShares
import NeoLoader.PayloadIndex
import NeoLoader.MuleFileStatus
import NeoLoader.PortTest
import NeoLoader.HashTreeEx
import NeoLoader.IpcLogin
import NeoLoader.PartMapBits
import NeoLoader.CalculatedTree
import NeoLoader.MetadataExchange
import NeoLoader.XmlFile
import NeoLoader.PartCounters
import NeoLoader.TrustedHash
import NeoLoader.ContributorSums
import NeoLoader.HashConflicts
import NeoLoader.PacketStream
import NeoLoader.MuleSocket
import NeoLoader.IOQueue
import NeoLoader.RangeStorage
import NeoLoader.ImportParts
import NeoLoader.AichRecovery
import NeoLoader.PeerExchange
import NeoLoader.UIntX
import NeoLoader.VariantInts
import NeoLoader.PulledBytes
import NeoLoader.RouteSessions
import NeoLoader.RouteSamples
import NeoLoader.RoutingPlan
import NeoLoader.AddressChecks
import NeoLoader.ResponseFrames
import NeoLoader.UtpDatagrams
import NeoLoader.BandwidthRuns
import NeoLoader.ClosestIterator
import NeoLoader.NodeAddressRuns
import NeoLoader.MuleAnswers
import NeoLoader.TorrentPaths
import NeoLoader.Sorts
import NeoLoader.CryptoPolicy
import NeoLoader.MetadataInstall
import NeoLoader.TreeNotation
import NeoLoader.InspectorStore
import NeoLoader.JobManager
import NeoLoader.SearchTree
import NeoLoader.ServerRecords
import NeoLoader.PartValidation
import NeoLoader.BlockExchange
