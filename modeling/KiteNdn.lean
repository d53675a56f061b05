import KiteNdn.Chunks.Accounting
import KiteNdn.Chunks.FailureReports
import KiteNdn.Client.PendingInterests
import KiteNdn.Encoding.Stream
import KiteNdn.Fw.AccessStrategy
import KiteNdn.Fw.Delivery
import KiteNdn.Fw.EarliestOutRecord
import KiteNdn.Fw.InterestLifetime
import KiteNdn.Fw.NackStatus
import KiteNdn.Fw.PendingSet
import KiteNdn.Fw.Rendezvous
import KiteNdn.Fw.Retransmission
import KiteNdn.Fw.ScopeControl
import KiteNdn.Fw.StrategyRegistry
import KiteNdn.Fw.Withdrawal
import KiteNdn.Kite.RoundTrip
import KiteNdn.Lp.FieldOrder
import KiteNdn.Lp.LinkService
import KiteNdn.Mgmt.AnnouncementLifetime
import KiteNdn.Mgmt.Expiration
import KiteNdn.Name.Wire
import KiteNdn.Packet.SignedCheck
import KiteNdn.Rib.FaceIndex
import KiteNdn.Rib.OwnNexthop
import KiteNdn.Rib.Readvertise
import KiteNdn.Rib.Retries
import KiteNdn.Security.CertificateChain
import KiteNdn.Security.SignedInterest
import KiteNdn.Table.CsFreshness
import KiteNdn.Table.FibEntry
import KiteNdn.Table.InMemoryStorage
import KiteNdn.Table.NameHash
import KiteNdn.Table.PitLookup
import KiteNdn.Transport.ClientStream
import KiteNdn.Util.RegexTopMatcher
import KiteNdn.Util.Scheduler
