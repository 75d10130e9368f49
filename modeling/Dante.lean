import Dante.Ledger.KeyChain
import Dante.Ledger.Discovery
import Dante.Ledger.Admission
import Dante.Ledger.Evaporation
import Dante.Dm.Rejection
import Dante.Core.Flood
import Dante.Relay.Rosters
import Dante.Relay.ChannelPolls
import Dante.Relay.Federation
import Dante.Relay.OneTimePrekeys
import Dante.Core.LostEvents
import Dante.Proto.MerkleLength
import Dante.Proto.MerkleMachine
import Dante.Net.Failover
import Dante.Relay.Handshake
import Dante.Net.WireFormat
import Dante.Core.InviteUses
import Dante.Core.Moderation
import Dante.Core.PolicyNames
import Dante.Core.PolicyDelivery
import Dante.Identity.Fingerprint
import Dante.Net.SealedMail
import Dante.Core.Attribution
import Dante.Core.FailedSend
import Dante.Core.Restart
import Dante.Relay.MailCopies
import Dante.Net.SyncFailover
import Dante.Net.ChannelGossip
import Dante.Core.Listing
import Dante.Core.ChannelPadding
import Dante.Net.PublicAddress
import Dante.Net.RequestHead
import Dante.Relay.SfuCandidates
import Dante.Core.KeyPackagePool
import Dante.Relay.ReplySize
import Dante.Net.Scrape
import Dante.Mls.Member
import Dante.Ledger.Agreement
import Dante.Net.Rendezvous
import Dante.Relay.Rebroadcast
import Dante.Core.Verified
