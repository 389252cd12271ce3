import Lineage.Index.JoinChain.Transport
import Lineage.Index.SearchPass
import Lineage.Partition.Listing
import Lineage.Proofs.Steps
import Lineage.Proofs.WordSet.Listing
import Lineage.Settings.Transport
import Lineage.Tally.Transport
import Lineage.WordSet.Cursor
import Lineage.WordSet.Members
import Lineage.Proofs.LinkTable.Writing
import Lineage.Proofs.LinkTable.Listing
import Lineage.Proofs.Ordered
import Lineage.Proofs.Climbing
import Lineage.Proofs.Gathering
import Lineage.Proofs.JoinCounts
import Lineage.Proofs.AncestorForwarding
import Lineage.Proofs.WordSet.Storage
import Lineage.Proofs.LinkTable.Limit
import Lineage.Proofs.Index.Columns
import Lineage.Proofs.Index.Scanning
import Lineage.Proofs.Index.TermReach
import Lineage.Proofs.Index.Searching
import Lineage.Proofs.Index.TermJoin
import Lineage.Proofs.Sightings
import Lineage.Proofs.Taking
import Lineage.Proofs.HitLoss
import Lineage.Proofs.HitForwarding
import Lineage.Proofs.Runs
import Lineage.Proofs.SegmentGathering
import Lineage.Proofs.Colocation
import Lineage.Proofs.Alike
import Lineage.Proofs.WordSet.Search
import Lineage.Proofs.Index.MainDocuments
import Lineage.Proofs.Index.Opening
import Lineage.Proofs.Index.AllOrNothing
import Lineage.Proofs.WordSet.Walk
import Lineage.Proofs.WordSet.History
import Lineage.Proofs.LinkTable.History
import Lineage.Proofs.LinkTable.Rows
import Lineage.Proofs.Keeping
import Lineage.Proofs.LinkTable.Accounting
import Lineage.Proofs.Bisection
import Lineage.Proofs.Index.ByteOrder
import Lineage.Proofs.Index.Dictionary
import Lineage.Proofs.Sessions
import Lineage.Proofs.Index.ScanStrategies
import Lineage.Proofs.Resilience
import Lineage.Proofs.Conduct
import Lineage.Proofs.Questions
import Lineage.Proofs.Index.Questions
import Lineage.Proofs.LinkTable.Refusals
import Lineage.Proofs.LinkTable.Converse
import Lineage.Proofs.SightingCounts
import Lineage.Proofs.LinkTable.Uncharged
import Lineage.Proofs.Json.Token
import Lineage.Proofs.Json.Tree
import Lineage.Proofs.Doubles
import Lineage.Proofs.ByteSize
import Lineage.Proofs.Settings
import Lineage.Proofs.LinkTable.Economy
import Lineage.Proofs.WordSet.Growth
import Lineage.Proofs.PassConduct
import Lineage.Proofs.Records
import Lineage.Proofs.HandoffCounts
import Lineage.Proofs.EarlyStop
import Lineage.Proofs.TallyMonoid
import Lineage.Proofs.TallyWords
import Lineage.Proofs.Index.JoinChains
import Lineage.Proofs.TallyTransport
