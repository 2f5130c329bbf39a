import DogeIndexer.Compressor.ChainDB
import DogeIndexer.Compressor.Dunestone
import DogeIndexer.Compressor.Varints
import DogeIndexer.Lib.Interpolation
import DogeIndexer.Lib.Bijective
import DogeIndexer.Compressor.Dune
import DogeIndexer.Compressor.SpacedDune
import DogeIndexer.Compressor.Inscription
import DogeIndexer.Compressor.Grammar
import DogeIndexer.Compressor.Inscriptions
import DogeIndexer.Compressor.Runes
import DogeIndexer.Compressor.Txos
import DogeIndexer.Compressor.Types
import DogeIndexer.Lib.Effect
import DogeIndexer.Lib.Keyed
import DogeIndexer.Lib.Machine
import DogeIndexer.Lib.Table
import DogeIndexer.Polyphony.Action
import DogeIndexer.Polyphony.Batch
import DogeIndexer.Polyphony.Cursor
import DogeIndexer.Polyphony.Execute
import DogeIndexer.Polyphony.InitialPoint
import DogeIndexer.Polyphony.Restart
import DogeIndexer.Polyphony.Rollback
import DogeIndexer.Polyphony.Source
import DogeIndexer.Polyphony.Worker
import DogeIndexer.Compressor.Indexed
import DogeIndexer.Compressor.Processed
import DogeIndexer.Compressor.Applied
import DogeIndexer.Compressor.Reveals
import DogeIndexer.Compressor.Satoshis
import DogeIndexer.Compressor.Live
import DogeIndexer.Compressor.Edicts
import DogeIndexer.Compressor.DuneLedger
import DogeIndexer.Compressor.Mints
import DogeIndexer.Compressor.Distribution
import DogeIndexer.Compressor.MintCounts
import DogeIndexer.Compressor.Holdings
import DogeIndexer.Compressor.Outcomes
import DogeIndexer.Lib.History
import DogeIndexer.Compressor.Undo
import DogeIndexer.Compressor.Reach
import DogeIndexer.Compressor.Partials
import DogeIndexer.Compressor.ChainTables
import DogeIndexer.Compressor.Names
import DogeIndexer.Compressor.Messages
import DogeIndexer.Compressor.Supply
import DogeIndexer.Compressor.Transfers
import DogeIndexer.Compressor.Conservation
import DogeIndexer.Compressor.Amounts
import DogeIndexer.Compressor.Books
import DogeIndexer.Compressor.Inverse
import DogeIndexer.Compressor.Memory
import DogeIndexer.Compressor.Resolver
import DogeIndexer.Compressor.Subtractions
import DogeIndexer.Compressor.Debits
import DogeIndexer.Polyphony.Staggered
import DogeIndexer.Polyphony.Persisted
import DogeIndexer.Polyphony.Filled
import DogeIndexer.Polyphony.Reload
import DogeIndexer.Polyphony.Interrupted
import DogeIndexer.Polyphony.Retained
import DogeIndexer.Polyphony.Flush
import DogeIndexer.Polyphony.Repeated
import DogeIndexer.Compressor.Reports
import DogeIndexer.Compressor.Roll
import DogeIndexer.Compressor.Pull
import DogeIndexer.Compressor.Locator
import DogeIndexer.Compressor.PullEvents
import DogeIndexer.Compressor.PullRuns
import DogeIndexer.Compressor.Staged
import DogeIndexer.Compressor.Stream
import DogeIndexer.Compressor.Replay
import DogeIndexer.Compressor.Serve
import DogeIndexer.Compressor.Intersect
import DogeIndexer.Compressor.Paging
import DogeIndexer.Polyphony.Context
import DogeIndexer.Polyphony.Enriched
import DogeIndexer.Timbre.Schema
import DogeIndexer.Timbre.Reducers
import DogeIndexer.Timbre.RoundTrip
import DogeIndexer.Timbre.Truncation
import DogeIndexer.Timbre.Text
import DogeIndexer.Lib.Lexicographic
import DogeIndexer.Timbre.KeyOrder
import DogeIndexer.Timbre.Namespace
import DogeIndexer.Lib.Sorting
import DogeIndexer.TikvGc.Safepoint
import DogeIndexer.Lib.Base64
import DogeIndexer.Lib.Digits
import DogeIndexer.Lib.Text
import DogeIndexer.TikvGc.Entry
import DogeIndexer.Compressor.Decimal
import DogeIndexer.Mapi.Scan
import DogeIndexer.Mapi.Listings
import DogeIndexer.Mapi.Pages
import DogeIndexer.Mapi.Bounds
import DogeIndexer.Mapi.ExactlyOnce
import DogeIndexer.Mapi.Endpoints
import DogeIndexer.Mapi.Batches
import DogeIndexer.Mapi.Decimal
import DogeIndexer.Lib.Ledger
import DogeIndexer.Polyphony.Reducers
import DogeIndexer.Polyphony.Views
import DogeIndexer.Polyphony.Netted
import DogeIndexer.Polyphony.Unspent
import DogeIndexer.Polyphony.Committed
import DogeIndexer.Polyphony.Indexes
import DogeIndexer.Polyphony.UtxoIndex
import DogeIndexer.Polyphony.DuneViews
import DogeIndexer.Polyphony.InscriptionIndex
import DogeIndexer.Compressor.Recorded
import DogeIndexer.Compressor.Etchings
import DogeIndexer.Polyphony.Described
import DogeIndexer.Polyphony.Handover
import DogeIndexer.Polyphony.Carried
import DogeIndexer.Polyphony.Recording
import DogeIndexer.Polyphony.Etchings
import DogeIndexer.Polyphony.Configured
import DogeIndexer.Compressor.Revealed
import DogeIndexer.Polyphony.NodeRecords
import DogeIndexer.Polyphony.Brc20
import DogeIndexer.Polyphony.Brc20Counters
import DogeIndexer.Polyphony.Brc20Balances
