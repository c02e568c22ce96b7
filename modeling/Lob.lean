import Lob.Types
import Lob.General.Probing
import Lob.General.Linked
import Lob.General.Greedy
import Lob.General.BoundedQueue
import Lob.General.Fairness
import Lob.General.BigEndian
import Lob.OrderIdMap
import Lob.Bitmap
import Lob.SlabAllocator
import Lob.IntrusiveList
import Lob.SpscRing
import Lob.Itch
import Lob.ItchFormat
import Lob.OrderBook
import Lob.Queues
import Lob.Calls
import Lob.Equiv.OrderIdMap
import Lob.Equiv.OrderIdMapRuns
import Lob.Equiv.Bitmap
import Lob.Equiv.BitmapRuns
import Lob.Equiv.IdMap
import Lob.Equiv.SlabAllocator
import Lob.Equiv.SlabRuns
import Lob.Equiv.SlabPeak
import Lob.Equiv.IntrusiveList
import Lob.Equiv.ListFamily
import Lob.Equiv.OrderBook.Index
import Lob.Equiv.OrderBook.Invariant
import Lob.Equiv.OrderBook.Memory
import Lob.Equiv.OrderBook.Passive
import Lob.Equiv.OrderBook.Matching
import Lob.Equiv.OrderBook.PreWalk
import Lob.Equiv.OrderBook.Submit
import Lob.Equiv.OrderBook.Step
import Lob.Equiv.OrderBook.IdIndex
import Lob.Equiv.OrderBook.SlotOwnership
import Lob.Equiv.OrderBook.Visible
import Lob.Equiv.OrderBook.Representation
import Lob.Equiv.OrderBook.HiddenLevel
import Lob.Equiv.OrderBook.Uncrossed
import Lob.Equiv.OrderBook.Modify
import Lob.Equiv.OrderBook.FillOrKill
import Lob.Equiv.OrderBook.Priority
import Lob.Equiv.SpscRing
import Lob.Equiv.SizeApprox
import Lob.Equiv.ItchReads
import Lob.Equiv.ItchParser
import Lob.Equiv.ItchResume
import Lob.Equiv.ItchWellFormed
import Lob.Equiv.OrderBook.Outcome
import Lob.Equiv.OrderBook.Depth
import Lob.Ledger
import Lob.Equiv.OrderBook.Conservation
import Lob.Equiv.OrderBook.Lifecycle
import Lob.Replay
import Lob.Tape
import Lob.Equiv.Replay
import Lob.Equiv.ReplayPassive
import Lob.Equiv.ReplayIsolation
import Lob.Histogram
import Lob.Equiv.Histogram
import Lob.Equiv.OrderBook.TopN
import Lob.Equiv.OrderBook.Exhaustion
import Lob.Equiv.OrderBook.Amortized
import Lob.Equiv.OrderBook.Sink
import Lob.Equiv.OrderBook.WorkingSet
import Lob.Equiv.OrderBook.Occupancy
import Lob.Equiv.OrderBook.Resubmit
import Lob.Equiv.OrderBook.Decrements
import Lob.Equiv.OrderBook.Undo
import Lob.General.Lockstep
import Lob.Equiv.OrderBook.Relabel
import Lob.Equiv.OrderBook.RelabelCalls
import Lob.Equiv.OrderBook.Mirror
import Lob.Equiv.OrderBook.Translation
import Lob.Equiv.OrderIdMapLoad
import Lob.Equiv.OrderBook.Market
import Lob.Equiv.OrderBook.Refinement
import Lob.Equiv.OrderBook.MarketRuns
import Lob.Equiv.OrderBook.OneMarket
import Lob.Equiv.OrderBook.Rebuild
import Lob.Equiv.OrderBook.ImmediateOrCancel
import Lob.Equiv.OrderBook.CollisionFree
import Lob.Equiv.SpscProgress
import Lob.ReplayMain
import Lob.Equiv.ReplayMain
import Lob.Equiv.ReplayRuns
import Lob.Equiv.Snapshot
import Lob.Equiv.LatencyCsv
import Lob.Equiv.ReplayTable
import Lob.Equiv.ReplayResume
