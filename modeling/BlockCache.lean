import BlockCache.Cache.Audit
import BlockCache.Cache.History
import BlockCache.Proofs.Cache.Bounds
import BlockCache.Proofs.Cache.Order
import BlockCache.Proofs.Cache.Reachable
import BlockCache.Proofs.Cache.Recall
import BlockCache.Proofs.Cache.Verdict
import BlockCache.Proofs.Space.Runs
import BlockCache.Proofs.Cache.Reservation
import BlockCache.Proofs.Cache.Recency
import BlockCache.Proofs.Cache.Queue
import BlockCache.Proofs.Cache.Renewal
import BlockCache.Proofs.Cache.Borrowed
import BlockCache.Proofs.Cache.Room
import BlockCache.Proofs.Cache.Conservation
import BlockCache.Proofs.Cache.Frame
import BlockCache.Proofs.Cache.Replacement
import BlockCache.Proofs.Cache.Protection
import BlockCache.Proofs.Cache.Uniform
import BlockCache.Proofs.Cache.Occupancy
import BlockCache.Proofs.Space.Return
import BlockCache.Proofs.Directory.Hash
import BlockCache.Proofs.Memory.OutOfMemory
import BlockCache.Proofs.Directory.Rewiring
import BlockCache.Proofs.Cache.Exhaustion
import BlockCache.Proofs.Cache.Budget
import BlockCache.Proofs.Directory.Journey
