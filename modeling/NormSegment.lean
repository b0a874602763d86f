import NormSegment.BitMask
import NormSegment.SegmentPool
import NormSegment.PoolCounters
import NormSegment.Block
import NormSegment.RequestPlan
import NormSegment.Sender
import NormSegment.Staging
import NormSegment.Requests
import NormSegment.Ownership
import NormSegment.RepairRequest
import NormSegment.RepairEncoding
import NormSegment.Nack
import NormSegment.BlockBuffer
import NormSegment.BlockIdWindow
import NormSegment.BlockBufferScan
import NormSegment.BlockBufferRefinement
import NormSegment.BlockBufferWalk
import NormSegment.BlockBufferCanonical
