import Sync532.DecoderRecords
import Sync532.CdcModel
import Sync532.CdcScan
import Sync532.CdcStream
import Sync532.DedupModel
import Sync532.DedupTable
import Sync532.EncodeModel
import Sync532.EncodeRecords
import Sync532.ChunkNumbers
import Sync532.EncodePacket
import Sync532.EndToEnd
import Sync532.OffloadModel
import Sync532.Offload
import Sync532.ServerLoop
import Sync532.ClientFraming
import Sync532.CdcBounds
import Sync532.CdcResync
import Sync532.LzwReads
import Sync532.DedupHistory
import Sync532.StreamReads
import Sync532.DecoderExtent
import Sync532.GreedyParse
import Sync532.LzwLimits
import Sync532.PackedBytes
import Sync532.LzwGreedy
import Sync532.EditedCuts
import Sync532.CdcEdits
import Sync532.RunStorage
import Sync532.BoundedRefinement
import Sync532.OutputBuffer
import Sync532.OutputSize
import Sync532.CompressionBounds
import Sync532.DecoderFiles
import Sync532.DatagramNetwork
import Sync532.NetworkRuns
import Sync532.HostRuns
import Sync532.RingBuffer
import Sync532.PayloadRecords
import Sync532.OffloadRuns
import Sync532.RunDefined
import Sync532.ServerCalls
