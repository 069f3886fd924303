import XnuTrace.LogStructs
import XnuTrace.PackedChanges
import XnuTrace.MessageWriter
import XnuTrace.Lib.Occupancy
import XnuTrace.MinimalPerfectHash
import XnuTrace.SaltSearch
import XnuTrace.Permute
import XnuTrace.MphMap
import XnuTrace.CompressedFile
import XnuTrace.Frames
import XnuTrace.ThreadCtx
import XnuTrace.Resync
import XnuTrace.RegionPages
import XnuTrace.MetadataRoundTrip
import XnuTrace.Symbols
import XnuTrace.BasicBlocks
import XnuTrace.LookupInst
import XnuTrace.BitVector
import XnuTrace.PackedArray
import XnuTrace.SplitBitVector
import XnuTrace.SignedBitVector
import XnuTrace.Modes
import XnuTrace.ThreadFiles
import XnuTrace.PythonReader
import XnuTrace.PythonAgreement
import XnuTrace.Lib.Stdio
import XnuTrace.ZstdStreams
import XnuTrace.FileStreams
import XnuTrace.Lib.Interrupted
import XnuTrace.WriteSteps
import XnuTrace.RegionReuse
import XnuTrace.EarlierRuns
import XnuTrace.Lib.Reads
import XnuTrace.Traversal
import XnuTrace.PiecewiseRead
import XnuTrace.SymbolLookup
import XnuTrace.CallsFrom
import XnuTrace.Drcov
import XnuTrace.InstrHistogram
import XnuTrace.Lib.Stepwise
import XnuTrace.Tracer
import XnuTrace.AtomicBits
import XnuTrace.MachOSegments
import XnuTrace.Lib.Occurrences
import XnuTrace.NeedleChunks
import XnuTrace.SyncHeaders
import XnuTrace.ForgedHeaders
import XnuTrace.Lib.MergedRuns
import XnuTrace.RegionKinds
import XnuTrace.Subregions
import XnuTrace.CstrRead
import XnuTrace.TwowayNeedle
import XnuTrace.TwowaySearch
import XnuTrace.Lib.Interleaving
import XnuTrace.ThreadPool
import XnuTrace.MachOCommands
import XnuTrace.DyldImages
import XnuTrace.RegionsReset
import XnuTrace.PipeControl
import XnuTrace.TracerLife
import XnuTrace.SavedThreads
import XnuTrace.SingleStep
import XnuTrace.LogChunks
import XnuTrace.TracedSection
import XnuTrace.RecordedInsts
import XnuTrace.VmRegions
