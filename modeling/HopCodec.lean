import HopCodec.Main
import HopCodec.Proofs.Bits.Reading
import HopCodec.Proofs.Huffman.Codeword
import HopCodec.Proofs.Huffman.Canonical
import HopCodec.Proofs.Huffman.Symbols
import HopCodec.Proofs.Huffman.Tree
import HopCodec.Proofs.Bits.Taking
import HopCodec.Proofs.Huffman.SymbolStream
import HopCodec.Proofs.Prediction.ClosedLoop
import HopCodec.Proofs.Frame.Header
import HopCodec.Proofs.Block.Grid
import HopCodec.Proofs.Frame.Grids
import HopCodec.Proofs.Frame.Assembly
import HopCodec.Proofs.Frame.Prologue
import HopCodec.Proofs.Frame.Coded
import HopCodec.Proofs.Frame.RoundTrip
import HopCodec.Proofs.Ladder.Sweep
import HopCodec.Proofs.Prediction.SecondGeneration
import HopCodec.Proofs.Frame.SecondGeneration
import HopCodec.Machine.Word
import HopCodec.Machine.Cursor
import HopCodec.Proofs.Machine.Word
import HopCodec.Proofs.Machine.Cursor
import HopCodec.Machine.Packer
import HopCodec.Proofs.Machine.Packer
import HopCodec.Machine.Grid
import HopCodec.Machine.Shape
import HopCodec.Proofs.Machine.Grid
import HopCodec.Proofs.Machine.Shape
import HopCodec.Proofs.Block.Cells
import HopCodec.Machine.Resample
import HopCodec.Proofs.Machine.Resample
import HopCodec.Machine.Scan
import HopCodec.Proofs.Machine.Scan
import HopCodec.Machine.Table
import HopCodec.Proofs.Machine.Table
import HopCodec.Machine.Counts
import HopCodec.Proofs.Machine.Heap
import HopCodec.Proofs.Machine.Counts
import HopCodec.Machine.Canvas
import HopCodec.Proofs.Machine.Canvas
import HopCodec.Machine.Block
import HopCodec.Proofs.Machine.Block
import HopCodec.Machine.Estimate
import HopCodec.Proofs.Machine.Estimate
import HopCodec.Machine.Header
import HopCodec.Proofs.Machine.Header
import HopCodec.Proofs.Frame.Received
import HopCodec.Machine.Decoded
import HopCodec.Proofs.Machine.Decoded
import HopCodec.Machine.Coded
import HopCodec.Proofs.Machine.Coded
import HopCodec.Proofs.Frame.Outcome
import HopCodec.Proofs.Frame.Inspection
import HopCodec.Proofs.Frame.Truncation
import HopCodec.Proofs.Container
import HopCodec.Machine.Container
import HopCodec.Proofs.Machine.Container
import HopCodec.Proofs.Checksum
import HopCodec.Proofs.Corruption
import HopCodec.Proofs.Block.Partition
import HopCodec.Proofs.Frame.Mosaic
import HopCodec.Proofs.Frame.Visible
import HopCodec.Bits.Calls
import HopCodec.Proofs.Bits.Calls
import HopCodec.Machine.Tape
import HopCodec.Proofs.Machine.Calls
import HopCodec.Proofs.Huffman.Optimal
import HopCodec.Proofs.Frame.Channel
import HopCodec.Proofs.Frame.Reseed
import HopCodec.Proofs.Frame.Independence
import HopCodec.Proofs.Single.Rounding
import HopCodec.Proofs.Single.Unpacked
import HopCodec.Proofs.Single.Packing
import HopCodec.Proofs.Single.Arithmetic
import HopCodec.Proofs.Single.Functions
import HopCodec.Proofs.Block.FullRelevance
import HopCodec.Proofs.Frame.Transmission
import HopCodec.Proofs.Frame.FullRelevance
import HopCodec.Proofs.Prediction.Flat
import HopCodec.Proofs.Block.Flat
import HopCodec.Proofs.Frame.Flat
import HopCodec.Proofs.Huffman.Complete
import HopCodec.Proofs.Machine.Codes
import HopCodec.Machine.Filling
import HopCodec.Proofs.Ladder.Nearest
import HopCodec.Proofs.Machine.ClosedLoop
import HopCodec.Proofs.Machine.Filling
import HopCodec.Proofs.Machine.Greedy
import HopCodec.Proofs.Machine.Locality
import HopCodec.Proofs.Prediction.SmallRuns
import HopCodec.Proofs.Machine.Trace
import HopCodec.Proofs.Frame.Fitting
import HopCodec.Proofs.Machine.Cells
import HopCodec.Proofs.Frame.Seeds
import HopCodec.Proofs.Block.Resample
import HopCodec.Proofs.Machine.Interpolation
import HopCodec.Proofs.Single.Monotone
import HopCodec.Proofs.Single.Relative
import HopCodec.Proofs.Block.Factor
import HopCodec.Proofs.Block.Density
import HopCodec.Proofs.Block.Elastic
import HopCodec.Proofs.Frame.Sampling
import HopCodec.Proofs.Frame.Size
import HopCodec.Proofs.Relevance.Transposition
import HopCodec.Proofs.Machine.Yuv
import HopCodec.Proofs.Machine.Pnm
import HopCodec.Proofs.FileTree
import HopCodec.Proofs.Session
import HopCodec.Proofs.Frame.Length
import HopCodec.Proofs.Job.Encoding
import HopCodec.Proofs.Job.Decoding
import HopCodec.Proofs.Job.Files
import HopCodec.Machine.Edit
import HopCodec.Proofs.Machine.Edit
import HopCodec.Machine.Sweep
import HopCodec.Proofs.Machine.Sweep
import HopCodec.Proofs.Ladder.Around
import HopCodec.Machine.Rungs
import HopCodec.Proofs.Machine.Rungs
import HopCodec.Machine.Size
import HopCodec.Proofs.CommandLine.Size
import HopCodec.Proofs.Machine.Size
import HopCodec.Machine.Slot
import HopCodec.Proofs.Machine.Slot
import HopCodec.Proofs.Machine.SymbolStream
