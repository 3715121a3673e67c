import BlockSort.Compressor.Script
import BlockSort.StreamCompressor
import BlockSort.Proofs.Outline
import BlockSort.Proofs.PrefixCode.HeapOrder
import BlockSort.Proofs.PrefixCode.Growth
import BlockSort.Proofs.PrefixCode.Depths
import BlockSort.Proofs.PrefixCode.Numbering
import BlockSort.Proofs.PrefixCode.Limit
import BlockSort.Proofs.Exchange
import BlockSort.Proofs.Shell
import BlockSort.Proofs.Rotation.Comparison
import BlockSort.Proofs.Rotation.Zones
import BlockSort.Proofs.Rotation.Bucket
import BlockSort.Proofs.ByteSet
import BlockSort.Proofs.Rotation.Table
import BlockSort.Proofs.Rotation.Sorting
import BlockSort.Proofs.Decoder
import BlockSort.Proofs.Inverse.Rotation
import BlockSort.Proofs.Division
import BlockSort.Proofs.Inverse.Recency
import BlockSort.Proofs.Inverse.Zeros
import BlockSort.Proofs.Checksum
import BlockSort.Proofs.Inverse.Perturbation
import BlockSort.Proofs.Inverse.SymbolMap
import BlockSort.Proofs.Choice
import BlockSort.Proofs.Inverse.Codes
import BlockSort.Proofs.Inverse.Coding
import BlockSort.Proofs.Blocks
import BlockSort.Proofs.Groups
import BlockSort.Proofs.Inverse.Block
import BlockSort.Proofs.Inverse.Series
import BlockSort.Proofs.Inverse.Member
import BlockSort.Proofs.Requests
import BlockSort.Proofs.History
import BlockSort.Proofs.Progress
import BlockSort.Proofs.FailStop
import BlockSort.Proofs.Segments
import BlockSort.Proofs.Delivery
import BlockSort.Proofs.Ledger
import BlockSort.Proofs.Tally
import BlockSort.Proofs.Census
import BlockSort.Proofs.Storage.StoredEncoder
import BlockSort.Proofs.Storage.Rotations
import BlockSort.Proofs.Storage.Spelling
import BlockSort.Proofs.Storage.Delimited
import BlockSort.Proofs.Storage.Splitting
import BlockSort.Proofs.Safety.BlockStore
import BlockSort.Proofs.Inverse.Records
import BlockSort.Proofs.PrefixCode.Words
import BlockSort.Proofs.Storage.Upkeep
import BlockSort.Proofs.Drive
import BlockSort.Proofs.Checksum.Calls
import BlockSort.Proofs.Checksum.Bursts
import BlockSort.Proofs.Storage.Flips
import BlockSort.Proofs.Comparisons.Soundness
import BlockSort.Proofs.Slices
import BlockSort.Proofs.Selection
import BlockSort.Proofs.Storage.Tables
import BlockSort.Proofs.Comparisons.Frames
import BlockSort.Proofs.Comparisons.Scan
import BlockSort.Proofs.Comparisons.Quicksort
import BlockSort.Storage.NodeSpace
import BlockSort.Proofs.Storage.NodeHeap
import BlockSort.Proofs.Storage.Nodes
import BlockSort.Proofs.Storage.Planting
import BlockSort.Proofs.Storage.Rounds
import BlockSort.Proofs.Storage.NodeLengths
