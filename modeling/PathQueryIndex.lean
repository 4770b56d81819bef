import PathQueryIndex.Query.Answer
import PathQueryIndex.Query.Grammar
import PathQueryIndex.Graph.Format
import PathQueryIndex.Pattern.Match
import PathQueryIndex.Labeling.Equitable
import PathQueryIndex.LabelingPool.Schedule
import PathQueryIndex.LabelingPool.Session
import PathQueryIndex.LabelingPool.Batch
import PathQueryIndex.Proofs.LabelingPool.Log
import PathQueryIndex.Host.FileTree
import PathQueryIndex.Main
import PathQueryIndex.Proofs.Grouping
import PathQueryIndex.Proofs.Partition.Layers
import PathQueryIndex.Proofs.Partition.Walks
import PathQueryIndex.Proofs.Partition.Records
import PathQueryIndex.Proofs.Partition.Agreement
import PathQueryIndex.Proofs.Partition.Runs
import PathQueryIndex.Proofs.Index.Drafts
import PathQueryIndex.Proofs.Index.Holders
import PathQueryIndex.Proofs.Index.Labels
import PathQueryIndex.Proofs.Index.Blocks
import PathQueryIndex.Proofs.Pattern.Forest
import PathQueryIndex.Proofs.Pattern.Classes
import PathQueryIndex.Proofs.Pattern.Numbering
import PathQueryIndex.Proofs.Pattern.Outline
import PathQueryIndex.Proofs.Pattern.Meaning
import PathQueryIndex.Proofs.Pattern.Loops
import PathQueryIndex.Proofs.Pattern.Propagation
import PathQueryIndex.Proofs.Pattern.Search
import PathQueryIndex.Proofs.Pattern.Core
import PathQueryIndex.Proofs.Pattern.Least
import PathQueryIndex.Proofs.Pattern.Shape
import PathQueryIndex.Proofs.Pattern.Levels
import PathQueryIndex.Proofs.Pattern.Branches
import PathQueryIndex.Proofs.Labeling.Cells
import PathQueryIndex.Proofs.Labeling.Leaves
import PathQueryIndex.Proofs.Labeling.Equivariance
import PathQueryIndex.Proofs.Labeling.ClassCode
import PathQueryIndex.Proofs.Labeling.Requests
import PathQueryIndex.Proofs.Labeling.Contract
import PathQueryIndex.Proofs.Labeling.Coarsest
import PathQueryIndex.Proofs.Canonical.Nodes
import PathQueryIndex.Proofs.Canonical.Isomorphic
import PathQueryIndex.Proofs.Canonical.Places
import PathQueryIndex.BitField.Cursor
import PathQueryIndex.Proofs.BitField
import PathQueryIndex.Proofs.BitField.WriteCursor
import PathQueryIndex.Proofs.BitField.ReadCursor
import PathQueryIndex.Proofs.Canonical.Code
import PathQueryIndex.Proofs.Canonical.Fields
import PathQueryIndex.Proofs.Canonical.RoundTrip
import PathQueryIndex.Proofs.Canonical.Truncation
import PathQueryIndex.Proofs.Canonical.Existence
import PathQueryIndex.Proofs.Canonical.Equivalence
import PathQueryIndex.Proofs.Partition.Bisimulation
import PathQueryIndex.Proofs.Partition.Splits
import PathQueryIndex.Proofs.Partition.Mirror
import PathQueryIndex.Proofs.Partition.Renaming
import PathQueryIndex.Proofs.Graph.Star
import PathQueryIndex.Proofs.Partition.Exhaustion
import PathQueryIndex.Proofs.Index.Mirror
import PathQueryIndex.Proofs.Index.CoreSets
import PathQueryIndex.Proofs.Index.SubsetCursor
import PathQueryIndex.Proofs.Index.Subsets
import PathQueryIndex.Proofs.Index.Closure
import PathQueryIndex.Proofs.Index.Links
import PathQueryIndex.Proofs.Index.Resolution
import PathQueryIndex.Proofs.Index.Ancestors
import PathQueryIndex.Proofs.Index.Codes
import PathQueryIndex.Proofs.Index.Pruning
import PathQueryIndex.Proofs.Index.EvenCores
import PathQueryIndex.Proofs.Index.Soundness
import PathQueryIndex.Proofs.Index.Completeness
import PathQueryIndex.Proofs.Index.Capacity
import PathQueryIndex.Proofs.Index.Representatives
import PathQueryIndex.Proofs.Index.Renaming
import PathQueryIndex.Proofs.Index.Deepening
import PathQueryIndex.Index.Dialogue
import PathQueryIndex.Proofs.Index.Dialogue
import PathQueryIndex.Proofs.Listing.SignedCode
import PathQueryIndex.Proofs.Listing.Wire
import PathQueryIndex.Proofs.Listing.Contents
import PathQueryIndex.Proofs.Listing.Export
import PathQueryIndex.Proofs.Listing.Checksum
import PathQueryIndex.Proofs.Index.LabelTexts
import PathQueryIndex.Proofs.LabelingPool.Balance
import PathQueryIndex.Proofs.LabelingPool.Answers
import PathQueryIndex.Proofs.LabelingPool.Session
import PathQueryIndex.Proofs.LabelingPool.Progress
import PathQueryIndex.Proofs.LabelingPool.Batch
import PathQueryIndex.Proofs.Canonical.Limits
import PathQueryIndex.Proofs.Canonical.ColorCode
import PathQueryIndex.Proofs.Query.Spelling
import PathQueryIndex.Proofs.Query.Derivation
import PathQueryIndex.Proofs.Query.Display
import PathQueryIndex.Proofs.Pattern.Trail
import PathQueryIndex.Proofs.Index.CoreTable
import PathQueryIndex.Proofs.Index.CoreLookup
import PathQueryIndex.Proofs.Index.CoreRecords
import PathQueryIndex.Proofs.Index.Bookkeeping
import PathQueryIndex.Proofs.Text.Lines
import PathQueryIndex.Proofs.Graph.Reader
