import DotDoc.Session.Run
import DotDoc.Proofs.Graph.Reach
import DotDoc.Proofs.Graph.Visits
import DotDoc.Proofs.Order.Placement
import DotDoc.Proofs.Order.Steps
import DotDoc.Proofs.Graph.Entries
import DotDoc.Proofs.Dot.Tree
import DotDoc.Proofs.Graph.Linearize
import DotDoc.Proofs.Dot.Coverage
import DotDoc.Proofs.Context.Stack
import DotDoc.Proofs.Dot.EdgeLines
import DotDoc.Proofs.Dot.SharedLinks
import DotDoc.Proofs.Graph.Index
import DotDoc.Proofs.Session.Acts
import DotDoc.Proofs.Session.Blocks
import DotDoc.Proofs.Session.Built
import DotDoc.Proofs.Session.Quiet
import DotDoc.Proofs.Session.History
import DotDoc.Proofs.Session.Chronicle
import DotDoc.Proofs.Session.Constructions
import DotDoc.Proofs.Session.Defaults
import DotDoc.Proofs.Dot.Unambiguous
import DotDoc.Proofs.Dot.StatementOrder
import DotDoc.Proofs.Session.Documents
import DotDoc.Proofs.Session.Members
import DotDoc.Proofs.Session.Courses
import DotDoc.Proofs.Graph.Laying
import DotDoc.Proofs.Graph.Content
import DotDoc.Proofs.Graph.Placing
import DotDoc.Proofs.Session.MergeLaws
import DotDoc.Proofs.Session.Renaming
import DotDoc.Proofs.Session.Matching
import DotDoc.Proofs.Session.RenamedElements
import DotDoc.Proofs.Session.RenamedCalls
import DotDoc.Proofs.Session.Moves
import DotDoc.Proofs.Session.RenamedMoves
import DotDoc.Proofs.Session.Turns
import DotDoc.Proofs.Dot.Faults
import DotDoc.Proofs.Graph.Twins
import DotDoc.Proofs.Dot.Twins
import DotDoc.Proofs.Dot.Nested
import DotDoc.Proofs.Session.Writing
import DotDoc.Proofs.Graph.Rounds
import DotDoc.Proofs.Session.Ages
import DotDoc.Proofs.Session.Reads
import DotDoc.Proofs.Session.RenamedRuns
import DotDoc.Proofs.Session.Plans
import DotDoc.Proofs.Order.Cycles
import DotDoc.Proofs.Graph.EdgeOrder
import DotDoc.Proofs.Graph.Collecting
import DotDoc.Proofs.Session.Collected
import DotDoc.Proofs.Graph.Joining
import DotDoc.Proofs.Graph.Paths
import DotDoc.Proofs.Session.MergePaths
import DotDoc.Proofs.Dot.Reading
import DotDoc.Proofs.Session.Conversions
import DotDoc.Proofs.Session.MapMerges
import DotDoc.Proofs.Session.Updates
import DotDoc.Proofs.Graph.Scanning
import DotDoc.Proofs.Graph.Renumbered
import DotDoc.Proofs.Session.Batches
import DotDoc.Proofs.Graph.OpenLinks
import DotDoc.Proofs.Session.TableMerges
