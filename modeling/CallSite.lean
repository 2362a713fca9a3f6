import CallSite.Expr.Source
import CallSite.KeywordMap.Extraction
import CallSite.Logging.Setup
import CallSite.Logging.Switchboard
import CallSite.Node.Equality
import CallSite.Parser.Source
import CallSite.Proofs.Grammar.Climbing
import CallSite.Proofs.Tree.Slot
import CallSite.Proofs.Tree.Source
import CallSite.Proofs.Tree.Toll
import CallSite.Proofs.Tree.Derivation
import CallSite.Proofs.Tree.Flaw
import CallSite.Proofs.Tree.Writing
import CallSite.Proofs.Tree.Price
import CallSite.Proofs.Tree.Rederivation
import CallSite.Proofs.Grammar.Depth
import CallSite.Proofs.Lexing.Sign
import CallSite.Proofs.Lexing.Number
import CallSite.Proofs.Lexing.Stream
import CallSite.Proofs.Lexing.Piece
import CallSite.Proofs.Tree.Separation
import CallSite.Proofs.Lexing.Gluing
import CallSite.Proofs.Tree.Counting
import CallSite.Proofs.RoundTrip
import CallSite.Proofs.Nesting
import CallSite.Proofs.Lexing.Slice
import CallSite.Proofs.Tiling
import CallSite.Proofs.Logging.Failure
import CallSite.Proofs.Resolution
import CallSite.Proofs.Lookup
import CallSite.Proofs.Complaint
import CallSite.Proofs.Spacing
import CallSite.Proofs.DottedPath
import CallSite.Proofs.Session
import CallSite.Proofs.Shape
import CallSite.Proofs.Extraction
import CallSite.Proofs.Logging.Table
import CallSite.Proofs.Joining
import CallSite.Proofs.Inquiry
import CallSite.Proofs.Insertion
import CallSite.Proofs.Gauge
import CallSite.Proofs.Grouping
import CallSite.Proofs.Tree.Layout
import CallSite.Proofs.Tree.Seating
import CallSite.Proofs.Tree.Pair
import CallSite.Proofs.Tree.Stamp
import CallSite.Proofs.Tree.Imprint
import CallSite.Proofs.Ungrouping
import CallSite.Proofs.Exactness
import CallSite.Proofs.Extent
import CallSite.Proofs.Rounds
import CallSite.Proofs.Progress
import CallSite.Proofs.Locality
import CallSite.Proofs.Blame
