import Remap.Kind.Set
import Remap.Diagnostic.Excerpt
import Remap.Proofs.Lossless
import Remap.Proofs.Breakdown
import Remap.Proofs.Completeness
import Remap.Proofs.Tree.Dump
import Remap.Proofs.Parser.Mirror
import Remap.Proofs.Chains
import Remap.Proofs.ClosureParameters
import Remap.Proofs.Nesting
import Remap.Proofs.Parser.Ranks
import Remap.Proofs.Precedence
import Remap.Proofs.Parser.Reads
import Remap.Proofs.Parser.Reads.Phrases
import Remap.Proofs.RoundTrip
import Remap.Proofs.TrailingBlanks
import Remap.Proofs.Threshold
import Remap.Proofs.RaisedLimit
import Remap.Proofs.Adjacency
import Remap.Proofs.Isolation
import Remap.Proofs.Positions
import Remap.Proofs.Recovery
import Remap.Proofs.Parser.Alongside
import Remap.Proofs.Parser.InStep
import Remap.Proofs.LayoutIndependence
import Remap.Proofs.Parser.Delimiters
import Remap.Proofs.Parser.Enclosing
import Remap.Proofs.Parser.Leading
import Remap.Proofs.Blocks
import Remap.Proofs.Grouping
import Remap.Proofs.Ranges
import Remap.Proofs.Token.LineEnds
import Remap.Proofs.CarriageReturns
import Remap.Proofs.Scanning
import Remap.Proofs.Locations
import Remap.Proofs.StringLiterals
import Remap.Proofs.Integers
import Remap.Proofs.QuotedLiterals
import Remap.Proofs.OpenLiterals
import Remap.Proofs.Tightness
import Remap.Proofs.Braces
import Remap.Proofs.Separators
import Remap.Proofs.Outlines
import Remap.Proofs.Productions
import Remap.Proofs.StringRuns
