import Peg.Compile.Pipeline
import Peg.Grammar.Encoding
import Peg.Json.Printer
import Peg.Match.Run
import Peg.Match.Script
import Peg.Proofs.CaseFolding
import Peg.Proofs.ClassMembership
import Peg.Proofs.ConsumptionSearch
import Peg.Proofs.Escapes
import Peg.Proofs.ExactReports
import Peg.Proofs.Excerpts
import Peg.Proofs.JsonForms
import Peg.Proofs.Lines
import Peg.Proofs.NameResolution
import Peg.Proofs.NestingLimit
import Peg.Proofs.NormalForms
import Peg.Proofs.Optimization
import Peg.Proofs.Packrat
import Peg.Proofs.Progress
import Peg.Proofs.ProxyChains
import Peg.Proofs.RecursionSearch
import Peg.Proofs.Shape
import Peg.Proofs.Spans
import Peg.Proofs.Values
