import SmtScript.CommandLine
import SmtScript.Engine
import SmtScript.Main
import SmtScript.Proofs.CommandLine
import SmtScript.Proofs.Context
import SmtScript.Proofs.Engine.Interpretations
import SmtScript.Proofs.EnvironmentTree
import SmtScript.Proofs.Literal.Grammar
import SmtScript.Proofs.Messages
import SmtScript.Proofs.SExpr.Atom
import SmtScript.Proofs.SExpr.Reader
import SmtScript.Proofs.SExpr.RoundTrip
import SmtScript.Proofs.Session.Agreement
import SmtScript.Proofs.Session.Application
import SmtScript.Proofs.Session.Attributes
import SmtScript.Proofs.Session.BitVectors
import SmtScript.Proofs.Session.Brackets
import SmtScript.Proofs.Session.Caching
import SmtScript.Proofs.Session.Chronicle
import SmtScript.Proofs.Session.ConstantArrays
import SmtScript.Proofs.Session.Cores
import SmtScript.Proofs.Session.FloorValues
import SmtScript.Proofs.Session.Floors
import SmtScript.Proofs.Session.Holdings
import SmtScript.Proofs.Session.Intact
import SmtScript.Proofs.Session.IntegerParts
import SmtScript.Proofs.Session.Lifecycle
import SmtScript.Proofs.Session.Listing
import SmtScript.Proofs.Session.NewSymbols
import SmtScript.Proofs.Session.Options
import SmtScript.Proofs.Session.Printed
import SmtScript.Proofs.Session.Resolution
import SmtScript.Proofs.Session.Restart
import SmtScript.Proofs.Session.Signatures
import SmtScript.Proofs.Session.Sorts
import SmtScript.Proofs.Session.Values
import SmtScript.Proofs.Session.Widths
import SmtScript.Proofs.SortText
import SmtScript.Proofs.Standard.Ranks
import SmtScript.Proofs.Standard.Translation
import SmtScript.Proofs.Streaming
import SmtScript.Proofs.Term.HasSort
import SmtScript.Proofs.Translate.Lexical
import SmtScript.Solver.Scripted
