import FilterLex.Kind
import FilterLex.Token
import FilterLex.Piece
import FilterLex.Text.Printable
import FilterLex.Text.Quoted
import FilterLex.Lexer.Progress
import FilterLex.Lexer.Run
import FilterLex.Source
import FilterLex.Session
import FilterLex.Command.Arguments
import FilterLex.Command.Answer
import FilterLex.Main
import FilterLex.Proofs.Lookahead
import FilterLex.Proofs.Verdict
import FilterLex.Proofs.Classes
import FilterLex.Proofs.Spelled
import FilterLex.Proofs.Munch
import FilterLex.Proofs.Calls
import FilterLex.Proofs.Lexeme
import FilterLex.Proofs.LongestMatch
import FilterLex.Proofs.RoundTrip
import FilterLex.Proofs.Placement
import FilterLex.Proofs.FailingSource
import FilterLex.Proofs.Footprint
import FilterLex.Proofs.Asking
import FilterLex.Proofs.TokenForm
import FilterLex.Proofs.Reporting
import FilterLex.Proofs.CleanCut
import FilterLex.Proofs.Requests
import FilterLex.Proofs.Iteration
import FilterLex.Proofs.SoundTokens
import FilterLex.Proofs.Sharing
import FilterLex.Proofs.Taking
import FilterLex.Proofs.Exhaustion
import FilterLex.Proofs.Bystanders
import FilterLex.Proofs.StickyEnd
import FilterLex.Proofs.Quotation
import FilterLex.Proofs.PrintedTokens
import FilterLex.Proofs.DecodedText
import FilterLex.Proofs.Documents
import FilterLex.Proofs.CommandLines
import FilterLex.Proofs.InputRoutes
import FilterLex.Proofs.IllFormedBytes
import FilterLex.Proofs.Messages
import FilterLex.Proofs.Accounting
import FilterLex.Proofs.BrokenDocument
import FilterLex.Proofs.Strictness
import FilterLex.Proofs.Logging
import FilterLex.Proofs.TextTokens
import FilterLex.Proofs.Concatenation
import FilterLex.Proofs.Renaming
import FilterLex.Proofs.SharedFeed
import FilterLex.Proofs.Regions
import FilterLex.Proofs.Loading
import FilterLex.Proofs.Rebinding
import FilterLex.Proofs.LongestRun
import FilterLex.Proofs.ArgumentOrder
