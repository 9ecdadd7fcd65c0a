import Codebook.Numeral
import Codebook.Token.Basic
import Codebook.Token.Piece
import Codebook.Token.Stream
import Codebook.Token.Cursor
import Codebook.Json
import Codebook.Entry.Basic
import Codebook.Entry.Json
import Codebook.Declaration.Rejection
import Codebook.Declaration.Basic
import Codebook.Event
import Codebook.Reading
import Codebook.Registry
import Codebook.Files
import Codebook.Terminal
import Codebook.Command.Parameter
import Codebook.Command.Stop
import Codebook.Command.Help
import Codebook.Command.Settings
import Codebook.Command.Request
import Codebook.Command.Arguments
import Codebook.Command.Outcome
import Codebook.Command.Report
import Codebook.Main
import Codebook.Proofs.Cursor
import Codebook.Proofs.Numeral
import Codebook.Proofs.Declaration
import Codebook.Proofs.Advance
import Codebook.Proofs.Attempts
import Codebook.Proofs.Block
import Codebook.Proofs.Recovery
import Codebook.Proofs.Limits
import Codebook.Proofs.Resumption
import Codebook.Proofs.Walk
import Codebook.Proofs.Consumption
import Codebook.Proofs.Spelling
import Codebook.Proofs.Tiling
import Codebook.Proofs.Lexeme
import Codebook.Proofs.Phrase
import Codebook.Proofs.Grammar
import Codebook.Proofs.Acceptance
import Codebook.Proofs.Rendering
import Codebook.Proofs.Reader
import Codebook.Proofs.Seam
import Codebook.Proofs.Ending
import Codebook.Proofs.Standing
import Codebook.Proofs.Fault
import Codebook.Proofs.Lines
import Codebook.Proofs.Concatenation
import Codebook.Proofs.Registry
import Codebook.Proofs.Directory
import Codebook.Proofs.Shelf
import Codebook.Proofs.Layout
import Codebook.Proofs.Registration
import Codebook.Proofs.Lookup
import Codebook.Proofs.Truth
import Codebook.Proofs.Dependence
import Codebook.Proofs.Listing
import Codebook.Proofs.Exhaustion
import Codebook.Proofs.Writing
import Codebook.Proofs.Production
import Codebook.Proofs.Document
import Codebook.Proofs.Unambiguous
import Codebook.Proofs.Serialization
import Codebook.Proofs.Turn
import Codebook.Proofs.Order
import Codebook.Proofs.Alike
import Codebook.Proofs.Clash
import Codebook.Proofs.Removal
import Codebook.Proofs.Log
import Codebook.Proofs.Buffer
import Codebook.Proofs.Place
import Codebook.Proofs.Width
