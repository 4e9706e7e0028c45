import TermStream.Diagnostic
import TermStream.Main
import TermStream.Proofs.Interpreter.FrameResources
import TermStream.Proofs.Pipeline.Conservation
import TermStream.Proofs.Pipeline.Streaming
import TermStream.Proofs.Token.ChunkInvariance
import TermStream.Proofs.Queue.Marks
import TermStream.Proofs.Interpreter.Marks
import TermStream.Proofs.Phrase.Placement
import TermStream.Proofs.Interpreter.Placement
import TermStream.Proofs.Interpreter.Reported
import TermStream.Proofs.Pipeline.Runs
import TermStream.Proofs.Pipeline.Placement
import TermStream.Proofs.Interpreter.Nesting
import TermStream.Proofs.Interpreter.NestedTurns
import TermStream.Proofs.Pipeline.Nesting
import TermStream.Proofs.Standard.Descent
import TermStream.Proofs.Standard.Moves
import TermStream.Proofs.Standard.Simulation
import TermStream.Proofs.Phrase.Sentence
import TermStream.Proofs.Phrase.Braces
import TermStream.Proofs.Token.Boundaries
import TermStream.Proofs.Token.Limit
import TermStream.Proofs.Queue.Plain
import TermStream.Proofs.Interpreter.Lookups
import TermStream.Proofs.Interpreter.Unwinding
import TermStream.Proofs.Interpreter.OwnKeywords
import TermStream.Proofs.Standard.Declaration
import TermStream.Proofs.CommandLine.Errors
import TermStream.Proofs.Pipeline.Dialogue
import TermStream.Proofs.Pipeline.Strings
import TermStream.Proofs.Token.Escapes
import TermStream.Proofs.Grammar.Building
import TermStream.Proofs.Interpreter.StatementStart
import TermStream.Proofs.Token.Forms
import TermStream.Proofs.Token.Numbers
import TermStream.Proofs.Token.Strings
import TermStream.Proofs.Text.Template
import TermStream.Proofs.CommandLine.Listing
import TermStream.Proofs.Interpreter.Votes
import TermStream.Proofs.Pipeline.Culprits
import TermStream.Proofs.Interpreter.CallResults
import TermStream.Proofs.Interpreter.KeywordMemo
import TermStream.Proofs.Token.Buffer
import TermStream.Proofs.Text.Pieces
