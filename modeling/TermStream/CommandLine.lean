import TermStream.CommandLine.Arguments
import TermStream.CommandLine.FileTree
import TermStream.Listing
import TermStream.Pipeline

namespace TermStream.CommandLine

def programName : String := "strata"

def programVersion : String := "0.1.0-alpha.1"

def usage : List String :=
  ["Streaming parser for Strata documents", "",
   "Usage: strata [OPTIONS] [FILE] [COMMAND]", "",
   "Commands:",
   "  lex      Print lexical tokens",
   "  phrases  Print phrase tokens (statement and block structure)",
   "  terms    Print the term stream",
   "  check    Parse and report syntax errors",
   "  help     Print this message or the help of the given subcommand(s)", "",
   "Arguments:",
   "  [FILE]  File to check (default action when no subcommand given)", "",
   "Options:",
   "      --max-token-length <CHARS>  Longest token in characters before it is cut",
   "      --no-doc-comments           Treat \x60///\x60 comments as plain line comments",
   "      --chunk-size <BYTES>        Feed the source in pieces of this many bytes",
   "      --script                    Parse with the built-in grammar in script mode",
   "  -h, --help                      Print help",
   "  -V, --version                   Print version"]

structure Outcome where
  exit : Nat
  stdout : List String
  stderr : List String
deriving DecidableEq

def Outcome.failure (message : String) : Outcome :=
  ⟨1, [], if message.isEmpty then [] else [message]⟩

/-- A command that has printed `lines` and found the given errors. -/
def Outcome.listing (lines : List String) (errors : List Report) : Outcome :=
  ⟨if errors.isEmpty then 0 else 1, lines, errors.map Report.render⟩

def haltMessage : Halt → String
  | .misuse m => m.message
  | .missing p => "missing " ++ p.part.title ++ " " ++ toString p.index
  | .unfinished => "too many steps"

def tokenErrors (ts : List Token) : List Report := ts.flatMap fun t => t.errors.reports

/-- The errors of each phrase in front of those of its token. -/
def phraseErrors (ps : List Phrase) : List Report :=
  ps.flatMap fun p => p.errors.reports ++
    match p.token with
    | some t => t.errors.reports
    | none => []

def termErrors (ts : List Term) : List Report := ts.flatMap fun t => t.errors.map (·.1)

/-- The terms of a source. A script is parsed by the standard grammar; otherwise the source may ask
for a grammar, and gets the standard one in place of one that is not known. -/
def termsOf (fuel : Nat) (name text : String) (options : Options) : Except Halt (List Term) := do
  let grammar := if options.script then some (Grammar.standard true) else none
  let done ← Pipeline.run fuel name text options.settings grammar .standard
  return done.terms.toList

/-- The last line of a check: the number of statements, or of errors. -/
def summary (name : String) (ts : List Term) : String :=
  let errors := (termErrors ts).length
  if errors = 0 then
    let statements := (ts.filter fun t => t.kind == .statementStart).length
    name ++ ": ok (" ++ toString statements ++ " statements)"
  else name ++ ": " ++ toString errors ++ " syntax error(s)"

def execute (fuel : Nat) (i : Invocation) (text : String) : Outcome :=
  match i.command with
  | .lex =>
    match tokens i.file text i.options.settings with
    | .ok ts => .listing (Listing.ofTokens ts) (tokenErrors ts)
    | .error m => .failure ("Lexer error: " ++ m.message)
  | .phrases =>
    match phrases i.file text i.options.settings with
    | .ok ps => .listing (Listing.ofPhrases ps) (phraseErrors ps)
    | .error m => .failure ("Phrase error: " ++ m.message)
  | .terms =>
    match termsOf fuel i.file text i.options with
    | .ok ts => .listing (Listing.ofTerms ts (!i.noTrivia)) (termErrors ts)
    | .error h => .failure ("Parser error: " ++ haltMessage h)
  | .check =>
    match termsOf fuel i.file text i.options with
    | .ok ts => .listing [summary i.file ts] (termErrors ts)
    | .error h => .failure ("Parser error: " ++ haltMessage h)

def answer (fuel : Nat) (read : String → Except FileFault ByteArray) : Request → Outcome
  | .version => ⟨0, [programName ++ " " ++ programVersion], []⟩
  | .help => ⟨0, usage, []⟩
  | .nothing => .failure ""
  | .mistake => ⟨2, [], ["error: invalid arguments", "", "For more information, try '--help'."]⟩
  | .run i =>
    match (read i.file).bind sourceText with
    | .error fault => .failure (fault.message i.file)
    | .ok text => execute fuel i text

end TermStream.CommandLine
