import TermStream.Settings
import TermStream.Text.Numeral

namespace TermStream.CommandLine

structure Options where
  maxTokenLength : Option Nat
  noDocComments : Bool
  chunkSize : Option Nat
  /-- Whether to parse by the standard grammar without looking for a declaration. -/
  script : Bool
deriving DecidableEq

namespace Options

def none : Options := ⟨.none, false, .none, false⟩

def settings (o : Options) : Settings :=
  let s := Settings.standard.withDocComments (!o.noDocComments)
  let s := match o.maxTokenLength with
    | some n => s.withMaxTokenLength n
    | .none => s
  match o.chunkSize with
  | some n => s.withChunkSize n
  | .none => s

/-- The options of both sides of a command; those after the command count. -/
def combine (outer inner : Options) : Options :=
  ⟨inner.maxTokenLength.or outer.maxTokenLength, inner.noDocComments || outer.noDocComments,
    inner.chunkSize.or outer.chunkSize, inner.script || outer.script⟩

end Options

inductive Command where
  | lex
  | phrases
  | terms
  | check
deriving DecidableEq

def Command.ofName? (s : String) : Option Command :=
  if s = "lex" then some .lex
  else if s = "phrases" then some .phrases
  else if s = "terms" then some .terms
  else if s = "check" then some .check
  else none

structure Invocation where
  command : Command
  file : String
  options : Options
  /-- Whether white space and comments are left out of a list of terms. -/
  noTrivia : Bool
deriving DecidableEq

/-- The meaning of a list of arguments. -/
inductive Request where
  | run (invocation : Invocation)
  | version
  | help
  /-- There is neither a command nor a file. -/
  | nothing
  /-- The arguments make no sense. -/
  | mistake
deriving DecidableEq

/-- What has been read of the arguments on one side of a command. -/
structure Given where
  options : Options
  file : Option String
  noTrivia : Bool

namespace Given

def none : Given := ⟨.none, .none, false⟩

def switch (g : Given) (command : Option Command) (name : String) : Option Given :=
  if name = "no-doc-comments" && !g.options.noDocComments then
    some { g with options := { g.options with noDocComments := true } }
  else if name = "script" && !g.options.script then
    some { g with options := { g.options with script := true } }
  else if name = "no-trivia" && command == some .terms && !g.noTrivia then
    some { g with noTrivia := true }
  else .none

def takesValue (name : String) : Bool := name == "max-token-length" || name == "chunk-size"

def value (g : Given) (name text : String) : Option Given := do
  let n ← Text.readWord? text.toList
  if name = "max-token-length" && g.options.maxTokenLength.isNone then
    some { g with options := { g.options with maxTokenLength := some n } }
  else if name = "chunk-size" && g.options.chunkSize.isNone then
    some { g with options := { g.options with chunkSize := some n } }
  else .none

def addFile (g : Given) (name : String) : Option Given :=
  if name.isEmpty || g.file.isSome then .none else some { g with file := some name }

/-- The files after a double dash. -/
def addFiles (g : Given) : List String → Option Given
  | [] => some g
  | name :: names => (g.addFile name).bind (addFiles · names)

def request (outer : Given) : Option (Command × Given) → Request
  | some (command, inner) =>
    match inner.file with
    | some file => .run ⟨command, file, outer.options.combine inner.options, inner.noTrivia⟩
    | .none => .mistake
  | .none =>
    match outer.file with
    | some file => .run ⟨.check, file, outer.options, false⟩
    | .none => .nothing

end Given

def splitOption (cs : List Char) : String × Option String :=
  match cs.dropWhile (· != '=') with
  | _ :: value => (String.ofList (cs.takeWhile (· != '=')), some (String.ofList value))
  | [] => (String.ofList cs, none)

def readHelp : List String → Request
  | [] => .help
  | [name] => if (Command.ofName? name).isSome || name = "help" then .help else .mistake
  | _ => .mistake

/-- Reads the arguments on one side of a command: before it if `command` is missing, otherwise after
it. `finish` says what is asked for when no argument is left, and `descend` what is asked for when a
command comes. -/
def readSide (command : Option Command) (finish : Given → Request)
    (descend : Given → Command → List String → Request) : Given → List String → Request
  | g, [] => finish g
  | g, arg :: args =>
    let next := fun (g? : Option Given) =>
      match g? with
      | some g => readSide command finish descend g args
      | none => .mistake
    match arg.toList with
    | ['-', '-'] =>
      match g.addFiles args with
      | some g => finish g
      | none => .mistake
    | '-' :: '-' :: long =>
      match splitOption long with
      | (name, some text) => if Given.takesValue name then next (g.value name text) else .mistake
      | (name, none) =>
        if Given.takesValue name then
          match args with
          | [] => .mistake
          | text :: args =>
            match g.value name text with
            | some g => readSide command finish descend g args
            | none => .mistake
        else if name = "help" then .help
        else if name = "version" && command.isNone then .version
        else next (g.switch command name)
    | '-' :: c :: _ =>
      if c = 'h' then .help
      else if c = 'V' && command.isNone then .version
      else .mistake
    | _ =>
      match command with
      | some _ => next (g.addFile arg)
      | none =>
        if arg = "help" then readHelp args
        else
          match Command.ofName? arg with
          | some c => descend g c args
          | none => next (g.addFile arg)

def Request.ofArguments (args : List String) : Request :=
  readSide none (fun outer => outer.request none)
    (fun outer command rest =>
      readSide (some command) (fun inner => outer.request (some (command, inner)))
        (fun _ _ _ => .mistake) .none rest)
    .none args

end TermStream.CommandLine
