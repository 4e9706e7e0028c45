namespace TermStream.CommandLine

structure SystemFault where
  text : String
  code : Nat
deriving DecidableEq

namespace SystemFault

def notFound : SystemFault := ⟨"No such file or directory", 2⟩

def permissionDenied : SystemFault := ⟨"Permission denied", 13⟩

def notDirectory : SystemFault := ⟨"Not a directory", 20⟩

def isDirectory : SystemFault := ⟨"Is a directory", 21⟩

def nameTooLong : SystemFault := ⟨"File name too long", 36⟩

def render (f : SystemFault) : String := f.text ++ " (os error " ++ toString f.code ++ ")"

end SystemFault

/-- Why a source cannot be had from a file. -/
inductive FileFault where
  | cannotAccess (reason : SystemFault)
  | cannotRead (reason : SystemFault)
  | tooLarge (size : Nat)
  | notText

/-- The largest source that is read, in bytes. -/
def maxSourceSize : Nat := 104857600

def FileFault.message (name : String) : FileFault → String
  | .cannotAccess reason => "Cannot access file '" ++ name ++ "': " ++ reason.render
  | .cannotRead reason => "Error reading file '" ++ name ++ "': " ++ reason.render
  | .tooLarge size => "Source file '" ++ name ++ "' is too large (" ++ toString size ++
      " bytes, max " ++ toString maxSourceSize ++ " bytes)"
  | .notText => "Error reading file '" ++ name ++ "': stream did not contain valid UTF-8"

inductive FileEntry where
  | file (content : ByteArray)
  | directory

/-- Files and directories by the names on the way to them. -/
structure FileTree where
  entries : List (List String × FileEntry)

namespace FileTree

/-- What is at the end of a way of names. Whatever has something below it is a directory. -/
def find? (tree : FileTree) (way : List String) : Option FileEntry :=
  match tree.entries.find? (fun e => e.1 == way) with
  | some e => some e.2
  | none =>
    if way.isEmpty || tree.entries.any (fun e => way.isPrefixOf e.1) then some .directory else none

/-- Follows the names of a path, each from a directory, starting at the end of `way`. Above the root
there are directories with nothing else in them. -/
def follow (tree : FileTree) (above : Nat) (way : List String) :
    List String → Except SystemFault FileEntry
  | [] =>
    if above = 0 then
      match tree.find? way with
      | some e => .ok e
      | none => .error .notFound
    else .ok .directory
  | name :: names =>
    match (if above = 0 then tree.find? way else some .directory) with
    | none => .error .notFound
    | some (.file _) => .error .notDirectory
    | some .directory =>
      if name.isEmpty || name == "." then follow tree above way names
      else if name.utf8ByteSize > 255 then .error .nameTooLong
      else if name == ".." then
        if way.isEmpty then follow tree (above + 1) way names
        else follow tree above way.dropLast names
      else if above = 0 then follow tree above (way ++ [name]) names
      else .error .notFound

def lookup (tree : FileTree) (path : String) : Except SystemFault FileEntry :=
  if path.utf8ByteSize ≥ 4096 then .error .nameTooLong
  else tree.follow (if path.startsWith "/" then 1 else 0) [] (path.splitOn "/")

def read (tree : FileTree) (path : String) : Except FileFault ByteArray :=
  match tree.lookup path with
  | .error reason => .error (.cannotAccess reason)
  | .ok .directory => .error (.cannotRead .isDirectory)
  | .ok (.file content) => .ok content

end FileTree

def sourceText (content : ByteArray) : Except FileFault String :=
  if content.size > maxSourceSize then .error (.tooLarge content.size)
  else
    match String.fromUTF8? content with
    | some text => .ok text
    | none => .error .notText

end TermStream.CommandLine
