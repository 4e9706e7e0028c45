namespace TermStream

structure Settings where
  /-- The longest token, in characters, that is not cut. -/
  maxTokenLength : Nat
  /-- Whether triple-slash comments are comments of their own kind. -/
  docComments : Bool
  /-- How many bytes of a source are read at a time. -/
  chunkSize : Nat
deriving DecidableEq

namespace Settings

def standard : Settings := ⟨65536, true, 4096⟩

/-- Sizes are at least one. -/
def withMaxTokenLength (s : Settings) (n : Nat) : Settings := { s with maxTokenLength := max n 1 }

def withDocComments (s : Settings) (enabled : Bool) : Settings := { s with docComments := enabled }

def withChunkSize (s : Settings) (n : Nat) : Settings := { s with chunkSize := max n 1 }

end Settings

end TermStream
