namespace TermStream

/-- What a layer has to offer, or waits for, after it has worked for a while. -/
inductive Progress where
  | inputNeeded
  | outputAvailable
  | resourceNeeded
  | eof
deriving DecidableEq

def Progress.name : Progress → String
  | .inputNeeded => "INPUT_NEEDED"
  | .outputAvailable => "OUTPUT_AVAILABLE"
  | .resourceNeeded => "RESOURCE_NEEDED"
  | .eof => "EOF"

end TermStream
