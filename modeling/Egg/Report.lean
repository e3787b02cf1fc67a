import Egg.Error
import Egg.Text.Blank

namespace Egg.Report

def onWords : List String := ["1", "true", "yes", "on"]

def offWords : List String := ["0", "false", "no", "off"]

/-- Whether a setting asks for the traceback. -/
def tracing (setting : String) : Bool :=
  onWords.contains (String.ofList (Text.lower (Text.trim setting.toList)))

def error (tracing : Bool) (stop : Stop) : String :=
  "Error: " ++ stop.message ++ "\n" ++ if tracing then "\nPython traceback:\n" else ""

end Egg.Report
