import Abacus.Service.Router

namespace Abacus.Service

-- How a run is made to end.
inductive Stop where
  -- The service is asked to end.
  | interrupted
  -- The process is ended from outside.
  | killed
  deriving DecidableEq, Repr

-- What a run finds around it.
structure Host where
  environment : Setting → Option (List UInt8)
  -- Why nothing can listen on an address, where that is so.
  refusal? : Net.Endpoint → Option Refusal
  -- The requests that reach the service.
  arrivals : List Request
  stop : Stop
  -- Whether standard error takes what is written to it.
  canReport : Bool

structure Exit where
  -- None if the process did not end by itself.
  code : Option Nat
  stdout : String := ""
  stderr : String := ""
  deriving DecidableEq, Repr

namespace Exit

-- The end of a run that failed. A report that can not be written is a failure of its own.
def ofFailure (canReport : Bool) (f : Failure) : Exit :=
  if canReport then { code := some 1, stderr := f.message ++ "\n" } else { code := some 101 }

def ofStop : Stop → Exit
  | .interrupted => { code := some 0 }
  | .killed => { code := none }

end Exit

namespace Host

-- The responses of the service as long as it runs.
def serve (h : Host) : Except Failure (List Response) := do
  let s ← Settings.ofEnvironment h.environment
  match h.refusal? s.address with
  | some refusal => .error (.bind s.address refusal.message)
  | none => return h.arrivals.map s.respond

-- How a run ends, and the responses until then.
def run (h : Host) : Exit × List Response :=
  match h.serve with
  | .ok responses => (.ofStop h.stop, responses)
  | .error f => (.ofFailure h.canReport f, [])

end Host

end Abacus.Service
