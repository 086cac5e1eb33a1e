import Abacus.Net.Writing

namespace Abacus.Service

-- What can be set through the environment.
inductive Setting where
  | address
  | maxBodyBytes
  | maxDepth
  deriving DecidableEq, Repr

def Setting.name : Setting → String
  | address => "CALC_ADDR"
  | maxBodyBytes => "CALC_MAX_BODY_BYTES"
  | maxDepth => "CALC_MAX_DEPTH"

-- Why a system lets nothing listen on an address.
inductive Refusal where
  -- For lack of rights.
  | forbidden
  -- Something listens there already.
  | taken
  -- The address is none of this machine's.
  | unassigned
  deriving DecidableEq, Repr

def Refusal.message : Refusal → String
  | forbidden => "Permission denied (os error 13)"
  | taken => "Address already in use (os error 98)"
  | unassigned => "Cannot assign requested address (os error 99)"

-- Why the service can not start or go on.
inductive Failure where
  | setting (s : Setting) (value : String)
  -- Nothing can listen on the address.
  | bind (e : Net.Endpoint) (cause : String)
  -- Listening has come to an end.
  | serve (cause : String)
  deriving DecidableEq, Repr

def Failure.message : Failure → String
  | setting s value => "invalid value `" ++ value ++ "` for `" ++ s.name ++ "`"
  | bind e cause => "could not bind to " ++ e.text ++ ": " ++ cause
  | serve cause => "server failed: " ++ cause

end Abacus.Service
