import Abacus.Service.Answer
import Abacus.Service.Settings

namespace Abacus.Service

structure Request where
  method : String
  target : String
  body : List UInt8

structure Response where
  status : Nat
  contentType : Option String := none
  allow : Option String := none
  body : String := ""
  deriving DecidableEq, Repr

namespace Request

def endsPath (c : Char) : Bool :=
  c = '?' || c = '#'

-- Whether the character can be part of the scheme in front of `://`.
def continuesScheme (c : Char) : Bool :=
  c.isAlphanum || c = '+' || c = '-' || c = '.' || c = '~'

-- What follows scheme and host of a target, if it names them.
def afterHost? (target : List Char) : Option (List Char) :=
  match target.dropWhile continuesScheme with
  | ':' :: '/' :: '/' :: s => some (s.dropWhile fun c => !(c = '/' || endsPath c))
  | _ => none

-- The path of a target as it is written, with nothing decoded or simplified.
def path (target : List Char) : List Char :=
  match target with
  | '/' :: _ | ['*'] => target.takeWhile (!endsPath ·)
  | _ =>
    match afterHost? target with
    | none => []
    | some s =>
      -- A host with nothing behind it stands for its root.
      let p := s.takeWhile (!endsPath ·)
      if p = [] then ['/'] else p

end Request

def Response.ofAnswer (a : Answer) : Response where
  status := a.status
  contentType := some "application/json"
  body := a.text

-- A body as it arrives.
inductive Upload where
  | finished
  -- Nothing more arrives, although the body has not come to its end.
  | brokenOff
  | piece (bytes : List UInt8) (rest : Upload)

namespace Upload

-- A body that arrives in one piece.
def whole (bytes : List UInt8) : Upload :=
  .piece bytes .finished

-- All that arrives.
def bytes : Upload → List UInt8
  | finished | brokenOff => []
  | piece bytes rest => bytes ++ rest.bytes

def isFinished : Upload → Bool
  | finished => true
  | brokenOff => false
  | piece _ rest => rest.isFinished

-- The body, or the status of a refusal. The first piece that there is no room for is refused at
-- once, whatever would follow it.
def collect (room : Nat) : Upload → Except Nat (List UInt8)
  | finished => .ok []
  | brokenOff => .error 400
  | piece bytes rest =>
    if room < bytes.length then
      .error 413
    else
      (rest.collect (room - bytes.length)).map (bytes ++ ·)

end Upload

-- A handler is given the body, or the status of its refusal.
abbrev Handler := Except Nat (List UInt8) → Answer

def calculate (c : Calculator) : Handler
  | .ok body => respond c body
  | .error status => .ofUnreadable status

structure Route where
  path : List Char
  -- The methods that are allowed.
  handlers : List (String × Handler)

structure Router where
  routes : List Route
  maxBodyBytes : Nat

-- The response to a request, whose body is taken in only if there is a handler for it.
def Router.respond (router : Router) (method target : String) (u : Upload) : Response :=
  match router.routes.find? (·.path = Request.path target.toList) with
  | none => { status := 404 }
  | some route =>
    match route.handlers.lookup method with
    | none => { status := 405, allow := some (",".intercalate (route.handlers.map (·.fst))) }
    | some handler => .ofAnswer (handler (u.collect router.maxBodyBytes))

namespace Settings

-- The service with any handler in place of its own.
def routerWith (s : Settings) (handler : Handler) : Router where
  routes := [⟨"/api/v1/calculate".toList, [("POST", handler)]⟩]
  maxBodyBytes := s.maxBodyBytes

def router (s : Settings) : Router :=
  s.routerWith (calculate s.calculator)

-- The response to a request; it depends on nothing else.
def respond (s : Settings) (r : Request) : Response :=
  s.router.respond r.method r.target (.whole r.body)

end Settings

end Abacus.Service
