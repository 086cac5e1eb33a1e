import Abacus.Service.Program
import Std.Http

open Std.Async Std.Http

namespace Abacus.Main

def socketAddress : Net.Endpoint → Std.Net.SocketAddress
  | .v4 h port => .v4 ⟨.ofParts h.first h.second h.third h.fourth, port⟩
  | .v6 h _ port => .v6 ⟨⟨⟨h.groups.toArray, by simp [h.length_groups]⟩⟩, port⟩

def settings : IO (Except Service.Failure Service.Settings) := do
  let address ← IO.getEnv Service.Setting.address.name
  let maxBodyBytes ← IO.getEnv Service.Setting.maxBodyBytes.name
  let maxDepth ← IO.getEnv Service.Setting.maxDepth.name
  return Service.Settings.load fun
    | .address => address
    | .maxBodyBytes => maxBodyBytes
    | .maxDepth => maxDepth

def builder (r : Service.Response) : Response.Builder :=
  let status := (Status.ofCode none r.status.toUInt16).getD .internalServerError
  let named := [("Content-Type", r.contentType), ("Allow", r.allow)]
  named.foldl (fun b (name, value) => value.elim b (b.header! name)) (Response.withStatus status)

def answer (s : Service.Settings) (r : Request Body.Stream) : ContextAsync (Response Body.Any) := do
  let body : ByteArray ← r.body.readAll
  let out := s.respond ⟨toString r.line.method, toString r.line.uri, body.data.toList⟩
  let response ← (builder out).fromBytes out.body.toUTF8
  return { response with body := response.body }

-- Prints why a run failed.
def report (f : Service.Failure) : IO UInt32 := do
  let exit := Service.Exit.ofFailure true f
  let written ← (IO.eprint exit.stderr).toBaseIO
  return (Service.Exit.ofFailure written.toBool f).code.getD 0 |>.toUInt32

def refusal? : IO.Error → Option Service.Refusal
  | .permissionDenied .. => some .forbidden
  | .resourceBusy .. => some .taken
  | .unsupportedOperation .. => some .unassigned
  | _ => none

-- Listens until the process is interrupted.
def serve (s : Service.Settings) : Async UInt32 := do
  let interrupt ← Signal.Waiter.mk .sigint false
  let config : Config := { maxBodySize := max s.maxBodyBytes (64 * 1024 * 1024) }
  let server ← Server.serve (socketAddress s.address) (Server.Handler.ofFn (answer s)) config
  discard <| await (← interrupt.wait)
  server.shutdownAndWait
  return 0

def run : IO UInt32 := do
  match ← settings with
  | .error f => report f
  | .ok s =>
    match ← (Async.block (serve s)).toBaseIO with
    | .ok code => return code
    | .error e => report (.bind s.address ((refusal? e).elim (toString e) (·.message)))

end Abacus.Main

def main : IO UInt32 :=
  Abacus.Main.run
