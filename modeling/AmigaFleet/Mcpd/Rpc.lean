import AmigaFleet.Mcpd.CJson
import AmigaFleet.Mcpd.Frame

/-!
# Dispatch and reply

`rpc_dispatch` of `mcpd/src/rpc.c`, from the parsed request to the response
tree, and the part of `handle_connection` in `mcpd/src/main.c` that answers
one request.  `Methods` is the table `mcpd_methods` as `find_method` looks
names up in it.

A worker that returns from `handle_connection` closes its connection, so a
response that `frame_write` refuses reaches nobody: `serveRequest_answers`.
-/

namespace AmigaFleet.Mcpd

open AmigaFleet.Lib

abbrev Handler := Option CJson → Outcome

abbrev Methods := Bytes → Option Handler

/-- The response envelope that `rpc_dispatch` builds. -/
def envelope (id : Option CJson) (out : Outcome) : CJson :=
  .object [(ascii "jsonrpc", cString "2.0"), (ascii "id", id.getD .null),
    match out with
    | .ok result => (ascii "result", result)
    | .error err => (ascii "error", err)]

/-- The method's outcome for a request object. -/
def callMethod (methods : Methods) (root : CJson) : Outcome :=
  match root.getItem (ascii "method") with
  | some (.string name) =>
    match methods name with
    | none => .error (rpcMakeError (-32601) "Method not found"
        (some (.object [(ascii "method", .string name)])))
    | some handler => handler (root.getItem (ascii "params"))
  | _ => .error (rpcMakeError (-32600) "Invalid Request" none)

/-- `rpc_dispatch`; `none` is a request that does not parse. -/
def rpcDispatch (methods : Methods) : Option CJson → CJson
  | some (.object members) =>
    envelope ((CJson.object members).getItem (ascii "id")) (callMethod methods (.object members))
  | _ => envelope none (.error (rpcMakeError (-32700) "Parse error" none))

/-- The answer to one request in `handle_connection`; `none` is the return
that drops the connection. -/
def serveRequest (p : CJson.Printer) (methods : Methods) (root : Option CJson) (s : Sock) :
    Option Sock :=
  match frameWrite (CJson.print p (rpcDispatch methods root)) s with
  | (true, s) => some s
  | (false, _) => none

theorem serveRequest_eq_some {p : CJson.Printer} {methods : Methods} {root : Option CJson}
    {s s' : Sock} : serveRequest p methods root s = some s' ↔
      frameWrite (CJson.print p (rpcDispatch methods root)) s = (true, s') := by
  unfold serveRequest
  rcases frameWrite (CJson.print p (rpcDispatch methods root)) s with ⟨_ | _, s₁⟩ <;> simp

/-- A response that does not fit is dropped, with the connection. -/
theorem serveRequest_dropped {p : CJson.Printer} {methods : Methods} {root : Option CJson} {s : Sock}
    (h : mcpdFrameMaxPayload < (CJson.print p (rpcDispatch methods root)).length) :
    serveRequest p methods root s = none := by
  rw [serveRequest, frameWrite_refused h]

/-- On a connection whose peer reads on, the response arrives exactly when it
fits into a frame. -/
theorem serveRequest_answers {p : CJson.Printer} {methods : Methods} {root : Option CJson}
    {s : Sock} (hlive : s.Live (4 + (CJson.print p (rpcDispatch methods root)).length)) :
    (∃ s', serveRequest p methods root s = some s' ∧
      s'.outgoing = s.outgoing ++ frame (CJson.print p (rpcDispatch methods root))) ↔
      (CJson.print p (rpcDispatch methods root)).length ≤ mcpdFrameMaxPayload := by
  constructor
  · rintro ⟨s', hs, _⟩
    by_contra hbig
    rw [serveRequest_dropped (Nat.lt_of_not_le hbig)] at hs
    cases hs
  · intro hfits
    obtain ⟨hall, hout⟩ := frameWrite_live hlive hfits
    exact ⟨_, serveRequest_eq_some.mpr (Prod.ext hall rfl), hout⟩

end AmigaFleet.Mcpd
