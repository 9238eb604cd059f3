import AmigaFleet.Lib.Run
import AmigaFleet.Mcpd.Events

/-!
# The worker of a connection

`handle_connection` of `mcpd/src/main.c`: one request at a time, notifications
in front of its response or when nothing comes in, and the return that drops
the connection.

`ι` is what a request frame carries, and `parse` is `cJSON_ParseWithLength` of
it.  What the notifications say is not decided here: `events_emit_pending` and
`crashhook_drain` write frames of the form `notify`.  A notification that
`frame_write` does not get out is passed over, a response is not.  A frame that
the socket breaks off counts as written; the reader gets the first part of it.

`answers_in_order` is what a reader can rely on.
-/

namespace AmigaFleet.Mcpd.Connection

open AmigaFleet.Lib
open AmigaFleet.Mcpd.Events (notify)

variable {ι : Type}

/-- A request behind `rpc_dispatch`, with the methods as they answered. -/
structure Served (ι : Type) where
  request : ι
  methods : Methods

/-- A frame of the worker. -/
inductive Written (ι : Type) where
  | push (topic : Bytes) (data : CJson)
  | answer (served : Served ι)

structure Worker (ι : Type) where
  /-- whole request frames in the socket -/
  inbox : List ι := []
  /-- the request behind `rpc_dispatch` whose response is not out -/
  pending : Option (Served ι) := none
  written : List (Written ι) := []
  /-- `handle_connection` has returned -/
  gone : Bool := false
  /-- the request frames so far -/
  received : List ι := []
  /-- the requests that `rpc_dispatch` has got so far -/
  served : List (Served ι) := []

inductive Label (ι : Type) where
  | receive (request : ι)
  | dispatch (methods : Methods)
  | push (topic : Bytes) (data : CJson)
  | respond
  /-- an error of the socket or in a frame, or the end of the process -/
  | leave

def Worker.receive (w : Worker ι) (request : ι) : Worker ι :=
  { w with inbox := w.inbox ++ [request], received := w.received ++ [request] }

section Steps

variable (p : CJson.Printer) (parse : ι → Option CJson)

def Served.json (s : Served ι) : CJson := rpcDispatch s.methods (parse s.request)

def Written.json : Written ι → CJson
  | .push topic data => notify topic data
  | .answer served => served.json parse

/-- `frame_write` takes the printed tree. -/
def Fits (tree : CJson) : Prop := (CJson.print p tree).length ≤ mcpdFrameMaxPayload

instance (tree : CJson) : Decidable (Fits p tree) := inferInstanceAs (Decidable (_ ≤ _))

def step (w : Worker ι) : Label ι → Option (Worker ι)
  | .receive request => some (w.receive request)
  | .dispatch methods =>
    match w.gone, w.pending, w.inbox with
    | false, none, request :: inbox =>
      some { w with
        inbox
        pending := some ⟨request, methods⟩
        served := w.served ++ [⟨request, methods⟩] }
    | _, _, _ => none
  | .push topic data =>
    if w.gone then none
    else if Fits p (notify topic data) then
      some { w with written := w.written ++ [.push topic data] }
    else some w
  | .respond =>
    match w.gone, w.pending with
    | false, some served =>
      if Fits p (served.json parse) then
        some { w with pending := none, written := w.written ++ [.answer served] }
      else some { w with gone := true }
    | _, _ => none
  | .leave => if w.gone then none else some { w with gone := true }

end Steps

variable {p : CJson.Printer} {parse : ι → Option CJson} {w w' : Worker ι}

/-! ## What a step can do -/

inductive Stepped (p : CJson.Printer) (parse : ι → Option CJson) (w : Worker ι) :
    Label ι → Worker ι → Prop where
  | receive (request : ι) : Stepped p parse w (.receive request) (w.receive request)
  | dispatch (methods : Methods) (request : ι) (inbox : List ι) (hgone : w.gone = false)
      (hpending : w.pending = none) (hinbox : w.inbox = request :: inbox) :
      Stepped p parse w (.dispatch methods) { w with
        inbox
        pending := some ⟨request, methods⟩
        served := w.served ++ [⟨request, methods⟩] }
  | push (topic : Bytes) (data : CJson) (hgone : w.gone = false)
      (hfits : Fits p (notify topic data)) :
      Stepped p parse w (.push topic data) { w with written := w.written ++ [.push topic data] }
  | passed (topic : Bytes) (data : CJson) : Stepped p parse w (.push topic data) w
  | respond (served : Served ι) (hgone : w.gone = false) (hpending : w.pending = some served)
      (hfits : Fits p (served.json parse)) :
      Stepped p parse w .respond { w with pending := none, written := w.written ++ [.answer served] }
  | drop (a : Label ι) (hgone : w.gone = false) : Stepped p parse w a { w with gone := true }

theorem step_cases {a : Label ι} (h : step p parse w a = some w') : Stepped p parse w a w' := by
  cases a with
  | receive request =>
    cases h
    exact .receive request
  | dispatch methods =>
    rw [step] at h
    split at h
    · rename_i request inbox hgone hpending hinbox
      cases h
      exact .dispatch methods request inbox hgone hpending hinbox
    · cases h
  | push topic data =>
    rw [step] at h
    split at h
    · cases h
    · rename_i hgone
      split at h
      · rename_i hfits
        cases h
        exact .push topic data (Bool.not_eq_true _ ▸ hgone) hfits
      · cases h
        exact .passed topic data
  | respond =>
    rw [step] at h
    split at h
    · rename_i served hgone hpending
      split at h
      · rename_i hfits
        cases h
        exact .respond served hgone hpending hfits
      · cases h
        exact .drop _ hgone
    · cases h
  | leave =>
    rw [step] at h
    split at h
    · cases h
    · rename_i hgone
      cases h
      exact .drop _ (Bool.not_eq_true _ ▸ hgone)

/-! ## The invariant -/

def Written.answer? : Written ι → Option (Served ι)
  | .answer served => some served
  | .push .. => none

/-- The requests that have been answered. -/
def Worker.answers (w : Worker ι) : List (Served ι) := w.written.filterMap Written.answer?

structure Inv (p : CJson.Printer) (parse : ι → Option CJson) (w : Worker ι) : Prop where
  /-- each request is dispatched once, in the order in which they come in -/
  received : w.received = w.served.map Served.request ++ w.inbox
  /-- each response is that of the request before it in this order -/
  served : w.served = w.answers ++ w.pending.toList
  fits : ∀ o ∈ w.written, Fits p (o.json parse)

theorem empty_inv : Inv p parse ({} : Worker ι) := ⟨rfl, rfl, fun _ h => (nomatch h)⟩

theorem Inv.receive (h : Inv p parse w) (request : ι) : Inv p parse (w.receive request) where
  received := by
    show w.received ++ [request] = _ ++ (w.inbox ++ [request])
    rw [h.received, List.append_assoc]
    rfl
  served := h.served
  fits := h.fits

theorem answers_push (w : Worker ι) (topic : Bytes) (data : CJson) :
    ({ w with written := w.written ++ [.push topic data] } : Worker ι).answers = w.answers := by
  unfold Worker.answers
  rw [List.filterMap_append]
  exact List.append_nil _

theorem fits_snoc {o : Written ι} (h : Inv p parse w) (hfits : Fits p (o.json parse)) :
    ∀ o' ∈ w.written ++ [o], Fits p (o'.json parse) := by
  intro o' ho'
  rcases List.mem_append.mp ho' with ho' | ho'
  · exact h.fits o' ho'
  · rw [List.mem_singleton.mp ho']
    exact hfits

theorem Inv.step {a : Label ι} (h : Inv p parse w) (hstep : step p parse w a = some w') :
    Inv p parse w' := by
  cases step_cases hstep with
  | receive request => exact h.receive request
  | dispatch methods request inbox hgone hpending hinbox =>
    refine ⟨?_, ?_, h.fits⟩
    · show w.received = (w.served ++ [_]).map Served.request ++ inbox
      rw [h.received, hinbox, List.map_append, List.append_assoc]
      rfl
    · have hserved := h.served
      rw [hpending, Option.toList_none, List.append_nil] at hserved
      show w.served ++ [_] = w.answers ++ [_]
      rw [hserved]
  | push topic data hgone hfits =>
    refine ⟨h.received, ?_, fits_snoc h hfits⟩
    rw [answers_push]
    exact h.served
  | passed topic data => exact h
  | respond served hgone hpending hfits =>
    refine ⟨h.received, ?_, fits_snoc h hfits⟩
    have hserved := h.served
    rw [hpending] at hserved
    show w.served = (w.written ++ [Written.answer served]).filterMap Written.answer? ++ []
    rw [hserved, List.filterMap_append, List.append_nil]
    rfl
  | drop a hgone => exact ⟨h.received, h.served, h.fits⟩

theorem run_inv {as : List (Label ι)} (hrun : run (step p parse) {} as = some w) :
    Inv p parse w :=
  run_invariant_all (fun _ _ _ h hstep => h.step hstep) empty_inv hrun

/-! ## The stream -/

/-- The trees of the frames, in their order. -/
def Worker.trees (parse : ι → Option CJson) (w : Worker ι) : List CJson :=
  w.written.map (Written.json parse)

/-- The member `id` of the response to a request. -/
def idOf (parse : ι → Option CJson) (request : ι) : CJson :=
  ((parse request).bind (CJson.getItem (ascii "id"))).getD .null

theorem notify_id (topic : Bytes) (data : CJson) :
    (notify topic data).getItem (ascii "id") = none := rfl

theorem envelope_id (id : Option CJson) (out : Outcome) :
    (envelope id out).getItem (ascii "id") = some (id.getD .null) := by
  cases out <;> rfl

theorem Served.json_id (s : Served ι) :
    (s.json parse).getItem (ascii "id") = some (idOf parse s.request) := by
  have herror := envelope_id none (.error (rpcMakeError (-32700) "Parse error" none))
  unfold Served.json idOf
  cases parse s.request with
  | none => exact herror
  | some root =>
    cases root with
    | object members => exact envelope_id ..
    | null => exact herror
    | bool b => exact herror
    | number value => exact herror
    | string text => exact herror
    | array items => exact herror

def hasId (tree : CJson) : Bool := (tree.getItem (ascii "id")).isSome

/-- The frames with an id. -/
theorem filter_hasId (written : List (Written ι)) :
    (written.map (Written.json parse)).filter hasId =
      (written.filterMap Written.answer?).map (Served.json parse) := by
  induction written with
  | nil => rfl
  | cons o written ih =>
    rw [List.map_cons, List.filter_cons, ih]
    cases o with
    | push topic data => rfl
    | answer served =>
      have hid : hasId ((Written.answer served).json parse) = true :=
        Option.isSome_iff_exists.mpr ⟨_, served.json_id⟩
      rw [hid]
      rfl

/-- What a reader can rely on. -/
structure InOrder (parse : ι → Option CJson) (w : Worker ι) : Prop where
  /-- the frames with an id are responses -/
  answers : (w.trees parse).filter hasId = w.answers.map (Served.json parse)
  /-- with the ids of their requests -/
  ids : ∀ s ∈ w.answers, (s.json parse).getItem (ascii "id") = some (idOf parse s.request)
  /-- one for each request, in the order of the requests -/
  requests : w.received =
    w.answers.map Served.request ++ (w.pending.toList.map Served.request ++ w.inbox)

/-- In every run, the responses on a connection are those of its requests in
their order, and every other frame is a notification without an id. -/
theorem answers_in_order {as : List (Label ι)} (hrun : run (step p parse) {} as = some w) :
    InOrder parse w := by
  have hinv := run_inv hrun
  refine ⟨filter_hasId w.written, fun s _ => s.json_id, ?_⟩
  rw [hinv.received, hinv.served, List.map_append, List.append_assoc]

/-- A request with this id. -/
def uptimeRequest (id : Nat) : Option CJson :=
  some (.object [(ascii "id", .number id), (ascii "method", .string (ascii "sys.uptime"))])

def uptimeOnly : Methods := fun method =>
  if method = ascii "sys.uptime" then some fun _ => .ok (.number 5) else none

/-- Two requests at once, with a notification in front of each response, and a third. -/
def twoAnswered : List (Label Nat) :=
  [.receive 7, .receive 8, .dispatch uptimeOnly, .push (ascii "sys.lastalert") .null, .respond,
    .push (ascii "debug.exception") .null, .dispatch uptimeOnly, .respond, .receive 9]

theorem answers_in_order_sample : ∃ w : Worker Nat,
    run (step ⟨fun _ => [], fun _ => []⟩ uptimeRequest) {} twoAnswered = some w ∧
      w.written.length = 4 ∧ w.inbox = [9] ∧ w.answers.map (fun s => idOf uptimeRequest s.request) =
        [.number 7, .number 8] ∧ InOrder uptimeRequest w := by
  obtain ⟨w, hrun, hlength, hinbox, hids⟩ : ∃ w : Worker Nat,
      run (step ⟨fun _ => [], fun _ => []⟩ uptimeRequest) {} twoAnswered = some w ∧
        w.written.length = 4 ∧ w.inbox = [9] ∧ w.answers.map (fun s => idOf uptimeRequest s.request) =
          [.number 7, .number 8] := ⟨_, rfl, rfl, rfl, rfl⟩
  exact ⟨w, hrun, hlength, hinbox, hids, answers_in_order hrun⟩

end AmigaFleet.Mcpd.Connection
