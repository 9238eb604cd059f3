import AmigaFleet.Host.Session

/-!
# The result of a call

A frame that the host has read whole is one that the worker of this connection
has written, so the reply that a call takes is a response of this worker.  The
ids tell the requests of a transport apart: up to `2 ^ 53` cJSON keeps them
exactly, and those of the warm-up probes are negative.

cJSON's parser and Python's `json.loads` are parameters: `Parses` and `Loads`
say of the texts of a run that each end reads what the other has printed.  With
them no frame has the id `true`, which Python takes for a 1.

`call_returns_own_result` is correlation from end to end.
-/

namespace AmigaFleet.Host.Session

open AmigaFleet.Lib
open AmigaFleet.Mcpd (ascii CJson)
open AmigaFleet.Host.Transport

section Result

variable {py : Python} {p : CJson.Printer} {parse : Bytes → Option CJson} {l : Link}

/-! ## What each end reads -/

/-- The daemon's JSON parser reads the requests of the run as they are meant. -/
def Parses (py : Python) (parse : Bytes → Option CJson) (l : Link) : Prop :=
  ∀ k, ∀ ask ∈ (l.workers k).received,
    ask.root py parse = some (requestEnv ask.method ask.params ask.rid).toCJson

/-- The host's JSON parser reads the frames of the run as they are meant. -/
def Loads (py : Python) (p : CJson.Printer) (parse : Bytes → Option CJson) (l : Link) : Prop :=
  ∀ k, ∀ tree ∈ (l.workers k).trees (Ask.root py parse), ∀ obj,
    py.loads (CJson.print p tree) = .ok obj → obj = Json.ofCJson tree

/-- What holds of the texts of a run holds of those up to now. -/
theorem Parses.before {l' : Link} {a : Label} (h : Parses py parse l')
    (hstep : step py p parse l a = some l') : Parses py parse l :=
  fun k ask hask => h k ask ((step_grows hstep k).2 hask)

theorem Loads.before {l' : Link} {a : Label} (h : Loads py p parse l')
    (hstep : step py p parse l a = some l') : Loads py p parse l :=
  fun k tree htree => h k tree (List.map_subset _ (step_grows hstep k).1 htree)

theorem rpcDispatch_object (methods : Mcpd.Methods) (root : Option CJson) :
    ∃ members, Mcpd.rpcDispatch methods root = .object members := by
  unfold Mcpd.rpcDispatch Mcpd.envelope
  split
  · exact ⟨_, rfl⟩
  · exact ⟨_, rfl⟩

/-! ## Frames of a worker -/

/-- A frame of a worker has a length that a header may announce. -/
theorem announced_print {o : Mcpd.Connection.Written Ask}
    (h : Mcpd.Connection.Fits p (o.json (Ask.root py parse))) :
    Announced maxFrameBytes (CJson.print p (o.json (Ask.root py parse))) := by
  refine ⟨?_, h⟩
  have hobject : ∃ members, o.json (Ask.root py parse) = .object members := by
    cases o with
    | push topic data => exact ⟨_, rfl⟩
    | answer served => exact rpcDispatch_object ..
  obtain ⟨members, hmembers⟩ := hobject
  rw [hmembers, CJson.print, List.length_append, List.length_append]
  exact Nat.lt_of_lt_of_le (by decide : 0 < (ascii "\x7b").length) (by omega)

/-- A frame that has been read whole is one that the worker has written. -/
theorem Joined.written (h : Joined py p parse l) {consumed : Bytes}
    (harrived : consumed <+: stream py p parse (l.workers l.current)) {old : List Bytes}
    {payload : Bytes} (hread : Boundary (old ++ [payload]) consumed) :
    ∃ o ∈ (l.workers l.current).written, payload = CJson.print p (o.json (Ask.root py parse)) := by
  obtain ⟨before, hall, heq⟩ := hread
  rw [heq, stream] at harrived
  have hprefix := prefix_of_frames_prefix (by decide) hall (fun q hq => ?_) harrived
  · have hmem := hprefix.subset (List.mem_append_right _ (List.mem_append_right _
      (List.mem_singleton_self payload)))
    obtain ⟨tree, htree, rfl⟩ := List.mem_map.mp hmem
    obtain ⟨o, ho, rfl⟩ := List.mem_map.mp htree
    exact ⟨o, ho, rfl⟩
  · obtain ⟨tree, htree, rfl⟩ := List.mem_map.mp hq
    obtain ⟨o, ho, rfl⟩ := List.mem_map.mp htree
    exact announced_print ((h.workers l.current).fits o ho)

theorem Joined.served_received (h : Joined py p parse l) {k : Nat} {served : Served}
    (hwritten : .answer served ∈ (l.workers k).written) :
    served ∈ (l.workers k).served ∧ served.request ∈ (l.workers k).received := by
  have hserved : served ∈ (l.workers k).served := by
    rw [(h.workers k).served]
    exact List.mem_append_left _ (List.mem_filterMap.mpr ⟨_, hwritten, rfl⟩)
  refine ⟨hserved, ?_⟩
  rw [(h.workers k).received]
  exact List.mem_append_left _ (List.mem_map_of_mem hserved)

theorem envelope_result {id : Option CJson} {out : Mcpd.Outcome} {v : CJson}
    (h : (Mcpd.envelope id out).getItem (ascii "result") = some v) : out = .ok v := by
  cases out with
  | ok result =>
    cases h
    rfl
  | error err => cases h

/-- A response with a result is that of a method. -/
theorem dispatch_result {methods : Mcpd.Methods} {root : Option CJson} {v : CJson}
    (h : (Mcpd.rpcDispatch methods root).getItem (ascii "result") = some v) :
    ∃ r, root = some r ∧ Mcpd.callMethod methods r = .ok v ∧
      (Mcpd.rpcDispatch methods root).getItem (ascii "id") =
        some ((r.getItem (ascii "id")).getD .null) := by
  unfold Mcpd.rpcDispatch at h ⊢
  split at h
  · exact ⟨_, rfl, envelope_result h, Mcpd.Connection.envelope_id ..⟩
  · exact absurd (envelope_result h) (fun heq => nomatch heq)

/-- A frame with a result is the response to a request. -/
theorem written_result {o : Mcpd.Connection.Written Ask} {v : CJson}
    (h : (o.json (Ask.root py parse)).getItem (ascii "result") = some v) :
    ∃ served, o = .answer served ∧ ∃ root, served.request.root py parse = some root ∧
      Mcpd.callMethod served.methods root = .ok v ∧
      (o.json (Ask.root py parse)).getItem (ascii "id") =
        some ((root.getItem (ascii "id")).getD .null) := by
  cases o with
  | push topic data => cases h
  | answer served => exact ⟨served, rfl, dispatch_result h⟩

/-! ## Ids -/

/-- The id of a request as the daemon prints it. -/
theorem request_id (ask : Ask) :
    (requestEnv ask.method ask.params ask.rid).toCJson.getItem (ascii "id") =
      some (.number (double ask.rid)) := rfl

/-- JSON numbers without a fraction are integers. -/
theorem eq_of_carries {obj : Json} {m rid : Int} (hid : obj.get "id" = some (.int m))
    (h : Carries obj rid) : m = rid := by
  unfold Carries at h
  rw [hid] at h
  rcases h with h | h
  · cases h
    rfl
  · cases h

/-- The id that a response carries. -/
theorem rid_of_carries {rid ask : Int} (hrid : 0 ≤ rid) (hask : ask ≤ warmupIdBase ∨ 0 < ask)
    (hle : ask ≤ 2 ^ 53) (h : double ask = rid) : ask = rid := by
  rcases hask with hlow | hpos
  · have hneg : warmupIdBase < 0 := by decide
    have hless := double_neg (Int.lt_of_le_of_lt hlow hneg)
    omega
  · obtain ⟨n, rfl⟩ := Int.eq_ofNat_of_zero_le (Int.le_of_lt hpos)
    rw [double_of_le (by omega)] at h
    exact h

/-- No frame of the daemon has the id `true`. -/
theorem Joined.id_ne_true (h : Joined py p parse l) (hparse : Parses py parse l) {k : Nat}
    {o : Mcpd.Connection.Written Ask} (ho : o ∈ (l.workers k).written) :
    (Json.ofCJson (o.json (Ask.root py parse))).get "id" ≠ some (.bool true) := by
  rw [Json.get_ofCJson]
  cases o with
  | push topic data => exact fun heq => nomatch heq
  | answer served =>
    have hid : ((Mcpd.Connection.Written.answer served).json (Ask.root py parse)).getItem
        (ascii "id") = some (.number (double served.request.rid)) := by
      have hanswer : (served.json (Ask.root py parse)).getItem (ascii "id") =
          some (Mcpd.Connection.idOf (Ask.root py parse) served.request) := served.json_id
      rw [Mcpd.Connection.idOf, hparse k _ (h.served_received ho).2] at hanswer
      exact hanswer
    rw [hid, Option.map_some, Json.ofCJson_number_int]
    exact fun heq => nomatch heq

/-- A frame that comes from the daemon is not taken for the reply to request 1. -/
theorem Joined.orderly (h : Joined py p parse l) (htracked : Tracked py l.host)
    (hparse : Parses py parse l) (hloads : Loads py p parse l) {a : Transport.Label}
    {host : Transport.Sys} {l' : Link} (huncut : Uncut l.host a)
    (hmoved : l.moved py p parse host a = some l') : Orderly py l.host a := by
  refine ⟨huncut, ?_⟩
  unfold takesTrue
  split
  · rename_i c n event now hc hphase
    split
    · rename_i payload hgot
      split
      · rename_i obj hobj
        obtain ⟨hlen, hconsumed⟩ := Conn.read_got hgot
        have harrived : (c.read n event).1.consumed <+:
            stream py p parse (l.workers l.current) := by
          simp only [Link.moved, Link.arrived, hc, hphase, awaits] at hmoved
          split at hmoved
          · rename_i hprefix
            exact List.isPrefixOf_iff_prefix.mp hprefix
          · cases hmoved
        rw [hconsumed] at harrived
        have hboundary := (htracked.aligned.midFrame (by rw [hphase]; rfl) hc).body hlen
        obtain ⟨o, ho, rfl⟩ := h.written harrived hboundary
        have hid := h.id_ne_true hparse ho
        rw [← hloads l.current _ (List.mem_map_of_mem ho) obj hobj] at hid
        split
        · rename_i htrue
          exact absurd htrue hid
        · rfl
      · rfl
    · rfl
  · rfl

/-- Both ends of a link; the host keeps track where each end reads what the other
has printed. -/
structure Followed (py : Python) (p : CJson.Printer) (parse : Bytes → Option CJson) (l : Link) :
    Prop where
  joined : Joined py p parse l
  tracked : Parses py parse l → Loads py p parse l → Tracked py l.host

theorem Followed.step {l' : Link} {a : Label} (h : Followed py p parse l)
    (huncut : OnHost Uncut l a) (hstep : Session.step py p parse l a = some l') :
    Followed py p parse l' := by
  refine ⟨h.joined.step hstep, fun hparse hloads => ?_⟩
  -- what is read as it is meant later is so now
  have hparse' := hparse.before hstep
  have hloads' := hloads.before hstep
  have htracked := h.tracked hparse' hloads'
  cases step_cases hstep with
  | daemon k a w ha hpos hk hw => exact htracked
  | host a host l' hhost hmoved =>
    rw [moved_host hmoved]
    exact htracked.step (h.joined.orderly htracked hparse' hloads' huncut hmoved) hhost

theorem run_followed {as : List Label} (hrun : run (step py p parse) {} as = some l)
    (hok : Along (step py p parse) (OnHost Uncut) {} as) : Followed py p parse l :=
  run_invariant (fun _ _ _ h hok hstep => h.step hok hstep)
    ⟨init_joined, fun _ _ => init_tracked py⟩ hok hrun

/-! ## Calls -/

/-- In every uncut run with fewer than 2 ^ 53 requests: the value that a call
returns is the result of the daemon's execution of this very request, with its
method, its parameters and its id. -/
theorem call_returns_own_result {as : List Label} (hrun : run (step py p parse) {} as = some l)
    (hok : Along (step py p parse) (OnHost Uncut) {} as)
    (hids : l.host.nextId ≤ 2 ^ 53) (hparse : Parses py parse l) (hloads : Loads py p parse l)
    {v : Json} (hdone : l.host.phase = .done (.value v)) :
    ∃ served ∈ (l.workers l.current).served, ∃ result,
      served.request = currentAsk l.host.call ∧
      Mcpd.callMethod served.methods
        (requestEnv l.host.call.method l.host.call.params l.host.call.rid).toCJson = .ok result ∧
      v = Json.ofCJson result := by
  obtain ⟨hjoined, htracked⟩ := run_followed hrun hok
  obtain ⟨c, old, payload, obj, hc, hread, hobj, hcarries, hresult⟩ := (htracked hparse hloads).value v hdone
  obtain ⟨o, ho, rfl⟩ := hjoined.written (hjoined.arrived c hc) hread
  have htree : obj = Json.ofCJson (o.json (Ask.root py parse)) :=
    hloads l.current _ (List.mem_map_of_mem ho) obj hobj
  rw [htree, Json.get_ofCJson] at hresult
  obtain ⟨result, hitem, rfl⟩ := Option.map_eq_some_iff.mp hresult
  obtain ⟨served, rfl, root, hroot, hcall, hid⟩ := written_result hitem
  obtain ⟨hserved, hreceived⟩ := hjoined.served_received ho
  have hroot' : root = (requestEnv served.request.method served.request.params
      served.request.rid).toCJson := by
    have hparsed := hparse l.current served.request hreceived
    rw [hroot] at hparsed
    exact Option.some.inj hparsed
  have hask := hjoined.asked l.current served.request hreceived
  have hown : served.request = currentAsk l.host.call := by
    refine hjoined.own l.current served.request hreceived ?_
    refine rid_of_carries hjoined.rid.1 hask.2 (by omega) (eq_of_carries ?_ hcarries)
    rw [htree, Json.get_ofCJson, hid, hroot', request_id, Option.getD_some, Option.map_some,
      Json.ofCJson_number_int]
  refine ⟨served, hserved, result, hown, ?_, rfl⟩
  rw [hroot', hown] at hcall
  exact hcall

end Result

/-! ## One call -/

/-- A printer for texts without characters to escape, and whole numbers. -/
def plainPrinter : CJson.Printer where
  number value := ascii (toString value.num)
  string text := CJson.quote :: (text ++ [CJson.quote])

def uptimeAsk : Ask := ⟨ascii "sys.uptime", none, 1⟩

/-- A daemon whose methods all answer 5. -/
def fiveMethods : Mcpd.Methods := fun _ => some fun _ => .ok (.number 5)

def uptimeReply : CJson := Mcpd.envelope (some (.number 1)) (.ok (.number 5))

/-- A Python that reads this reply. -/
def uptimePython : Python :=
  { pythonFor .null with
    loads := fun payload =>
      if payload = CJson.print plainPrinter uptimeReply then .ok (Json.ofCJson uptimeReply)
      else .error (.undecodable []) }

/-- A parser that reads this request. -/
def uptimeParse (payload : Bytes) : Option CJson :=
  if payload = uptimeAsk.payload uptimePython then
    some (requestEnv uptimeAsk.method uptimeAsk.params uptimeAsk.rid).toCJson
  else none

def uptimeRun : List Label :=
  [.host (.start (ascii "sys.uptime") none (ascii "30.0") false 0),
    .host (.connected (frame (CJson.print plainPrinter uptimeReply)) 0),
    .host (.drained .ok 1000), .daemon 1 (.dispatch fiveMethods), .daemon 1 .respond,
    .host (.read .ready 0), .host (.read .ready 0)]

/-- The worker at the end. -/
def uptimeWorker : Worker where
  written := [.answer ⟨uptimeAsk, fiveMethods⟩]
  received := [uptimeAsk]
  served := [⟨uptimeAsk, fiveMethods⟩]

theorem run_uptime : ∃ l, run (step uptimePython plainPrinter uptimeParse) {} uptimeRun = some l ∧
    l.host.phase = .done (.value (.int 5)) ∧ l.host.nextId = 2 ∧ l.current = 1 ∧
    currentAsk l.host.call = uptimeAsk ∧
    ∀ k, l.workers k = if k = 1 then uptimeWorker else {} := by
  refine ⟨_, rfl, rfl, rfl, rfl, rfl, fun k => ?_⟩
  by_cases hk : k = 1
  · subst hk
    rfl
  · rw [if_neg hk]
    simp only [workers_setWorker, if_neg hk]

theorem call_returns_own_result_sample :
    ∃ l, run (step uptimePython plainPrinter uptimeParse) {} uptimeRun = some l ∧
      ∃ served ∈ (l.workers 1).served, ∃ result, served.request = uptimeAsk ∧
        Mcpd.callMethod served.methods (requestEnv (ascii "sys.uptime") none 1).toCJson = .ok result ∧
        Json.int 5 = Json.ofCJson result := by
  obtain ⟨l, hrun, hdone, hids, hcurrent, hask, hworkers⟩ := run_uptime
  have hok : Along (step uptimePython plainPrinter uptimeParse) (OnHost Uncut) {} uptimeRun := by
    decide +kernel
  have hparse : Parses uptimePython uptimeParse l := by
    intro k ask hmem
    rw [hworkers] at hmem
    split at hmem
    · rw [List.mem_singleton.mp hmem]
      rfl
    · cases hmem
  have hloads : Loads uptimePython plainPrinter uptimeParse l := by
    intro k tree hmem obj hobj
    rw [hworkers] at hmem
    split at hmem
    · rw [List.mem_singleton.mp hmem] at hobj ⊢
      exact (Except.ok.inj hobj).symm
    · cases hmem
  obtain ⟨served, hserved, result, hrequest, hcall, hvalue⟩ :=
    call_returns_own_result hrun hok (by rw [hids]; decide) hparse hloads hdone
  rw [hcurrent] at hserved
  rw [hask] at hrequest
  have hmethod : l.host.call.method = ascii "sys.uptime" := congrArg Ask.method hask
  have hparams : l.host.call.params = none := congrArg Ask.params hask
  have hrid : l.host.call.rid = 1 := congrArg Ask.rid hask
  rw [hmethod, hparams, hrid] at hcall
  exact ⟨l, hrun, served, hserved, result, hrequest, hcall, hvalue⟩

end AmigaFleet.Host.Session
