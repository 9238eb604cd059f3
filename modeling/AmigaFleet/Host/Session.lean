import AmigaFleet.Host.Correlation
import AmigaFleet.Mcpd.Connection

/-!
# The transport and the daemon

`McpdTransport` at one end and the workers of the daemon at the other.  A
request frame that has been handed over whole gets into the inbox of the
worker, and a read returns what the worker has written: `Transport` leaves the
stream of a connection open, here it is that of `Connection`.

The host opens one connection after another, each with a worker of its own; a
worker whose connection the host has given up goes on with the requests that
it has got.  `cut` says that the current connection has taken a frame in part:
nothing comes through behind it.
-/

namespace AmigaFleet.Host.Session

open AmigaFleet.Lib
open AmigaFleet.Mcpd (ascii CJson)
open AmigaFleet.Host.Transport

/-! ## Requests -/

/-- What a request frame says. -/
structure Ask where
  method : Bytes
  params : Option Json
  rid : Int

def Ask.payload (py : Python) (ask : Ask) : Bytes :=
  requestPayload py ask.method ask.params ask.rid

/-- The request of the current attempt. -/
def currentAsk (c : Call) : Ask := ⟨c.method, c.params, c.rid⟩

/-- Warm-up probe `i`. -/
def warmupAsk (i : Nat) : Ask := ⟨ascii "sys.uptime", none, warmupIdBase - i⟩

/-- What `rpc_dispatch` parses. -/
def Ask.root (py : Python) (parse : Bytes → Option CJson) (ask : Ask) : Option CJson :=
  parse (ask.payload py)

abbrev Worker := Mcpd.Connection.Worker Ask

abbrev Served := Mcpd.Connection.Served Ask

/-! ## Both ends -/

structure Link where
  host : Transport.Sys := {}
  /-- the connections so far; the last one is current -/
  current : Nat := 0
  workers : Nat → Worker := fun _ => {}
  cut : Bool := false

inductive Label where
  | host (a : Transport.Label)
  | daemon (k : Nat) (a : Mcpd.Connection.Label Ask)

/-- How many bytes the read in this phase asks for. -/
def awaits : Phase → Option Nat
  | .header | .warmHeader _ => some 4
  | .body n | .warmBody _ n => some n
  | _ => none

def Link.setWorker (l : Link) (k : Nat) (w : Worker) : Link :=
  { l with workers := Function.update l.workers k w }

section Steps

variable (py : Python) (p : CJson.Printer) (parse : Bytes → Option CJson)

/-- What a worker has written. -/
def stream (w : Worker) : Bytes := frames ((w.trees (Ask.root py parse)).map (CJson.print p))

/-- A read gets nothing that has not been written. -/
def Link.arrived (l : Link) (event : ReadEvent) : Bool :=
  match l.host.conn, awaits l.host.phase with
  | some c, some n =>
    (c.read n event).1.consumed.isPrefixOf (stream py p parse (l.workers l.current))
  | _, _ => true

/-- `handed` bytes of the frame get to the daemon. -/
def Link.handOver (l : Link) (host : Transport.Sys) (ask : Ask) (handed : Nat) : Option Link :=
  if 4 + (ask.payload py).length ≤ handed then
    if l.cut then none
    else some ({ l with host }.setWorker l.current ((l.workers l.current).receive ask))
  else some { l with host, cut := true }

/-- What a step of the host does to the link. -/
def Link.moved (l : Link) (host : Transport.Sys) : Transport.Label → Option Link
  | .connected _ _ => some { l with host, current := l.current + 1, cut := false }
  | .drained _ handed =>
    match l.host.phase with
    | .warmDrain i => l.handOver py host (warmupAsk i) handed
    | _ => l.handOver py host (currentAsk l.host.call) handed
  | .read event _ => if l.arrived py p parse event then some { l with host } else none
  | _ => some { l with host }

def step (l : Link) : Label → Option Link
  | .host a => (Transport.step py l.host a).bind fun host => l.moved py p parse host a
  | .daemon _ (.receive _) => none
  | .daemon k a =>
    if 0 < k ∧ k ≤ l.current then
      (Mcpd.Connection.step p (Ask.root py parse) (l.workers k) a).map (l.setWorker k)
    else none

end Steps

/-! ## What a step of the host asks -/

/-- The request of the current attempt, before and after. -/
inductive Asks (s s' : Transport.Sys) : Prop where
  | kept (hnext : s'.nextId = s.nextId) (hask : currentAsk s'.call = currentAsk s.call)
  | none (hnext : s'.nextId = s.nextId) (hrid : s'.call.rid = 0)
  | next (hnext : s'.nextId = s.nextId + 1) (hrid : s'.call.rid = s.nextId)

/-- Only the id counter and the request count. -/
theorem Asks.of_same {s t s' : Transport.Sys} (h : Asks t s') (hnext : t.nextId = s.nextId)
    (hask : currentAsk t.call = currentAsk s.call) : Asks s s' := by
  cases h with
  | kept hnext' hask' => exact .kept (hnext'.trans hnext) (hask'.trans hask)
  | none hnext' hrid => exact .none (hnext'.trans hnext) hrid
  | next hnext' hrid => exact .next (by rw [hnext', hnext]) (by rw [hrid, hnext])

theorem asks_sendRequest (py : Python) (now : Rat) (s : Transport.Sys) :
    Asks s (s.sendRequest py now) := by
  unfold Sys.sendRequest
  dsimp only
  split
  · exact .next rfl rfl
  · split
    · exact .next rfl rfl
    · exact .next rfl rfl

theorem asks_warmSend (s : Transport.Sys) (i : Nat) : Asks s (s.warmSend i) := by
  unfold Sys.warmSend
  split
  · exact .kept rfl rfl
  · exact .kept rfl rfl

theorem asks_afterConnect (py : Python) (now : Rat) (s : Transport.Sys) (after : AfterConnect) :
    Asks s (s.afterConnect py now after) := by
  cases after with
  | request =>
    unfold Sys.afterConnect
    dsimp only
    split
    · exact asks_warmSend s 0
    · exact asks_sendRequest py now s
  | warmup i => exact .kept rfl rfl

theorem asks_ensureConnected (py : Python) (now : Rat) (s : Transport.Sys) (after : AfterConnect) :
    Asks s (s.ensureConnected py now after) := by
  unfold Sys.ensureConnected
  split
  · exact asks_afterConnect py now s after
  · exact .kept rfl rfl

theorem asks_beginAttempt (py : Python) (atEof : Bool) (now : Rat) (s : Transport.Sys) :
    Asks s (s.beginAttempt py atEof now) := by
  unfold Sys.beginAttempt
  split
  · exact .kept rfl rfl
  · exact asks_ensureConnected py now s .request

theorem asks_afterClose (py : Python) (now : Rat) (s : Transport.Sys) (after : AfterClose) :
    Asks s (s.afterClose py now after) := by
  cases after with
  | connect => exact asks_ensureConnected py now s .request
  | warmup i => exact asks_ensureConnected py now s (.warmup i)
  | retry => exact (asks_beginAttempt py false now _).of_same rfl rfl
  | fail e => exact .kept rfl rfl

theorem asks_ioFailed (s : Transport.Sys) (description : Bytes) : Asks s (s.ioFailed description) := by
  unfold Sys.ioFailed
  split
  · exact .kept rfl rfl
  · exact .kept rfl rfl

theorem asks_takeFrame (py : Python) (now : Rat) (s : Transport.Sys) (payload : Bytes) :
    Asks s (s.takeFrame py now payload) := by
  unfold Sys.takeFrame
  dsimp only
  split
  · exact .kept rfl rfl
  · split
    all_goals exact .kept rfl rfl

theorem asks_readHeader (s : Transport.Sys) (c : Conn) (event : ReadEvent) :
    Asks s (s.readHeader c event) := by
  unfold Sys.readHeader
  dsimp only
  split
  · split
    · exact .kept rfl rfl
    · exact .kept rfl rfl
  · exact .kept rfl rfl
  · exact (asks_ioFailed _ _).of_same rfl rfl

theorem asks_readBody (py : Python) (now : Rat) (s : Transport.Sys) (c : Conn) (n : Nat)
    (event : ReadEvent) : Asks s (s.readBody py now c n event) := by
  unfold Sys.readBody
  dsimp only
  split
  · exact (asks_takeFrame py now _ _).of_same rfl rfl
  · exact .kept rfl rfl
  · exact (asks_ioFailed _ _).of_same rfl rfl

theorem asks_warmReadHeader (s : Transport.Sys) (i : Nat) (c : Conn) (event : ReadEvent) :
    Asks s (s.warmReadHeader i c event) := by
  unfold Sys.warmReadHeader
  dsimp only
  split
  · split
    · exact .kept rfl rfl
    · exact .kept rfl rfl
  · exact .kept rfl rfl

theorem drainEnds_ask (py : Python) (s : Transport.Sys) (how : Drained) (handed : Nat) :
    (s.drainEnds py how handed).nextId = s.nextId ∧
      currentAsk (s.drainEnds py how handed).call = currentAsk s.call := by
  cases how with
  | broken description =>
    unfold Sys.drainEnds Sys.ioFailed
    dsimp only
    split
    · exact ⟨rfl, rfl⟩
    · exact ⟨rfl, rfl⟩
  | ok => exact ⟨rfl, rfl⟩
  | timeout => exact ⟨rfl, rfl⟩
  | cancelled => exact ⟨rfl, rfl⟩

/-- The state in which a new call begins its first attempt. -/
def newCall (s : Transport.Sys) (method : Bytes) (params : Option Json) (timeoutText : Bytes) :
    Transport.Sys :=
  { s with
    call := { method := method, params := params, timeoutText := timeoutText }
    delivered := 0
    used := []
    queueBefore := s.queue
    earlier := []
    fresh := [] }

/-- Every step of the host keeps the request, drops it or makes the next one. -/
theorem step_asks {py : Python} {s s' : Transport.Sys} {a : Transport.Label}
    (hstep : Transport.step py s a = some s') : Asks s s' := by
  cases a with
  | start method params timeoutText atEof now =>
    have hstart : Asks s (s.start py method params timeoutText atEof now) := by
      cases asks_beginAttempt py atEof now (newCall s method params timeoutText) with
      | kept hnext hask => exact .none hnext (congrArg Ask.rid hask)
      | none hnext hrid => exact .none hnext hrid
      | next hnext hrid => exact .next hnext hrid
    simp only [Transport.step] at hstep
    split at hstep
    · cases hstep
      exact hstart
    · cases hstep
      exact hstart
    · cases hstep
  | closed now =>
    simp only [Transport.step] at hstep
    split at hstep
    · cases hstep
      exact asks_afterClose py now s _
    · cases hstep
  | connected stream now =>
    simp only [Transport.step] at hstep
    split at hstep
    · cases hstep
      exact (asks_afterConnect py now _ _).of_same rfl rfl
    · cases hstep
  | refused error now =>
    simp only [Transport.step] at hstep
    split at hstep
    · cases hstep
      exact .kept rfl rfl
    · cases hstep
      exact asks_sendRequest py now s
    · cases hstep
  | notOpened e =>
    simp only [Transport.step] at hstep
    split at hstep
    · cases hstep
      exact .kept rfl rfl
    · cases hstep
  | drained how handed =>
    simp only [Transport.step] at hstep
    split at hstep
    · cases hstep
      have hask := drainEnds_ask py s how handed
      exact .kept hask.1 hask.2
    · split at hstep <;> cases hstep
      · exact .kept rfl rfl
      · exact .kept rfl rfl
      · exact .kept rfl rfl
    · cases hstep
  | read event now =>
    simp only [Transport.step] at hstep
    split at hstep
    · cases hstep
      exact asks_readHeader s _ event
    · cases hstep
      exact asks_readBody py now s _ _ event
    · cases hstep
      exact asks_warmReadHeader s _ _ event
    · cases hstep
      exact .kept rfl rfl
    · cases hstep
  | slept now =>
    simp only [Transport.step] at hstep
    split at hstep
    · cases hstep
      split
      · exact asks_warmSend s 1
      · exact asks_sendRequest py now s
    · cases hstep
  | handled =>
    simp only [Transport.step] at hstep
    split at hstep
    · cases hstep
      exact .kept rfl rfl
    · cases hstep
  | cancel =>
    simp only [Transport.step] at hstep
    split at hstep
    · cases hstep
    · cases hstep
    · cases hstep
    · cases hstep
    · cases hstep
      exact .kept rfl rfl

theorem takeFrame_not_drain (py : Python) (now : Rat) (s : Transport.Sys) (payload : Bytes) :
    (s.takeFrame py now payload).phase ≠ .drain := by
  unfold Sys.takeFrame
  dsimp only
  split
  · exact fun h => nomatch h
  · split
    all_goals exact fun h => nomatch h

theorem ioFailed_not_drain (s : Transport.Sys) (description : Bytes) :
    (s.ioFailed description).phase ≠ .drain := by
  unfold Sys.ioFailed
  split
  all_goals exact fun h => nomatch h

/-- A request that goes out has just got its id. -/
theorem step_drain {py : Python} {s s' : Transport.Sys} {a : Transport.Label}
    (hstep : Transport.step py s a = some s') (hdrain : s'.phase = .drain) :
    s'.call.rid = s.nextId := by
  cases Transport.step_cases hstep with
  | start method params timeoutText atEof now _ =>
    exact (opens_beginAttempt py atEof now (newCall s method params timeoutText)).asked hdrain
  | opens _ _ _ _ hopens => exact hopens.asked hdrain
  | warmHeader i _ _ => cases hdrain
  | warmReadHeader i c event now _ _ =>
    unfold Sys.warmReadHeader at hdrain
    dsimp only at hdrain
    split at hdrain
    · split at hdrain <;> cases hdrain
    · cases hdrain
  | warmReadBody i n c event now _ _ => cases hdrain
  | drained how handed _ =>
    cases how with
    | broken description => exact absurd hdrain (ioFailed_not_drain _ description)
    | ok => cases hdrain
    | timeout => cases hdrain
    | cancelled => cases hdrain
  | readHeader c event now _ _ =>
    unfold Sys.readHeader at hdrain
    dsimp only at hdrain
    split at hdrain
    · split at hdrain <;> cases hdrain
    · cases hdrain
    · exact absurd hdrain (ioFailed_not_drain _ _)
  | readBody n c event now _ _ =>
    unfold Sys.readBody at hdrain
    dsimp only at hdrain
    split at hdrain
    · exact absurd hdrain (takeFrame_not_drain py now _ _)
    · cases hdrain
    · exact absurd hdrain (ioFailed_not_drain _ _)
  | handled _ => cases hdrain
  | failed e now _ => cases hdrain
  | cancel _ _ _ => cases hdrain

/-! ## What a step of the host reads -/

theorem afterConnect_conn (py : Python) (now : Rat) (s : Transport.Sys) (after : AfterConnect) :
    (s.afterConnect py now after).conn = s.conn := by
  cases after with
  | request =>
    unfold Sys.afterConnect
    dsimp only
    split
    · unfold Sys.warmSend
      split <;> rfl
    · unfold Sys.sendRequest
      dsimp only
      split
      · rfl
      · split <;> rfl
  | warmup i => rfl

/-- A new connection has been read nothing of. -/
theorem connected_conn {py : Python} {s s' : Transport.Sys} {stream : Bytes} {now : Rat}
    (hstep : Transport.step py s (.connected stream now) = some s') {c : Conn}
    (hc : s'.conn = some c) : c.consumed = [] := by
  simp only [Transport.step] at hstep
  split at hstep
  · cases hstep
    rw [afterConnect_conn] at hc
    cases hc
    rfl
  · cases hstep

theorem ioFailed_conn (s : Transport.Sys) (description : Bytes) :
    (s.ioFailed description).conn = none := by
  unfold Sys.ioFailed
  split <;> rfl

theorem takeFrame_conn (py : Python) (now : Rat) (s : Transport.Sys) (payload : Bytes) :
    (s.takeFrame py now payload).conn = s.conn ∨ (s.takeFrame py now payload).conn = none := by
  unfold Sys.takeFrame
  dsimp only
  split
  · exact Or.inl rfl
  · split
    · exact Or.inl rfl
    · exact Or.inl rfl
    · exact Or.inl rfl
    · exact Or.inr rfl
    · exact Or.inl rfl

/-- Where the connection of a step comes from. -/
inductive Reads (s : Transport.Sys) (a : Transport.Label) (c' : Conn) : Prop where
  | fresh (h : c'.consumed = [])
  | kept (h : s.conn = some c')
  | read (c : Conn) (n : Nat) (event : ReadEvent) (now : Rat) (ha : a = .read event now)
      (hc : s.conn = some c) (hn : awaits s.phase = some n) (h : c' = (c.read n event).1)

theorem step_reads {py : Python} {s s' : Transport.Sys} {a : Transport.Label}
    (hstep : Transport.step py s a = some s') {c' : Conn} (hc' : s'.conn = some c') :
    Reads s a c' := by
  cases Transport.step_cases hstep with
  | start method params timeoutText atEof now _ =>
    rcases (opens_beginAttempt py atEof now (newCall s method params timeoutText)).conn with
      hsame | hnew
    · exact .kept (hsame.symm.trans hc')
    · exact .fresh (hnew c' hc')
  | opens _ _ _ _ hopens =>
    rcases hopens.conn with hsame | hnew
    · exact .kept (hsame.symm.trans hc')
    · exact .fresh (hnew c' hc')
  | warmHeader i _ _ => exact .kept hc'
  | warmReadHeader i c event now hphase hc =>
    refine .read c 4 event now rfl hc (by rw [hphase]; rfl) ?_
    unfold Sys.warmReadHeader at hc'
    dsimp only at hc'
    split at hc'
    · split at hc'
      · cases hc'
        rfl
      · cases hc'
        rfl
    · cases hc'
      rfl
  | warmReadBody i n c event now hphase hc =>
    refine .read c n event now rfl hc (by rw [hphase]; rfl) ?_
    cases hc'
    rfl
  | drained how handed _ =>
    cases how with
    | ok => exact .kept hc'
    | timeout => cases hc'
    | broken description =>
      have hnone : (s.drainEnds py (.broken description) handed).conn = none := ioFailed_conn _ _
      rw [hnone] at hc'
      cases hc'
    | cancelled => exact .kept hc'
  | readHeader c event now hphase hc =>
    refine .read c 4 event now rfl hc (by rw [hphase]; rfl) ?_
    unfold Sys.readHeader at hc'
    dsimp only at hc'
    split at hc'
    · split at hc'
      · cases hc'
        rfl
      · cases hc'
        rfl
    · cases hc'
    · rw [ioFailed_conn] at hc'
      cases hc'
  | readBody n c event now hphase hc =>
    refine .read c n event now rfl hc (by rw [hphase]; rfl) ?_
    unfold Sys.readBody at hc'
    dsimp only at hc'
    split at hc'
    · rcases takeFrame_conn py now { s with conn := some (c.read n event).1 } _ with hsame | hnone
      · rw [hsame] at hc'
        cases hc'
        rfl
      · rw [hnone] at hc'
        cases hc'
    · cases hc'
    · rw [ioFailed_conn] at hc'
      cases hc'
  | handled _ => exact .kept hc'
  | failed e now _ => exact .kept hc'
  | cancel _ _ _ => exact .kept hc'

/-! ## The invariant -/

section Invariant

variable {py : Python} {p : CJson.Printer} {parse : Bytes → Option CJson} {l l' : Link}

/-- What the daemon has got is what the host has asked. -/
structure Joined (py : Python) (p : CJson.Printer) (parse : Bytes → Option CJson) (l : Link) :
    Prop where
  /-- there is no worker without a connection -/
  later : ∀ k, l.current < k → l.workers k = {}
  workers : ∀ k, Mcpd.Connection.Inv p (Ask.root py parse) (l.workers k)
  arrived : ∀ c, l.host.conn = some c → c.consumed <+: stream py p parse (l.workers l.current)
  nextId : 0 < l.host.nextId
  rid : 0 ≤ l.host.call.rid ∧ l.host.call.rid < l.host.nextId
  sending : l.host.phase = .drain → 0 < l.host.call.rid
  asked : ∀ k, ∀ ask ∈ (l.workers k).received,
    ask.rid < l.host.nextId ∧ (ask.rid ≤ warmupIdBase ∨ 0 < ask.rid)
  /-- no other request has the id of the current one -/
  own : ∀ k, ∀ ask ∈ (l.workers k).received, ask.rid = l.host.call.rid →
    ask = currentAsk l.host.call

theorem init_joined : Joined py p parse {} where
  later _ _ := rfl
  workers _ := Mcpd.Connection.empty_inv
  arrived _ h := by cases h
  nextId := by decide
  rid := by decide
  sending h := by cases h
  asked _ _ h := by cases h
  own _ _ h := by cases h

/-- The parts of the invariant that the host's step alone decides. -/
theorem Joined.asks (h : Joined py p parse l) {host : Transport.Sys} (hasks : Asks l.host host) :
    0 < host.nextId ∧ (0 ≤ host.call.rid ∧ host.call.rid < host.nextId) ∧
      ∀ k, ∀ ask ∈ (l.workers k).received,
        (ask.rid < host.nextId ∧ (ask.rid ≤ warmupIdBase ∨ 0 < ask.rid)) ∧
          (ask.rid = host.call.rid → ask = currentAsk host.call) := by
  have hnext := h.nextId
  have hrid := h.rid
  cases hasks with
  | kept hsame hask =>
    have hcall : host.call.rid = l.host.call.rid := congrArg Ask.rid hask
    rw [hsame, hcall, hask]
    exact ⟨hnext, hrid, fun k ask hmem => ⟨h.asked k ask hmem, h.own k ask hmem⟩⟩
  | none hsame hzero =>
    rw [hsame, hzero]
    refine ⟨hnext, ⟨Int.le_refl 0, hnext⟩, fun k ask hmem => ⟨h.asked k ask hmem, fun heq => ?_⟩⟩
    have hask := (h.asked k ask hmem).2
    unfold warmupIdBase at hask
    omega
  | next hnew hcall =>
    rw [hnew, hcall]
    refine ⟨by omega, ⟨by omega, by omega⟩, fun k ask hmem => ?_⟩
    have hask := h.asked k ask hmem
    refine ⟨⟨by omega, hask.2⟩, fun heq => ?_⟩
    omega

theorem workers_setWorker (l : Link) (k : Nat) (w : Worker) (j : Nat) :
    (l.setWorker k w).workers j = if j = k then w else l.workers j := Function.update_apply ..

/-- A step of the host that hands nothing over. -/
theorem Joined.moves (h : Joined py p parse l) {host : Transport.Sys} {a : Transport.Label}
    (hstep : Transport.step py l.host a = some host)
    (harrived : ∀ c, host.conn = some c → c.consumed <+: stream py p parse (l.workers l.current))
    (cut : Bool) : Joined py p parse { l with host, cut } := by
  obtain ⟨hnext, hrid, hall⟩ := h.asks (step_asks hstep)
  refine ⟨h.later, h.workers, harrived, hnext, hrid, fun hdrain => ?_,
    fun k ask hmem => (hall k ask hmem).1, fun k ask hmem => (hall k ask hmem).2⟩
  show 0 < host.call.rid
  rw [step_drain hstep hdrain]
  exact h.nextId

/-- A request gets to the daemon. -/
theorem Joined.receive (h : Joined py p parse l) {ask : Ask}
    (hask : ask.rid < l.host.nextId ∧ (ask.rid ≤ warmupIdBase ∨ 0 < ask.rid))
    (hown : ask.rid = l.host.call.rid → ask = currentAsk l.host.call) :
    Joined py p parse (l.setWorker l.current ((l.workers l.current).receive ask)) := by
  have hmem : ∀ k, ∀ ask' ∈ ((l.setWorker l.current
      ((l.workers l.current).receive ask)).workers k).received,
      ask' ∈ (l.workers k).received ∨ ask' = ask := by
    intro k ask' hask'
    rw [workers_setWorker] at hask'
    split at hask'
    · rename_i heq
      subst heq
      exact (List.mem_append.mp hask').imp_right List.mem_singleton.mp
    · exact Or.inl hask'
  refine ⟨?_, ?_, ?_, h.nextId, h.rid, h.sending, ?_, ?_⟩
  · intro k hk
    have hlt : l.current < k := hk
    rw [workers_setWorker, if_neg (Nat.ne_of_gt hlt)]
    exact h.later k hlt
  · intro k
    rw [workers_setWorker]
    split
    · exact (h.workers l.current).receive ask
    · exact h.workers k
  · intro c hc
    show c.consumed <+: stream py p parse ((l.setWorker l.current _).workers l.current)
    rw [workers_setWorker, if_pos rfl]
    exact h.arrived c hc
  · intro k ask' hask'
    rcases hmem k ask' hask' with hold | rfl
    · exact h.asked k ask' hold
    · exact hask
  · intro k ask' hask'
    rcases hmem k ask' hask' with hold | rfl
    · exact h.own k ask' hold
    · exact hown

/-- A worker that writes goes on where it was. -/
theorem written_grows {k : Nat} {w : Worker} {a : Mcpd.Connection.Label Ask}
    (hstep : Mcpd.Connection.step p (Ask.root py parse) (l.workers k) a = some w) :
    (l.workers k).written <+: w.written := by
  cases Mcpd.Connection.step_cases hstep with
  | receive request => exact List.prefix_rfl
  | dispatch methods request inbox hgone hpending hinbox => exact List.prefix_rfl
  | push topic data hgone hfits => exact List.prefix_append ..
  | passed topic data => exact List.prefix_rfl
  | respond served hgone hpending hfits => exact List.prefix_append ..
  | drop a hgone => exact List.prefix_rfl

theorem stream_grows {k : Nat} {w : Worker} {a : Mcpd.Connection.Label Ask}
    (hstep : Mcpd.Connection.step p (Ask.root py parse) (l.workers k) a = some w) :
    stream py p parse (l.workers k) <+: stream py p parse w := by
  obtain ⟨rest, hrest⟩ := written_grows hstep
  refine ⟨frames ((rest.map (Mcpd.Connection.Written.json (Ask.root py parse))).map (CJson.print p)), ?_⟩
  rw [stream, stream, Mcpd.Connection.Worker.trees, Mcpd.Connection.Worker.trees, ← frames_append,
    ← List.map_append, ← List.map_append, hrest]

/-- What has been read, when the step is no read. -/
theorem Joined.same_conn (h : Joined py p parse l) {host : Transport.Sys} {a : Transport.Label}
    (hstep : Transport.step py l.host a = some host) (ha : ∀ event now, a ≠ .read event now) :
    ∀ c, host.conn = some c → c.consumed <+: stream py p parse (l.workers l.current) := by
  intro c hc
  cases step_reads hstep hc with
  | fresh hnil =>
    rw [hnil]
    exact List.nil_prefix
  | kept hsame => exact h.arrived c hsame
  | read c₀ n event now heq _ _ _ => exact absurd heq (ha event now)

theorem Joined.handOver (h : Joined py p parse l) {host : Transport.Sys} {how : Drained}
    {handed : Nat} (hstep : Transport.step py l.host (.drained how handed) = some host) {ask : Ask}
    (hask : ask.rid < host.nextId ∧ (ask.rid ≤ warmupIdBase ∨ 0 < ask.rid))
    (hown : ask.rid = host.call.rid → ask = currentAsk host.call)
    (hmoved : l.handOver py host ask handed = some l') : Joined py p parse l' := by
  have harrived := h.same_conn hstep fun _ _ heq => nomatch heq
  unfold Link.handOver at hmoved
  split at hmoved
  · split at hmoved
    · cases hmoved
    · cases hmoved
      exact (h.moves hstep harrived l.cut).receive hask hown
  · cases hmoved
    exact h.moves hstep harrived true

theorem Joined.drained (h : Joined py p parse l) {host : Transport.Sys} {how : Drained}
    {handed : Nat} (hstep : Transport.step py l.host (.drained how handed) = some host)
    (hmoved : l.moved py p parse host (.drained how handed) = some l') : Joined py p parse l' := by
  have hasks := (h.asks (step_asks hstep))
  cases hphase : l.host.phase with
  | warmDrain i =>
    simp only [Link.moved, hphase] at hmoved
    have hlow : (warmupAsk i).rid ≤ warmupIdBase := by
      show warmupIdBase - (i : Int) ≤ warmupIdBase
      omega
    have hneg : warmupIdBase < 0 := by decide
    have hnext := hasks.1
    have hrid := hasks.2.1.1
    refine h.handOver hstep ⟨by omega, Or.inl hlow⟩ (fun heq => ?_) hmoved
    omega
  | drain =>
    simp only [Link.moved, hphase] at hmoved
    have hends : host = l.host.drainEnds py how handed := by
      simp only [Transport.step, hphase] at hstep
      exact (Option.some.inj hstep).symm
    obtain ⟨hnext, hask⟩ := drainEnds_ask py l.host how handed
    have hpos := h.sending hphase
    have hlt := h.rid.2
    rw [hends] at hstep hmoved
    refine h.handOver hstep ?_ (fun _ => hask.symm) hmoved
    rw [hnext]
    exact ⟨hlt, Or.inr hpos⟩
  | idle => simp [Transport.step, hphase] at hstep
  | closing after => simp [Transport.step, hphase] at hstep
  | connecting after => simp [Transport.step, hphase] at hstep
  | warmHeader i => simp [Transport.step, hphase] at hstep
  | warmBody i n => simp [Transport.step, hphase] at hstep
  | warmSleep i => simp [Transport.step, hphase] at hstep
  | header => simp [Transport.step, hphase] at hstep
  | body n => simp [Transport.step, hphase] at hstep
  | handlers => simp [Transport.step, hphase] at hstep
  | done out => simp [Transport.step, hphase] at hstep

theorem Joined.connected (h : Joined py p parse l) {host : Transport.Sys} {stream : Bytes} {now : Rat}
    (hstep : Transport.step py l.host (.connected stream now) = some host) :
    Joined py p parse { l with host, current := l.current + 1, cut := false } := by
  have hempty : ∀ c, host.conn = some c → c.consumed = [] := fun c hc => connected_conn hstep hc
  have hmoves := h.moves hstep (fun c hc => by rw [hempty c hc]; exact List.nil_prefix) false
  refine ⟨fun k hk => h.later k (Nat.lt_of_succ_lt hk), hmoves.workers, fun c hc => ?_,
    hmoves.nextId, hmoves.rid, hmoves.sending, hmoves.asked, hmoves.own⟩
  rw [hempty c hc]
  exact List.nil_prefix

theorem Joined.read (h : Joined py p parse l) {host : Transport.Sys} {event : ReadEvent} {now : Rat}
    (hstep : Transport.step py l.host (.read event now) = some host)
    (harrived : l.arrived py p parse event = true) : Joined py p parse { l with host } := by
  refine h.moves hstep (fun c hc => ?_) l.cut
  cases step_reads hstep hc with
  | fresh hnil =>
    rw [hnil]
    exact List.nil_prefix
  | kept hsame => exact h.arrived c hsame
  | read c₀ n event' now' ha hc₀ hn heq =>
    cases ha
    unfold Link.arrived at harrived
    rw [hc₀, hn] at harrived
    rw [heq]
    exact List.isPrefixOf_iff_prefix.mp harrived

/-- A worker that moves has got nothing new. -/
theorem received_daemon {k : Nat} {a : Mcpd.Connection.Label Ask} {w : Worker}
    (ha : ∀ ask, a ≠ .receive ask)
    (hstep : Mcpd.Connection.step p (Ask.root py parse) (l.workers k) a = some w) (j : Nat) :
    ((l.setWorker k w).workers j).received = (l.workers j).received := by
  rw [workers_setWorker]
  split
  · rename_i heq
    subst heq
    cases Mcpd.Connection.step_cases hstep with
    | receive request => exact absurd rfl (ha request)
    | dispatch methods request inbox hgone hpending hinbox => rfl
    | push topic data hgone hfits => rfl
    | passed topic data => rfl
    | respond served hgone hpending hfits => rfl
    | drop a hgone => rfl
  · rfl

/-- A worker moves. -/
theorem Joined.daemon (h : Joined py p parse l) {k : Nat} {a : Mcpd.Connection.Label Ask} {w : Worker}
    (hk : k ≤ l.current) (ha : ∀ ask, a ≠ .receive ask)
    (hstep : Mcpd.Connection.step p (Ask.root py parse) (l.workers k) a = some w) :
    Joined py p parse (l.setWorker k w) := by
  have hreceived := received_daemon ha hstep
  refine ⟨?_, ?_, ?_, h.nextId, h.rid, h.sending, ?_, ?_⟩
  · intro j hj
    have hlt : l.current < j := hj
    rw [workers_setWorker, if_neg (by omega)]
    exact h.later j hlt
  · intro j
    rw [workers_setWorker]
    split
    · exact (h.workers k).step hstep
    · exact h.workers j
  · intro c hc
    show c.consumed <+: stream py p parse ((l.setWorker k w).workers l.current)
    have hbefore := h.arrived c hc
    rw [workers_setWorker]
    split
    · rename_i heq
      rw [heq] at hbefore
      exact hbefore.trans (stream_grows hstep)
    · exact hbefore
  · intro j ask hask
    rw [hreceived] at hask
    exact h.asked j ask hask
  · intro j ask hask
    rw [hreceived] at hask
    exact h.own j ask hask

/-- A step of the link is one of the host or one of a worker. -/
inductive Stepped (py : Python) (p : CJson.Printer) (parse : Bytes → Option CJson) (l : Link) :
    Label → Link → Prop where
  | host (a : Transport.Label) (host : Transport.Sys) (l' : Link)
      (hstep : Transport.step py l.host a = some host)
      (hmoved : l.moved py p parse host a = some l') : Stepped py p parse l (.host a) l'
  | daemon (k : Nat) (a : Mcpd.Connection.Label Ask) (w : Worker) (ha : ∀ ask, a ≠ .receive ask)
      (hpos : 0 < k) (hk : k ≤ l.current)
      (hstep : Mcpd.Connection.step p (Ask.root py parse) (l.workers k) a = some w) :
      Stepped py p parse l (.daemon k a) (l.setWorker k w)

theorem step_cases {a : Label} (h : step py p parse l a = some l') : Stepped py p parse l a l' := by
  cases a with
  | host a =>
    obtain ⟨host, hstep, hmoved⟩ := Option.bind_eq_some_iff.mp h
    exact .host a host l' hstep hmoved
  | daemon k a =>
    have hguarded : ∀ hne : ∀ ask, a ≠ .receive ask,
        (if 0 < k ∧ k ≤ l.current then
          (Mcpd.Connection.step p (Ask.root py parse) (l.workers k) a).map (l.setWorker k)
        else none) = some l' → Stepped py p parse l (.daemon k a) l' := by
      intro hne hstep
      split at hstep
      · rename_i hk
        obtain ⟨w, hw, rfl⟩ := Option.map_eq_some_iff.mp hstep
        exact .daemon k a w hne hk.1 hk.2 hw
      · cases hstep
    cases a with
    | receive request => cases h
    | dispatch methods => exact hguarded (fun _ heq => nomatch heq) h
    | push topic data => exact hguarded (fun _ heq => nomatch heq) h
    | respond => exact hguarded (fun _ heq => nomatch heq) h
    | leave => exact hguarded (fun _ heq => nomatch heq) h

/-- A step of the host leaves the workers, or one of them gets a request. -/
theorem moved_cases {host : Transport.Sys} {a : Transport.Label}
    (hmoved : l.moved py p parse host a = some l') :
    l'.host = host ∧ (l'.workers = l.workers ∨ ∃ ask,
      l'.workers = Function.update l.workers l.current ((l.workers l.current).receive ask)) := by
  have hover : ∀ ask handed, l.handOver py host ask handed = some l' →
      l'.host = host ∧ (l'.workers = l.workers ∨ ∃ ask,
        l'.workers = Function.update l.workers l.current ((l.workers l.current).receive ask)) := by
    intro ask handed h
    unfold Link.handOver at h
    split at h
    · split at h
      · cases h
      · cases h
        exact ⟨rfl, Or.inr ⟨ask, rfl⟩⟩
    · cases h
      exact ⟨rfl, Or.inl rfl⟩
  unfold Link.moved at hmoved
  split at hmoved
  · cases hmoved
    exact ⟨rfl, Or.inl rfl⟩
  · split at hmoved
    · exact hover _ _ hmoved
    · exact hover _ _ hmoved
  · split at hmoved
    · cases hmoved
      exact ⟨rfl, Or.inl rfl⟩
    · cases hmoved
  · cases hmoved
    exact ⟨rfl, Or.inl rfl⟩

theorem moved_host {host : Transport.Sys} {a : Transport.Label}
    (hmoved : l.moved py p parse host a = some l') : l'.host = host := (moved_cases hmoved).1

theorem moved_workers {host : Transport.Sys} {a : Transport.Label}
    (hmoved : l.moved py p parse host a = some l') (k : Nat) :
    (l'.workers k).written = (l.workers k).written ∧
      (l.workers k).received ⊆ (l'.workers k).received := by
  rcases (moved_cases hmoved).2 with hsame | ⟨ask, hgets⟩
  · rw [hsame]
    exact ⟨rfl, List.Subset.refl _⟩
  · rw [hgets, Function.update_apply]
    split
    · rename_i heq
      subst heq
      exact ⟨rfl, List.subset_append_left _ _⟩
    · exact ⟨rfl, List.Subset.refl _⟩

/-- The daemon forgets no request and no frame. -/
theorem step_grows {a : Label} (hstep : Session.step py p parse l a = some l') (k : Nat) :
    (l.workers k).written ⊆ (l'.workers k).written ∧
      (l.workers k).received ⊆ (l'.workers k).received := by
  cases step_cases hstep with
  | host a host l' hhost hmoved =>
    obtain ⟨hwritten, hreceived⟩ := moved_workers hmoved k
    rw [hwritten]
    exact ⟨List.Subset.refl _, hreceived⟩
  | daemon j a w ha hpos hj hw =>
    refine ⟨?_, ?_⟩
    · rw [workers_setWorker]
      split
      · rename_i heq
        subst heq
        exact (written_grows hw).subset
      · exact List.Subset.refl _
    · rw [received_daemon ha hw]
      exact List.Subset.refl _

theorem Joined.step {a : Label} (h : Joined py p parse l) (hstep : step py p parse l a = some l') :
    Joined py p parse l' := by
  cases step_cases hstep with
  | daemon k a w ha hpos hk hw => exact h.daemon hk ha hw
  | host a host l' hhost hmoved =>
    have hother : (∀ event now, a ≠ .read event now) → Joined py p parse { l with host } :=
      fun ha => h.moves hhost (h.same_conn hhost ha) l.cut
    cases a with
    | connected stream now =>
      cases hmoved
      exact h.connected hhost
    | drained how handed => exact h.drained hhost hmoved
    | read event now =>
      simp only [Link.moved] at hmoved
      split at hmoved
      · rename_i harrived
        cases hmoved
        exact h.read hhost harrived
      · cases hmoved
    | start method params timeoutText atEof now =>
      cases hmoved
      exact hother fun _ _ heq => nomatch heq
    | closed now =>
      cases hmoved
      exact hother fun _ _ heq => nomatch heq
    | refused error now =>
      cases hmoved
      exact hother fun _ _ heq => nomatch heq
    | notOpened e =>
      cases hmoved
      exact hother fun _ _ heq => nomatch heq
    | slept now =>
      cases hmoved
      exact hother fun _ _ heq => nomatch heq
    | handled =>
      cases hmoved
      exact hother fun _ _ heq => nomatch heq
    | cancel =>
      cases hmoved
      exact hother fun _ _ heq => nomatch heq

theorem run_joined {as : List Label} (hrun : run (step py p parse) {} as = some l) :
    Joined py p parse l :=
  run_invariant_all (fun _ _ _ h hstep => h.step hstep) init_joined hrun

/-! ## The host's part of a run -/

def Label.host? : Label → Option Transport.Label
  | .host a => some a
  | .daemon .. => none

theorem run_host {as : List Label} (hrun : run (step py p parse) l as = some l') :
    run (Transport.step py) l.host (as.filterMap Label.host?) = some l'.host := by
  induction as generalizing l with
  | nil =>
    cases hrun
    rfl
  | cons a as ih =>
    obtain ⟨m, hm, hrest⟩ := run_cons_some hrun
    cases step_cases hm with
    | daemon k a w ha hpos hk hw => exact ih (l := l.setWorker k w) hrest
    | host a host m hhost hmoved =>
      show run (Transport.step py) l.host (a :: as.filterMap Label.host?) = _
      rw [run, hhost, ← moved_host hmoved]
      exact ih hrest

/-- A condition on the steps of the host. -/
def OnHost (ok : Transport.Sys → Transport.Label → Prop) (l : Link) : Label → Prop
  | .host a => ok l.host a
  | .daemon .. => True

instance {ok : Transport.Sys → Transport.Label → Prop} [∀ s a, Decidable (ok s a)] (l : Link) :
    ∀ a, Decidable (OnHost ok l a)
  | .host a => inferInstanceAs (Decidable (ok l.host a))
  | .daemon .. => inferInstanceAs (Decidable True)

theorem along_host {ok : Transport.Sys → Transport.Label → Prop} {as : List Label}
    (h : Along (step py p parse) (OnHost ok) l as) (hrun : run (step py p parse) l as = some l') :
    Along (Transport.step py) ok l.host (as.filterMap Label.host?) := by
  induction as generalizing l with
  | nil => trivial
  | cons a as ih =>
    obtain ⟨m, hm, hrest⟩ := run_cons_some hrun
    have htail := ih (h.tail hm) hrest
    have hhead := h.head
    cases step_cases hm with
    | daemon k a w ha hpos hk hw => exact htail
    | host a host m hhost hmoved =>
      show Along (Transport.step py) ok l.host (a :: as.filterMap Label.host?)
      refine Along.cons hhead fun host' hhost' => ?_
      rw [hhost] at hhost'
      cases hhost'
      rw [← moved_host hmoved]
      exact htail

end Invariant

end AmigaFleet.Host.Session
