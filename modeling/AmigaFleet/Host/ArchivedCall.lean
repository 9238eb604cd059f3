import AmigaFleet.Host.Archive
import AmigaFleet.Host.DebugRing
import AmigaFleet.Host.DiscoverLoop

/-!
# Tool calls that are archived

`archived` of `host/src/amiga_fleet_mcp/tools/_helpers.py`, the wrapper around
every tool, with `Timer` and the writing half of `Archive.log_call` from
`archive/store.py`.

`Values` is what the wrapper needs of the Python values that it passes on, so that a
call can return anything; `pyValues` are those of `Archive`.  An outcome of a tool
is a result, a `JsonRpcError`, another `Exception`, or a `BaseException` that is
none, such as a cancellation, which no handler of the wrapper catches.

* `Undisturbed` is a call that the archive does not change, with its line.
* `undisturbed_iff`: the wrapper is right when the archive takes the line, and for
  an exception when the tool did not even run for a millisecond.
* `session_lines` is a session of such calls.
* `result_lost` is a result that is lost, and an error with no duration.
-/

namespace AmigaFleet.Host.ArchivedCall

open AmigaFleet.Lib
open AmigaFleet.Lib.JsonText (Value parse)
open Archive (PyText literal Moment)
open DiscoverLoop (milliseconds)

/-! ## Entries -/

/-- The `error` of an entry, which `JsonRpcError.to_dict` makes. -/
structure ErrorDict (V : Type) where
  code : Int
  message : PyText
  data : Option V

/-- What `log_call` writes. -/
structure Entry (V : Type) where
  now : Moment
  tool : PyText
  target : Option PyText
  params : List (PyText × V)
  outcome : Except (ErrorDict V) V
  /-- `int(duration_s * 1000)` -/
  durationMs : Int

/-- The member `duration_ms` of a JSON text. -/
def durationOf (text : Bytes) : Option Value :=
  match parse text with
  | some (.obj members) =>
    (members.find? fun m => m.1 = Archive.glyphs (literal "duration_ms")).map Prod.snd
  | _ => none

/-- The Python values of a call. -/
structure Values (V : Type) where
  /-- a `str` -/
  asStr : V → Option PyText
  /-- `_serialise_result`; `none` is an exception of `model_dump` -/
  serialise : V → Option V
  /-- `_scrub` and `json.dumps` of an entry, encoded for the file; `none` is an
  exception on the way -/
  line : Entry V → Option Bytes
  line_single : ∀ {e text}, line e = some text → 10 ∉ text
  line_duration : ∀ {e text}, line e = some text →
    durationOf text = some (.num (Json.intText e.durationMs))
  line_any_duration : ∀ e ms, (line { e with durationMs := ms }).isSome = (line e).isSome

/-! ## The code -/

/-- `Timer` -/
structure Timer where
  elapsed : Rat := 0
  t0 : Rat := 0

/-- `Timer.__enter__` at a reading of the clock. -/
def Timer.enter (t : Timer) (clock : Rat) : Timer := { t with t0 := clock }

/-- `Timer.__exit__` -/
def Timer.exit (t : Timer) (clock : Rat) : Timer := { t with elapsed := clock - t.t0 }

/-- What becomes of a write to the archive: the file cannot be opened, or the disk is
full behind some bytes of the line. -/
inductive Sink where
  | works
  | gone
  | full (room : Nat)
deriving DecidableEq, Repr

/-- The end of `log_call`; `false` is an exception. -/
def append (sink : Sink) (file line : Bytes) : Bytes × Bool :=
  match sink with
  | .works => (file ++ line, true)
  | .gone => (file, false)
  | .full room => (file ++ line.take room, false)

/-- How a tool ends. -/
inductive ToolOutcome (V : Type) where
  | returned (result : V)
  | rpcError (e : ErrorDict V)
  | exception (message : PyText)
  | baseException (message : PyText)

/-- What the caller of the wrapper receives. -/
inductive Received (V : Type) where
  | result (result : V)
  | rpcError (e : ErrorDict V)
  | internalError (message : PyText)
  | baseException (message : PyText)
  /-- what `log_call` or `model_dump` raised -/
  | archiveError

/-- A call of a tool: when it began and ended, and what the archive does. -/
structure ToolCall (V : Type) where
  tool : PyText
  targetArg : PyText := literal "target"
  kwargs : List (PyText × V)
  began : Rat
  ended : Rat
  outcome : ToolOutcome V
  now : Moment
  sink : Sink

variable {V : Type} (vals : Values V)

/-- `Archive.log_call` -/
def logCall (sink : Sink) (file : Bytes) (e : Entry V) : Bytes × Bool :=
  match vals.line e with
  | none => (file, false)
  | some text => append sink file (text ++ [10])

/-- `kwargs.get(target_arg)`, if it is a string. -/
def ToolCall.target (c : ToolCall V) : Option PyText :=
  ((c.kwargs.find? fun kwarg => kwarg.1 = c.targetArg).map Prod.snd).bind vals.asStr

/-- The entry of a call. -/
def ToolCall.entry (c : ToolCall V) (outcome : Except (ErrorDict V) V) (duration : Rat) : Entry V where
  now := c.now
  tool := c.tool
  target := c.target vals
  params := c.kwargs.filter fun kwarg => kwarg.1 ≠ c.targetArg
  outcome := outcome
  durationMs := milliseconds duration

/-- The `error` of an exception that is no `JsonRpcError`. -/
def plainError (message : PyText) : ErrorDict V := ⟨-32603, message, none⟩

/-- `wrapper` -/
def archived (c : ToolCall V) (file : Bytes) : Bytes × Received V :=
  let t := Timer.enter {} c.began
  match c.outcome with
  | .rpcError e =>
    let logged := logCall vals c.sink file (c.entry vals (.error e) t.elapsed)
    (logged.1, if logged.2 then .rpcError e else .archiveError)
  | .exception message =>
    let logged := logCall vals c.sink file (c.entry vals (.error (plainError message)) t.elapsed)
    (logged.1, if logged.2 then .internalError message else .archiveError)
  | .baseException message => (file, .baseException message)
  | .returned result =>
    let t := t.exit c.ended
    match vals.serialise result with
    | none => (file, .archiveError)
    | some dumped =>
      let logged := logCall vals c.sink file (c.entry vals (.ok dumped) t.elapsed)
      (logged.1, if logged.2 then .result result else .archiveError)

/-! ## Calls that the archive does not change -/

variable {vals}

/-- What the caller should receive. -/
def ToolCall.due (c : ToolCall V) : Received V :=
  match c.outcome with
  | .returned result => .result result
  | .rpcError e => .rpcError e
  | .exception message => .internalError message
  | .baseException message => .baseException message

variable (vals)

/-- What should be logged of the outcome; `none` if it cannot be serialised. -/
def ToolCall.logged (c : ToolCall V) : Option (Except (ErrorDict V) V) :=
  match c.outcome with
  | .returned result => (vals.serialise result).map .ok
  | .rpcError e => some (.error e)
  | .exception message => some (.error (plainError message))
  | .baseException message => some (.error (plainError message))

/-- How long the tool ran. -/
def ToolCall.ran (c : ToolCall V) : Rat := c.ended - c.began

/-- The archive works for this call: the entry can be written, and the file takes it. -/
def ToolCall.ArchiveWorks (c : ToolCall V) : Prop :=
  c.sink = .works ∧
    ∃ outcome, c.logged vals = some outcome ∧ (vals.line (c.entry vals outcome c.ran)).isSome = true

/-- A line with a duration is added to the file. -/
def LineAdded (file file' : Bytes) (durationMs : Int) : Prop :=
  ∃ text, file' = file ++ (text ++ [10]) ∧ 10 ∉ text ∧
    durationOf text = some (.num (Json.intText durationMs))

/-- The caller receives what the tool gave, and an archive that works has one line
more, with the time that the tool ran. -/
structure Undisturbed (c : ToolCall V) (file : Bytes) (after : Bytes × Received V) : Prop where
  received : after.2 = c.due
  logged : c.ArchiveWorks vals → LineAdded file after.1 (milliseconds c.ran)

variable {vals}

/-! ## One line -/

theorem intStr_ascii {n : Int} {c : Char} (hc : c ∈ SandboxCommand.intStr n) : c.toNat < 128 := by
  have hdigit : ∀ {m : Nat}, c ∈ Nat.toDigits 10 m → c.toNat < 128 := by
    intro m hmem
    have hrange := SandboxCommand.isDigit_toDigits hmem
    simp only [Char.isDigit, Bool.and_eq_true, decide_eq_true_eq] at hrange
    have hhigh : c.toNat ≤ 57 := hrange.2
    omega
  rcases SandboxCommand.intStr_cases n with ⟨m, -, htext⟩ | ⟨m, -, htext⟩
  · rw [htext] at hc
    exact hdigit hc
  · rw [htext] at hc
    apply (List.mem_cons.mp hc).elim
    · intro hminus
      subst hminus
      decide
    · exact hdigit

theorem intText_injective {m n : Int} (h : Json.intText m = Json.intText n) : m = n := by
  have hback : ∀ k : Int, (Json.intText k).map (fun c => Char.ofNat c.toNat) =
      SandboxCommand.intStr k := by
    intro k
    have hsame : ∀ c ∈ SandboxCommand.intStr k,
        ((fun c : UInt8 => Char.ofNat c.toNat) ∘ fun c : Char => UInt8.ofNat c.toNat) c = id c := by
      intro c hc
      have hbyte : c.toNat < 2 ^ 8 := Nat.lt_trans (intStr_ascii hc) (by decide)
      show Char.ofNat (UInt8.ofNat c.toNat).toNat = c
      rw [UInt8.toNat_ofNat_of_lt' hbyte, Char.ofNat_toNat]
    rw [Json.intText, Mcpd.ascii, List.map_map]
    exact (List.map_congr_left hsame).trans (List.map_id _)
  have hstr : SandboxCommand.intStr m = SandboxCommand.intStr n := by
    rw [← hback m, ← hback n, h]
  have hvalue := congrArg (DebugRing.intOf fun _ => none) hstr
  rwa [DebugRing.intOf_intStr, DebugRing.intOf_intStr] at hvalue

/-- `log_call` raises nothing if the entry can be written and the file takes it. -/
theorem logCall_true {sink : Sink} {file : Bytes} {e : Entry V} :
    (logCall vals sink file e).2 = true ↔ sink = .works ∧ (vals.line e).isSome = true := by
  unfold logCall
  cases vals.line e with
  | none => simp
  | some text => cases sink <;> simp [append]

theorem logCall_added {sink : Sink} {file : Bytes} {e : Entry V}
    (h : (logCall vals sink file e).2 = true) :
    LineAdded file (logCall vals sink file e).1 e.durationMs := by
  obtain ⟨hworks, hline⟩ := logCall_true.mp h
  obtain ⟨text, htext⟩ := Option.isSome_iff_exists.mp hline
  subst hworks
  rw [logCall, htext]
  exact ⟨text, rfl, vals.line_single htext, vals.line_duration htext⟩

/-- A line has one duration. -/
theorem LineAdded.unique {file file' : Bytes} {m n : Int} (hm : LineAdded file file' m)
    (hn : LineAdded file file' n) : m = n := by
  obtain ⟨text, heq, -, hduration⟩ := hm
  obtain ⟨text', heq', -, hduration'⟩ := hn
  rw [heq] at heq'
  have hsame : text = text' := List.append_cancel_right (List.append_cancel_left heq')
  subst hsame
  rw [hduration, Option.some.injEq, Value.num.injEq] at hduration'
  exact intText_injective hduration'

/-! ## The wrapper -/

/-- The line of an exception has the duration 0. -/
theorem errorLogged (c : ToolCall V) {e : ErrorDict V} (hlogged : c.logged vals = some (.error e))
    (file : Bytes) :
    ((logCall vals c.sink file (c.entry vals (.error e) 0)).2 = true ↔ c.ArchiveWorks vals) ∧
      (c.ArchiveWorks vals → (LineAdded file (logCall vals c.sink file
        (c.entry vals (.error e) 0)).1 (milliseconds c.ran) ↔ milliseconds c.ran = 0)) := by
  have hsome : (vals.line (c.entry vals (.error e) 0)).isSome =
      (vals.line (c.entry vals (.error e) c.ran)).isSome :=
    vals.line_any_duration (c.entry vals (.error e) c.ran) (milliseconds 0)
  have hworks : (logCall vals c.sink file (c.entry vals (.error e) 0)).2 = true ↔
      c.ArchiveWorks vals := by
    rw [logCall_true, hsome, ToolCall.ArchiveWorks, hlogged]
    simp
  refine ⟨hworks, fun h => ?_⟩
  have hadded : LineAdded file (logCall vals c.sink file (c.entry vals (.error e) 0)).1
      (milliseconds 0) := logCall_added (hworks.mpr h)
  have hzero : milliseconds 0 = 0 := by simp [milliseconds]
  rw [hzero] at hadded
  apply Iff.intro
  · intro hran
    exact hran.unique hadded
  · intro hran
    rwa [hran]

theorem due_ne (c : ToolCall V) : c.due ≠ .archiveError := by
  unfold ToolCall.due
  split <;> simp

/-- A handler of the wrapper, which logs and raises. -/
theorem handler_iff (c : ToolCall V) {e : ErrorDict V} (hlogged : c.logged vals = some (.error e))
    (file : Bytes) :
    let logged := logCall vals c.sink file (c.entry vals (.error e) 0)
    Undisturbed vals c file (logged.1, if logged.2 then c.due else .archiveError) ↔
      c.ArchiveWorks vals ∧ milliseconds c.ran = 0 := by
  obtain ⟨hworks, hline⟩ := errorLogged c hlogged file
  apply Iff.intro
  · intro h
    have hreceived := h.received
    have hlog : c.ArchiveWorks vals := by
      apply hworks.mp
      by_contra hfailed
      rw [if_neg hfailed] at hreceived
      exact due_ne c hreceived.symm
    exact ⟨hlog, (hline hlog).mp (h.logged hlog)⟩
  · intro ⟨hlog, hran⟩
    exact ⟨if_pos (hworks.mpr hlog), fun _ => (hline hlog).mpr hran⟩

/-- The end of the wrapper, behind a result. -/
theorem returned_iff (c : ToolCall V) {dumped : V} (hlogged : c.logged vals = some (.ok dumped))
    (file : Bytes) :
    let logged := logCall vals c.sink file (c.entry vals (.ok dumped) c.ran)
    Undisturbed vals c file (logged.1, if logged.2 then c.due else .archiveError) ↔
      c.ArchiveWorks vals := by
  have hworks : (logCall vals c.sink file (c.entry vals (.ok dumped) c.ran)).2 = true ↔
      c.ArchiveWorks vals := by
    rw [logCall_true, ToolCall.ArchiveWorks, hlogged]
    simp
  apply Iff.intro
  · intro h
    have hreceived := h.received
    apply hworks.mp
    by_contra hfailed
    rw [if_neg hfailed] at hreceived
    exact due_ne c hreceived.symm
  · intro hlog
    exact ⟨if_pos (hworks.mpr hlog), fun _ => logCall_added (hworks.mpr hlog)⟩

variable (vals)

/-- When the wrapper is right. -/
def ToolCall.Meets (c : ToolCall V) : Prop :=
  match c.outcome with
  | .returned _ => c.ArchiveWorks vals
  | .rpcError _ => c.ArchiveWorks vals ∧ milliseconds c.ran = 0
  | .exception _ => c.ArchiveWorks vals ∧ milliseconds c.ran = 0
  | .baseException _ => ¬ c.ArchiveWorks vals

/-- An archived call is right if the archive takes its line and it returned, or
ended with an exception in its first millisecond.  One that ends with a
`BaseException` is never logged. -/
theorem undisturbed_iff (c : ToolCall V) (file : Bytes) :
    Undisturbed vals c file (archived vals c file) ↔ c.Meets vals := by
  obtain ⟨tool, targetArg, kwargs, began, ended, outcome, now, sink⟩ := c
  cases outcome with
  | returned result =>
    let c : ToolCall V := ⟨tool, targetArg, kwargs, began, ended, .returned result, now, sink⟩
    show Undisturbed vals c file (archived vals c file) ↔ c.ArchiveWorks vals
    have hlogged : c.logged vals = (vals.serialise result).map .ok := rfl
    unfold archived
    dsimp only [c]
    cases hdumped : vals.serialise result with
    | none =>
      apply iff_of_false
      · intro h
        exact due_ne c h.received.symm
      · intro ⟨_, outcome, hsome, _⟩
        rw [hlogged, hdumped] at hsome
        cases hsome
    | some dumped =>
      rw [hdumped] at hlogged
      exact returned_iff c hlogged file
  | rpcError e => exact handler_iff _ rfl file
  | exception message => exact handler_iff _ rfl file
  | baseException message =>
    apply Iff.intro
    · intro h hworks
      obtain ⟨text, hadded, -⟩ := h.logged hworks
      have hlength := congrArg List.length hadded
      simp [archived] at hlength
    · intro hfails
      exact ⟨rfl, fun hworks => absurd hworks hfails⟩

/-! ## A session -/

/-- The calls of a session, one after another. -/
def session : List (ToolCall V) → Bytes → Bytes × List (Received V)
  | [], file => (file, [])
  | c :: calls, file =>
    let after := archived vals c file
    let rest := session calls after.1
    (rest.1, after.2 :: rest.2)

/-- In a session of undisturbed calls every caller receives what is due, and the
archive has one line for each call, in their order. -/
theorem session_lines {calls : List (ToolCall V)} (hcalls : ∀ c ∈ calls, c.ArchiveWorks vals ∧
      ∀ file, Undisturbed vals c file (archived vals c file)) (file : Bytes) :
    (session vals calls file).2 = calls.map ToolCall.due ∧
      ∃ texts, (session vals calls file).1 = file ++ texts.flatMap (· ++ [10]) ∧
        List.Forall₂ (fun c text => 10 ∉ text ∧
          durationOf text = some (.num (Json.intText (milliseconds c.ran)))) calls texts := by
  induction calls generalizing file with
  | nil => exact ⟨rfl, [], (List.append_nil file).symm, .nil⟩
  | cons c calls ih =>
    obtain ⟨hcall, hrest⟩ := List.forall_mem_cons.mp hcalls
    have hundisturbed := hcall.2 file
    obtain ⟨text, hadded, hsingle, hduration⟩ := hundisturbed.logged hcall.1
    obtain ⟨hreceived, texts, hlines, htexts⟩ := ih hrest (archived vals c file).1
    refine ⟨?_, text :: texts, ?_, .cons ⟨hsingle, hduration⟩ htexts⟩
    · rw [session, hreceived, hundisturbed.received]
      rfl
    · rw [session, hlines, hadded, List.flatMap_cons, List.append_assoc]

/-! ## The values of the archive -/

open Archive (PyObj Call dumps dumpsMembers valueOf membersOf keyText)

/-- `to_dict` of an error. -/
def ErrorDict.members (e : ErrorDict PyObj) : List (PyObj × PyObj) :=
  [(.str (literal "code"), .int e.code), (.str (literal "message"), .str e.message)] ++
    e.data.toList.map fun data => (.str (literal "data"), data)

/-- What `log_call` is told. -/
def Entry.call (e : Entry PyObj) : Call where
  now := e.now
  tool := e.tool
  target := e.target
  params := e.params.map fun param => (.str param.1, param.2)
  result := match e.outcome with
    | .ok result => result
    | .error _ => .none
  error := match e.outcome with
    | .ok _ => none
    | .error error => some error.members
  durationMs := some e.durationMs

theorem isSome_dumpsMembers_append (as bs : List (PyObj × PyObj)) :
    (dumpsMembers (as ++ bs)).isSome = ((dumpsMembers as).isSome && (dumpsMembers bs).isSome) := by
  induction as with
  | nil => rfl
  | cons a as ih =>
    rw [List.cons_append, dumpsMembers, dumpsMembers]
    cases (keyText a.1).bind Archive.encode with
    | none => rfl
    | some name =>
      cases dumps a.2 with
      | none => rfl
      | some text => simpa using ih

/-- The members of an entry in front of its duration. -/
def Entry.front (e : Entry PyObj) : List (PyObj × PyObj) :=
  [(.str (literal "ts"), .str e.now.isoformat), (.str (literal "tool"), .str e.tool),
    (.str (literal "target"), e.target.elim .none .str),
    (.str (literal "params"), Archive.scrub (.dict e.call.params)),
    match e.outcome with
      | .ok result => (.str (literal "result"), Archive.scrub result)
      | .error error => (.str (literal "error"), .dict error.members)]

theorem entry_eq (e : Entry PyObj) :
    e.call.entry = .dict (e.front ++ [(.str (literal "duration_ms"), .int e.durationMs)]) := by
  obtain ⟨now, tool, target, params, outcome, durationMs⟩ := e
  cases outcome with
  | ok result => rfl
  | error error => rfl

theorem isSome_line (e : Entry PyObj) (ms : Int) :
    (dumps { e with durationMs := ms }.call.entry).isSome = (dumps e.call.entry).isSome := by
  have hname : ((keyText (.str (literal "duration_ms"))).bind Archive.encode).isSome = true := by
    decide
  obtain ⟨name, hname⟩ := Option.isSome_iff_exists.mp hname
  have hlast : ∀ n : Int,
      (dumpsMembers [(.str (literal "duration_ms"), .int n)]).isSome = true := by
    intro n
    rw [dumpsMembers, hname]
    rfl
  have hentry : ∀ e : Entry PyObj, (dumps e.call.entry).isSome = (dumpsMembers e.front).isSome := by
    intro e
    rw [entry_eq, dumps, Option.isSome_map, isSome_dumpsMembers_append, hlast, Bool.and_true]
  rw [hentry, hentry]
  rfl

theorem membersOf_append (as bs : List (PyObj × PyObj)) :
    membersOf (as ++ bs) = membersOf as ++ membersOf bs := by
  induction as with
  | nil => rfl
  | cons a as ih => rw [List.cons_append, membersOf, membersOf, ih, List.cons_append]

/-- The name of the member that tells how the call ended. -/
def Entry.outcomeName (e : Entry PyObj) : String :=
  match e.outcome with
  | .ok _ => "result"
  | .error _ => "error"

theorem outcomeName_mem (e : Entry PyObj) : e.outcomeName ∈ ["result", "error"] := by
  unfold Entry.outcomeName
  split <;> decide

theorem names_front (e : Entry PyObj) : (membersOf e.front).map Prod.fst =
    ["ts", "tool", "target", "params", e.outcomeName].map fun name => Archive.glyphs (literal name) := by
  obtain ⟨now, tool, target, params, outcome, durationMs⟩ := e
  cases outcome with
  | ok result => rfl
  | error error => rfl

theorem find?_last {front : JsonText.Members} {key : List JsonText.Glyph}
    (hfront : ∀ m ∈ front, m.1 ≠ key) (v : Value) :
    (front ++ [(key, v)]).find? (fun m => m.1 = key) = some (key, v) := by
  have hnone : front.find? (fun m => m.1 = key) = none := by
    rw [List.find?_eq_none]
    intro m hm
    simpa using hfront m hm
  rw [List.find?_append, hnone, Option.none_or, List.find?_cons_of_pos (by simp)]

theorem durationOf_line {e : Entry PyObj} {text : Bytes} (h : dumps e.call.entry = some text) :
    durationOf text = some (.num (Json.intText e.durationMs)) := by
  have hnames : ∀ last ∈ ["result", "error"], ∀ name ∈ ["ts", "tool", "target", "params", last],
      Archive.glyphs (literal name) ≠ Archive.glyphs (literal "duration_ms") := by decide
  have hfront : ∀ m ∈ membersOf e.front, m.1 ≠ Archive.glyphs (literal "duration_ms") := by
    intro m hm
    have hkey := List.mem_map_of_mem (f := Prod.fst) hm
    rw [names_front] at hkey
    obtain ⟨name, hname, heq⟩ := List.mem_map.mp hkey
    rw [← heq]
    exact hnames _ (outcomeName_mem e) name hname
  have hlast : membersOf [(.str (literal "duration_ms"), .int e.durationMs)] =
      [(Archive.glyphs (literal "duration_ms"), .num (Json.intText e.durationMs))] := rfl
  rw [durationOf, JsonText.parse_of_reads (Archive.reads_dumps _ h), entry_eq, valueOf,
    membersOf_append, hlast]
  dsimp only
  rw [find?_last hfront]
  rfl

/-- The values of `Archive`, none of which has a `model_dump`. -/
def pyValues : Values PyObj where
  asStr
    | .str text => some text
    | _ => none
  serialise := some
  line e := dumps e.call.entry
  line_single h := Archive.oneLine_dumps _ h
  line_duration h := durationOf_line h
  line_any_duration := isSome_line

/-- The line of a call is what `log_call` writes. -/
theorem logCall_eq (e : Entry PyObj) (file : Bytes) :
    logCall pyValues .works file e =
      match e.call.logCall with
      | none => (file, false)
      | some line => (file ++ line, true) := by
  have hline : pyValues.line e = dumps e.call.entry := by simp only [pyValues]
  rw [logCall, hline, Call.logCall]
  cases dumps e.call.entry with
  | none => rfl
  | some text => rfl

/-! ## Two calls -/

/-- A file has been written to the target, and the directory of the archive is gone. -/
def lostCall : ToolCall PyObj where
  tool := literal "fs.write"
  kwargs := [(literal "target", .str (literal "x5000"))]
  began := 0
  ended := 1
  outcome := .returned (.bool true)
  now := ⟨2026, 1, 2, 3, 4, 5, 6⟩
  sink := .gone

/-- A command has timed out after 5 seconds. -/
def slowError : ToolCall PyObj where
  tool := literal "exec.cmd"
  kwargs := [(literal "target", .str (literal "x5000"))]
  began := 0
  ended := 5
  outcome := .rpcError ⟨-32001, literal "timed out", none⟩
  now := ⟨2026, 1, 2, 3, 4, 5, 6⟩
  sink := .works

/-- The result of a call that changed the target is lost, and an error is logged with
no duration. -/
theorem result_lost :
    ¬ Undisturbed pyValues lostCall [] (archived pyValues lostCall []) ∧
      ¬ Undisturbed pyValues slowError [] (archived pyValues slowError []) := by
  apply And.intro
  · intro h
    cases h.received
  · intro h
    have hworks : slowError.ArchiveWorks pyValues := ⟨rfl, _, rfl, by decide +kernel⟩
    obtain ⟨-, hline⟩ := @errorLogged _ pyValues slowError _ rfl []
    have hran := (hline hworks).mp (h.logged hworks)
    exact absurd hran (by decide +kernel)

end AmigaFleet.Host.ArchivedCall
