import AmigaFleet.Mcpd.DiscoveryReply
import AmigaFleet.Mcpd.ExecOutput
import AmigaFleet.Mcpd.FsList
import AmigaFleet.Mcpd.PrintText
import AmigaFleet.Mcpd.Sys

/-!
# Responses with strings of the machine

Five methods report strings that the operating system hands to them: `fs.list`
and `fs.stat` names and dates, `sys.tasks` names, `exec.output` the output of a
program, and `sys.mcu_cmd` what arrives on a serial line.  `sys.tasks` shows
printable ASCII and `exec.output` converts from Latin-1; the others pass the
bytes on.

`Decodes` is what `request` in `host/src/amiga_fleet_mcp/transports/mcpd.py`
does with a payload, `body.decode("utf-8")` and `json.loads`.
`response_decodes_iff` says for each of the methods when the response can be
decoded.
-/

namespace AmigaFleet.Mcpd

open AmigaFleet.Lib
open AmigaFleet.Mcpd.CJson (Printer Legible utf8_literal legible_cString legible_rpcMakeError
  legible_targetError legible_pStr)
open AmigaFleet.Mcpd.Jobs (JobInfo Files)

/-! ## exec.output -/

namespace Exec

/-- `EXEC_OUTPUT_DEFAULT` -/
def execOutputDefault : Int := 64 * 1024

/-- `_p_job_id` -/
def pJobId (params : Option CJson) : Except CJson Nat :=
  match params.bind (CJson.getItem (ascii "job_id")) with
  | some (.number value) =>
    if value < 1 then
      .error (rpcMakeError mcpdErrInvparams "job_id (positive integer) is required" none)
    else .ok (Fs.sizeT (toLongLong value))
  | _ => .error (rpcMakeError mcpdErrInvparams "job_id (positive integer) is required" none)

def jobIdData (id : Nat) : CJson := .object [(ascii "job_id", cNumber id)]

/-- `_add_job_fields` -/
def addJobFields (ji : JobInfo) : List (Bytes × CJson) :=
  [(ascii "job_id", cNumber ji.id),
    (ascii "state", cString (if ji.state = .running then "running" else "exited"))] ++
  (if ji.state = .exited then
    [(ascii "exit_code", cNumber ji.rc), (ascii "result2", cNumber ji.result2)]
  else [(ascii "exit_code", .null)]) ++
  [(ascii "pid", cNumber ji.pid), (ascii "priority", cNumber ji.priority),
    (ascii "elapsed_ms", cNumber ji.elapsedMs), (ascii "sandboxed", .bool ji.sandboxed)]

/-- `max_bytes`, within its bounds. -/
def maxBytesOf (params : Option CJson) : Nat :=
  let max := pInt params "max_bytes" execOutputDefault
  let max := if max ≤ 0 then execOutputDefault else max
  if max > execCapMax then execCapMax else max.toNat

/-- `offset`, not negative. -/
def offsetOf (params : Option CJson) : Int := max 0 (pInt params "offset" 0)

/-- The result object of `exec_output`; the text is read as a C string. -/
def outputResult (ji : JobInfo) (offset : Int) (out : ReadOutput) : CJson :=
  .object (addJobFields ji ++ [(ascii "output", .string (cText out.text)),
    (ascii "offset", cNumber offset), (ascii "bytes", cNumber out.raw),
    (ascii "total_bytes", cNumber out.total),
    (ascii "eof", .bool (ji.state = .exited && (Fs.sizeT offset + out.raw) % 2 ^ 32 ≥ out.total))])

/-- `exec_output` with its reader; `jobsGet` is the answer of `jobs_get`. -/
def execOutputWith (read : Files → Jobs.CString → Nat → Nat → ReadOutput)
    (jobsGet : Nat → Option JobInfo) (files : Files) : Handler := fun params => do
  let id ← pJobId params
  match jobsGet id with
  | none =>
    .error (rpcMakeError mcpdErrInvparams
      "unknown job_id (never started, or its record was evicted)" (some (jobIdData id)))
  | some ji =>
    if ji.outputDeleted then
      .error (rpcMakeError mcpdErrInvparams "output already returned by exec.cmd and deleted"
        (some (jobIdData id)))
    else
      .ok (outputResult ji (offsetOf params)
        (read files ji.outPath (Fs.sizeT (offsetOf params)) (maxBytesOf params)))

/-- `exec_output` for files below 4 GiB. -/
def execOutput : (Nat → Option JobInfo) → Files → Handler := execOutputWith amigaReadOutput

/-! ### Latin-1 -/

/-- The character of a Latin-1 byte. -/
def latin1Char (c : UInt8) : Char := Char.ofNat c.toNat

theorem utf8EncodeChar_latin1 (c : UInt8) :
    String.utf8EncodeChar (latin1Char c) = amigaLatin1ToUtf8 [c] := by
  apply CJson.forall_byte (P := fun c => String.utf8EncodeChar (latin1Char c) = amigaLatin1ToUtf8 [c])
  decide +kernel

/-- The conversion writes the characters that the bytes stand for. -/
theorem amigaLatin1ToUtf8_eq (src : Bytes) :
    amigaLatin1ToUtf8 src = (src.map latin1Char).flatMap String.utf8EncodeChar := by
  induction src with
  | nil => rfl
  | cons c src ih =>
    rw [List.map_cons, List.flatMap_cons, utf8EncodeChar_latin1, ← ih]
    simp only [amigaLatin1ToUtf8]
    split <;> rfl

theorem utf8_latin1 (src : Bytes) : Utf8 (amigaLatin1ToUtf8 src) :=
  ⟨src.map latin1Char, amigaLatin1ToUtf8_eq src⟩

end Exec

/-- A C string is all of the buffer, or ends at a NUL. -/
theorem cText_split (buf : Bytes) : buf = cText buf ∨ ∃ rest, buf = cText buf ++ 0 :: rest := by
  induction buf with
  | nil => exact Or.inl rfl
  | cons c buf ih =>
    by_cases hc : c = 0
    · exact Or.inr ⟨buf, by simp [cText, hc]⟩
    · rw [Exec.cText_append_of_ne hc]
      rcases ih with hall | ⟨rest, hrest⟩
      · exact Or.inl (congrArg (c :: ·) hall)
      · exact Or.inr ⟨rest, congrArg (c :: ·) hrest⟩

/-- A text that ends early at a NUL is still a text. -/
theorem utf8_cText {buf : Bytes} (h : Utf8 buf) : Utf8 (cText buf) := by
  rcases cText_split buf with hall | ⟨rest, hrest⟩
  · rw [← hall]
    exact h
  · rw [hrest, utf8_cut_iff (by decide)] at h
    exact h.1

/-! ## The strings of an answer -/

/-- The strings of the tree that a handler leaves. -/
def LegibleOutcome : Outcome → Prop
  | .ok result => Legible result
  | .error err => Legible err

theorem ioErr_msg_ascii (e : Fs.IoErr) : (ascii e.msg).all (· < 128) = true := by
  cases e <;> rfl

theorem legible_fsErrorFor (e : Fs.IoErr) {path : Bytes} (h : Utf8 path) :
    Legible (Fs.fsErrorFor e path) :=
  legible_targetError (ioErr_msg_ascii e) h

theorem legible_typeName (ed : Fs.ExamineData) : Legible (cString ed.typeName) := by
  unfold Fs.ExamineData.typeName
  split <;> exact legible_cString rfl

theorem legible_entryObject (name : Bytes) (data : Fs.ExamineData) :
    Legible (Fs.entryObject name data) ↔ Utf8 name := by
  have hname : Utf8 (ascii "name") := utf8_literal rfl
  have htype : Utf8 (ascii "type") := utf8_literal rfl
  have hsize : Utf8 (ascii "size") := utf8_literal rfl
  unfold Fs.entryObject
  split <;> simp [hname, htype, hsize, legible_typeName]

theorem legible_statResult (ed : Fs.ExamineData) (date : Option (Bytes × Bytes)) :
    Legible (Fs.statResult ed date) ↔ Utf8 ed.name ∧ ∀ d ∈ date, Utf8 d.1 ∧ Utf8 d.2 := by
  have hname : Utf8 (ascii "name") := utf8_literal rfl
  have htype : Utf8 (ascii "type") := utf8_literal rfl
  have hsize : Utf8 (ascii "size") := utf8_literal rfl
  have hmodified : Utf8 (ascii "modified") := utf8_literal rfl
  have hblank : ∀ a b : Bytes, Utf8 (a ++ (ascii " " ++ b)) ↔ Utf8 a ∧ Utf8 b :=
    fun a b => utf8_cut_iff (by decide)
  cases date with
  | none => simp [Fs.statResult, hname, htype, hsize, legible_typeName]
  | some d =>
    simp [Fs.statResult, hname, htype, hsize, hmodified, legible_typeName, hblank]

/-- A list of tasks is shown in ASCII, whatever the names are. -/
theorem legible_emitTask (t : Sys.Task) : Legible (Sys.emitTask t) := by
  have hname : Utf8 (ascii "name") := utf8_literal rfl
  have htype : Utf8 (ascii "type") := utf8_literal rfl
  have hpri : Utf8 (ascii "priority") := utf8_literal rfl
  have hstate : Utf8 (ascii "state") := utf8_literal rfl
  have hshown : Utf8 (Sys.sanitize t.name 128) := by
    refine utf8_of_ascii fun c hc => ?_
    have hlt := (Sys.sanitize_printable hc).2
    rw [UInt8.lt_iff_toNat_lt] at hlt ⊢
    exact Nat.lt_trans hlt (by decide)
  have htypeName : Legible (cString t.type.name) := by
    cases t.type <;> exact legible_cString rfl
  have hstateName : Legible (cString t.state.name) := by
    cases t.state <;> exact legible_cString rfl
  simp [Sys.emitTask, hname, htype, hpri, hstate, hshown, htypeName, hstateName]

theorem legible_addJobFields (ji : JobInfo) :
    ∀ m ∈ Exec.addJobFields ji, Utf8 m.1 ∧ Legible m.2 := by
  have hkeys : ∀ key ∈ ["job_id", "state", "exit_code", "result2", "pid", "priority", "elapsed_ms",
      "sandboxed"], Utf8 (ascii key) := by
    intro key hkey
    refine utf8_literal ?_
    revert key
    decide
  have hrunning : Legible (cString "running") := legible_cString rfl
  have hexited : Legible (cString "exited") := legible_cString rfl
  simp only [List.forall_mem_cons] at hkeys
  unfold Exec.addJobFields
  split <;> split <;> simp [hkeys, hrunning, hexited]

/-- An output is converted, whatever the program has written. -/
theorem legible_outputResult (ji : JobInfo) (offset : Int) {out : Exec.ReadOutput}
    (hout : Utf8 out.text) : Legible (Exec.outputResult ji offset out) := by
  have hkeys : ∀ key ∈ ["output", "offset", "bytes", "total_bytes", "eof"], Utf8 (ascii key) := by
    intro key hkey
    refine utf8_literal ?_
    revert key
    decide
  simp only [List.forall_mem_cons] at hkeys
  rw [Exec.outputResult, CJson.legible_object_iff, List.forall_mem_append]
  refine ⟨legible_addJobFields ji, ?_⟩
  simp [hkeys, utf8_cText hout]

theorem legible_mcuResult {cmd : Bytes} (hcmd : Utf8 cmd) (unit : Int) (read : Sys.McuRead) :
    Legible (Sys.mcuResult cmd unit read) ↔ Utf8 (cText read.rx) := by
  have hkeys : ∀ key ∈ ["cmd", "unit", "baud", "tx_len", "reply", "reply_len", "timed_out",
      "aborted"], Utf8 (ascii key) := by
    intro key hkey
    refine utf8_literal ?_
    revert key
    decide
  simp only [List.forall_mem_cons] at hkeys
  simp [Sys.mcuResult, hkeys, hcmd]

/-! ## Calls -/

/-- A call of one of the methods, with what the operating system answers it. -/
inductive Call where
  | fsList (dos : Fs.ListDos)
  | fsStat (volume : Fs.Volume) (dos : Fs.StatDos)
  | sysTasks (eb : Sys.TaskLists)
  | execOutput (jobsGet : Nat → Option JobInfo) (files : Files)
  | sysMcuCmd (dos : Sys.McuDos)

def Call.handler : Call → Handler
  | fsList dos => Fs.fsList dos
  | fsStat volume dos => Fs.fsStat volume dos
  | sysTasks eb => Sys.sysTasks eb
  | execOutput jobsGet files => Exec.execOutput jobsGet files
  | sysMcuCmd dos => Sys.sysMcuCmd dos

/-- The `path` parameter, or the error about it. -/
theorem legible_pathParam {params : Option CJson} (h : ∀ t ∈ params, Legible t) :
    (∃ path, pStr params "path" = .ok path ∧ Utf8 path) ∨
      ∃ err, pStr params "path" = .error err ∧ Legible err :=
  legible_pStr h rfl

/-- The strings that the method passes on are UTF-8: the paths of a listing,
the name and the date of an object, the reply line of the board. -/
def Call.Readable (params : Option CJson) : Call → Prop
  | fsList dos => ∀ path, pStr params "path" = .ok path → dos.locks = true → dos.context = true →
      ∀ l ∈ Fs.listing dos params, Utf8 (Fs.shown l.above l.data.name)
  | fsStat volume dos => ∀ path, pStr params "path" = .ok path →
      ∀ ed ∈ Fs.examineObject volume dos path, Utf8 ed.name ∧ ∀ d ∈ dos.date, Utf8 d.1 ∧ Utf8 d.2
  | sysTasks _ => True
  | execOutput _ _ => True
  | sysMcuCmd dos => ∀ cmd unit, Sys.mcuParams params = .ok (cmd, unit) →
      Sys.mcuPrepare dos unit = .ok () →
      Utf8 (cText (Sys.firstLine ((Sys.arrived dos.answers).take 255)))

section Handlers

variable {params : Option CJson} (hparams : ∀ t ∈ params, Legible t)

include hparams

theorem legible_fsList (dos : Fs.ListDos) :
    LegibleOutcome (Fs.fsList dos params) ↔ (Call.fsList dos).Readable params := by
  rcases legible_pathParam hparams with ⟨path, hpath, hutf8⟩ | ⟨err, herr, hlegible⟩
  · by_cases hopens : dos.locks = true ∧ dos.context = true
    · rw [Fs.fsList_ok hpath hopens.1 hopens.2]
      have hshown : Legible (.array ((Fs.listing dos params).map Fs.Listed.object)) ↔
          ∀ l ∈ Fs.listing dos params, Utf8 (Fs.shown l.above l.data.name) := by
        rw [CJson.legible_array_iff, List.forall_mem_map]
        exact forall₂_congr fun l _ => legible_entryObject _ _
      refine hshown.trans ⟨fun h _ _ _ _ => h, fun h => h path hpath hopens.1 hopens.2⟩
    · have hfails : dos.locks = false ∨ dos.context = false := by
        rw [← Bool.not_eq_true, ← Bool.not_eq_true]
        exact not_and_or.mp hopens
      rw [Fs.fsList_error hpath hfails]
      refine iff_of_true (legible_fsErrorFor dos.ioErr hutf8) fun _ _ hlocks hcontext => ?_
      exact absurd ⟨hlocks, hcontext⟩ hopens
  · have hrun : Fs.fsList dos params = .error err := by
      simp [Fs.fsList, herr, bind, Except.bind]
    rw [hrun]
    refine iff_of_true hlegible fun path hpath => ?_
    rw [herr] at hpath
    cases hpath

theorem legible_fsStat (volume : Fs.Volume) (dos : Fs.StatDos) :
    LegibleOutcome (Fs.fsStat volume dos params) ↔ (Call.fsStat volume dos).Readable params := by
  rcases legible_pathParam hparams with ⟨path, hpath, hutf8⟩ | ⟨err, herr, hlegible⟩
  · cases hed : Fs.examineObject volume dos path with
    | none =>
      have hrun : Fs.fsStat volume dos params = .error (Fs.fsErrorFor dos.ioErr path) := by
        simp [Fs.fsStat, hpath, hed, bind, Except.bind]
      rw [hrun]
      refine iff_of_true (legible_fsErrorFor dos.ioErr hutf8) fun path' hpath' ed hmem => ?_
      rw [hpath] at hpath'
      cases hpath'
      rw [hed] at hmem
      cases hmem
    | some ed =>
      have hrun : Fs.fsStat volume dos params = .ok (Fs.statResult ed dos.date) := by
        simp [Fs.fsStat, hpath, hed, bind, Except.bind]
      rw [hrun]
      refine (legible_statResult ed dos.date).trans ⟨fun h path' hpath' ed' hmem => ?_, fun h => ?_⟩
      · rw [hpath] at hpath'
        cases hpath'
        rw [hed] at hmem
        cases hmem
        exact h
      · exact h path hpath ed hed
  · have hrun : Fs.fsStat volume dos params = .error err := by
      simp [Fs.fsStat, herr, bind, Except.bind]
    rw [hrun]
    refine iff_of_true hlegible fun path hpath => ?_
    rw [herr] at hpath
    cases hpath

end Handlers

theorem legible_sysTasks (eb : Sys.TaskLists) (params : Option CJson) :
    LegibleOutcome (Sys.sysTasks eb params) := by
  have hready : Utf8 (ascii "ready") := utf8_literal rfl
  have hwaiting : Utf8 (ascii "waiting") := utf8_literal rfl
  simp [LegibleOutcome, Sys.sysTasks, hready, hwaiting, legible_emitTask]

theorem legible_execOutput (jobsGet : Nat → Option JobInfo) (files : Files)
    (params : Option CJson) : LegibleOutcome (Exec.execOutput jobsGet files params) := by
  have hjobId : Utf8 (ascii "job_id") := utf8_literal rfl
  have hdata : ∀ id, Legible (Exec.jobIdData id) := fun id => by simp [Exec.jobIdData, hjobId]
  have hrequired : Legible (rpcMakeError mcpdErrInvparams "job_id (positive integer) is required"
      none) := legible_rpcMakeError rfl (by simp)
  cases hid : Exec.pJobId params with
  | error err =>
    have herr : err = rpcMakeError mcpdErrInvparams "job_id (positive integer) is required" none := by
      unfold Exec.pJobId at hid
      split at hid
      · split at hid
        · cases hid
          rfl
        · cases hid
      · cases hid
        rfl
    simp only [Exec.execOutput, Exec.execOutputWith, hid, bind, Except.bind]
    rw [herr]
    exact hrequired
  | ok id =>
    simp only [Exec.execOutput, Exec.execOutputWith, hid, bind, Except.bind]
    cases jobsGet id with
    | none =>
      refine legible_rpcMakeError rfl fun d hd => ?_
      cases hd
      exact hdata id
    | some ji =>
      dsimp only
      split
      · refine legible_rpcMakeError rfl fun d hd => ?_
        cases hd
        exact hdata id
      · refine legible_outputResult ji _ ?_
        unfold Exec.amigaReadOutput Exec.amigaReadOutputWith
        split <;> exact Exec.utf8_latin1 _

/-- The parameters of a command, or the error about them. -/
theorem legible_mcuParams {params : Option CJson} (hparams : ∀ t ∈ params, Legible t) :
    (∃ cmd unit, Sys.mcuParams params = .ok (cmd, unit) ∧ Utf8 cmd) ∨
      ∃ err, Sys.mcuParams params = .error err ∧ Legible err := by
  have hcmdParam : (∃ cmd, pStr params "cmd" = .ok cmd ∧ Utf8 cmd) ∨
      ∃ err, pStr params "cmd" = .error err ∧ Legible err := legible_pStr hparams rfl
  have herror : ∀ {message : String}, (ascii message).all (· < 128) = true →
      Legible (rpcMakeError mcpdErrInvparams message none) :=
    fun h => legible_rpcMakeError h (by simp)
  rcases hcmdParam with ⟨cmd, hcmd, hutf8⟩ | ⟨err, herr, hlegible⟩
  · simp only [Sys.mcuParams, hcmd, bind, Except.bind]
    split
    · exact Or.inr ⟨_, rfl, herror rfl⟩
    · split
      · exact Or.inr ⟨_, rfl, herror rfl⟩
      · split
        · exact Or.inr ⟨_, rfl, herror rfl⟩
        · exact Or.inl ⟨cmd, _, rfl, hutf8⟩
  · exact Or.inr ⟨err, by simp [Sys.mcuParams, herr, bind, Except.bind], hlegible⟩

/-- A failure exit in front of other steps. -/
theorem legible_exit {c : Prop} [Decidable c] {e err : CJson} {rest : Except CJson Unit}
    (he : Legible e) (hrest : rest = .error err → Legible err)
    (h : (if c then .error e else rest) = .error err) : Legible err := by
  split at h
  · cases h
    exact he
  · exact hrest h

theorem legible_mcuPrepare {dos : Sys.McuDos} {unit : Int} {err : CJson}
    (h : Sys.mcuPrepare dos unit = .error err) : Legible err := by
  have hunit : Utf8 (ascii "unit") := utf8_literal rfl
  have herror : ∀ {code : Int} {message : String}, (ascii message).all (· < 128) = true →
      Legible (rpcMakeError code message none) := fun h => legible_rpcMakeError h (by simp)
  have hdata : ∀ {code : Int} {message : String}, (ascii message).all (· < 128) = true →
      Legible (rpcMakeError code message (some (.object [(ascii "unit", cNumber unit)]))) :=
    fun h => legible_rpcMakeError h (by simp [hunit])
  refine legible_exit (herror rfl) (legible_exit (herror rfl) ?_) h
  refine legible_exit (hdata rfl) (legible_exit (herror rfl) ?_)
  exact legible_exit (herror rfl) (legible_exit (herror rfl) fun h => by cases h)

theorem legible_sysMcuCmd {params : Option CJson} (hparams : ∀ t ∈ params, Legible t)
    (dos : Sys.McuDos) :
    LegibleOutcome (Sys.sysMcuCmd dos params) ↔ (Call.sysMcuCmd dos).Readable params := by
  have hread : (Sys.mcuRead (Sys.mcuRxMax - 1) dos.answers).rx =
      Sys.firstLine ((Sys.arrived dos.answers).take 255) := Sys.mcuRead_rx 255 dos.answers
  rcases legible_mcuParams hparams with ⟨cmd, unit, hargs, hutf8⟩ | ⟨err, herr, hlegible⟩
  · cases hprepare : Sys.mcuPrepare dos unit with
    | error err =>
      have hrun : Sys.sysMcuCmd dos params = .error err := by
        simp [Sys.sysMcuCmd, hargs, hprepare, bind, Except.bind]
      rw [hrun]
      refine iff_of_true (legible_mcuPrepare hprepare) fun cmd' unit' hargs' hok => ?_
      rw [hargs] at hargs'
      cases hargs'
      rw [hprepare] at hok
      cases hok
    | ok _ =>
      have hrun : Sys.sysMcuCmd dos params =
          .ok (Sys.mcuResult cmd unit (Sys.mcuRead (Sys.mcuRxMax - 1) dos.answers)) := by
        simp [Sys.sysMcuCmd, hargs, hprepare, bind, Except.bind]
      have hreply := legible_mcuResult hutf8 unit (Sys.mcuRead (Sys.mcuRxMax - 1) dos.answers)
      rw [hread] at hreply
      rw [hrun]
      exact hreply.trans ⟨fun h _ _ _ _ => h, fun h => h cmd unit hargs hprepare⟩
  · have hrun : Sys.sysMcuCmd dos params = .error err := by
      simp [Sys.sysMcuCmd, herr, bind, Except.bind]
    rw [hrun]
    refine iff_of_true hlegible fun cmd unit hargs => ?_
    rw [herr] at hargs
    cases hargs

/-! ## Responses -/

/-- `body.decode("utf-8")` and `json.loads` succeed. -/
def Decodes (body : Bytes) : Prop := Utf8 body ∧ ∃ v, JsonText.parse body = some v

theorem decodes_print_iff {p : Printer} (hp : p.Documented) (tree : CJson) :
    Decodes (CJson.print p tree) ↔ Legible tree := by
  rw [← CJson.utf8_print_iff hp tree]
  exact and_iff_left ⟨_, CJson.parse_print hp tree⟩

theorem legible_envelope {id : Option CJson} (hid : ∀ t ∈ id, Legible t) (out : Outcome) :
    Legible (envelope id out) ↔ LegibleOutcome out := by
  have hjsonrpc : Utf8 (ascii "jsonrpc") := utf8_literal rfl
  have hidName : Utf8 (ascii "id") := utf8_literal rfl
  have hresult : Utf8 (ascii "result") := utf8_literal rfl
  have herror : Utf8 (ascii "error") := utf8_literal rfl
  have hversion : Legible (cString "2.0") := legible_cString rfl
  have hgetD : Legible (id.getD .null) := by
    cases id with
    | none => trivial
    | some t => exact hid t rfl
  cases out <;>
    simp [envelope, LegibleOutcome, hjsonrpc, hidName, hresult, herror, hversion, hgetD]

theorem legible_call (call : Call) {params : Option CJson} (h : ∀ t ∈ params, Legible t) :
    LegibleOutcome (call.handler params) ↔ call.Readable params := by
  cases call with
  | fsList dos => exact legible_fsList h dos
  | fsStat volume dos => exact legible_fsStat h volume dos
  | sysTasks eb => exact iff_of_true (legible_sysTasks eb params) trivial
  | execOutput jobsGet files =>
    exact iff_of_true (legible_execOutput jobsGet files params) trivial
  | sysMcuCmd dos => exact legible_sysMcuCmd h dos

/-- The response to a request whose own strings are UTF-8 can be decoded if
and only if the strings that its method passes on are UTF-8. -/
theorem response_decodes_iff {p : Printer} (hp : p.Documented) (call : Call) (methods : Methods)
    {method : Bytes} (hmethods : methods method = some call.handler)
    {members : List (Bytes × CJson)} (hlegible : Legible (.object members))
    (hmethod : (CJson.object members).getItem (ascii "method") = some (.string method)) :
    Decodes (CJson.print p (rpcDispatch methods (some (.object members)))) ↔
      call.Readable ((CJson.object members).getItem (ascii "params")) := by
  have hid : ∀ t ∈ (CJson.object members).getItem (ascii "id"), Legible t :=
    fun t ht => hlegible.getItem ht
  have hparams : ∀ t ∈ (CJson.object members).getItem (ascii "params"), Legible t :=
    fun t ht => hlegible.getItem ht
  have hcall : callMethod methods (.object members) =
      call.handler ((CJson.object members).getItem (ascii "params")) := by
    simp only [callMethod, hmethod, hmethods]
  rw [decodes_print_iff hp, rpcDispatch, legible_envelope hid, hcall]
  exact legible_call call hparams

/-! ### An accented file name -/

/-- A printer with the decimals of whole numbers. -/
def decimalPrinter : Printer := ⟨fun value => Discovery.decimal value.num, CJson.printString⟩

theorem decimalPrinter_documented : decimalPrinter.Documented :=
  ⟨fun _ => rfl, fun value => Discovery.number_decimal_int value.num⟩

/-- A request to list a directory. -/
def listRequest : List (Bytes × CJson) :=
  [(ascii "jsonrpc", cString "2.0"), (ascii "id", cNumber 1), (ascii "method", cString "fs.list"),
    (ascii "params", .object [(ascii "path", cString "RAM:")])]

theorem legible_listRequest : Legible (.object listRequest) := by
  have hkeys : ∀ key ∈ ["jsonrpc", "id", "method", "params", "path", "2.0", "fs.list", "RAM:"],
      Utf8 (ascii key) := by
    intro key hkey
    refine utf8_literal ?_
    revert key
    decide
  simp only [List.forall_mem_cons] at hkeys
  simp [listRequest, cString, hkeys]

/-- A directory with one file. -/
def oneFile (name : Bytes) : Call := .fsList { entries := [.mk ⟨name, false, 0⟩ []] }

/-- The daemon with one method. -/
def onlyMethod (method : String) (call : Call) : Methods := fun name =>
  if name = ascii method then some call.handler else none

/-- A listing with a plain name. -/
theorem response_decodes_sample :
    Decodes (CJson.print decimalPrinter (rpcDispatch (onlyMethod "fs.list" (oneFile (ascii "Startup")))
      (some (.object listRequest)))) :=
  (response_decodes_iff decimalPrinter_documented (oneFile (ascii "Startup"))
    (onlyMethod "fs.list" (oneFile (ascii "Startup"))) (if_pos rfl) legible_listRequest rfl).mpr
    fun _ _ _ _ l hl => by
      cases hl with
      | head => exact utf8_literal rfl
      | tail _ hl => cases hl

/-- The file name "Café" in Latin-1. -/
def accented : Bytes := ascii "Caf" ++ [0xE9]

theorem not_utf8_accented : ¬ Utf8 accented := by
  have hplain : ∀ c ∈ ascii "Caf", c < 128 := List.all_iff_forall_prop.mp rfl
  rw [accented, utf8_ascii_append_iff hplain]
  exact not_utf8_singleton (by decide)

/-- One accented name makes the whole listing undecodable. -/
theorem accented_listing_undecodable :
    decimalPrinter.Documented ∧ Legible (.object listRequest) ∧
    ¬ Decodes (CJson.print decimalPrinter
      (rpcDispatch (onlyMethod "fs.list" (oneFile accented)) (some (.object listRequest)))) := by
  refine ⟨decimalPrinter_documented, legible_listRequest, fun h => ?_⟩
  have hresponse : rpcDispatch (onlyMethod "fs.list" (oneFile accented))
      (some (.object listRequest)) =
      envelope (some (cNumber 1)) (.ok (.array [Fs.entryObject accented ⟨accented, false, 0⟩])) := rfl
  have hid : ∀ t ∈ some (cNumber 1), Legible t := by simp
  rw [hresponse, decodes_print_iff decimalPrinter_documented, legible_envelope hid] at h
  have hentry := (CJson.legible_array_iff _).mp h _ (List.mem_singleton_self _)
  exact not_utf8_accented ((legible_entryObject _ _).mp hentry)

end AmigaFleet.Mcpd
