import AmigaFleet.Host.DebugRing

/-!
# Several guests in one SandboxVM

`sandbox_run_batch` of `tools/sandbox.py`, from the replies of the daemon on.
SandboxVM runs the guests of a batch in order and writes a line to the debug
ring when one has returned; the host reads the ring afterwards and gives the
last exits that it finds there to the last guests.

`Course` is how a batch went: what stood in the ring before, what came to it
meanwhile, and how much of that it took.  `attributed_iff` says when each entry
has the code of its own guest, whichever codes these are: the exits that the
host finds last are those of the last guests.  `stale_exits` is a full ring with
the exits of an earlier batch.
-/

namespace AmigaFleet.Host.SandboxBatch

open AmigaFleet.Lib AmigaFleet.Host.DebugRing
open SandboxCommand (BatchRun buildBatchCommand)

/-! ## `sandbox_run_batch` -/

/-- `SANDBOXVM_MAX_GUESTS` -/
def sandboxvmMaxGuests : Nat := 16

structure BatchGuestSpec where
  guest : List Char
  name : Option (List Char) := none
deriving DecidableEq, Repr

/-- The parameters of `sandbox_run_batch` that the command line comes from. -/
structure BatchRequest where
  guests : List BatchGuestSpec
  extmemMb : Option Int := none
  windowMb : Option Int := none
  denyLibs : List (List Char) := []
  name : Option (List Char) := none
deriving DecidableEq, Repr

/-- The configuration of a target for SandboxVM. -/
structure SandboxConfig where
  defaultExtmemMb : Int
  defaultWindowMb : Int
  denyLibs : List (List Char)
deriving DecidableEq, Repr

inductive BatchError where
  /-- `sandbox.run_batch requires at least one guest entry` -/
  | noGuests
  /-- `sandbox.run_batch supports at most 16 guests per invocation; got …` -/
  | tooMany (max got : Nat)
deriving DecidableEq, Repr

/-- What `_read_capture` gives for the two files of a guest, and whether they
are there. -/
structure Capture where
  stdout : List Char := []
  stdoutPresent : Bool := false
  stderr : List Char := []
  stderrPresent : Bool := false
deriving DecidableEq, Repr

structure BatchEntryResult where
  guest : List Char
  name : List Char
  exitCode : Int
  exitCodeKnown : Bool
  trapKind : Option TrapKind
  trapFingerprint : Option Fingerprint
  stdout : List Char
  stderr : List Char
  capturePaths : List (List Char)
deriving DecidableEq, Repr

structure BatchRunResult where
  batchName : List Char
  command : List Char
  aggregateExitCode : Int
  allClean : Bool
  entries : List BatchEntryResult
  ringUsable : Bool
deriving DecidableEq, Repr

/-- The checks on the list of guests. -/
def BatchRequest.refusal (req : BatchRequest) : Option BatchError :=
  if req.guests = [] then some .noGuests
  else if req.guests.length > sandboxvmMaxGuests then
    some (.tooMany sandboxvmMaxGuests req.guests.length)
  else none

/-- `name or default` of an optional text. -/
def orElse (name : Option (List Char)) (default : List Char) : List Char :=
  match name with
  | some n => if n = [] then default else n
  | none => default

def BatchRequest.batchName (req : BatchRequest) : List Char := orElse req.name "batch".toList

/-- `merged_deny` -/
def mergedDeny (cfg : Option SandboxConfig) (denyLibs : List (List Char)) : List (List Char) :=
  denyLibs.foldl (fun merged lib => if lib ∈ merged then merged else merged ++ [lib])
    (cfg.elim [] (·.denyLibs))

def BatchRequest.batchRun (req : BatchRequest) (probePath : List Char) (cfg : Option SandboxConfig) :
    BatchRun where
  sandboxvmPath := probePath
  guests := req.guests.map (·.guest)
  extmemMb := req.extmemMb.getD (cfg.elim 1024 (·.defaultExtmemMb))
  windowMb := req.windowMb.getD (cfg.elim 256 (·.defaultWindowMb))
  denyLibs := mergedDeny cfg req.denyLibs
  name := req.batchName

/-- `TRAP_KIND_BY_EXIT_CODE` -/
def trapKindByExitCode (code : Int) : Option TrapKind :=
  if code = -0x300 then some .dsi
  else if code = -0x400 then some .isi
  else if code = -0x600 then some .alignment
  else if code = -0x700 then some .program
  else if code = -0x800 then some .fpUnavailable
  else none

/-- `_classify_exit` -/
def classifyExit (exitCode : Int) (stderr : List Char) : Option TrapKind × Option Fingerprint :=
  (trapKindByExitCode exitCode, fingerprintOf stderr)

/-- `exit_code_known` and `exit_code` of guest `idx`. -/
def exitOfGuest (exits : List (List Char × Int)) (ringUsable : Bool) (total idx : Nat) : Bool × Int :=
  let ringOffset := total - exits.length
  let known := ringUsable && ringOffset ≤ idx
  (known, if known then (exits.getD (idx - ringOffset) ([], 0)).2 else 0)

def batchEntry (batchName : List Char) (exits : List (List Char × Int)) (ringUsable : Bool)
    (total : Nat) (capture : Nat → Capture) (idx : Nat) (spec : BatchGuestSpec) :
    BatchEntryResult :=
  let gname := orElse spec.name (batchName ++ '.' :: (toString idx).toList)
  let path := "T:sandboxvm-".toList ++ gname
  let exit := exitOfGuest exits ringUsable total idx
  let files := capture idx
  let trap := classifyExit exit.2 files.stderr
  { guest := spec.guest
    name := gname
    exitCode := exit.2
    exitCodeKnown := exit.1
    trapKind := trap.1
    trapFingerprint := trap.2
    stdout := files.stdout
    stderr := files.stderr
    capturePaths := (if files.stdoutPresent then [path ++ ".out".toList] else []) ++
      if files.stderrPresent then [path ++ ".err".toList] else [] }

/-- How many lines of the ring are read. -/
def ringLines : Nat := 2000

/-- `sandbox_run_batch`: `aggregate` is the exit code of SandboxVM, `output` what
`C:DumpDebugBuffer` prints afterwards. -/
def sandboxRunBatch (decimal : Char → Option Nat) (probePath : List Char)
    (cfg : Option SandboxConfig) (req : BatchRequest) (aggregate : Int) (output : List Char)
    (capture : Nat → Capture) : Except BatchError BatchRunResult :=
  match req.refusal with
  | some e => .error e
  | none =>
    let ring := sysDebugRing output ringLines
    let exits := parsePerGuestExits decimal ring.lines req.guests.length
    let ringUsable := ringReportsDaemon ring.lines
    let entries := req.guests.mapIdx
      (batchEntry req.batchName exits ringUsable req.guests.length capture)
    .ok
      { batchName := req.batchName
        command := buildBatchCommand (req.batchRun probePath cfg)
        aggregateExitCode := aggregate
        allClean := aggregate = 0 && entries.all (·.exitCode = 0)
        entries := entries
        ringUsable := ringUsable }

/-! ## How a batch goes -/

/-- A line of the ring. -/
inductive Line where
  /-- any text -/
  | other (text : List Char)
  /-- guest `i` of this batch has returned; `kept` characters behind its code
  came to the ring -/
  | exit (i : Nat) (kept : Nat)
deriving DecidableEq, Repr

def Line.exited : Line → Option Nat
  | .other _ => none
  | .exit i _ => some i

/-- The text of a line; `shown` are the paths of the guests as the ring shows
them. -/
def Line.text (shown : Nat → List Char) (codes : Nat → Int) : Line → List Char
  | .other text => text
  | .exit i kept => exitLine (shown i) (codes i) kept

/-- A batch that the host has run.  Where the ring fills up in the line of a
guest, the log has what it took of it: a line up to its code or beyond it is an
exit, and one that is cut before that is any text. -/
structure Course where
  request : BatchRequest
  accepted : request.refusal = none
  /-- the paths of the guests, with the characters that the ring shows for them -/
  shown : Nat → List Char
  /-- the lines in the ring before -/
  before : List (List Char)
  /-- the lines that come to the ring from the start of the run to the reading -/
  log : List Line
  /-- how many of them the ring takes until it is full, and `exec.cmd` hands on -/
  room : Nat
  /-- how many guests return -/
  returned : Nat
  inOrder : log.filterMap Line.exited = List.range returned
  single : ∀ text, Line.other text ∈ before.map .other ++ log →
    ∀ c ∈ text, PyStr.isLineBreak c = false

variable (decimal : Char → Option Nat)

namespace Course

variable (course : Course)

/-- The lines in the ring afterwards. -/
def ring : List Line := course.before.map .other ++ course.log.take course.room

/-- What `C:DumpDebugBuffer` prints afterwards. -/
def output (codes : Nat → Int) : List Char :=
  joinLines (course.ring.map (Line.text course.shown codes))

/-- The lines that the host reads. -/
def seen : List Line := course.ring.drop (course.ring.length - ringLines)

/-- The host sees an exit in the line, whatever the code. -/
def showsExit (l : Line) : Bool := (exitOf decimal (l.text course.shown fun _ => 0)).isSome

/-- The exits that the host gives to the guests: the last ones it sees. -/
def window : List Line :=
  let exits := course.seen.filter (course.showsExit decimal)
  exits.drop (exits.length - course.request.guests.length)

/-- The line of a guest shows its code, whatever it is. -/
def ReadsBack (i kept : Nat) : Prop :=
  ∀ code, (exitOf decimal (exitLine (course.shown i) code kept)).map Prod.snd = some code

/-- The last exits that the host sees are those of the last guests, in order. -/
def Traceable : Prop :=
  (course.window decimal).map Line.exited <:+ (List.range course.request.guests.length).map some ∧
    ∀ i kept, .exit i kept ∈ course.window decimal → course.ReadsBack decimal i kept

/-- Every entry with a known exit code has the code that its guest returned. -/
def Attributed (codes : Nat → Int) (result : BatchRunResult) : Prop :=
  ∀ idx e, result.entries[idx]? = some e → e.exitCodeKnown = true →
    idx < course.returned ∧ e.exitCode = codes idx

end Course

/-! ### What the host finds -/

variable {decimal} {course : Course}

theorem single_text (codes : Nat → Int) :
    ∀ l ∈ course.ring.map (Line.text course.shown codes), ∀ c ∈ l, PyStr.isLineBreak c = false := by
  intro l hl
  obtain ⟨line, hline, rfl⟩ := List.mem_map.mp hl
  cases line with
  | exit i kept => exact fun c hc => not_isLineBreak_exitLine hc
  | other text =>
    refine course.single text ?_
    rcases List.mem_append.mp hline with hbefore | hlog
    · exact List.mem_append_left _ hbefore
    · exact List.mem_append_right _ (List.mem_of_mem_take hlog)

theorem sysDebugRing_output (codes : Nat → Int) :
    (sysDebugRing (course.output codes) ringLines).lines =
      course.seen.map (Line.text course.shown codes) := by
  rw [Course.output, sysDebugRing_lines (single_text codes) (by decide), Course.seen, List.map_drop,
    List.length_map]

theorem isSome_exitOf_text (decimal : Char → Option Nat) (course : Course) (codes : Nat → Int)
    (l : Line) :
    (exitOf decimal (l.text course.shown codes)).isSome = course.showsExit decimal l := by
  cases l with
  | other text => rfl
  | exit i kept => exact isSome_exitOf_line _ _ _ _

/-- The path and the code in a line that shows an exit. -/
def readExit (decimal : Char → Option Nat) (course : Course) (codes : Nat → Int) (l : Line) :
    List Char × Int :=
  (exitOf decimal (l.text course.shown codes)).getD ([], 0)

theorem filterMap_exitOf (codes : Nat → Int) (ls : List Line) :
    (ls.map (Line.text course.shown codes)).filterMap (exitOf decimal) =
      (ls.filter (course.showsExit decimal)).map (readExit decimal course codes) := by
  induction ls with
  | nil => rfl
  | cons l ls ih =>
    have hshows := isSome_exitOf_text decimal course codes l
    rw [List.map_cons, List.filterMap_cons, ih, List.filter_cons]
    cases hexit : exitOf decimal (l.text course.shown codes) with
    | none =>
      rw [hexit] at hshows
      rw [← hshows]
      rfl
    | some m =>
      rw [hexit] at hshows
      rw [← hshows, Option.isSome_some, if_pos rfl, List.map_cons, readExit, hexit]
      rfl

/-- What the host finds are the exits in the window. -/
theorem parsePerGuestExits_output (codes : Nat → Int) :
    parsePerGuestExits decimal (sysDebugRing (course.output codes) ringLines).lines
        course.request.guests.length =
      (course.window decimal).map (readExit decimal course codes) := by
  rw [parsePerGuestExits, sysDebugRing_output, filterMap_exitOf]
  simp only [List.length_map, Course.window, List.map_drop]
  split
  · rfl
  · rename_i hnone
    rw [Nat.eq_zero_of_not_pos hnone, Nat.sub_zero, List.drop_eq_nil_of_le (by simp)]

theorem length_window (decimal : Char → Option Nat) (course : Course) :
    (course.window decimal).length ≤ course.request.guests.length := by
  rw [Course.window, List.length_drop]
  omega

theorem ringReportsDaemon_output {l : Line} (hl : l ∈ course.window decimal) (codes : Nat → Int) :
    ringReportsDaemon (sysDebugRing (course.output codes) ringLines).lines = true := by
  obtain ⟨hseen, hshows⟩ := List.mem_filter.mp (List.mem_of_mem_drop hl)
  rw [sysDebugRing_output]
  have hexit := isSome_exitOf_text decimal course codes l
  rw [hshows] at hexit
  exact ringReportsDaemon_of_exit (List.mem_map_of_mem hseen) hexit

/-! ### What the entries say -/

/-- The exit at place `j` of the window is given to this guest. -/
def Course.guestAt (course : Course) (decimal : Char → Option Nat) (j : Nat) : Nat :=
  course.request.guests.length - (course.window decimal).length + j

theorem exitOfGuest_window {exits : List (List Char × Int)} {m : List Char × Int} {j : Nat}
    (hm : exits[j]? = some m) (total : Nat) :
    exitOfGuest exits true total (total - exits.length + j) = (true, m.2) := by
  have hknown : decide (total - exits.length ≤ total - exits.length + j) = true :=
    decide_eq_true (Nat.le_add_right ..)
  simp only [exitOfGuest, Bool.true_and, hknown, if_true, Nat.add_sub_cancel_left,
    List.getD_eq_getElem?_getD, hm, Option.getD_some]

theorem known_exitOfGuest {exits : List (List Char × Int)} {usable : Bool} {total idx : Nat}
    (h : (exitOfGuest exits usable total idx).1 = true) :
    usable = true ∧ total - exits.length ≤ idx := by
  simpa [exitOfGuest] using h

/-- The entries are right if each exit in the window has the code of the guest
that it is given to. -/
theorem attributed_iff_window (probePath : List Char) (cfg : Option SandboxConfig) (aggregate : Int)
    (capture : Nat → Capture) (codes : Nat → Int) :
    (∀ result, sandboxRunBatch decimal probePath cfg course.request aggregate
        (course.output codes) capture = .ok result → course.Attributed codes result) ↔
      ∀ j l, (course.window decimal)[j]? = some l → course.guestAt decimal j < course.returned ∧
        (readExit decimal course codes l).2 = codes (course.guestAt decimal j) := by
  have hfits := length_window decimal course
  have hexits : ∀ {j l}, (course.window decimal)[j]? = some l →
      exitOfGuest ((course.window decimal).map (readExit decimal course codes)) true
        course.request.guests.length (course.guestAt decimal j) =
          (true, (readExit decimal course codes l).2) := by
    intro j l hl
    have hm : ((course.window decimal).map (readExit decimal course codes))[j]? =
        some (readExit decimal course codes l) := by rw [List.getElem?_map, hl, Option.map_some]
    have hexit := exitOfGuest_window hm course.request.guests.length
    rwa [List.length_map] at hexit
  unfold sandboxRunBatch
  rw [course.accepted]
  dsimp only
  rw [parsePerGuestExits_output]
  constructor
  · intro h j l hl
    have hj := (List.getElem?_eq_some_iff.mp hl).1
    have hguest : course.guestAt decimal j < course.request.guests.length := by
      unfold Course.guestAt
      omega
    have hattr := h _ rfl (course.guestAt decimal j) _ (by
      rw [List.getElem?_mapIdx, List.getElem?_eq_getElem hguest, Option.map_some])
    simp only [batchEntry] at hattr
    rw [ringReportsDaemon_output (List.mem_of_getElem? hl), hexits hl] at hattr
    exact hattr rfl
  · intro h result hresult idx e he hknown
    cases hresult
    obtain ⟨spec, hspec, rfl⟩ := Option.map_eq_some_iff.mp (List.getElem?_mapIdx ▸ he)
    obtain ⟨husable, hoffset⟩ := known_exitOfGuest hknown
    rw [List.length_map] at hoffset
    have hidx := (List.getElem?_eq_some_iff.mp hspec).1
    have hguest : course.guestAt decimal (idx - (course.request.guests.length -
        (course.window decimal).length)) = idx := by
      unfold Course.guestAt
      omega
    have hj : idx - (course.request.guests.length - (course.window decimal).length) <
        (course.window decimal).length := by omega
    obtain ⟨hreturned, hcode⟩ := h _ _ (List.getElem?_eq_getElem hj)
    have hexit := hexits (List.getElem?_eq_getElem hj)
    rw [hguest] at hreturned hcode hexit
    refine ⟨hreturned, ?_⟩
    show (exitOfGuest _ _ _ _).2 = _
    rw [husable, hexit]
    exact hcode

/-! ## Attribution -/

theorem showsExit_of_mem_window {l : Line} (hl : l ∈ course.window decimal) :
    course.showsExit decimal l = true :=
  (List.mem_filter.mp (List.mem_of_mem_drop hl)).2

/-- Only a guest that has returned has a line. -/
theorem returned_of_mem_window {i kept : Nat} (hi : .exit i kept ∈ course.window decimal) :
    i < course.returned := by
  have hring : .exit i kept ∈ course.ring :=
    List.mem_of_mem_drop (List.mem_of_mem_filter (List.mem_of_mem_drop hi))
  rcases List.mem_append.mp hring with hbefore | hlog
  · obtain ⟨text, -, htext⟩ := List.mem_map.mp hbefore
    cases htext
  · have hexited : i ∈ course.log.filterMap Line.exited :=
      List.mem_filterMap.mpr ⟨_, List.mem_of_mem_take hlog, rfl⟩
    rw [course.inOrder] at hexited
    exact List.mem_range.mp hexited

theorem exited_of_suffix
    (h : (course.window decimal).map Line.exited <:+
      (List.range course.request.guests.length).map some) {j : Nat} {l : Line}
    (hl : (course.window decimal)[j]? = some l) : l.exited = some (course.guestAt decimal j) := by
  have hfits := length_window decimal course
  have hj := (List.getElem?_eq_some_iff.mp hl).1
  have hexited : ((course.window decimal).map Line.exited)[j]? = some l.exited := by
    rw [List.getElem?_map, hl, Option.map_some]
  rw [List.suffix_iff_eq_drop.mp h, List.length_map, List.length_map, List.length_range,
    List.getElem?_drop, List.getElem?_map, List.getElem?_range (by omega)] at hexited
  exact (Option.some.inj hexited).symm

theorem suffix_of_exited (h : ∀ j l, (course.window decimal)[j]? = some l →
      l.exited = some (course.guestAt decimal j)) :
    (course.window decimal).map Line.exited <:+
      (List.range course.request.guests.length).map some := by
  have hfits := length_window decimal course
  rw [List.suffix_iff_eq_drop, List.length_map, List.length_map, List.length_range]
  refine List.ext_getElem? fun j => ?_
  rw [List.getElem?_drop, List.getElem?_map, List.getElem?_map]
  cases hl : (course.window decimal)[j]? with
  | some l =>
    have hj := (List.getElem?_eq_some_iff.mp hl).1
    rw [List.getElem?_range (by omega), Option.map_some, h j l hl]
    rfl
  | none =>
    have hj := List.getElem?_eq_none_iff.mp hl
    rw [List.getElem?_eq_none (by rw [List.length_range]; omega)]
    rfl

theorem map_snd_exitOf {i kept : Nat} (hi : .exit i kept ∈ course.window decimal)
    (codes : Nat → Int) :
    (exitOf decimal (exitLine (course.shown i) (codes i) kept)).map Prod.snd =
      some (readExit decimal course codes (.exit i kept)).2 := by
  have hsome := isSome_exitOf_text decimal course codes (.exit i kept)
  rw [showsExit_of_mem_window hi] at hsome
  obtain ⟨m, hm⟩ := Option.isSome_iff_exists.mp hsome
  have hline : exitOf decimal (exitLine (course.shown i) (codes i) kept) = some m := hm
  rw [readExit, hm, hline]
  rfl

/-- A line of another guest, or of nobody, cannot show every code. -/
theorem own_line {j : Nat} {l : Line} (hcode : ∀ codes,
      (readExit decimal course codes l).2 = codes (course.guestAt decimal j)) :
    l.exited = some (course.guestAt decimal j) := by
  cases l with
  | other text =>
    have hother : ∀ code : Int, (readExit decimal course (fun _ => 0) (.other text)).2 = code :=
      fun code => hcode fun _ => code
    have hclash := (hother 0).symm.trans (hother 1)
    cases hclash
  | exit i kept =>
    by_contra hne
    have hi : course.guestAt decimal j ≠ i := fun heq => hne (heq ▸ rfl)
    have hother : ∀ code : Int, (readExit decimal course (fun _ => 0) (.exit i kept)).2 = code := by
      intro code
      have hthis := hcode (Function.update (fun _ => 0) (course.guestAt decimal j) code)
      rw [Function.update_self] at hthis
      rw [← hthis, readExit, readExit, Line.text, Line.text, Function.update_of_ne hi.symm]
    have hclash := (hother 0).symm.trans (hother 1)
    cases hclash

/-- Whatever codes the guests return, every known entry has the code of its own
guest, exactly if the last exits that the host sees are those of the last
guests, each read with its code. -/
theorem attributed_iff (decimal : Char → Option Nat) (course : Course) (probePath : List Char)
    (cfg : Option SandboxConfig) (aggregate : Int) (capture : Nat → Capture) :
    (∀ codes result, sandboxRunBatch decimal probePath cfg course.request aggregate
        (course.output codes) capture = .ok result → course.Attributed codes result) ↔
      course.Traceable decimal := by
  simp only [attributed_iff_window]
  constructor
  · intro h
    have hown : ∀ j l, (course.window decimal)[j]? = some l →
        l.exited = some (course.guestAt decimal j) :=
      fun j l hl => own_line fun codes => (h codes j l hl).2
    refine ⟨suffix_of_exited hown, fun i kept hi code => ?_⟩
    obtain ⟨j, hl⟩ := List.getElem?_of_mem hi
    rw [map_snd_exitOf hi fun _ => code, (h _ j _ hl).2]
  · rintro ⟨hsuffix, hreads⟩ codes j l hl
    have hmem := List.mem_of_getElem? hl
    have hexited := exited_of_suffix hsuffix hl
    cases l with
    | other text => cases hexited
    | exit i kept =>
      obtain rfl := Option.some.inj hexited
      refine ⟨returned_of_mem_window hmem, ?_⟩
      have hread := hreads _ kept hmem (codes (course.guestAt decimal j))
      rw [map_snd_exitOf hmem codes] at hread
      exact Option.some.inj hread

/-! ## Rings that are fresh, and rings that are full -/

/-- The exits of a log in which no other line shows one. -/
theorem filter_showsExit_log {log : List Line}
    (hexit : ∀ i kept, course.showsExit decimal (.exit i kept) = true)
    (hother : ∀ text, .other text ∈ log → course.showsExit decimal (.other text) = false) :
    (log.filter (course.showsExit decimal)).map Line.exited =
      (log.filterMap Line.exited).map some := by
  induction log with
  | nil => rfl
  | cons l log ih =>
    have hrest := ih fun text htext => hother text (List.mem_cons_of_mem _ htext)
    cases l with
    | other text =>
      rw [List.filter_cons, hother text List.mem_cons_self, if_neg Bool.false_ne_true, hrest]
      rfl
    | exit i kept =>
      rw [List.filter_cons, hexit i kept, if_pos rfl, List.map_cons, hrest]
      rfl

/-- Enough: a ring that had no exit in it and takes the whole run, but for what
stands behind the codes, paths without white space, guests that all return, and
nobody else who writes such lines. -/
theorem traceable_of_fresh
    (hbefore : ∀ text ∈ course.before, (exitOf decimal text).isSome = false)
    (hother : ∀ text, .other text ∈ course.log → (exitOf decimal text).isSome = false)
    (hpaths : ∀ i, course.shown i ≠ [] ∧ ∀ c ∈ course.shown i, PyStr.isSpace c = false)
    (hreturned : course.returned = course.request.guests.length)
    (hroom : course.log.length ≤ course.room)
    (hlines : course.before.length + course.log.length ≤ ringLines) :
    course.Traceable decimal := by
  have hreads : ∀ i kept code, exitOf decimal (exitLine (course.shown i) code kept) =
      some (course.shown i, code) :=
    fun i kept code => exitOf_exitLine (hpaths i).1 (hpaths i).2 code kept
  have hring : course.ring = course.before.map .other ++ course.log := by
    rw [Course.ring, List.take_of_length_le hroom]
  have hseen : course.seen = course.ring := by
    have hlength : course.ring.length ≤ ringLines := by
      rw [hring, List.length_append, List.length_map]
      exact hlines
    rw [Course.seen, Nat.sub_eq_zero_of_le hlength, List.drop_zero]
  have hold : (course.before.map Line.other).filter (course.showsExit decimal) = [] := by
    refine List.filter_eq_nil_iff.mpr fun l hl => ?_
    obtain ⟨text, htext, rfl⟩ := List.mem_map.mp hl
    have hnone := hbefore text htext
    simpa [Course.showsExit, Line.text] using hnone
  have hexits : (course.seen.filter (course.showsExit decimal)).map Line.exited =
      (List.range course.request.guests.length).map some := by
    rw [hseen, hring, List.filter_append, hold, List.nil_append, ← hreturned, ← course.inOrder]
    refine filter_showsExit_log (fun i kept => ?_) hother
    show (exitOf decimal (exitLine (course.shown i) 0 kept)).isSome = true
    rw [hreads i kept 0]
    rfl
  refine ⟨?_, fun i kept _ code => ?_⟩
  · rw [Course.window, List.map_drop, hexits]
    exact List.drop_suffix _ _
  · rw [hreads i kept code]
    rfl

/-- A ring that takes nothing of the run: the entries are right only if it shows
no exit of an earlier one. -/
theorem traceable_iff_of_full (hfull : course.room = 0) :
    course.Traceable decimal ↔
      ∀ text ∈ course.before.drop (course.before.length - ringLines),
        (exitOf decimal text).isSome = false := by
  have hseen : course.seen =
      (course.before.drop (course.before.length - ringLines)).map .other := by
    rw [Course.seen, Course.ring, hfull, List.take_zero, List.append_nil, List.length_map,
      List.map_drop]
  have hwindow : ∀ l ∈ course.window decimal, ∃ text, l = .other text := by
    intro l hl
    have hmem := List.mem_of_mem_filter (List.mem_of_mem_drop hl)
    rw [hseen] at hmem
    obtain ⟨text, -, rfl⟩ := List.mem_map.mp hmem
    exact ⟨text, rfl⟩
  constructor
  · intro h text htext
    -- an exit that is seen is given to a guest, and none of this batch is seen
    by_contra hsome
    have hshows : course.showsExit decimal (.other text) = true := eq_true_of_ne_false hsome
    have hexits : .other text ∈ course.seen.filter (course.showsExit decimal) :=
      List.mem_filter.mpr ⟨hseen ▸ List.mem_map_of_mem htext, hshows⟩
    have hguests : course.request.guests ≠ [] := by
      intro hnil
      have haccepted := course.accepted
      rw [BatchRequest.refusal, if_pos hnil] at haccepted
      cases haccepted
    have hne : course.window decimal ≠ [] := by
      have hsome := List.length_pos_of_mem hexits
      have hpos := List.length_pos_iff.mpr hguests
      rw [Course.window, Ne, List.drop_eq_nil_iff]
      omega
    obtain ⟨l, hl⟩ := List.exists_mem_of_ne_nil _ hne
    obtain ⟨old, rfl⟩ := hwindow l hl
    obtain ⟨i, -, hi⟩ := List.mem_map.mp (h.1.subset (List.mem_map_of_mem hl))
    cases hi
  · intro h
    have hnone : course.seen.filter (course.showsExit decimal) = [] := by
      refine List.filter_eq_nil_iff.mpr fun l hl => ?_
      rw [hseen] at hl
      obtain ⟨text, htext, rfl⟩ := List.mem_map.mp hl
      have hold := h text htext
      simpa [Course.showsExit, Line.text] using hold
    have hempty : course.window decimal = [] := by rw [Course.window, hnone, List.drop_nil]
    rw [Course.Traceable, hempty]
    exact ⟨List.nil_suffix, fun i kept hi => absurd hi List.not_mem_nil⟩

/-- A batch of one guest, which returns 20.  The ring is full, and the last line
in it is the exit of a guest of an earlier batch. -/
def fullRing : Course where
  request := { guests := [{ guest := "RAM:a".toList }] }
  accepted := by decide
  shown := fun _ => "RAM:a".toList
  before := [exitLine "RAM:old".toList 0 exitTail.length]
  log := [.exit 0 exitTail.length]
  room := 0
  returned := 1
  inOrder := by decide
  single := by
    intro text htext c hc
    have hold : text = exitLine "RAM:old".toList 0 exitTail.length := by simpa using htext
    exact not_isLineBreak_exitLine (hold ▸ hc)

/-- The entry says that the guest has returned 0. -/
theorem stale_exits : ∃ (course : Course) (codes : Nat → Int) (result : BatchRunResult),
    sandboxRunBatch (fun _ => none) "SYS:sandboxvm".toList none course.request 20
        (course.output codes) (fun _ => {}) = .ok result ∧
      (result.entries.map fun e => (e.exitCodeKnown, e.exitCode)) = [(true, 0)] ∧
      ¬ course.Attributed codes result := by
  have hentries : ((sandboxRunBatch (fun _ => none) "SYS:sandboxvm".toList none fullRing.request 20
      (fullRing.output fun _ => 20) (fun _ => {})).toOption.map fun result =>
        result.entries.map fun e => (e.exitCodeKnown, e.exitCode)) = some [(true, 0)] := by
    decide +kernel
  obtain ⟨result, hresult, hentries⟩ := Option.map_eq_some_iff.mp hentries
  obtain ⟨e, he, hpair⟩ := List.map_eq_singleton_iff.mp hentries
  obtain ⟨hknown, hcode⟩ := Prod.mk.inj hpair
  refine ⟨fullRing, fun _ => 20, result, ?_, hentries, fun h => ?_⟩
  · cases hrun : sandboxRunBatch (fun _ => none) "SYS:sandboxvm".toList none fullRing.request 20
      (fullRing.output fun _ => 20) (fun _ => {}) with
    | error e =>
      rw [hrun] at hresult
      cases hresult
    | ok r =>
      rw [hrun] at hresult
      cases hresult
      rfl
  · have hright := (h 0 e (by rw [he]; rfl) hknown).2
    rw [hcode] at hright
    exact absurd hright (by decide)

end AmigaFleet.Host.SandboxBatch
