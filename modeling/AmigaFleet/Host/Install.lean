import AmigaFleet.Host.Json
import AmigaFleet.Host.Kicklayout
import AmigaFleet.Host.PyBase64
import AmigaFleet.Host.Volumes
import AmigaFleet.Lib.Prog

/-!
# The install steps

`copy_base_os` and `apply_one_update` of `installer/sequences/_steps.py`, with
the tools of `tools/installer.py` and `installer/_amiga_fs.py` that they call,
as programs over the requests that they make.  The measured durations are left
out, and so are the texts of the tracebacks.

* A request is answered with a value, which for `exec.cmd` carries the exit
  code, or with an exception.
* `guarded` is `try: ... except Exception: pass`; a cancellation passes it.
* `installerCopyTree` and `installerApplyLha` give the exit code back as data.
-/

namespace AmigaFleet.Host.Installer

open AmigaFleet.Lib
open AmigaFleet.Mcpd (ascii)
open AmigaFleet.Host.PyStr
open AmigaFleet.Host.Kicklayout (ModulesPatch TextPatch Replacement applyPatches)

/-! ## Requests -/

/-- What a request raises: an `Exception`, or a cancellation. -/
inductive Raised where
  | exception (cls : String) (message : List Char)
  | cancelled
deriving DecidableEq, Repr

/-- A transport to the daemon of one target. -/
abbrev Mcpd := Nat

inductive Param where
  | str (text : List Char)
  | int (n : Int)
deriving DecidableEq, Repr

/-- A call of `McpdTransport.request`. -/
structure Request where
  mcpd : Mcpd
  method : String
  params : List (String × Param)
  timeoutS : Option Nat := none
deriving DecidableEq, Repr

abbrev Install := Prog Request (Except Raised Json) Raised

/-- What the steps take from Python's library. -/
structure PyText where
  /-- the letters and digits outside ASCII -/
  alnum : Char → Bool
  /-- the digits outside ASCII, `str.isdigit` -/
  digit : Char → Bool
  str : Json → List Char
  repr : Json → List Char
  /-- `repr` of a `str` -/
  reprStr : List Char → List Char
  /-- `int(text)` -/
  intOfText : Bytes → Option Int
  /-- the text of an exception of a class that a method or function raises on a value -/
  message : String → Json → List Char
  /-- `traceback.format_exc()[-500:]` -/
  traceback : Raised → Json

/-- `await mcpd.request(...)` -/
def send (r : Request) : Install Json :=
  .call r fun
    | .ok value => .pure value
    | .error e => .raise e

/-- `request("exec.cmd", {"command": ..., "timeout_ms": ...}, timeout_s=...)` -/
def execRequest (t : Mcpd) (command : List Char) (timeoutMs : Int) (timeoutS : Nat) : Request :=
  ⟨t, "exec.cmd", [("command", .str command), ("timeout_ms", .int timeoutMs)], some timeoutS⟩

def execCmd (t : Mcpd) (command : List Char) (timeoutMs : Int) (timeoutS : Nat) : Install Json :=
  send (execRequest t command timeoutMs timeoutS)

def request (t : Mcpd) (method : String) (params : List (String × Param))
    (timeoutS : Option Nat := none) : Install Json :=
  send ⟨t, method, params, timeoutS⟩

def pathRequest (t : Mcpd) (method : String) (path : List Char) (timeoutS : Option Nat := none) :
    Install Json :=
  request t method [("path", .str path)] timeoutS

/-- `try: ... except Exception as e: ...` -/
def tryExcept {β : Type} (p : Install β) (handler : String → List Char → Install β) : Install β := do
  match ← p.attempt with
  | .ok b => pure b
  | .error (.exception cls message) => handler cls message
  | .error .cancelled => .raise .cancelled

/-- `try: ... except Exception: pass` -/
def guarded {β : Type} (p : Install β) : Install Unit :=
  tryExcept (p >>= fun _ => pure ()) fun _ _ => pure ()

/-- `for x in xs: ...` -/
def forEach {α : Type} (f : α → Install Unit) : List α → Install Unit
  | [] => pure ()
  | x :: xs => f x >>= fun _ => forEach f xs

/-- `if c: ...` -/
def onlyIf {β : Type} (c : Prop) [Decidable c] (p : Install β) : Install Unit :=
  if c then p >>= fun _ => pure () else pure ()

def liftExcept {β : Type} : Except Raised β → Install β
  | .ok b => .pure b
  | .error e => .raise e

variable (py : PyText)

def raisePy {β : Type} (cls : String) (value : Json) : Install β :=
  .raise (.exception cls (py.message cls value))

/-- `raw.get(key, default)` -/
def getItem (raw : Json) (key : String) (default : Json) : Install Json :=
  match raw with
  | .dict _ => .pure ((raw.get key).getD default)
  | _ => raisePy py "AttributeError" raw

/-- `int(value)`, or the class of its exception -/
def intOf : Json → Except String Int
  | .int n => .ok n
  | .bool b => .ok (if b then 1 else 0)
  | .float (some q) => .ok (q.num.tdiv q.den)
  | .float none => .error "ValueError"
  | .str text => (py.intOfText text).elim (.error "ValueError") .ok
  | _ => .error "TypeError"

def pyInt (value : Json) : Install Int :=
  match intOf py value with
  | .ok n => .pure n
  | .error cls => raisePy py cls value

/-! ## Targets -/

/-- `Fleet.mcpd`, which raises for an unknown target and one without the channel. -/
structure Fleet where
  mcpd : List Char → Except Raised Mcpd

/-- The dict that is threaded through a run. -/
structure Ctx where
  fleet : Option Fleet
  target : Option (List Char)
  mcpd : Option Mcpd
  isoVolume : Option (List Char)
  destVolume : Option (List Char)
  /-- the entries that the steps here do not look at -/
  rest : List (String × Json) := []

/-- `ctx[key]` -/
def Ctx.item {β : Type} (value : Option β) (key : String) : Install β :=
  value.elim (.raise (.exception "KeyError" (("'" ++ key ++ "'").toList))) .pure

structure Step where
  name : List Char
  doc : List Char
  fn : Ctx → Install (Json × Ctx)

/-! ## _require_confirm, installer_copy_tree, installer_apply_lha -/

def requireConfirm (confirm : Bool) (op : String) : Install Unit :=
  if confirm then pure ()
  else .raise (.exception "InvalidParams"
    (op ++ " requires confirm=True (mutating operation)").toList)

structure CopyTreeResult where
  target : List Char
  src : List Char
  dst : List Char
  output : List Char
  exitCode : Int
deriving DecidableEq, Repr

/-- `Copy <src> <dst>` with its keywords. -/
def copyCommand (src dst : List Char) (all clone quiet : Bool) : List Char :=
  "Copy \"".toList ++ src ++ "\" \"".toList ++ dst ++ "\"".toList ++
    (if all then " ALL".toList else []) ++ (if clone then " CLONE".toList else []) ++
      (if quiet then " QUIET".toList else [])

def copyRequest (t : Mcpd) (src dst : List Char) (all clone quiet : Bool) (timeoutS : Nat) : Request :=
  execRequest t (copyCommand src dst all clone quiet) (timeoutS * 1000) (max (timeoutS + 30) 60)

/-- `output=str(raw.get("output", ""))` and `exit_code=int(raw.get("exit_code", 0))` -/
def readReply (raw : Json) : Install (List Char × Int) := do
  let output ← getItem py raw "output" (.str [])
  let code ← getItem py raw "exit_code" (.int 0)
  let exitCode ← pyInt py code
  pure (py.str output, exitCode)

def installerCopyTree (fleet : Fleet) (target src dst : List Char) (all clone quiet confirm : Bool)
    (timeoutS : Nat) : Install CopyTreeResult := do
  requireConfirm confirm "installer.copy_tree"
  let t ← liftExcept (fleet.mcpd target)
  let raw ← send (copyRequest t src dst all clone quiet timeoutS)
  let (output, exitCode) ← readReply py raw
  pure ⟨target, src, dst, output, exitCode⟩

structure ApplyLhaResult where
  target : List Char
  archive : List Char
  dest : List Char
  output : List Char
  exitCode : Int
deriving DecidableEq, Repr

/-- `LhA >NIL: x <archive> <dest>/` -/
def lhaCommand (archive dest : List Char) : List Char :=
  let destWithSlash := if dest.getLast? = some '/' then dest else dest ++ ['/']
  "LhA >NIL: x \"".toList ++ archive ++ "\" \"".toList ++ destWithSlash ++ "\"".toList

def lhaRequest (t : Mcpd) (archive dest : List Char) (timeoutS : Nat) : Request :=
  execRequest t (lhaCommand archive dest) (timeoutS * 1000) (max (timeoutS + 30) 60)

def installerApplyLha (fleet : Fleet) (target archive dest : List Char) (confirm : Bool)
    (timeoutS : Nat) : Install ApplyLhaResult := do
  requireConfirm confirm "installer.apply_lha"
  let t ← liftExcept (fleet.mcpd target)
  let raw ← send (lhaRequest t archive dest timeoutS)
  let (output, exitCode) ← readReply py raw
  pure ⟨target, archive, dest, output, exitCode⟩

/-! ## The kicklayout file -/

def kicklayoutPath (destVolume : List Char) : List Char :=
  normalizeVolume destVolume ++ "Kickstart/Kicklayout".toList

structure ReadKicklayoutResult where
  target : List Char
  destVolume : List Char
  path : List Char
  content : List Char
  size : Nat
deriving DecidableEq, Repr

/-- `base64.b64decode(value)` -/
def decodeB64 (value : Json) : Install Bytes :=
  match value with
  | .str text =>
    if text.all (· < 128) then (PyBase64.b64decode text).elim (raisePy py "Error" value) .pure
    else raisePy py "ValueError" value
  | _ => raisePy py "TypeError" value

/-- `decode("ascii", errors="replace")` -/
def decodeAscii (bytes : Bytes) : List Char :=
  bytes.map fun c => if c < 128 then Char.ofNat c.toNat else Char.ofNat 0xFFFD

/-- `content.encode("ascii")` -/
def encodeAscii (content : List Char) : Install Bytes :=
  if content.all (·.toNat < 128) then pure (content.map fun c => UInt8.ofNat c.toNat)
  else raisePy py "UnicodeEncodeError" .null

/-- The bytes of an ASCII text. -/
def asciiBytes (text : List Char) : Bytes := text.map fun c => UInt8.ofNat c.toNat

theorem toNat_ofNat_ascii {n : Nat} (h : n < 128) : (Char.ofNat n).toNat = n := by
  have hall : ∀ k < 128, (Char.ofNat k).toNat = k := by decide +kernel
  exact hall n h

theorem asciiBytes_decodeAscii {file : Bytes} (h : ∀ b ∈ file, b < 128) :
    asciiBytes (decodeAscii file) = file := by
  rw [asciiBytes, decodeAscii, List.map_map]
  refine (List.map_congr_left fun b hb => ?_).trans (List.map_id file)
  have hlt : b.toNat < 128 := UInt8.lt_iff_toNat_lt.mp (h b hb)
  rw [Function.comp_apply, if_pos (h b hb), toNat_ofNat_ascii hlt, UInt8.ofNat_toNat]
  rfl

theorem ascii_decodeAscii {file : Bytes} :
    (∀ c ∈ decodeAscii file, c.toNat < 128) ↔ ∀ b ∈ file, b < 128 := by
  rw [decodeAscii, List.forall_mem_map]
  refine forall₂_congr fun b _ => ?_
  by_cases hb : b < 128
  · rw [if_pos hb, toNat_ofNat_ascii (UInt8.lt_iff_toNat_lt.mp hb)]
    rw [UInt8.lt_iff_toNat_lt]
    rfl
  · rw [if_neg hb]
    exact iff_of_false (by decide) hb

theorem decodeB64_encode (py : PyText) (file : Bytes) :
    decodeB64 py (.str (Base64.encode file)) = .pure file := by
  have hascii : (Base64.encode file).all (· < 128) = true := by
    refine List.all_eq_true.mpr fun c hc => decide_eq_true ?_
    have hplain := (Base64.encode_text file c hc).plain
    rw [UInt8.lt_iff_toNat_lt]
    exact Nat.lt_trans hplain.2.1 (by decide)
  rw [decodeB64, if_pos hascii, PyBase64.b64decode_encode]
  rfl

def installerReadKicklayout (fleet : Fleet) (target destVolume : List Char) :
    Install ReadKicklayoutResult := do
  let klpath := kicklayoutPath destVolume
  let t ← liftExcept (fleet.mcpd target)
  let raw ← pathRequest t "fs.read" klpath
  let contentB64 ← getItem py raw "content_b64" (.str [])
  let bytes ← decodeB64 py contentB64
  let text := decodeAscii bytes
  pure ⟨target, normalizeVolume destVolume, klpath, text, text.length⟩

structure WriteKicklayoutResult where
  target : List Char
  destVolume : List Char
  path : List Char
  bytesWritten : Nat
  backupPath : Option (List Char)
deriving DecidableEq, Repr

/-- The copy of the old file, if a suffix is given and the file is there. -/
def backUp (t : Mcpd) (klpath : List Char) : Option (List Char) → Install (Option (List Char))
  | none | some [] => pure none
  | some suffix =>
    tryExcept (do
      let _ ← pathRequest t "fs.stat" klpath
      let _ ← request t "fs.copy" [("src", .str klpath), ("dst", .str (klpath ++ suffix))]
      pure (some (klpath ++ suffix))) fun _ _ => pure none

def installerWriteKicklayout (fleet : Fleet) (target destVolume content : List Char) (confirm : Bool)
    (backupSuffix : Option (List Char)) : Install WriteKicklayoutResult := do
  requireConfirm confirm "installer.write_kicklayout"
  let klpath := kicklayoutPath destVolume
  let t ← liftExcept (fleet.mcpd target)
  let backupPath ← backUp t klpath backupSuffix
  let bytes ← encodeAscii py content
  let contentB64 := (Base64.encode bytes).map fun c => Char.ofNat c.toNat
  let _ ← request t "fs.write" [("path", .str klpath), ("content_b64", .str contentB64)] (some 120)
  pure ⟨target, normalizeVolume destVolume, klpath, bytes.length, backupPath⟩

/-- The keys of `_AOS_MONTHS` -/
def aosMonths : List (List Char) :=
  ["Jan", "Feb", "Mar", "Apr", "May", "Jun", "Jul", "Aug", "Sep", "Oct", "Nov", "Dec"].map (·.toList)

/-- `str.isdigit` -/
def isDigits (s : List Char) : Bool :=
  s ≠ [] && s.all fun c => if c.toNat < 128 then c.isDigit else py.digit c

/-- `_aos_modified_to_setdate` -/
def aosModifiedToSetdate (modified : List Char) : Option (List Char) :=
  match words modified with
  | [datePart, timePart] =>
    match split '-' datePart with
    | [yy, mon, dd] =>
      if mon ∉ aosMonths then none
      else if !(isDigits py yy && isDigits py dd) then none
      else some (dd ++ '-' :: mon ++ '-' :: yy ++ ' ' :: timePart)
    | _ => none
  | _ => none

/-- `s.get("modified") if isinstance(s, dict) else None` -/
def modifiedOf (s : Json) : Json := (s.get "modified").getD .null

/-- The code points of a text. -/
def ofUtf8 (text : Bytes) : List Char := ((String.fromUTF8? ⟨text.toArray⟩).getD "").toList

/-- The truth value of what JSON gives. -/
def truthy : Json → Bool
  | .null => false
  | .bool b => b
  | .int n => n ≠ 0
  | .float q => q ≠ some 0
  | .str text => text ≠ []
  | .list items => !items.isEmpty
  | .dict members => !members.isEmpty

/-- The `SetDate` at the end of `installer_patch_kicklayout`; the date is read outside
of its `try`, and only a text has a `split`. -/
def restoreDate (t : Mcpd) (path : List Char) (origMtime : Json) : Install Unit :=
  if truthy origMtime then
    match origMtime with
    | .str text =>
      match aosModifiedToSetdate py (ofUtf8 text) with
      | some setdate =>
        guarded (execCmd t ("SetDate \"".toList ++ path ++ "\" ".toList ++ setdate) 10000 15)
      | none => pure ()
    | value => raisePy py "AttributeError" value
  else pure ()

structure PatchKicklayoutResult where
  target : List Char
  destVolume : List Char
  path : List Char
  changed : Bool
  modulesAdded : Int := 0
  labelsApplied : List (List Char) := []
  replacementsDone : Nat := 0
  replacements : List Replacement := []
  bytesWritten : Nat := 0
  backupPath : Option (List Char) := none
deriving DecidableEq, Repr

def installerPatchKicklayout (fleet : Fleet) (target destVolume : List Char)
    (addModules : List ModulesPatch) (replaceText : List TextPatch) (confirm : Bool)
    (backupSuffix : Option (List Char)) : Install PatchKicklayoutResult := do
  requireConfirm confirm "installer.patch_kicklayout"
  let rd ← installerReadKicklayout py fleet target destVolume
  let (newText, summary) := applyPatches py.alnum rd.content addModules replaceText
  if summary.changed then
    let t ← liftExcept (fleet.mcpd target)
    let origMtime ← tryExcept (do
      let s ← pathRequest t "fs.stat" rd.path (some 10)
      pure (modifiedOf s)) fun _ _ => pure .null
    let wr ← installerWriteKicklayout py fleet target rd.destVolume newText true backupSuffix
    restoreDate py t rd.path origMtime
    pure {
      target := target, destVolume := rd.destVolume, path := rd.path, changed := true
      modulesAdded := summary.modulesAdded, labelsApplied := summary.labelsApplied
      replacementsDone := summary.replacementsDone, replacements := summary.replacements
      bytesWritten := wr.bytesWritten, backupPath := wr.backupPath }
  else
    pure { target := target, destVolume := rd.destVolume, path := rd.path, changed := false }

/-! ## amiga_makedir and _maybe_rename -/

/-- `amiga_makedir` -/
def amigaMakedir (t : Mcpd) (path : List Char) : Install Unit := do
  let p := rstripChar '/' path
  if p.getLast? = some ':' ∨ p = [] then pure ()
  else
    match ← (pathRequest t "fs.stat" p).attempt with
    | .ok _ => pure ()
    | .error .cancelled => .raise .cancelled
    | .error (.exception ..) =>
      match ← (pathRequest t "fs.makedir" p).attempt with
      | .ok _ => pure ()
      | .error .cancelled => .raise .cancelled
      | .error (.exception ..) =>
        let raw ← execCmd t ("MakeDir \"".toList ++ p ++ "\" ALL".toList) 30000 35
        -- the second look, which raises when the directory is still not there
        tryExcept (do
          let _ ← pathRequest t "fs.stat" p
          pure ()) fun _ _ => do
            let reply := if truthy raw then raw else .dict []
            let rc ← getItem py reply "exit_code" (.str (ascii "?"))
            let out ← getItem py reply "output" (.str [])
            .raise (.exception "RuntimeError" ("amiga_makedir failed for ".toList ++
              py.reprStr p ++ ": MakeDir exit_code=".toList ++
              py.str rc ++ " output=".toList ++ py.repr out))

/-- `_maybe_rename` -/
def maybeRename (t : Mcpd) (srcPath dstPath : List Char) : Install Unit := do
  match ← (pathRequest t "fs.stat" srcPath).attempt with
  | .error .cancelled => .raise .cancelled
  | .error (.exception ..) => pure ()
  | .ok _ =>
    guarded (do
      let _ ← pathRequest t "fs.stat" dstPath
      guarded (execCmd t ("Delete *>NIL: \"".toList ++ dstPath ++ "\"".toList) 10000 15))
    guarded (execCmd t ("Rename *>NIL: \"".toList ++ srcPath ++ "\" \"".toList ++ dstPath ++
      "\"".toList) 10000 15)

/-! ## copy_base_os -/

def protectRequest (t : Mcpd) (dest : List Char) : Request :=
  execRequest t ("Protect \"".toList ++ dest ++ "\" +rwed ALL QUIET".toList) 60000 70

/-- What `copy_base_os` does behind the copy. -/
def protectBase (ctx : Ctx) (dest : List Char) (copy : CopyTreeResult) : Install (Json × Ctx) := do
  let t ← Ctx.item ctx.mcpd "mcpd"
  let _ ← send (protectRequest t dest)
  pure (.dict [(ascii "exit_code", .int copy.exitCode)], ctx)

def copyBaseOs : Step where
  name := "copy_base_os".toList
  doc := ("Recursive Copy of <ISO>:System/ -> <dest>:, then " ++
    "Protect +rwed ALL QUIET to clear CDFS read-only bits.").toList
  fn ctx := do
    let iso ← Ctx.item ctx.isoVolume "iso_volume"
    let src := iso ++ "System/".toList
    let dest ← Ctx.item ctx.destVolume "dest_volume"
    let fleet ← Ctx.item ctx.fleet "fleet"
    let target ← Ctx.item ctx.target "target"
    let copy ← installerCopyTree py fleet target src dest true true true true 1800
    protectBase ctx dest copy

/-! ## apply_one_update -/

/-- `MachineConfig`, as far as the updates look at it. -/
structure MachineConfig where
  kickSub : Option (List Char) := none
  wbSub : Option (List Char) := none
  kicklayoutReplacements : List TextPatch := []
deriving DecidableEq, Repr

/-- `UPDATE_LHA_NAME` -/
def updateLhaName : Nat → Option (List Char)
  | 1 => some "AmigaOS4.1FinalEditionUpdate1.lha".toList
  | 2 => some "AmigaOS4.1FinalEditionUpdate2-53.14.lha".toList
  | 3 => some "AmigaOS4.1FinalEditionUpdate3-53.34.lha".toList
  | _ => none

/-- `MUI_PER_UPDATE` -/
def muiPerUpdate : Nat → Option (List Char)
  | 1 => some "MUI2016R1".toList
  | 2 => some "MUI2020R3".toList
  | 3 => some "MUI5".toList
  | _ => none

/-- An update that has an archive; for another number no step can be built. -/
structure Update where
  num : Nat
  lhaName : List Char
  listed : updateLhaName num = some lhaName

def Update.text (u : Update) : List Char := (toString u.num).toList

def archivePath (dest : List Char) (u : Update) : List Char := dest ++ "tmp/".toList ++ u.lhaName

def scratchPath (dest : List Char) (u : Update) : List Char :=
  dest ++ "tmp/scratch/upd".toList ++ u.text

/-- One `installer_copy_tree` of the update's content, in its `try`. -/
def copyContent (fleet : Fleet) (target src dst : List Char) (timeoutS : Nat) : Install Unit :=
  guarded (installerCopyTree py fleet target src dst true true true true timeoutS)

/-- `if sub: ...` -/
def withSub (sub : Option (List Char)) (f : List Char → Install Unit) : Install Unit :=
  match sub with
  | none | some [] => pure ()
  | some name => f name

/-- Update 2 keeps two files under other names. -/
def backUpFiles (t : Mcpd) (dest : List Char) : Install Unit :=
  forEach (fun (files : List Char × List Char) => guarded (request t "fs.copy"
      [("src", .str (dest ++ files.1)), ("dst", .str (dest ++ files.2))]))
    [("S/Startup-Sequence".toList, "S/Startup-Sequence-preUpd2".toList),
      ("Kickstart/Kicklayout".toList, "Kickstart/Kicklayout-preUpd2".toList)]

/-- The copies of an update's content. -/
def copyUpdate (config : MachineConfig) (u : Update) (fleet : Fleet) (target dest : List Char) :
    Install Unit := do
  let content := scratchPath dest u ++ "/AmigaOS 4.1 Final Edition Update ".toList ++ u.text ++
    "/Content".toList
  forEach (fun (dirs : List Char × List Char) =>
      copyContent py fleet target (content ++ '/' :: dirs.1 ++ ['/']) (dest ++ dirs.2) 600)
    [("Workbench".toList, []), ("Kickstart".toList, "Kickstart/".toList)]
  withSub config.kickSub fun sub =>
    copyContent py fleet target (content ++ '/' :: sub ++ ['/']) (dest ++ "Kickstart/".toList) 300
  withSub config.wbSub fun sub =>
    copyContent py fleet target (content ++ '/' :: sub ++ ['/']) dest 300
  withSub (muiPerUpdate u.num) fun sub =>
    copyContent py fleet target (content ++ '/' :: sub ++ ['/']) dest 300

/-- The two edits of the Kicklayout, which are not in a `try`. -/
def patchUpdate (config : MachineConfig) (u : Update) (fleet : Fleet) (target dest : List Char) :
    Install Unit := do
  onlyIf (u.num = 2 ∧ config.kicklayoutReplacements ≠ []) (installerPatchKicklayout py fleet target
    dest [] config.kicklayoutReplacements true none)
  onlyIf (u.num = 1) (installerPatchKicklayout py fleet target dest
    [⟨["Kickstart/mounter.library".toList], "Update 1".toList⟩] [] true none)

/-- `symlinks` -/
def symlinks : Nat → List (String × String)
  | 1 => [("libz.so", "libz.so.1.2.3"), ("libz.so.1", "libz.so.1.2.3"),
      ("libz.so.1.2", "libz.so.1.2.3"), ("libpng.so", "libpng12.so"),
      ("libbz2.so", "libbz2.so.1.0.4"), ("libbz2.so.1.0", "libbz2.so.1.0.4"),
      ("libfontconfig.so", "libfontconfig.so.2.12.1"), ("libharfbuzz.so", "libharfbuzz.so.0.9.28")]
  | 2 => [("libz.so", "libz.so.1.2.3"), ("libz.so.1", "libz.so.1.2.3"),
      ("libz.so.1.2", "libz.so.1.2.3"), ("libpng.so", "libpng12.so")]
  | _ => []

def deleteLink (t : Mcpd) (linkPath : List Char) : Install Unit :=
  guarded (execCmd t ("Delete *>NIL: QUIET \"".toList ++ linkPath ++ "\"".toList) 10000 15)

def makeLink (t : Mcpd) (linkPath linkTarget : List Char) : Install Unit :=
  guarded (execCmd t ("MakeLink *>NIL: \"".toList ++ linkPath ++ "\" ".toList ++ linkTarget ++
    " SOFT FORCE".toList) 10000 15)

/-- The links into `SObjs`. -/
def fixLinks (t : Mcpd) (u : Update) (dest : List Char) : Install Unit := do
  let sobjs := dest ++ "SObjs/".toList
  forEach (fun (link : String × String) => do
      deleteLink t (sobjs ++ link.1.toList)
      makeLink t (sobjs ++ link.1.toList) link.2.toList) (symlinks u.num)
  onlyIf (u.num = 3) (guarded (do
    let _ ← pathRequest t "fs.stat" (sobjs ++ "libz.so.1.2.13".toList)
    forEach (fun (old : String) => deleteLink t (sobjs ++ old.toList))
      ["libz.so", "libz.so.1", "libz.so.1.2", "libz.so.1.2.3", "libz.so.1.2.11"]
    forEach (fun (new : String) => makeLink t (sobjs ++ new.toList) "libz.so.1.2.13".toList)
      ["libz.so", "libz.so.1", "libz.so.1.2"]))

/-- The renames of names that the unpacker has mangled, and the last deletion. -/
def renameMangled (t : Mcpd) (dest : List Char) : Install Unit := do
  let util := dest ++ "Utilities/".toList
  maybeRename t (util ++ "Installation_Utility".toList) (util ++ "Installation Utility".toList)
  let sysd := dest ++ "System/".toList
  forEach (fun (names : String × String) =>
      maybeRename t (sysd ++ names.1.toList) (sysd ++ names.2.toList))
    [("Media_Toolbox", "Media Toolbox"), ("Media_Toolbox.info", "Media Toolbox.info")]
  guarded (execCmd t ("Delete *>NIL: \"".toList ++ util ++ "CatComp\"".toList) 10000 15)

/-- What `apply_one_update` does behind the extraction. -/
def installUpdate (config : MachineConfig) (u : Update) (t : Mcpd) (fleet : Fleet)
    (target dest : List Char) : Install Unit := do
  onlyIf (u.num = 2) (backUpFiles t dest)
  copyUpdate py config u fleet target dest
  patchUpdate py config u fleet target dest
  fixLinks t u dest
  renameMangled t dest

/-- The label of the packages in the step's text. -/
def pkgLabel (config : MachineConfig) : List Char :=
  let subs := [config.kickSub.getD [], config.wbSub.getD []].filter (· ≠ [])
  if subs = [] then "(no machine pkgs)".toList else List.intercalate ['+'] subs

def applyOneUpdate (config : MachineConfig) (u : Update) : Step where
  name := "apply_update_".toList ++ u.text
  doc := "Extract + apply Update ".toList ++ u.text ++ " (".toList ++ u.lhaName ++
    "). Per-machine packages: ".toList ++ pkgLabel config ++ "; MUI: ".toList ++
    (muiPerUpdate u.num).getD "none".toList ++ ['.']
  fn ctx := do
    let t ← Ctx.item ctx.mcpd "mcpd"
    let target ← Ctx.item ctx.target "target"
    let fleet ← Ctx.item ctx.fleet "fleet"
    let dest ← Ctx.item ctx.destVolume "dest_volume"
    amigaMakedir py t (scratchPath dest u)
    let _ ← installerApplyLha py fleet target (archivePath dest u) (scratchPath dest u) true 900
    installUpdate py config u t fleet target dest
    pure (.dict [(ascii "update", .int u.num),
      (ascii "scratch", .str (String.ofList (scratchPath dest u)).toUTF8.toList),
      (ascii "symlinks_applied", .int (symlinks u.num).length)], ctx)

end AmigaFleet.Host.Installer
