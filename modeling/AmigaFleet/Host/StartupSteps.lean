import AmigaFleet.Host.Install
import Mathlib.Data.List.Infix

/-!
# The steps that edit startup files

`install_serialshell` and `install_mcpd` of `installer/sequences/_steps.py`.
Each copies what was staged and then appends lines to a startup file: it reads
the file, adds the lines to its text and writes the whole text back.
-/

namespace AmigaFleet.Host.Installer

open AmigaFleet.Lib
open AmigaFleet.Mcpd (ascii)
open AmigaFleet.Host.PyStr

/-- A `str` in what a step returns. -/
def strJson (text : List Char) : Json := .str (String.ofList text).toUTF8.toList

/-- A value or `None`. -/
def optJson (text : Option (List Char)) : Json := text.elim .null strJson

variable (py : PyText)

/-! ## What the two steps share -/

/-- `try: await mcpd.request("fs.stat", ...)`, and whether the path is there. -/
def isStaged (t : Mcpd) (path : List Char) : Install Bool :=
  tryExcept (do
    let _ ← pathRequest t "fs.stat" path
    pure true) fun _ _ => pure false

/-- `fs.copy`, and `Copy ... CLONE` when that fails. -/
def copyOrClone (t : Mcpd) (src dst : List Char) (timeoutMs : Int) (timeoutS : Nat) :
    Install Unit :=
  tryExcept (do
    let _ ← request t "fs.copy" [("src", .str src), ("dst", .str dst)]
    pure ()) fun _ _ => do
      let _ ← execCmd t ("Copy \"".toList ++ src ++ "\" \"".toList ++ dst ++ "\" CLONE".toList)
        timeoutMs timeoutS
      pure ()

/-- `Protect "<path>" +rwed` -/
def protectFile (t : Mcpd) (path : List Char) : Install Unit := do
  let _ ← execCmd t ("Protect \"".toList ++ path ++ "\" +rwed".toList) 30000 35
  pure ()

/-- `_capture_mtime` -/
def captureMtime (t : Mcpd) (path : List Char) : Install Json :=
  tryExcept (do
    let s ← pathRequest t "fs.stat" path (some 10)
    pure (modifiedOf s)) fun _ _ => pure .null

/-- `_restore_mtime`; the body is that of the end of `installer_patch_kicklayout`. -/
def restoreMtime (t : Mcpd) (path : List Char) (original : Json) : Install Unit :=
  restoreDate py t path original

/-- The `existing` of a startup file: a failure of any kind makes it empty. -/
def readExisting (t : Mcpd) (path : List Char) : Install (List Char) :=
  tryExcept (do
    let raw ← pathRequest t "fs.read" path
    let contentB64 ← getItem py raw "content_b64" (.str [])
    let bytes ← decodeB64 py contentB64
    pure (decodeAscii bytes)) fun _ _ => pure []

/-- The new text of a startup file. -/
def withBlock (existing block : List Char) : List Char :=
  (if existing ≠ [] ∧ existing.getLast? ≠ some '\n' then existing ++ ['\n'] else existing) ++ block

/-- `fs.write` of the new text. -/
def writeText (t : Mcpd) (path text : List Char) (timeoutS : Nat) : Install Unit := do
  let bytes ← encodeAscii py text
  let _ ← request t "fs.write" [("path", .str path),
    ("content_b64", .str ((Base64.encode bytes).map fun c => Char.ofNat c.toNat))] (some timeoutS)
  pure ()

/-! ## install_serialshell -/

def serialShellMarker : List Char := ";BEGIN SerialShell".toList

def serialShellBlock : List Char :=
  ("\n;BEGIN SerialShell\n" ++
    "NewShell \"CON:0/400/640/200/SerialShell/AUTO/CLOSE\" FROM S:SerialShell-Startup\n" ++
    ";END SerialShell\n").toList

/-- The append to `S:User-Startup`. -/
def appendSerialShell (t : Mcpd) (dest : List Char) : Install Json := do
  let path := dest ++ "S/User-Startup".toList
  let binary := strJson (dest ++ "C/SerialShell".toList)
  let origMtime ← captureMtime t path
  let existing ← readExisting py t path
  if serialShellMarker <:+: existing then
    pure (.dict [(ascii "action", strJson "binary copied; User-Startup unchanged".toList),
      (ascii "binary", binary), (ascii "marker_already_present", .bool true)])
  else
    writeText py t path (withBlock existing serialShellBlock) 30
    restoreMtime py t path origMtime
    pure (.dict [(ascii "action", strJson "installed".toList), (ascii "binary", binary),
      (ascii "user_startup", strJson path)])

def installSerialShell : Step where
  name := "install_serialshell".toList
  doc := ("Install SerialShell binary to C:, write S:SerialShell-Startup, and append a " ++
    "NewShell auto-start block to S:User-Startup.").toList
  fn ctx := do
    let t ← Ctx.item ctx.mcpd "mcpd"
    let dest ← Ctx.item ctx.destVolume "dest_volume"
    let binarySrc := dest ++ "tmp/SerialShell".toList
    let binaryDst := dest ++ "C/SerialShell".toList
    if ← isStaged t binarySrc then
      amigaMakedir py t (dest ++ "C".toList)
      copyOrClone t binarySrc binaryDst 30000 35
      protectFile t binaryDst
      amigaMakedir py t (dest ++ "S".toList)
      writeText py t (dest ++ "S/SerialShell-Startup".toList) "C:SerialShell\n".toList 30
      let result ← appendSerialShell py t dest
      pure (result, ctx)
    else
      pure (.dict [(ascii "action", strJson "skipped".toList),
        (ascii "reason", strJson "SerialShell binary not staged at tmp/".toList)], ctx)

/-! ## install_mcpd -/

def mcpdMarker : List Char := "SYS:System/MCPd/MCPd".toList

def mcpdBlock : List Char :=
  "\n; MCPd - Model Context Protocol daemon\n".toList ++ "Run >NIL: <NIL: ".toList ++ mcpdMarker ++
    "\n".toList

/-- One turn of the loop over the helper scripts, and what it adds to `helpers_installed`. -/
def installHelper (t : Mcpd) (dest helper : List Char) : Install (List (List Char)) := do
  let hsrc := dest ++ "tmp/".toList ++ helper
  let hdst := dest ++ "System/MCPd/".toList ++ helper
  if ← isStaged t hsrc then
    copyOrClone t hsrc hdst 30000 35
    protectFile t hdst
    pure [hdst]
  else pure []

/-- The backup of the startup file: the text that the file is taken to have, and
whether a copy was made. -/
def backUpStartup (t : Mcpd) (path existing : List Char) : Install (List Char × Bool) := do
  let backup := path ++ ".before-mcpd".toList
  if ← isStaged t backup then pure (existing, false)
  else
    tryExcept (do
      let _ ← request t "fs.copy" [("src", .str path), ("dst", .str backup)]
      pure (existing, true)) fun _ _ => pure ([], false)

/-- The append to `S:Network-Startup`. -/
def appendMcpd (t : Mcpd) (dest : List Char) (helpers : List (List Char)) : Install Json := do
  let path := dest ++ "S/Network-Startup".toList
  let binary := strJson (dest ++ "System/MCPd/MCPd".toList)
  let inputHelpers := Json.list (helpers.map strJson)
  let origMtime ← captureMtime t path
  let existing ← readExisting py t path
  if mcpdMarker <:+: existing then
    pure (.dict [(ascii "action", strJson "binary copied; Network-Startup unchanged".toList),
      (ascii "binary", binary), (ascii "input_helpers", inputHelpers),
      (ascii "marker_already_present", .bool true)])
  else
    let (existing, backedUp) ← backUpStartup t path existing
    writeText py t path (withBlock existing mcpdBlock) 60
    restoreMtime py t path origMtime
    pure (.dict [(ascii "action", strJson "installed".toList), (ascii "binary", binary),
      (ascii "input_helpers", inputHelpers), (ascii "network_startup", strJson path),
      (ascii "backed_up_to",
        optJson (if backedUp then some (path ++ ".before-mcpd".toList) else none))])

def installMcpd : Step where
  name := "install_mcpd".toList
  doc := ("Copy MCPd binary to SYS:System/MCPd/, +rwed, append launch line to " ++
    "S:Network-Startup so it auto-starts on first boot. Also copies the MCPd-Enable-Input / " ++
    "MCPd-Disable-Input operator scripts when staged - copied only, never run: input injection " ++
    "stays off.").toList
  fn ctx := do
    let t ← Ctx.item ctx.mcpd "mcpd"
    let dest ← Ctx.item ctx.destVolume "dest_volume"
    let binarySrc := dest ++ "tmp/MCPd".toList
    let binaryDst := dest ++ "System/MCPd/MCPd".toList
    if ← isStaged t binarySrc then
      amigaMakedir py t (dest ++ "System/MCPd".toList)
      copyOrClone t binarySrc binaryDst 60000 70
      protectFile t binaryDst
      let enable ← installHelper t dest "MCPd-Enable-Input".toList
      let disable ← installHelper t dest "MCPd-Disable-Input".toList
      let result ← appendMcpd py t dest (enable ++ disable)
      pure (result, ctx)
    else
      pure (.dict [(ascii "action", strJson "skipped".toList),
        (ascii "reason", strJson "MCPd binary not staged at tmp/MCPd".toList)], ctx)

end AmigaFleet.Host.Installer
