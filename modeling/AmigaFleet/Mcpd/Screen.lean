import AmigaFleet.Lib.Patch
import AmigaFleet.Lib.Png
import AmigaFleet.Mcpd.FsExamine

/-!
# wb.screenshot

`wb_screenshot` of `mcpd/src/methods/screen.c` with `png_chunk`.  The libraries of the
Amiga are not in the repository: `ZIFace` is the part of z.library that the handler
calls, and `ShotSystem` is what intuition, the allocator and `dos.library` answer during
one call.

The handler captures the screen into rows behind filter bytes (`captureRaw`), deflates
them (`deflateRaw`) and writes the chunks of a PNG file (`pngFile`).  A file that could
not be written is deleted.
-/

namespace AmigaFleet.Mcpd.Screenshot

open AmigaFleet.Lib
open Png (Rgb)
open Fs (Volume ZCode mcpdErrNotcapable)

/-- `SHOT_RAW_MAX` -/
def shotRawMax : Nat := 64 * 1024 * 1024

/-- `SHOT_DEFAULT_PATH` -/
def shotDefaultPath : Bytes := ascii "T:mcpd-shot.png"

/-- `MCPD_ERR_BUSY` -/
def mcpdErrBusy : Int := -32005

/-! ## The libraries -/

/-- `struct ZIFace`, for compression. -/
structure ZIFace where
  deflateInit : Bool
  deflateBound : Nat → Nat
  /-- `Deflate` with `Z_FINISH` and this much room: the code, and what it writes -/
  deflate : Bytes → Nat → ZCode × Bytes
  crc32 : UInt32 → Bytes → UInt32

/-- `struct Screen`, with the depth of its bitmap. -/
structure Screen where
  address : UInt32
  width : Int16
  height : Int16
  depth : Int
  /-- the pixel in a column and a row -/
  pixel : Nat → Nat → Rgb

/-- The answers that one `wb_screenshot` is given. -/
structure ShotSystem where
  opensLibrary : Bool := true
  getsInterface : Bool := true
  /-- the screens under the first lock -/
  screens : List Screen
  /-- the screens under the second lock -/
  screensLater : List Screen
  /-- what the capture buffer holds when it is allocated -/
  rawMemory : Option (Nat → UInt8)
  allocsComp : Bool := true
  opens : Bool := true
  /-- how much each call of `Write` manages; `none` is all -/
  room : Nat → Option Nat := fun _ => none

/-- `ReadPixelArray` of a rectangle at the origin, in the format `PIXF_R8G8B8`, to the
position `start` of the buffer. -/
def readPixelArray (pixel : Nat → Nat → Rgb) (buf : Bytes) (start bytesPerRow width height : Nat) :
    Bytes :=
  (List.range height).foldl
    (fun buf y => patch 0 buf (start + y * bytesPerRow)
      ((List.range width).flatMap fun x => (pixel x y).bytes)) buf

/-! ## The capture -/

/-- The parameter `screen_index`. -/
def screenIndex (params : Option CJson) : Nat :=
  let screenIndex := (pInt params "screen_index" 0).bmod (2 ^ 32)
  (if screenIndex < 0 then 0 else screenIndex).toNat

/-- The parameter `path`. -/
def shotPath (params : Option CJson) : Bytes :=
  match params.bind (CJson.getItem (ascii "path")) with
  | some (.string text) => if text = [] then shotDefaultPath else text
  | _ => shotDefaultPath

/-- `rowstride`, in 32 bits. -/
def rowstride (width : Nat) : Nat := (1 + width * 3) % 2 ^ 32

/-- The filter bytes of the rows. -/
def clearFilters (buf : Bytes) (rowstride height : Nat) : Bytes :=
  (List.range height).foldl (fun raw r => raw.set (r * rowstride) 0) buf

/-- The screen that is found, and the filtered rows. -/
def captureRaw (sys : ShotSystem) (screenIndex : Nat) : Except CJson (Screen × Bytes) :=
  if sys.opensLibrary = false then
    .error (rpcMakeError mcpdErrInternal "OpenLibrary intuition.library v50 failed" none)
  else if sys.getsInterface = false then
    .error (rpcMakeError mcpdErrInternal "GetInterface(intuition main) failed" none)
  else
    let noSuch := rpcMakeError mcpdErrInvparams "no such screen"
      (some (.object [(ascii "screen_index", cNumber screenIndex)]))
    match sys.screens[screenIndex]? with
    | none => .error noSuch
    | some target =>
      if target.width.toInt ≤ 0 ∨ target.height.toInt ≤ 0 then .error noSuch
      else
        let width := target.width.toInt.toNat
        let height := target.height.toInt.toNat
        let rawlen := rowstride width * height
        if rawlen > shotRawMax then
          .error (rpcMakeError mcpdErrInvparams "screen too large to capture" none)
        else
          match sys.rawMemory with
          | none => .error (rpcMakeError mcpdErrInternal "out of memory for capture buffer" none)
          | some memory =>
            let raw := (List.range rawlen).map memory
            let changed := rpcMakeError mcpdErrBusy "screen changed during capture; retry" none
            match sys.screensLater[screenIndex]? with
            | none => .error changed
            | some s =>
              if s.address = target.address ∧ s.width = target.width ∧ s.height = target.height then
                let raw := readPixelArray s.pixel raw 1 (rowstride width) width height
                .ok (target, clearFilters raw (rowstride width) height)
              else .error changed

/-- The zlib stream of the rows. -/
def deflateRaw (z : ZIFace) (sys : ShotSystem) (raw : Bytes) : Except CJson Bytes :=
  if z.deflateInit = false then .error (rpcMakeError mcpdErrInternal "DeflateInit failed" none)
  else
    let bound := z.deflateBound raw.length
    if sys.allocsComp = false then
      .error (rpcMakeError mcpdErrInternal "out of memory for compressed buffer" none)
    else
      match z.deflate raw bound with
      | (.streamEnd, comp) => .ok comp
      | _ => .error (rpcMakeError mcpdErrInternal "zlib Deflate failed" none)

/-! ## The file -/

/-- What is in a file that is written, and the calls of `Write` so far. -/
structure FileHandle where
  content : Bytes
  calls : Nat

/-- Writing to a file until a call falls short. -/
abbrev Writer := StateT FileHandle Option

/-- `IDOS->Write(fh, data, len) != len` fails. -/
def write (room : Nat → Option Nat) (data : Bytes) : Writer Unit := fun fh =>
  let wrote := data.take ((room fh.calls).getD data.length)
  if wrote.length ≠ data.length then none else some ((), ⟨fh.content ++ wrote, fh.calls + 1⟩)

/-- `png_chunk` -/
def pngChunk (z : ZIFace) (room : Nat → Option Nat) (type data : Bytes) : Writer Unit := do
  write room (header data.length)
  write room type
  if data.length ≠ 0 then write room data
  let crc := z.crc32 0 []
  let crc := z.crc32 crc type
  let crc := if data.length ≠ 0 then z.crc32 crc data else crc
  write room (header crc.toNat)

/-- A captured screen. -/
structure Shot where
  width : Nat
  height : Nat
  depth : Int
  comp : Bytes

/-- The bytes of `sig`. -/
def sig : Bytes := [137, 80, 78, 71, 13, 10, 26, 10]

/-- The bytes of `ihdr`. -/
def ihdr (width height : Nat) : Bytes := header width ++ header height ++ [8, 2, 0, 0, 0]

/-- The writes of `wb_screenshot`. -/
def pngFile (z : ZIFace) (room : Nat → Option Nat) (shot : Shot) : Writer Unit := do
  write room sig
  pngChunk z room (ascii "IHDR") (ihdr shot.width shot.height)
  pngChunk z room (ascii "IDAT") shot.comp
  pngChunk z room (ascii "IEND") []

/-- The phases up to the compression. -/
def takeShot (z : ZIFace) (sys : ShotSystem) (screenIndex : Nat) : Except CJson Shot :=
  match captureRaw sys screenIndex with
  | .error err => .error err
  | .ok (target, raw) =>
    match deflateRaw z sys raw with
    | .error err => .error err
    | .ok comp => .ok ⟨target.width.toInt.toNat, target.height.toInt.toNat, target.depth, comp⟩

/-- The result object. -/
def shotResult (path : Bytes) (screenIndex : Nat) (shot : Shot) : CJson :=
  .object [(ascii "path", .string path), (ascii "format", cString "png"),
    (ascii "width", cNumber shot.width), (ascii "height", cNumber shot.height),
    (ascii "depth", cNumber shot.depth), (ascii "screen_index", cNumber screenIndex),
    (ascii "bytes", cNumber (8 + (12 + 13) + (12 + shot.comp.length) + (12 + 0) : Nat))]

/-- What is left of the writes.  `Delete` removes the file that the call has just closed. -/
def closeShot (volume : Volume) (path : Bytes) (result : CJson) :
    Option (Unit × FileHandle) → Volume × Outcome
  | none =>
    (Function.update volume path none, .error (targetError "write error while saving PNG" path))
  | some (_, fh) => (Function.update volume path (some fh.content), .ok result)

/-- `wb_screenshot` -/
def wbScreenshot (iz : Option ZIFace) (sys : ShotSystem) (volume : Volume) (params : Option CJson) :
    Volume × Outcome :=
  match iz with
  | none =>
    (volume, .error (rpcMakeError mcpdErrNotcapable "z.library v53+ required for PNG encoding" none))
  | some z =>
    let path := shotPath params
    match takeShot z sys (screenIndex params) with
    | .error err => (volume, .error err)
    | .ok shot =>
      if sys.opens = false then
        (volume, .error (targetError "cannot open output path for writing" path))
      else
        closeShot volume path (shotResult path (screenIndex params) shot)
          (pngFile z sys.room shot ⟨[], 0⟩)

end AmigaFleet.Mcpd.Screenshot
