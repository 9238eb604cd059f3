import AmigaFleet.Mcpd.InputKeys

/-!
# The input methods

`mcpd/src/methods/input.c`: keys, text and mouse events through input.device.
`Ctx` is `inject_ctx`; `written` are the events that it has handed to
input.device, which accepts every event.  A function that may stop the call
returns `Except Ctx Ctx`: what a `goto done` or a `break` leaves is the error.

`World` is what a call finds on the machine.  Time stamps are left out.
-/

namespace AmigaFleet.Mcpd.Input

open AmigaFleet.Lib

/-! ## Caps -/

/-- `INPUT_MAX_TEXT` -/
def inputMaxText : Nat := 512

/-- `INPUT_MAX_CHORD_KEYS` -/
def inputMaxChordKeys : Nat := 8

/-- `INPUT_MAX_MOVE` -/
def inputMaxMove : Int := 4096

/-- `INPUT_MAX_DRAG_STEPS` -/
def inputMaxDragSteps : Int := 64

/-- `INPUT_MAX_SCROLL` -/
def inputMaxScroll : Int := 32

/-- `INPUT_MAX_DELAY_MS` -/
def inputMaxDelayMs : Int := 1000

/-- `INPUT_MAX_EVENTS` -/
def inputMaxEvents : Nat := 256

/-- `INPUT_MAX_BUDGET_MS` -/
def inputMaxBudgetMs : Nat := 20000

/-- `INPUT_DEF_KEY_MS` -/
def inputDefKeyMs : Int := 15

/-- `INPUT_DEF_CHAR_MS` -/
def inputDefCharMs : Int := 25

/-- `INPUT_DEF_MOVE_MS` -/
def inputDefMoveMs : Int := 10

/-- `INPUT_DEF_BUTTON_MS` -/
def inputDefButtonMs : Nat := 50

/-! ## Events -/

/-- `ie_Class` -/
inductive EventClass where
  | rawKey
  | rawMouse
  | mouseWheel
deriving DecidableEq, Repr

/-- An `InputEvent`.  Codes stay below 256; `prev1` and `prev2` are the down
codes and qualifiers in front of a key. -/
structure Event where
  cls : EventClass
  code : UInt8 := 0
  qualifier : UInt16 := 0
  x : Int16 := 0
  y : Int16 := 0
  prev1 : UInt8 × UInt8 := (0, 0)
  prev2 : UInt8 × UInt8 := (0, 0)
deriving DecidableEq, Repr

/-- The event of a key that goes down. -/
def keyDown (code : UInt8) (qual : UInt16) : Event :=
  { cls := .rawKey, code := code, qualifier := qual }

/-- The same key goes up. -/
def Event.up (e : Event) : Event := { e with code := e.code ||| upPrefix }

/-- A mouse button without motion. -/
def buttonEvent (code : UInt8) : Event :=
  { cls := .rawMouse, code := code, qualifier := qualRelativeMouse }

/-- Relative motion, with the buttons that are held; `(WORD)` keeps 16 bits. -/
def motionEvent (dx dy : Int) (buttons : UInt16) : Event :=
  { cls := .rawMouse
    code := codeNoButton
    qualifier := qualRelativeMouse ||| buttons
    x := Int16.ofInt dx
    y := Int16.ofInt dy }

/-! ## The injection context -/

/-- `inject_ctx`; the modifier held last stands first. -/
structure Ctx where
  tioOpen : Bool
  heldMods : List UInt8 := []
  heldQuals : UInt16 := 0
  heldButtons : UInt16 := 0
  heldButtonCode : UInt8 := 0
  events : Nat := 0
  spentMs : Nat := 0
  truncated : Bool := false
  written : List Event := []
deriving DecidableEq, Repr

/-- `DoIO` of `IND_WRITEEVENT`. -/
def Ctx.emit (e : Event) (c : Ctx) : Ctx := { c with written := c.written ++ [e] }

/-- `_delay_ms` -/
def Ctx.delayMs (ms : Nat) (c : Ctx) : Ctx :=
  if ms = 0 ∨ c.tioOpen = false then c else { c with spentMs := c.spentMs + ms }

/-- `_write_event` -/
def Ctx.writeEvent (e : Event) (c : Ctx) : Except Ctx Ctx :=
  if c.events ≥ inputMaxEvents ∨ c.spentMs ≥ inputMaxBudgetMs then .error { c with truncated := true }
  else .ok { c.emit e with events := c.events + 1 }

/-- `_push_modifier` -/
def Ctx.pushModifier (k : NamedKey) (c : Ctx) : Except Ctx Ctx :=
  if c.heldMods.length ≥ inputMaxChordKeys then .error c
  else do
    let c ← c.writeEvent (keyDown k.code c.heldQuals)
    .ok { c with heldQuals := c.heldQuals ||| k.qual, heldMods := k.code :: c.heldMods }

/-- The loop of `_release_modifiers`. -/
def Ctx.releaseKeys : List UInt8 → Ctx → Ctx
  | [], c => { c with heldMods := [], heldQuals := 0 }
  | code :: codes, c => Ctx.releaseKeys codes (c.emit (keyDown code c.heldQuals).up)

/-- `_release_modifiers` -/
def Ctx.releaseModifiers (c : Ctx) : Ctx := c.releaseKeys c.heldMods

/-- `_release_buttons` -/
def Ctx.releaseButtons (c : Ctx) : Ctx :=
  if c.heldButtonCode = 0 then c
  else { c.emit (buttonEvent c.heldButtonCode).up with heldButtonCode := 0, heldButtons := 0 }

/-- `_inject_close` of a context that has been opened. -/
def Ctx.close (c : Ctx) : Ctx := c.releaseButtons.releaseModifiers.delayMs 20

/-- The context with which a call goes on to its end. -/
def finish : Except Ctx Ctx → Ctx
  | .ok c => c
  | .error c => c

/-! ## The machine -/

/-- How `_inject_open` fails. -/
inductive OpenFailure where
  | msgPort
  | ioRequest
  | inputDevice
  | inputEvent
deriving DecidableEq, Repr

def internalError (message : String) : CJson := rpcMakeError mcpdErrInternal message none

def OpenFailure.error : OpenFailure → CJson
  | .msgPort => internalError "AllocSysObject(MsgPort) failed"
  | .ioRequest => internalError "AllocSysObject(IORequest) failed"
  | .inputDevice => internalError "OpenDevice(input.device) failed"
  | .inputEvent => internalError "AllocVecTags(InputEvent, MEMF_SHARED) failed"

/-- How `_pointer_pos` fails. -/
inductive PointerFailure where
  | openLibrary
  | getInterface
  | noScreen
deriving DecidableEq, Repr

def PointerFailure.error : PointerFailure → CJson
  | .openLibrary => internalError "OpenLibrary intuition.library v50 failed"
  | .getInterface => internalError "GetInterface(intuition main) failed"
  | .noScreen => internalError "no screen open; cannot determine pointer position"

/-- The pointer and the size of the frontmost screen. -/
structure Pointer where
  x : Int
  y : Int
  w : Int
  h : Int
deriving DecidableEq, Repr

/-- An answer of `MapANSI`: its result and the code and qualifier pairs in the
buffer. -/
structure MapAnswer where
  pairs : Int32
  rbuf : Fin 3 → UInt8 × UInt8

/-- `keymap.library`; an answer may depend on the calls before it. -/
abbrev Keymap := Nat → UInt8 → MapAnswer

/-- What a call finds on the machine.  `pointer` is read before the events and
`landed` after them. -/
structure World where
  enabled : Bool
  openFailure : Option OpenFailure
  timer : Bool
  keymap : Option Keymap
  pointer : Except PointerFailure Pointer
  landed : Except PointerFailure Pointer

/-- What a call leaves: its answer and the events it wrote. -/
structure Done where
  outcome : Outcome
  written : List Event

def refused (e : CJson) : Done := ⟨.error e, []⟩

/-- `MCPD_ERR_NOTCAPABLE` -/
def mcpdErrNotcapable : Int := -32003

/-- `INPUT_ENABLE_HINT` -/
def inputEnableHint : String :=
  "start MCPd with --enable-input, or create SYS:System/MCPd/ENABLE-INPUT on the target and restart MCPd"

/-- The error of `INPUT_GATE`. -/
def gateError : CJson :=
  rpcMakeError mcpdErrNotcapable "input injection is disabled on this daemon"
    (some (.object [(ascii "reason", cString "input_disabled"),
      (ascii "enable", cString inputEnableHint)]))

/-- `_inject_open` and what follows, down to the answer of the call. -/
def World.inject (w : World) (body : Ctx → Ctx × List (Bytes × CJson)) : Done :=
  match w.openFailure with
  | some failure => refused failure.error
  | none =>
    let r := body { tioOpen := w.timer }
    let c := r.1.close
    ⟨.ok (.object (r.2 ++ [(ascii "events", cNumber c.events), (ascii "duration_ms", cNumber c.spentMs),
      (ascii "truncated", .bool c.truncated)])), c.written⟩

/-- Where the pointer has ended up. -/
def World.landing (w : World) : List (Bytes × CJson) :=
  match w.landed with
  | .ok p => [(ascii "x", cNumber p.x), (ascii "y", cNumber p.y)]
  | .error _ => [(ascii "x", .null), (ascii "y", .null)]

/-! ## Parameters -/

def invalid (message : String) : CJson := rpcMakeError mcpdErrInvparams message none

/-- A message that is cut to its buffer. -/
def invalidText (message : Bytes) : CJson :=
  .object [(ascii "code", cNumber mcpdErrInvparams), (ascii "message", .string message)]

/-- `cJSON_GetObjectItemCaseSensitive` -/
def param (params : Option CJson) (name : String) : Option CJson :=
  params.bind (CJson.getItem (ascii name))

/-- A pacing that `_get_delay` lets pass. -/
abbrev Delay := { ms : Nat // ms ≤ inputMaxDelayMs.toNat }

/-- `_get_delay` -/
def getDelay (params : Option CJson) (dflt : Int) : Except CJson Delay :=
  let d := pInt params "delay_ms" dflt
  if h : d < 0 ∨ d > inputMaxDelayMs then .error (invalid "delay_ms out of range [0..1000]")
  else .ok ⟨d.toNat, by have := not_or.mp h; simp only [inputMaxDelayMs] at *; omega⟩

/-- `_require_confirm` -/
def requireConfirm (params : Option CJson) (what : String) : Except CJson Unit :=
  match param params "confirm" with
  | some (.bool true) => .ok ()
  | _ => .error (invalidText ((ascii what ++
      ascii " requires confirm:true (injects real input)").take 127))

/-- `(int)` of a number. -/
def intParam (params : Option CJson) (name : String) : Option Int :=
  match param params name with
  | some (.number value) => some (toLongLong value)
  | _ => none

/-- A string parameter, or its default. -/
def stringParam (params : Option CJson) (name dflt : String) : Bytes :=
  match param params name with
  | some (.string text) => text
  | _ => ascii dflt

/-! ## input.key -/

/-- The keys of a chord, all but the last of them modifiers. -/
structure Chord where
  modifiers : List NamedKey
  finalCode : UInt8
  finalShift : Bool
deriving DecidableEq, Repr

def Chord.has (chord : Chord) (code : UInt8) : Bool :=
  chord.modifiers.any (fun k => k.code = code) ∨ chord.finalCode = code

/-- The three keys that reset the machine. -/
def Chord.resets (chord : Chord) : Bool :=
  chord.has rawCtrl ∧ chord.has rawLAmiga ∧ chord.has rawRAmiga

/-- The last key of a chord. -/
def resolveFinal (name : Bytes) : Except CJson (UInt8 × Bool) :=
  match findNamedKey name with
  | some k => .ok (k.code, false)
  | none =>
    let single := match name with
      | [c] => asciiToRaw c
      | _ => none
    match single with
    | some key => .ok key
    | none => .error (invalidText ((ascii "unknown key name \"" ++ name ++
        ascii "\" (expected a named key such as f1/esc/return/up, or a single character)").take 159))

/-- The keys of the request from the one with index `i` on. -/
def resolveKeys : Nat → List CJson → Except CJson Chord
  | _, [] => .error (invalid "keys must contain 1..8 entries")
  | _, [.string name] => do
    let key ← resolveFinal name
    .ok ⟨[], key.1, key.2⟩
  | i, .string name :: rest =>
    match findNamedKey name with
    | some k =>
      if k.qual = 0 then .error (notModifier i name)
      else do
        let chord ← resolveKeys (i + 1) rest
        .ok { chord with modifiers := k :: chord.modifiers }
    | none => .error (notModifier i name)
  | _, _ => .error (invalid "keys entries must be strings")
where
  notModifier (i : Nat) (name : Bytes) : CJson :=
    invalidText ((ascii "keys[" ++ ascii (toString i) ++ ascii "] (\"" ++ name ++
      ascii "\") must be a modifier (shift/ctrl/alt/lamiga/ramiga/capslock); only the last entry may be a regular key").take 159)

/-- A request that input.key lets pass. -/
structure KeyRequest where
  keys : List CJson
  chord : Chord
  delay : Delay
  confirmReset : Bool
  guarded : chord.resets = true → confirmReset = true

/-- The checks of `input_key`. -/
def parseKey (params : Option CJson) : Except CJson KeyRequest := do
  requireConfirm params "input.key"
  match param params "keys" with
  | some (.array keys) =>
    if keys.length < 1 ∨ keys.length > inputMaxChordKeys then
      .error (invalid "keys must contain 1..8 entries")
    else do
      let delay ← getDelay params inputDefKeyMs
      let chord ← resolveKeys 0 keys
      let confirmReset := match param params "confirm_reset" with
        | some (.bool true) => true
        | _ => false
      if h : chord.resets = true ∧ confirmReset = false then
        .error (invalid
          "ctrl+lamiga+ramiga REBOOTS the machine; requires confirm_reset:true in addition to confirm")
      else .ok ⟨keys, chord, delay, confirmReset, by
        intro hresets
        cases hconfirm : confirmReset with
        | true => rfl
        | false => exact absurd ⟨hresets, hconfirm⟩ h⟩
  | _ => .error (invalid "keys must be an array of key names, e.g. [\"lamiga\",\"q\"]")

/-- The modifiers of a chord go down. -/
def pressModifiers (delay : Nat) : List NamedKey → Ctx → Except Ctx Ctx
  | [], c => .ok c
  | k :: ks, c => do
    let c ← c.pushModifier k
    pressModifiers delay ks (c.delayMs delay)

/-- The shift of a shifted character. -/
def pressShift (c : Ctx) : Except Ctx Ctx :=
  match findNamedKey (ascii "lshift") with
  | some sh => c.pushModifier sh
  | none => .ok c

/-- The events of `input_key`. -/
def pressChord (chord : Chord) (delay : Nat) (c : Ctx) : Except Ctx Ctx := do
  let c ← pressModifiers delay chord.modifiers c
  let c ← if chord.finalShift then pressShift c else .ok c
  let down := keyDown chord.finalCode c.heldQuals
  let c ← c.writeEvent down
  (c.delayMs delay).writeEvent down.up

/-- `input_key` -/
def inputKey (w : World) (params : Option CJson) : Done :=
  if w.enabled = false then refused gateError
  else
    match parseKey params with
    | .error e => refused e
    | .ok req =>
      w.inject fun c =>
        (finish (pressChord req.chord req.delay c),
          [(ascii "keys", .array req.keys), (ascii "op", cString "key")])

/-! ## input.type -/

/-- The strokes that produce a character, by the presses; in a sequence of
dead keys every event carries the presses in front of it. -/
def MapAnswer.strokes (a : MapAnswer) : Option (List Event) :=
  if a.pairs < 1 ∨ a.pairs > 3 then none
  else
    let unused : UInt8 × UInt8 := (0x80, 0)
    let press (p : Fin 3) (prev1 prev2 : UInt8 × UInt8) : Event :=
      { keyDown (a.rbuf p).1 (a.rbuf p).2.toUInt16 with prev1 := prev1, prev2 := prev2 }
    some ([press 0 unused unused, press 1 (a.rbuf 0) unused, press 2 (a.rbuf 1) (a.rbuf 0)].take
      a.pairs.toInt.toNat)

/-- The strokes of a code point, which is the `i`th of the text; `none` goes
into `unmapped`. -/
def strokesOf (keymap : Option Keymap) (i : Nat) (cp : Nat) : Option (List Event) :=
  if cp > 0xFF then none
  else
    match keymap with
    | some mapAnsi => (mapAnsi i (UInt8.ofNat cp)).strokes
    | none =>
      (asciiToRaw (UInt8.ofNat cp)).map fun k => [keyDown k.1 (if k.2 then qualLShift else 0)]

/-- Half of the pacing between a press and its release. -/
def half (delay : Nat) : Nat := if delay > 2 then delay / 2 else delay

/-- One stroke. -/
def pressStroke (delay : Nat) (down : Event) (c : Ctx) : Except Ctx Ctx := do
  let c ← c.writeEvent down
  let c ← (c.delayMs (half delay)).writeEvent down.up
  .ok (c.delayMs delay)

/-- Strokes one after the other. -/
def pressStrokes (delay : Nat) : List Event → Ctx → Except Ctx Ctx
  | [], c => .ok c
  | down :: downs, c => do
    let c ← pressStroke delay down c
    pressStrokes delay downs c

/-- The text `U+%04X`. -/
def codePointText (cp : Nat) : Bytes :=
  let digits := (Nat.toDigits 16 cp).map fun c => UInt8.ofNat c.toUpper.toNat
  ascii "U+" ++ List.replicate (4 - digits.length) 48 ++ digits

/-- The loop of `input_type`: the context, the characters typed and those that
no key produces. -/
structure Typing where
  ctx : Ctx
  mapped : Nat := 0
  unmapped : List Bytes := []

def typeChars (keymap : Option Keymap) (delay : Nat) : Nat → List Nat → Typing → Typing
  | _, [], t => t
  | i, cp :: cps, t =>
    match strokesOf keymap i cp with
    | none => typeChars keymap delay (i + 1) cps { t with unmapped := t.unmapped ++ [codePointText cp] }
    | some downs =>
      match pressStrokes delay downs t.ctx with
      | .error c => { t with ctx := c }
      | .ok c => typeChars keymap delay (i + 1) cps { t with ctx := c, mapped := t.mapped + 1 }

/-- A request that input.type lets pass. -/
structure TypeRequest where
  text : Bytes
  forceUs : Bool
  delay : Delay

/-- The checks of `input_type`. -/
def parseType (params : Option CJson) : Except CJson TypeRequest := do
  requireConfirm params "input.type"
  let text ← pStr params "text"
  if text.length = 0 then .error (invalid "text must not be empty")
  else if utf8Strlen text > inputMaxText then .error (invalid "text exceeds 512 characters")
  else do
    let forceUs ← match param params "keymap" with
      | some (.string km) =>
        if km = ascii "us" then .ok true
        else if km ≠ ascii "system" then
          .error (invalid "keymap must be \"system\" (default) or \"us\"")
        else .ok false
      | _ => .ok false
    let delay ← getDelay params inputDefCharMs
    .ok ⟨text, forceUs, delay⟩

/-- The key mapper that a request uses. -/
def TypeRequest.keymap (req : TypeRequest) (w : World) : Option Keymap :=
  if req.forceUs then none else w.keymap

/-- `input_type` -/
def inputType (w : World) (params : Option CJson) : Done :=
  if w.enabled = false then refused gateError
  else
    match parseType params with
    | .error e => refused e
    | .ok req =>
      w.inject fun c =>
        let t := typeChars (req.keymap w) req.delay 0 (codePoints req.text) { ctx := c }
        (t.ctx,
          [(ascii "op", cString "type"), (ascii "text_len", cNumber (utf8Strlen req.text)),
            (ascii "chars_mapped", cNumber t.mapped),
            (ascii "unmapped", .array (t.unmapped.map .string)),
            (ascii "keymap",
              cString (if (req.keymap w).isSome then "keymap.library" else "us-fallback"))])

/-! ## Mouse motion -/

/-- Where the `i`th of `steps` steps ends. -/
def waypoint (d : Int) (steps i : Nat) : Int := (d * i).tdiv steps

/-- The length of the `i`th step. -/
def stepLength (d : Int) (steps i : Nat) : Int := waypoint d steps i - waypoint d steps (i - 1)

/-- The loop of `input_mouse_move`, with `n` steps to go. -/
def moveSteps (dx dy : Int) (steps delay : Nat) : Nat → Ctx → Except Ctx Ctx
  | 0, c => .ok c
  | n + 1, c =>
    let i := steps - n
    let sx := stepLength dx steps i
    let sy := stepLength dy steps i
    if sx = 0 ∧ sy = 0 ∧ steps > 1 then moveSteps dx dy steps delay n c
    else do
      let c ← c.writeEvent (motionEvent sx sy c.heldButtons)
      moveSteps dx dy steps delay n (if i < steps then c.delayMs delay else c)

def clamp (v size : Int) : Int :=
  let v := if v < 0 then 0 else v
  if v > size - 1 then size - 1 else v

/-- What input.mouse_move is to do. -/
inductive Motion where
  /-- to an absolute position, left to input.device -/
  | raw (x y : Int)
  | delta (dx dy : Int)
deriving DecidableEq, Repr

structure MoveRequest where
  absolute : Bool
  motion : Motion
  steps : Nat
  delay : Delay

/-- The checks of `input_mouse_move`. -/
def parseMove (w : World) (params : Option CJson) : Except CJson MoveRequest := do
  let jx := intParam params "x"
  let jy := intParam params "y"
  let jdx := intParam params "dx"
  let jdy := intParam params "dy"
  let absolute := jx.isSome && jy.isSome
  let relative := jdx.isSome || jdy.isSome
  if absolute = relative then
    .error (invalid "provide either x+y (absolute) or dx/dy (relative), not both")
  else do
    let rawAbsolute ← match param params "absolute_mode" with
      | some (.string am) =>
        if am = ascii "raw" then .ok true
        else if am ≠ ascii "delta" then
          .error (invalid "absolute_mode must be \"delta\" or \"raw\"")
        else .ok false
      | _ => .ok false
    let steps := pInt params "steps" 1
    if steps < 1 ∨ steps > inputMaxDragSteps then .error (invalid "steps out of range [1..64]")
    else do
      let delay ← getDelay params inputDefMoveMs
      if absolute then
        let targetX := jx.getD 0
        let targetY := jy.getD 0
        if rawAbsolute then .ok ⟨true, .raw targetX targetY, steps.toNat, delay⟩
        else
          match w.pointer with
          | .error failure => .error failure.error
          | .ok p =>
            .ok ⟨true, .delta (clamp targetX p.w - p.x) (clamp targetY p.h - p.y), steps.toNat, delay⟩
      else
        let dx := jdx.getD 0
        let dy := jdy.getD 0
        if dx > inputMaxMove ∨ dx < -inputMaxMove ∨ dy > inputMaxMove ∨ dy < -inputMaxMove then
          .error (invalid "dx/dy out of range [-4096..4096]")
        else .ok ⟨false, .delta dx dy, steps.toNat, delay⟩

/-- `input_mouse_move` -/
def inputMouseMove (w : World) (params : Option CJson) : Done :=
  if w.enabled = false then refused gateError
  else
    match parseMove w params with
    | .error e => refused e
    | .ok req =>
      w.inject fun c =>
        let moved := match req.motion with
          | .raw x y =>
            c.writeEvent { cls := .rawMouse, code := codeNoButton, x := Int16.ofInt x, y := Int16.ofInt y }
          | .delta dx dy => moveSteps dx dy req.steps req.delay req.steps c
        (finish moved,
          [(ascii "op", cString "mouse_move"),
            (ascii "mode", cString (if req.absolute then "absolute" else "relative"))] ++ w.landing)

/-! ## Buttons -/

/-- `_button_code` -/
def buttonCode (name : Bytes) : Option (UInt8 × UInt16) :=
  if name = ascii "left" then some (codeLButton, qualLeftButton)
  else if name = ascii "right" then some (codeRButton, qualRButton)
  else if name = ascii "middle" then some (codeMButton, qualMidButton)
  else none

/-- The button parameter. -/
def parseButton (params : Option CJson) : Except CJson (UInt8 × UInt16) :=
  match buttonCode (stringParam params "button" "left") with
  | some button => .ok button
  | none => .error (invalid "button must be \"left\", \"right\" or \"middle\"")

/-- A button goes down and is remembered. -/
def Ctx.pressButton (button : UInt8 × UInt16) (c : Ctx) : Except Ctx Ctx := do
  let c ← c.writeEvent (buttonEvent button.1)
  .ok { c with heldButtonCode := button.1, heldButtons := button.2 }

/-- The clicks of `input_click`, with `n` to go. -/
def clicks (button : UInt8 × UInt16) (delay : Nat) : Nat → Ctx → Except Ctx Ctx
  | 0, c => .ok c
  | n + 1, c => do
    let c ← c.pressButton button
    let c ← (c.delayMs delay).writeEvent (buttonEvent button.1).up
    let c : Ctx := { c with heldButtonCode := 0, heldButtons := 0 }
    clicks button delay n (if n = 0 then c else c.delayMs delay)

structure ClickRequest where
  button : UInt8 × UInt16
  count : Nat
  delay : Delay
  move : Option (Int × Int)

/-- The checks of `input_click`. -/
def parseClick (w : World) (params : Option CJson) : Except CJson ClickRequest := do
  requireConfirm params "input.click"
  let button ← parseButton params
  let count := pInt params "count" 1
  if count < 1 ∨ count > 8 then .error (invalid "count out of range [1..8]")
  else do
    let delay ← getDelay params inputDefButtonMs
    match intParam params "x", intParam params "y" with
    | some x, some y =>
      match w.pointer with
      | .error failure => .error failure.error
      | .ok p => .ok ⟨button, count.toNat, delay, some (clamp x p.w - p.x, clamp y p.h - p.y)⟩
    | _, _ => .ok ⟨button, count.toNat, delay, none⟩

/-- The move in front of a click; a move that finds the budget spent does not
stop the call. -/
def premove (move : Option (Int × Int)) (delay : Nat) (c : Ctx) : Ctx :=
  match move with
  | some (dx, dy) =>
    if dx = 0 ∧ dy = 0 then c else (finish (c.writeEvent (motionEvent dx dy 0))).delayMs delay
  | none => c

/-- `input_click` -/
def inputClick (w : World) (params : Option CJson) : Done :=
  if w.enabled = false then refused gateError
  else
    match parseClick w params with
    | .error e => refused e
    | .ok req =>
      w.inject fun c =>
        (finish (clicks req.button req.delay req.count (premove req.move req.delay c)),
          [(ascii "op", cString "click"),
            (ascii "mode", cString (if req.move.isSome then "absolute" else "relative")),
            (ascii "button", .string (stringParam params "button" "left")),
            (ascii "count", cNumber req.count)] ++ w.landing)

/-- The motion of a drag, with `n` steps to go. -/
def dragSteps (dx dy : Int) (steps delay : Nat) : Nat → Ctx → Except Ctx Ctx
  | 0, c => .ok c
  | n + 1, c =>
    let i := steps - n
    let sx := stepLength dx steps i
    let sy := stepLength dy steps i
    if sx = 0 ∧ sy = 0 then dragSteps dx dy steps delay n c
    else do
      let c ← c.writeEvent (motionEvent sx sy c.heldButtons)
      dragSteps dx dy steps delay n (c.delayMs delay)

structure DragRequest where
  button : UInt8 × UInt16
  steps : Nat
  delay : Delay
  /-- the way to the start -/
  approach : Int × Int
  /-- the way from the start to the end -/
  path : Int × Int

/-- The checks of `input_drag`. -/
def parseDrag (w : World) (params : Option CJson) : Except CJson DragRequest := do
  requireConfirm params "input.drag"
  match intParam params "from_x", intParam params "from_y", intParam params "to_x",
      intParam params "to_y" with
  | some fromX, some fromY, some toX, some toY => do
    let button ← parseButton params
    let steps := pInt params "steps" 16
    if steps < 1 ∨ steps > inputMaxDragSteps then .error (invalid "steps out of range [1..64]")
    else do
      let delay ← getDelay params inputDefMoveMs
      match w.pointer with
      | .error failure => .error failure.error
      | .ok p =>
        let fx := clamp fromX p.w
        let fy := clamp fromY p.h
        let tx := clamp toX p.w
        let ty := clamp toY p.h
        .ok ⟨button, steps.toNat, delay, (fx - p.x, fy - p.y), (tx - fx, ty - fy)⟩
  | _, _, _, _ => .error (invalid "from_x, from_y, to_x, to_y are all required")

/-- The events of `input_drag`; the release is left to `close`. -/
def dragPath (req : DragRequest) (c : Ctx) : Except Ctx Ctx := do
  let c ← c.writeEvent (motionEvent req.approach.1 req.approach.2 0)
  let c ← (c.delayMs inputDefButtonMs).pressButton req.button
  let c ← dragSteps req.path.1 req.path.2 req.steps req.delay req.steps (c.delayMs inputDefButtonMs)
  .ok (c.delayMs inputDefButtonMs)

/-- `input_drag` -/
def inputDrag (w : World) (params : Option CJson) : Done :=
  if w.enabled = false then refused gateError
  else
    match parseDrag w params with
    | .error e => refused e
    | .ok req =>
      w.inject fun c =>
        (finish (dragPath req c),
          [(ascii "op", cString "drag"), (ascii "mode", cString "absolute"),
            (ascii "button", .string (stringParam params "button" "left"))] ++ w.landing)

/-! ## input.scroll -/

/-- The wheel code of a direction, with the motion of a native wheel event. -/
def wheelCode (direction : Bytes) : Option (UInt8 × Int16 × Int16) :=
  if direction = ascii "down" then some (nmWheelDown, 0, 1)
  else if direction = ascii "up" then some (nmWheelUp, 0, -1)
  else if direction = ascii "left" then some (nmWheelLeft, -1, 0)
  else if direction = ascii "right" then some (nmWheelRight, 1, 0)
  else none

/-- The loop of `input_scroll`, with `n` clicks to go. -/
def scrollSteps (e : Event) (delay : Nat) : Nat → Ctx → Except Ctx Ctx
  | 0, c => .ok c
  | n + 1, c => do
    let c ← c.writeEvent e
    scrollSteps e delay n (if n = 0 then c else c.delayMs delay)

structure ScrollRequest where
  count : Nat
  event : Event
  delay : Delay
  native : Bool

/-- The checks of `input_scroll`. -/
def parseScroll (params : Option CJson) : Except CJson ScrollRequest := do
  let count := pInt params "clicks" 1
  if count < 1 ∨ count > inputMaxScroll then .error (invalid "clicks out of range [1..32]")
  else
    match wheelCode (stringParam params "direction" "down") with
    | none =>
      .error (invalid "direction must be \"up\", \"down\", \"left\" or \"right\"")
    | some (code, wx, wy) => do
      let delay ← getDelay params inputDefMoveMs
      let style := stringParam params "style" "native"
      if style = ascii "native" then
        .ok ⟨count.toNat, { cls := .mouseWheel, x := wx, y := wy }, delay, true⟩
      else if style = ascii "newmouse" then .ok ⟨count.toNat, buttonEvent code, delay, false⟩
      else .error (invalid "style must be \"native\" or \"newmouse\"")

/-- `input_scroll` -/
def inputScroll (w : World) (params : Option CJson) : Done :=
  if w.enabled = false then refused gateError
  else
    match parseScroll params with
    | .error e => refused e
    | .ok req =>
      w.inject fun c =>
        (finish (scrollSteps req.event req.delay req.count c),
          [(ascii "op", cString "scroll"),
            (ascii "style", cString (if req.native then "native" else "newmouse")),
            (ascii "mode", cString "relative"),
            (ascii "direction", .string (stringParam params "direction" "down")),
            (ascii "clicks", cNumber req.count)])

end AmigaFleet.Mcpd.Input
