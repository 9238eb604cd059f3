import AmigaFleet.Lib.Framing
import AmigaFleet.Lib.Run

/-!
# Reading JSON texts

A reader of JSON texts as a machine that takes one byte at a time: reading a
text is a run.  `Mode` says where in a token the machine stands, `Phase` and
the stack of `Frame`s what it waits for and what it has read so far.  The
grammar is the one of RFC 8259; the bytes from 128 on stand for themselves
inside strings.

* `run_inside`: within a string, the machine does what `inside` does.
* `run_string_cases`: a run that starts in a string stays in it, or leaves it
  at a quote behind a text that spells the string.
* `finish_extends`: what the members of an object have been is a first part of
  what they become.
-/

namespace AmigaFleet.Lib.JsonText

/-- A character of a string: a byte, or the code unit of a `\u` escape above
127. -/
inductive Glyph where
  | byte (c : UInt8)
  | unit (code : Nat)
deriving DecidableEq, Repr

/-- A number keeps its text. -/
inductive Value where
  | null
  | bool (b : Bool)
  | num (text : Bytes)
  | str (text : List Glyph)
  | arr (items : List Value)
  | obj (members : List (List Glyph × Value))

abbrev Members := List (List Glyph × Value)

/-! ## Numbers and literals -/

/-- Where the text of a number stands. -/
inductive Number where
  | start
  | minus
  | zero
  | int
  | point
  | frac
  | exp
  | sign
  | power
deriving DecidableEq, Repr

def isDigit (c : UInt8) : Bool := 48 ≤ c ∧ c ≤ 57

def Number.step (s : Number) (c : UInt8) : Option Number :=
  match s with
  | .start =>
    if c = 45 then some .minus else if c = 48 then some .zero
    else if isDigit c then some .int else none
  | .minus => if c = 48 then some .zero else if isDigit c then some .int else none
  | .zero =>
    if c = 46 then some .point else if c = 101 ∨ c = 69 then some .exp else none
  | .int =>
    if isDigit c then some .int else if c = 46 then some .point
    else if c = 101 ∨ c = 69 then some .exp else none
  | .point => if isDigit c then some .frac else none
  | .frac =>
    if isDigit c then some .frac else if c = 101 ∨ c = 69 then some .exp else none
  | .exp => if c = 43 ∨ c = 45 then some .sign else if isDigit c then some .power else none
  | .sign => if isDigit c then some .power else none
  | .power => if isDigit c then some .power else none

def Number.complete : Number → Bool
  | .zero | .int | .frac | .power => true
  | _ => false

/-- The value of an unquoted word. -/
def scalar (word : Bytes) : Option Value :=
  if word = [110, 117, 108, 108] then some .null
  else if word = [116, 114, 117, 101] then some (.bool true)
  else if word = [102, 97, 108, 115, 101] then some (.bool false)
  else if (run Number.step .start word).any Number.complete then some (.num word)
  else none

/-! ## Strings -/

/-- Where the text of a string stands. -/
inductive Inside where
  | plain
  | escape
  | hex (digits code : Nat)
deriving DecidableEq, Repr

/-- `"` -/
def quote : UInt8 := 34

/-- `\` -/
def backslash : UInt8 := 92

/-- The character that a two-character escape stands for. -/
def escaped (c : UInt8) : Option UInt8 :=
  if c = 34 ∨ c = 92 ∨ c = 47 then some c
  else if c = 98 then some 8
  else if c = 102 then some 12
  else if c = 110 then some 10
  else if c = 114 then some 13
  else if c = 116 then some 9
  else none

def hexValue (c : UInt8) : Option Nat :=
  if isDigit c then some (c.toNat - 48)
  else if 97 ≤ c ∧ c ≤ 102 then some (c.toNat - 87)
  else if 65 ≤ c ∧ c ≤ 70 then some (c.toNat - 55)
  else none

def glyphOf (code : Nat) : Glyph := if code < 128 then .byte (UInt8.ofNat code) else .unit code

/-- One byte of a string; the quote that ends it is not part of it. -/
def inside (q : List Glyph × Inside) (c : UInt8) : Option (List Glyph × Inside) :=
  match q.2 with
  | .plain =>
    if c = quote ∨ c < 32 then none
    else if c = backslash then some (q.1, .escape)
    else some (q.1 ++ [.byte c], .plain)
  | .escape =>
    if c = 117 then some (q.1, .hex 0 0)
    else (escaped c).map fun e => (q.1 ++ [.byte e], .plain)
  | .hex digits code =>
    (hexValue c).map fun v =>
      if digits = 3 then (q.1 ++ [glyphOf (16 * code + v)], .plain)
      else (q.1, .hex (digits + 1) (16 * code + v))

/-- What the text between two quotes spells; `none` is no text of a string. -/
def spell (body : Bytes) : Option (List Glyph) :=
  match run inside ([], .plain) body with
  | some (text, .plain) => some text
  | _ => none

/-! ## The machine -/

inductive Mark where
  | openArray
  | closeArray
  | openObject
  | closeObject
  | comma
  | colon
deriving DecidableEq, Repr

def markOf (c : UInt8) : Option Mark :=
  if c = 91 then some .openArray
  else if c = 93 then some .closeArray
  else if c = 123 then some .openObject
  else if c = 125 then some .closeObject
  else if c = 44 then some .comma
  else if c = 58 then some .colon
  else none

inductive Token where
  | mark (m : Mark)
  | scalar (v : Value)
  | str (text : List Glyph)

/-- An array or object that is open while a value in it is read. -/
inductive Frame where
  | array (items : List Value)
  | object (members : Members) (name : List Glyph)

/-- What the machine waits for. -/
inductive Phase where
  | value
  /-- a value or the end of the array -/
  | first
  /-- a name, or the end of the object when it has just been opened -/
  | name (members : Members) (opened : Bool)
  | colon (members : Members) (name : List Glyph)
  /-- what follows a value -/
  | done (v : Value)

/-- A token where a value is due. -/
def valueToken (stack : List Frame) : Token → Option (Phase × List Frame)
  | .mark .openArray => some (.first, stack)
  | .mark .openObject => some (.name [] true, stack)
  | .mark _ => none
  | .scalar v => some (.done v, stack)
  | .str text => some (.done (.str text), stack)

/-- One token. -/
def advance : Phase → List Frame → Token → Option (Phase × List Frame)
  | .value, stack, token => valueToken stack token
  | .first, stack, .mark .closeArray => some (.done (.arr []), stack)
  | .first, stack, token => valueToken (.array [] :: stack) token
  | .name members _, stack, .str name => some (.colon members name, stack)
  | .name members true, stack, .mark .closeObject => some (.done (.obj members), stack)
  | .colon members name, stack, .mark .colon => some (.value, .object members name :: stack)
  | .done v, .array items :: stack, .mark .comma => some (.value, .array (items ++ [v]) :: stack)
  | .done v, .array items :: stack, .mark .closeArray =>
    some (.done (.arr (items ++ [v])), stack)
  | .done v, .object members name :: stack, .mark .comma =>
    some (.name (members ++ [(name, v)]) false, stack)
  | .done v, .object members name :: stack, .mark .closeObject =>
    some (.done (.obj (members ++ [(name, v)])), stack)
  | _, _, _ => none

/-- Where in a token the machine stands. -/
inductive Mode where
  | between
  | word (text : Bytes)
  | string (text : List Glyph) (s : Inside)
deriving DecidableEq, Repr

structure Reader where
  mode : Mode
  phase : Phase
  stack : List Frame

def Reader.start : Reader := ⟨.between, .value, []⟩

def Reader.token (r : Reader) (t : Token) : Option Reader :=
  (advance r.phase r.stack t).map fun next => ⟨.between, next.1, next.2⟩

/-- The end of an unquoted word. -/
def Reader.word (r : Reader) (text : Bytes) : Option Reader :=
  (scalar text).bind fun v => r.token (.scalar v)

def isBlank (c : UInt8) : Bool := c = 32 ∨ c = 9 ∨ c = 10 ∨ c = 13

/-- A byte that does not belong to a word. -/
def delimits (c : UInt8) : Bool := isBlank c ∨ c = quote ∨ (markOf c).isSome

/-- One byte between two tokens. -/
def Reader.outside (r : Reader) (c : UInt8) : Option Reader :=
  if isBlank c then some { r with mode := .between }
  else if c = quote then some { r with mode := .string [] .plain }
  else
    match markOf c with
    | some m => r.token (.mark m)
    | none => some { r with mode := .word [c] }

def Reader.step (r : Reader) (c : UInt8) : Option Reader :=
  match r.mode with
  | .between => r.outside c
  | .word text =>
    if delimits c then (r.word text).bind fun r => r.outside c
    else some { r with mode := .word (text ++ [c]) }
  | .string text s =>
    if c = quote ∧ s = .plain then r.token (.str text)
    else (inside (text, s) c).map fun q => { r with mode := .string q.1 q.2 }

/-- The value at the end of the text. -/
def Reader.finish (r : Reader) : Option Value :=
  let r := match r.mode with
    | .between => some r
    | .word text => r.word text
    | .string _ _ => none
  r.bind fun r =>
    match r.phase, r.stack with
    | .done v, [] => some v
    | _, _ => none

/-- The value of a JSON text; `none` is no JSON text. -/
def parse (text : Bytes) : Option Value := (run Reader.step .start text).bind Reader.finish

/-! ## Strings in a run -/

theorem run_inside_plain (text : List Glyph) {body : Bytes}
    (h : ∀ c ∈ body, 32 ≤ c ∧ c ≠ quote ∧ c ≠ backslash) :
    run inside (text, .plain) body = some (text ++ body.map .byte, .plain) := by
  induction body generalizing text with
  | nil => simp
  | cons c body ih =>
    obtain ⟨hlow, hquote, hslash⟩ := h c (List.mem_cons_self ..)
    have hone : inside (text, .plain) c = some (text ++ [.byte c], .plain) := by
      show (if c = quote ∨ c < 32 then none else _) = _
      rw [if_neg (by rintro (h | h); exacts [hquote h, absurd h (UInt8.not_lt.mpr hlow)]),
        if_neg hslash]
    rw [run, hone]
    have hrest := ih (text ++ [.byte c]) fun b hb => h b (List.mem_cons_of_mem _ hb)
    rw [List.append_assoc] at hrest
    exact hrest

/-- An escape owes the characters that it takes. -/
def Inside.debt : Inside → Nat
  | .plain => 0
  | _ => 1

theorem inside_length {q q' : List Glyph × Inside} {c : UInt8} (h : inside q c = some q') :
    q'.1.length + q'.2.debt ≤ q.1.length + q.2.debt + 1 ∧
      (q'.1.length + q'.2.debt = q.1.length + q.2.debt + 1 → q.2 = .plain) := by
  obtain ⟨text, s⟩ := q
  cases s with
  | plain =>
    simp only [inside] at h
    split at h
    · cases h
    · split at h
      · cases h
        simp [Inside.debt]
      · cases h
        simp [Inside.debt]
  | escape =>
    simp only [inside] at h
    split at h
    · cases h
      simp [Inside.debt]
    · obtain ⟨e, -, rfl⟩ := Option.map_eq_some_iff.mp h
      simp [Inside.debt]
  | hex digits code =>
    obtain ⟨v, -, rfl⟩ := Option.map_eq_some_iff.mp h
    split <;> simp [Inside.debt]

/-- A string has at most as many characters as its text has bytes. -/
theorem run_inside_length {q q' : List Glyph × Inside} {body : Bytes}
    (h : run inside q body = some q') :
    q'.1.length + q'.2.debt ≤ q.1.length + q.2.debt + body.length := by
  induction body generalizing q with
  | nil =>
    cases h
    exact Nat.le_refl _
  | cons c body ih =>
    obtain ⟨q₁, hone, hrest⟩ := run_cons_some h
    have hstep := (inside_length hone).1
    have hmore := ih hrest
    rw [List.length_cons]
    omega

theorem inside_plain_quote (text : List Glyph) : inside (text, .plain) quote = none := rfl

/-- It has fewer when there is an escape among them. -/
theorem run_inside_full {q : List Glyph × Inside} {text : List Glyph} {body : Bytes}
    (h : run inside q body = some (text, .plain))
    (hfull : text.length = q.1.length + q.2.debt + body.length) :
    q.2 = .plain ∧ ∀ c ∈ body, c ≠ quote ∧ c ≠ backslash := by
  induction body generalizing q with
  | nil =>
    cases h
    exact ⟨rfl, fun c hc => absurd hc List.not_mem_nil⟩
  | cons c body ih =>
    obtain ⟨q₁, hone, hrest⟩ := run_cons_some h
    obtain ⟨hle, hplain⟩ := inside_length hone
    have hmore : text.length + 0 ≤ q₁.1.length + q₁.2.debt + body.length :=
      run_inside_length hrest
    rw [List.length_cons] at hfull
    obtain ⟨hq₁, hbody⟩ := ih hrest (by omega)
    have hq : q.2 = .plain := hplain (by omega)
    refine ⟨hq, fun b hb => ?_⟩
    rcases List.mem_cons.mp hb with rfl | hb
    · obtain ⟨start, s⟩ := q
      cases hq
      constructor
      · rintro rfl
        rw [inside_plain_quote] at hone
        cases hone
      · rintro rfl
        cases hone
        cases hq₁
    · exact hbody b hb

/-- What is left open by an escape ends with the backslash. -/
theorem run_inside_escape {q : List Glyph × Inside} {text : List Glyph} {body : Bytes} {c : UInt8}
    (h : run inside q (body ++ [c]) = some (text, .escape)) : c = backslash := by
  obtain ⟨⟨start, s⟩, -, hlast⟩ := run_append_some h
  obtain ⟨q', hone, hnil⟩ := run_cons_some hlast
  cases hnil
  cases s with
  | plain =>
    simp only [inside] at hone
    split at hone
    · cases hone
    · split at hone
      · assumption
      · cases hone
  | escape =>
    simp only [inside] at hone
    split at hone
    · cases hone
    · obtain ⟨e, -, he⟩ := Option.map_eq_some_iff.mp hone
      cases he
  | hex digits code =>
    obtain ⟨v, -, hv⟩ := Option.map_eq_some_iff.mp hone
    split at hv <;> cases hv

theorem step_string (text : List Glyph) (s : Inside) (p : Phase) (stack : List Frame) (c : UInt8) :
    Reader.step ⟨.string text s, p, stack⟩ c =
      if c = quote ∧ s = .plain then Reader.token ⟨.string text s, p, stack⟩ (.str text)
      else (inside (text, s) c).map fun q => ⟨.string q.1 q.2, p, stack⟩ := rfl

/-- Without a quote the machine stays in the string. -/
theorem run_string {q q' : List Glyph × Inside} {body : Bytes} (p : Phase) (stack : List Frame)
    (h : run inside q body = some q') :
    run Reader.step ⟨.string q.1 q.2, p, stack⟩ body = some ⟨.string q'.1 q'.2, p, stack⟩ := by
  induction body generalizing q with
  | nil =>
    cases h
    rfl
  | cons c body ih =>
    obtain ⟨q₁, hone, hrest⟩ := run_cons_some h
    have hstay : ¬ (c = quote ∧ q.2 = .plain) := by
      rintro ⟨rfl, hplain⟩
      simp [inside, hplain] at hone
    rw [run, step_string, if_neg hstay, hone]
    exact ih hrest

/-- A run from within a string stays in it, or leaves it at a quote. -/
theorem run_string_cases {q : List Glyph × Inside} {p : Phase} {stack : List Frame} {text : Bytes}
    {r : Reader} (h : run Reader.step ⟨.string q.1 q.2, p, stack⟩ text = some r) :
    (∃ q', run inside q text = some q' ∧ r = ⟨.string q'.1 q'.2, p, stack⟩) ∨
      ∃ body rest content next, text = body ++ quote :: rest ∧
        run inside q body = some (content, .plain) ∧
        advance p stack (.str content) = some next ∧
        run Reader.step ⟨.between, next.1, next.2⟩ rest = some r := by
  induction text generalizing q with
  | nil =>
    cases h
    exact Or.inl ⟨q, rfl, rfl⟩
  | cons c text ih =>
    obtain ⟨r₁, hone, hrest⟩ := run_cons_some h
    rw [step_string] at hone
    split at hone
    · rename_i hend
      obtain ⟨next, hnext, rfl⟩ := Option.map_eq_some_iff.mp hone
      refine Or.inr ⟨[], text, q.1, next, by rw [hend.1]; rfl, ?_, hnext, hrest⟩
      rw [run_nil, ← hend.2]
    · obtain ⟨q₁, hq₁, rfl⟩ := Option.map_eq_some_iff.mp hone
      rcases ih hrest with ⟨q', hq', rfl⟩ | ⟨body, rest, content, next, rfl, hbody, hnext, hrun⟩
      · exact Or.inl ⟨q', by rw [run, hq₁]; exact hq', rfl⟩
      · exact Or.inr ⟨c :: body, rest, content, next, rfl, by rw [run, hq₁]; exact hbody, hnext, hrun⟩

/-! ## Words in a run -/

theorem run_word {word : Bytes} (p : Phase) (stack : List Frame) (hne : word ≠ [])
    (h : ∀ c ∈ word, delimits c = false) :
    run Reader.step ⟨.between, p, stack⟩ word = some ⟨.word word, p, stack⟩ := by
  have hmore : ∀ (start rest : Bytes), (∀ c ∈ rest, delimits c = false) →
      run Reader.step ⟨.word start, p, stack⟩ rest = some ⟨.word (start ++ rest), p, stack⟩ := by
    intro start rest hrest
    induction rest generalizing start with
    | nil => simp
    | cons c rest ih =>
      have hone : Reader.step ⟨.word start, p, stack⟩ c = some ⟨.word (start ++ [c]), p, stack⟩ := by
        show (if delimits c = true then _ else _) = _
        rw [hrest c (List.mem_cons_self ..)]
        rfl
      rw [run, hone]
      simpa using ih (start ++ [c]) fun b hb => hrest b (List.mem_cons_of_mem _ hb)
  cases word with
  | nil => exact absurd rfl hne
  | cons c word =>
    have hc := h c (List.mem_cons_self ..)
    simp only [delimits, not_or, decide_eq_false_iff_not] at hc
    have hmark : markOf c = none := Option.not_isSome_iff_eq_none.mp hc.2.2
    have hone : Reader.step ⟨.between, p, stack⟩ c = some ⟨.word [c], p, stack⟩ := by
      show (if isBlank c = true then _ else _) = _
      rw [if_neg hc.1, if_neg hc.2.1, hmark]
    rw [run, hone]
    exact hmore [c] word fun b hb => h b (List.mem_cons_of_mem _ hb)

/-! ## Zero bytes -/

theorem scalar_zero_not_mem {word : Bytes} {v : Value} (h : scalar word = some v) : 0 ∉ word := by
  unfold scalar at h
  split at h
  · rename_i hword
    rw [hword]
    decide
  · split at h
    · rename_i hword
      rw [hword]
      decide
    · split at h
      · rename_i hword
        rw [hword]
        decide
      · split at h
        · rename_i hnum
          cases hrun : run Number.step .start word with
          | none =>
            rw [hrun] at hnum
            cases hnum
          | some s => exact run_not_mem (fun s => by cases s <;> rfl) hrun
        · cases h

/-- The machine reads a word that will not be one. -/
def Reader.Doomed (r : Reader) : Prop := ∃ word, r.mode = .word word ∧ 0 ∈ word

theorem word_zero {r : Reader} {word : Bytes} (h : 0 ∈ word) : r.word word = none := by
  unfold Reader.word
  cases hs : scalar word with
  | none => rfl
  | some v => exact absurd h (scalar_zero_not_mem hs)

theorem Reader.Doomed.step {r r' : Reader} {c : UInt8} (hr : r.Doomed) (h : r.step c = some r') :
    r'.Doomed := by
  obtain ⟨mode, p, stack⟩ := r
  obtain ⟨word, hmode, hzero⟩ := hr
  cases hmode
  unfold Reader.step at h
  dsimp only at h
  split at h
  · rw [word_zero hzero] at h
    cases h
  · cases h
    exact ⟨_, rfl, List.mem_append_left _ hzero⟩

theorem outside_zero {r r' : Reader} (h : r.outside 0 = some r') : r'.Doomed := by
  cases h
  exact ⟨[0], rfl, List.mem_cons_self ..⟩

theorem step_zero {r r' : Reader} (h : r.step 0 = some r') : r'.Doomed := by
  unfold Reader.step at h
  split at h
  · exact outside_zero h
  · cases h
    exact ⟨_, rfl, List.mem_append_right _ (List.mem_cons_self ..)⟩
  · rename_i text s _
    cases s <;> cases h

/-- There is no zero byte in a JSON text. -/
theorem zero_not_mem_of_parse {text : Bytes} {v : Value} (h : parse text = some v) : 0 ∉ text := by
  intro hmem
  obtain ⟨before, after, rfl⟩ := List.append_of_mem hmem
  obtain ⟨r, hrun, hfinish⟩ := Option.bind_eq_some_iff.mp h
  obtain ⟨m, -, hm⟩ := run_append_some hrun
  obtain ⟨m', hzero, hafter⟩ := run_cons_some hm
  obtain ⟨word, hmode, hword⟩ : r.Doomed :=
    run_invariant_all (fun _ _ _ hs h => hs.step h) (step_zero hzero) hafter
  unfold Reader.finish at hfinish
  rw [hmode] at hfinish
  dsimp only at hfinish
  rw [word_zero hword] at hfinish
  cases hfinish

/-! ## The members of an object -/

def Frame.members : Frame → Option Members
  | .object members _ => some members
  | .array _ => none

def Phase.members : Phase → Option Members
  | .name members _ => some members
  | .colon members _ => some members
  | .done (.obj members) => some members
  | _ => none

/-- The members of the outermost of some frames. -/
def outerFrame : Frame → List Frame → Option Members
  | f, [] => f.members
  | _, g :: stack => outerFrame g stack

/-- The members of a frame, with the value that has just been read for it. -/
def Frame.current : Frame → Phase → Option Members
  | .object members name, .done v => some (members ++ [(name, v)])
  | f, _ => f.members

/-- The members of the outermost object so far. -/
def outer (p : Phase) : List Frame → Option Members
  | [] => p.members
  | [f] => f.current p
  | _ :: g :: stack => outerFrame g stack

def Phase.isDone : Phase → Bool
  | .done _ => true
  | _ => false

theorem outerFrame_of_outer {p : Phase} {f : Frame} {stack : List Frame} {members : Members}
    (h : outer p (f :: stack) = some members) (hp : p.isDone = false) :
    outerFrame f stack = some members := by
  cases stack with
  | nil =>
    cases p with
    | done v => cases hp
    | _ => cases f <;> exact h
  | cons g stack => exact h

theorem outer_of_outerFrame (p : Phase) {f : Frame} {stack : List Frame} {members : Members}
    (h : outerFrame f stack = some members) :
    ∃ more, outer p (f :: stack) = some (members ++ more) := by
  have hnone : some members = some (members ++ []) := by rw [List.append_nil]
  cases stack with
  | nil =>
    cases f with
    | array items => cases h
    | object ms name =>
      cases h
      cases p with
      | done v => exact ⟨[(name, v)], rfl⟩
      | _ => exact ⟨[], hnone⟩
  | cons g stack => exact ⟨[], h.trans hnone⟩

theorem valueToken_stack {stack stack' : List Frame} {t : Token} {p : Phase}
    (h : valueToken stack t = some (p, stack')) : stack' = stack := by
  unfold valueToken at h
  split at h <;> cases h <;> rfl

/-- A token adds to the members of the outermost object. -/
theorem advance_outer {p p' : Phase} {stack stack' : List Frame} {t : Token} {members : Members}
    (h : advance p stack t = some (p', stack')) (hout : outer p stack = some members) :
    ∃ more, outer p' stack' = some (members ++ more) := by
  have hnone : some members = some (members ++ []) := by rw [List.append_nil]
  -- a frame below stays as it is
  have hkeep : ∀ (q q' : Phase) (f : Frame) (rest : List Frame), q.isDone = false →
      outer q (f :: rest) = some members → ∃ more, outer q' (f :: rest) = some (members ++ more) :=
    fun q q' f rest hq hf => outer_of_outerFrame q' (outerFrame_of_outer hf hq)
  unfold advance at h
  split at h
  · -- a value
    cases valueToken_stack h
    cases stack with
    | nil => cases hout
    | cons f rest => exact hkeep _ _ f rest rfl hout
  · -- an empty array
    cases h
    cases stack with
    | nil => cases hout
    | cons f rest => exact hkeep _ _ f rest rfl hout
  · -- the first item of an array
    cases valueToken_stack h
    cases stack with
    | nil => cases hout
    | cons f rest => exact ⟨[], (outerFrame_of_outer hout rfl).trans hnone⟩
  · -- a name
    cases h
    cases stack with
    | nil => exact ⟨[], Eq.trans hout hnone⟩
    | cons f rest => exact hkeep _ _ f rest rfl hout
  · -- an empty object
    cases h
    cases stack with
    | nil => exact ⟨[], Eq.trans hout hnone⟩
    | cons f rest => exact hkeep _ _ f rest rfl hout
  · -- a colon
    cases h
    cases stack with
    | nil => exact ⟨[], Eq.trans hout hnone⟩
    | cons f rest => exact ⟨[], (outerFrame_of_outer hout rfl).trans hnone⟩
  · -- a further item
    cases h
    rename_i v items rest
    cases rest with
    | nil => cases hout
    | cons f rest => exact ⟨[], Eq.trans hout hnone⟩
  · -- the last item
    cases h
    cases stack' with
    | nil => cases hout
    | cons f rest => exact outer_of_outerFrame _ hout
  · -- a further member
    cases h
    cases stack' with
    | nil => exact ⟨[], Eq.trans hout hnone⟩
    | cons f rest => exact outer_of_outerFrame _ hout
  · -- the last member
    cases h
    cases stack' with
    | nil => exact ⟨[], Eq.trans hout hnone⟩
    | cons f rest => exact outer_of_outerFrame _ hout
  · cases h

/-- The members of the outermost object that a reader has read. -/
def Reader.outer (r : Reader) : Option Members := JsonText.outer r.phase r.stack

/-- The outermost object starts with these members. -/
def Reader.Extends (base : Members) (r : Reader) : Prop := ∃ more, r.outer = some (base ++ more)

theorem Reader.Extends.token {base : Members} {r r' : Reader} {t : Token} (hr : r.Extends base)
    (h : r.token t = some r') : r'.Extends base := by
  obtain ⟨more, hmore⟩ := hr
  obtain ⟨⟨p, stack⟩, hnext, rfl⟩ := Option.map_eq_some_iff.mp h
  obtain ⟨further, hfurther⟩ := advance_outer hnext hmore
  exact ⟨more ++ further, by rw [← List.append_assoc]; exact hfurther⟩

theorem Reader.Extends.word {base : Members} {r r' : Reader} {w : Bytes} (hr : r.Extends base)
    (h : r.word w = some r') : r'.Extends base := by
  obtain ⟨v, -, htoken⟩ := Option.bind_eq_some_iff.mp h
  exact hr.token htoken

theorem Reader.Extends.outside {base : Members} {r r' : Reader} {c : UInt8} (hr : r.Extends base)
    (h : r.outside c = some r') : r'.Extends base := by
  unfold Reader.outside at h
  split at h
  · cases h
    exact hr
  · split at h
    · cases h
      exact hr
    · split at h
      · exact hr.token h
      · cases h
        exact hr

theorem Reader.Extends.step {base : Members} {r r' : Reader} {c : UInt8} (hr : r.Extends base)
    (h : r.step c = some r') : r'.Extends base := by
  unfold Reader.step at h
  split at h
  · exact hr.outside h
  · split at h
    · obtain ⟨r₁, hword, hout⟩ := Option.bind_eq_some_iff.mp h
      exact (hr.word hword).outside hout
    · cases h
      exact hr
  · split at h
    · exact hr.token h
    · obtain ⟨q, -, rfl⟩ := Option.map_eq_some_iff.mp h
      exact hr

/-- What the members of an object have been is a first part of what they
become. -/
theorem finish_extends {base : Members} {r r' : Reader} {text : Bytes} {v : Value}
    (hr : r.Extends base) (hrun : run Reader.step r text = some r') (hv : r'.finish = some v) :
    ∃ more, v = .obj (base ++ more) := by
  have hr' : r'.Extends base :=
    run_invariant_all (fun _ _ _ hs h => hs.step h) hr hrun
  have hend : ∀ {s : Reader}, s.Extends base → (match s.phase, s.stack with
      | .done v, [] => some v
      | _, _ => none) = some v → ∃ more, v = .obj (base ++ more) := by
    rintro ⟨mode, p, stack⟩ ⟨more, hmore⟩ hs
    dsimp only at hs
    split at hs
    · rename_i w
      cases hs
      cases v <;> cases hmore
      exact ⟨more, rfl⟩
    · cases hs
  unfold Reader.finish at hv
  obtain ⟨s, hs, hvalue⟩ := Option.bind_eq_some_iff.mp hv
  refine hend ?_ hvalue
  split at hs
  · cases hs
    exact hr'
  · exact hr'.word hs
  · cases hs

end AmigaFleet.Lib.JsonText
