import AmigaFleet.Lib.Run
import Mathlib.Data.List.Basic
import Mathlib.Data.List.DropRight

/-!
# Reading TOML documents

A reader of TOML 1.0 as a machine that takes one character at a time.  It leaves
the tables and pairs of the document in their order, and `Doc.build` puts them
together.

Comments, tables, bare and quoted keys, basic strings, booleans, decimal integers
and arrays are read.  Dotted keys of pairs, arrays of tables, inline tables,
literal and multi-line strings, floats, dates and the other forms of integers are
not, and lines end in line feeds: any other document has no reading here.

* `StringMode.run_inside`: within a string, the machine does what `inside` does.
* `run_intercalate`, `run_rdropWhile_blank`: a document goes by its lines, and blank
  ones at its end say nothing.
* `parse` is the reading of a document, kept flat: each value and each table with
  its path.
* `Doc.add_table`, `Doc.add_pair`: a table or pair where nothing was is added, and
  `Grown` says what stays as it is.
-/

namespace AmigaFleet.Lib.Toml

abbrev Key := List Char

abbrev Path := List Key

inductive Value where
  | str (text : List Char)
  | bool (b : Bool)
  | int (n : Int)
  | arr (items : List Value)

/-- A header or a pair. -/
inductive Item where
  | table (path : Path)
  | pair (path : Path) (v : Value)

/-! ## Characters -/

/-- `unquoted-key` -/
def isBare (c : Char) : Bool := c.isAlphanum || c = '_' || c = '-'

/-- `wschar` -/
def isBlank (c : Char) : Bool := c = ' ' || c = '\t'

/-- A character of a value without quotes. -/
def isWord (c : Char) : Bool := c.isAlphanum || c = '_' || c = '-' || c = '+' || c = '.' || c = ':'

/-- A control character that may not stand for itself. -/
def isControl (c : Char) : Bool := (c.toNat < 32 && c ≠ '\t') || c.toNat = 127

/-! ## Values -/

/-- Where the text of a basic string stands. -/
inductive Inside where
  | plain
  | escape
  | hex (left code : Nat)
deriving DecidableEq, Repr

/-- The character that a two-character escape stands for. -/
def escaped : Char → Option Char
  | 'b' => some '\x08'
  | 't' => some '\t'
  | 'n' => some '\n'
  | 'f' => some '\x0c'
  | 'r' => some '\r'
  | '\x22' => some '\x22'
  | '\\' => some '\\'
  | _ => none

def hexValue (c : Char) : Option Nat :=
  if c.isDigit then some (c.toNat - 48)
  else if 97 ≤ c.toNat ∧ c.toNat ≤ 102 then some (c.toNat - 87)
  else if 65 ≤ c.toNat ∧ c.toNat ≤ 70 then some (c.toNat - 55)
  else none

/-- A Unicode scalar value. -/
def scalarValue (code : Nat) : Option Char :=
  if code.isValidChar then some (Char.ofNat code) else none

/-- One character of a basic string; the quote that ends it is not part of it. -/
def inside (q : List Char × Inside) (c : Char) : Option (List Char × Inside) :=
  match q.2 with
  | .plain =>
    if c = '\\' then some (q.1, .escape)
    else if c = '\x22' ∨ isControl c = true then none
    else some (q.1 ++ [c], .plain)
  | .escape =>
    if c = 'u' then some (q.1, .hex 4 0)
    else if c = 'U' then some (q.1, .hex 8 0)
    else (escaped c).map fun e => (q.1 ++ [e], .plain)
  | .hex left code =>
    (hexValue c).bind fun v =>
      if left = 1 then (scalarValue (16 * code + v)).map fun e => (q.1 ++ [e], .plain)
      else some (q.1, .hex (left - 1) (16 * code + v))

/-- The number that decimal digits write, without leading zeros. -/
def digitsValue (digits : List Char) : Option Nat :=
  if digits ≠ [] ∧ digits.all Char.isDigit ∧ (digits.head? = some '0' → digits = ['0']) then
    some (Nat.ofDigitChars 10 digits 0)
  else none

/-- A value without quotes. -/
def scalar (word : List Char) : Option Value :=
  if word = "true".toList then some (.bool true)
  else if word = "false".toList then some (.bool false)
  else
    match word with
    | '-' :: digits => (digitsValue digits).map fun n : Nat => .int (-n)
    | '+' :: digits => (digitsValue digits).map fun n : Nat => .int n
    | digits => (digitsValue digits).map fun n : Nat => .int n

theorem scalar_digits {digits : List Char} {n : Nat} (h : digitsValue digits = some n) :
    scalar digits = some (.int n) := by
  have hdigit : digits.all Char.isDigit = true := by
    unfold digitsValue at h
    split at h
    · rename_i hdigits
      exact hdigits.2.1
    · cases h
  have hne : ∀ d rest, Char.isDigit d = false → digits ≠ d :: rest := by
    rintro d rest hd rfl
    rw [List.all_cons, hd] at hdigit
    cases hdigit
  have htrue : digits ≠ "true".toList := by simpa using hne 't' ['r', 'u', 'e'] rfl
  have hfalse : digits ≠ "false".toList := by simpa using hne 'f' ['a', 'l', 's', 'e'] rfl
  unfold scalar
  rw [if_neg htrue, if_neg hfalse]
  split
  · exact absurd rfl (hne '-' _ rfl)
  · exact absurd rfl (hne '+' _ rfl)
  · rw [h]
    rfl
theorem scalar_minus {digits : List Char} {n : Nat} (h : digitsValue digits = some n) :
    scalar ('-' :: digits) = some (.int (-n)) := by
  unfold scalar
  rw [if_neg (by simp), if_neg (by simp)]
  show (digitsValue digits).map _ = _
  rw [h]
  rfl

/-! ## The machine -/

/-- What the machine is reading: `header` tells the key of a table from the key of
a pair, and `stack` are the arrays that are open. -/
inductive Mode where
  | line
  | comment
  /-- behind an expression -/
  | rest
  /-- a key is due -/
  | key (header : Bool) (path : Path)
  | bare (header : Bool) (path : Path) (word : Key)
  | quoted (header : Bool) (path : Path) (text : List Char) (s : Inside)
  | keyEnd (header : Bool) (path : Path)
  /-- a value is due, or the end of the array -/
  | value (path : Path) (stack : List (List Value))
  | word (path : Path) (stack : List (List Value)) (word : List Char)
  | string (path : Path) (stack : List (List Value)) (text : List Char) (s : Inside)
  | valueEnd (path : Path) (stack : List (List Value)) (v : Value)

structure Reader where
  mode : Mode
  items : List Item

/-- A character where a key is due. -/
def keyStep (header : Bool) (path : Path) (c : Char) : Option Mode :=
  if c = '\x22' then some (.quoted header path [] .plain)
  else if isBare c then some (.bare header path [c])
  else none

/-- A character behind a key. -/
def keyEndStep (header : Bool) (path : Path) (items : List Item) (c : Char) : Option Reader :=
  if isBlank c then some ⟨.keyEnd header path, items⟩
  else if c = '.' then some ⟨.key header path, items⟩
  else if header then if c = ']' then some ⟨.rest, items ++ [.table path]⟩ else none
  else if c = '=' then some ⟨.value path [], items⟩ else none

/-- A character behind a value. -/
def valueEndStep (path : Path) (stack : List (List Value)) (v : Value) (items : List Item)
    (c : Char) : Option Reader :=
  if isBlank c then some ⟨.valueEnd path stack v, items⟩
  else
    match stack with
    | [] =>
      if c = '\n' then some ⟨.line, items ++ [.pair path v]⟩
      else if c = '#' then some ⟨.comment, items ++ [.pair path v]⟩
      else none
    | vs :: stack =>
      if c = '\n' then some ⟨.valueEnd path (vs :: stack) v, items⟩
      else if c = ',' then some ⟨.value path ((vs ++ [v]) :: stack), items⟩
      else if c = ']' then some ⟨.valueEnd path stack (.arr (vs ++ [v])), items⟩
      else none

/-- A character where a value is due. -/
def valueStep (path : Path) (stack : List (List Value)) (c : Char) : Option Mode :=
  if isBlank c || (c = '\n' && !stack.isEmpty) then some (.value path stack)
  else if c = '\x22' then some (.string path stack [] .plain)
  else if c = '[' then some (.value path ([] :: stack))
  else if isWord c then some (.word path stack [c])
  else
    match stack with
    | vs :: stack => if c = ']' then some (.valueEnd path stack (.arr vs)) else none
    | [] => none

/-- One character. -/
def Reader.step (r : Reader) (c : Char) : Option Reader :=
  match r.mode with
  | .line =>
    if isBlank c || c = '\n' then some r
    else if c = '#' then some ⟨.comment, r.items⟩
    else if c = '[' then some ⟨.key true [], r.items⟩
    else (keyStep false [] c).map fun mode => ⟨mode, r.items⟩
  | .comment =>
    if c = '\n' then some ⟨.line, r.items⟩ else if isControl c then none else some r
  | .rest =>
    if isBlank c then some r
    else if c = '\n' then some ⟨.line, r.items⟩
    else if c = '#' then some ⟨.comment, r.items⟩
    else none
  | .key header path =>
    if isBlank c then some r else (keyStep header path c).map fun mode => ⟨mode, r.items⟩
  | .bare header path word =>
    if isBare c then some ⟨.bare header path (word ++ [c]), r.items⟩
    else keyEndStep header (path ++ [word]) r.items c
  | .quoted header path text s =>
    if s = .plain ∧ c = '\x22' then some ⟨.keyEnd header (path ++ [text]), r.items⟩
    else (inside (text, s) c).map fun q => ⟨.quoted header path q.1 q.2, r.items⟩
  | .keyEnd header path => keyEndStep header path r.items c
  | .value path stack => (valueStep path stack c).map fun mode => ⟨mode, r.items⟩
  | .word path stack word =>
    if isWord c then some ⟨.word path stack (word ++ [c]), r.items⟩
    else (scalar word).bind fun v => valueEndStep path stack v r.items c
  | .string path stack text s =>
    if s = .plain ∧ c = '\x22' then some ⟨.valueEnd path stack (.str text), r.items⟩
    else (inside (text, s) c).map fun q => ⟨.string path stack q.1 q.2, r.items⟩
  | .valueEnd path stack v => valueEndStep path stack v r.items c

/-- The tables and pairs of a document.  Its last line may lack the line feed. -/
def readItems (text : List Char) : Option (List Item) :=
  match run Reader.step ⟨.line, []⟩ (text ++ ['\n']) with
  | some ⟨.line, items⟩ => some items
  | _ => none

/-! ### Strings -/

/-- A mode that reads a basic string, and the one behind it. -/
structure StringMode (mode : List Char → Inside → Mode) (behind : List Char → Mode) : Prop where
  step : ∀ text s items c, Reader.step ⟨mode text s, items⟩ c =
    if s = .plain ∧ c = '\x22' then some ⟨behind text, items⟩
    else (inside (text, s) c).map fun q => ⟨mode q.1 q.2, items⟩

theorem stringMode_quoted (header : Bool) (path : Path) :
    StringMode (.quoted header path) fun text => .keyEnd header (path ++ [text]) :=
  ⟨fun _ _ _ _ => rfl⟩

theorem stringMode_string (path : Path) (stack : List (List Value)) :
    StringMode (.string path stack) fun text => .valueEnd path stack (.str text) :=
  ⟨fun _ _ _ _ => rfl⟩

theorem inside_quote (text : List Char) : inside (text, .plain) '\x22' = none := rfl

/-- Text that stays inside a string. -/
theorem StringMode.run_inside {mode : List Char → Inside → Mode} {behind : List Char → Mode}
    (h : StringMode mode behind) {q q' : List Char × Inside} {body : List Char}
    (hbody : run inside q body = some q') (items : List Item) :
    run Reader.step ⟨mode q.1 q.2, items⟩ body = some ⟨mode q'.1 q'.2, items⟩ := by
  induction body generalizing q with
  | nil =>
    obtain rfl := Option.some.inj hbody
    rfl
  | cons c body ih =>
    obtain ⟨q₁, hone, hrest⟩ := run_cons_some hbody
    have hclose : ¬ (q.2 = .plain ∧ c = '\x22') := by
      rintro ⟨hplain, rfl⟩
      have hquote := inside_quote q.1
      rw [← hplain] at hquote
      rw [hquote] at hone
      cases hone
    rw [run, h.step, if_neg hclose, hone]
    exact ih hrest

/-- A character that may not be in a string. -/
theorem StringMode.run_control {mode : List Char → Inside → Mode} {behind : List Char → Mode}
    (h : StringMode mode behind) {c : Char} (hc : isControl c = true) (text : List Char)
    (items : List Item) (more : List Char) :
    run Reader.step ⟨mode text .plain, items⟩ (c :: more) = none := by
  have hquote : c ≠ '\x22' := by
    rintro rfl
    cases hc
  have hslash : c ≠ '\\' := by
    rintro rfl
    cases hc
  have hinside : inside (text, .plain) c = none := by
    show (if c = '\\' then _ else if c = '\x22' ∨ isControl c = true then none else _) = none
    rw [if_neg hslash, if_pos (.inr hc)]
  rw [run, h.step, if_neg fun hclose => hquote hclose.2, hinside]
  rfl

/-! ### Lines -/

theorem valueEndStep_newline {path : Path} {stack : List (List Value)} {v : Value}
    {items : List Item} {r : Reader} (h : valueEndStep path stack v items '\n' = some r) :
    r.step '\n' = some r := by
  cases stack with
  | nil =>
    obtain rfl := Option.some.inj h
    rfl
  | cons vs stack =>
    obtain rfl := Option.some.inj h
    rfl

/-- Behind a line feed, another one changes nothing. -/
theorem Reader.step_newline {r r' : Reader} (h : r.step '\n' = some r') :
    r'.step '\n' = some r' := by
  obtain ⟨mode, items⟩ := r
  cases mode with
  | line =>
    obtain rfl := Option.some.inj h
    rfl
  | comment =>
    obtain rfl := Option.some.inj h
    rfl
  | rest =>
    obtain rfl := Option.some.inj h
    rfl
  | key header path => cases h
  | bare header path word => cases header <;> cases h
  | quoted header path text s => cases s <;> cases h
  | keyEnd header path => cases header <;> cases h
  | value path stack =>
    cases stack with
    | nil => cases h
    | cons vs stack =>
      obtain rfl := Option.some.inj h
      rfl
  | word path stack word =>
    have hbind : ((scalar word).bind fun v => valueEndStep path stack v items '\n') = some r' := h
    obtain ⟨v, -, hend⟩ := Option.bind_eq_some_iff.mp hbind
    exact valueEndStep_newline hend
  | string path stack text s => cases s <;> cases h
  | valueEnd path stack v => exact valueEndStep_newline h

/-- The lines of a document. -/
def unlines (lines : List (List Char)) : List Char := lines.flatMap (· ++ ['\n'])

theorem unlines_append (lines lines' : List (List Char)) :
    unlines (lines ++ lines') = unlines lines ++ unlines lines' := List.flatMap_append

theorem unlines_singleton (line : List Char) : unlines [line] = line ++ ['\n'] :=
  List.flatMap_singleton _ line

theorem intercalate_unlines {lines : List (List Char)} (hne : lines ≠ []) :
    ['\n'].intercalate lines ++ ['\n'] = unlines lines := by
  induction lines with
  | nil => exact absurd rfl hne
  | cons line lines ih =>
    cases lines with
    | nil => simp [unlines]
    | cons line' lines =>
      rw [List.intercalate_cons_cons, List.append_assoc, ih (List.cons_ne_nil line' lines)]
      rfl

/-- The lines of a document, joined. -/
theorem run_intercalate (lines : List (List Char)) (items : List Item) (more : List Char) :
    run Reader.step ⟨.line, items⟩ (['\n'].intercalate lines ++ ['\n'] ++ more) =
      run Reader.step ⟨.line, items⟩ (unlines lines ++ more) := by
  by_cases hne : lines = []
  · subst hne
    rfl
  · rw [intercalate_unlines hne]

theorem run_blank (lines : List (List Char)) (items : List Item) (more : List Char) :
    run Reader.step ⟨.line, items⟩ (unlines (lines ++ [[]]) ++ more) =
      run Reader.step ⟨.line, items⟩ (unlines lines ++ more) := by
  induction lines using List.reverseRecOn with
  | nil => rfl
  | append_singleton lines line =>
    have htext : ∀ rest, unlines (lines ++ [line]) ++ rest =
        (unlines lines ++ line) ++ '\n' :: rest := by
      intro rest
      rw [unlines_append, unlines_singleton, List.append_assoc, List.append_assoc,
        List.append_assoc]
      rfl
    have hblank : unlines (lines ++ [line] ++ [[]]) ++ more =
        (unlines lines ++ line) ++ '\n' :: '\n' :: more := by
      rw [unlines_append, unlines_singleton, List.append_assoc]
      exact htext ('\n' :: more)
    have hsplit := run_append_bind Reader.step ⟨.line, items⟩ (unlines lines ++ line)
    rw [hblank, htext, hsplit, hsplit]
    cases run Reader.step ⟨.line, items⟩ (unlines lines ++ line) with
    | none => rfl
    | some r =>
      rw [Option.bind_some, Option.bind_some, run_cons, run_cons]
      cases hstep : r.step '\n' with
      | none => rfl
      | some r' => rw [Option.bind_some, run_cons, Reader.step_newline hstep]

/-- Blank lines at the end of a document may be left out. -/
theorem run_rdropWhile_blank (lines : List (List Char)) (items : List Item) (more : List Char) :
    run Reader.step ⟨.line, items⟩ (unlines (lines.rdropWhile (· = [])) ++ more) =
      run Reader.step ⟨.line, items⟩ (unlines lines ++ more) := by
  induction lines using List.reverseRecOn with
  | nil => rfl
  | append_singleton lines line ih =>
    by_cases hblank : line = []
    · subst hblank
      rw [List.rdropWhile_concat_pos _ _ _ (by simp), ih, run_blank]
    · rw [List.rdropWhile_concat_neg _ _ _ (by simpa using hblank)]

/-! ## Documents -/

inductive Entry where
  | table
  | value (v : Value)

/-- A document as far as it has been read: `headers` are the tables that have had
their header, and `current` is the one that pairs go to. -/
structure Doc where
  entries : List (Path × Entry) := []
  headers : List Path := []
  current : Path := []

/-- The tables that a path leads through, and what it leads to. -/
def prefixes : Path → List Path
  | [] => []
  | key :: path => [key] :: (prefixes path).map (key :: ·)

def Doc.has (d : Doc) (path : Path) : Bool := d.entries.any fun e => e.1 = path

def Doc.hasValue (d : Doc) (path : Path) : Bool :=
  d.entries.any fun e => e.1 = path && match e.2 with
    | .value _ => true
    | .table => false

/-- A header: its table may not have had one, and makes the tables on the way to it. -/
def Doc.open (d : Doc) (path : Path) : Option Doc :=
  if d.headers.contains path || (prefixes path).any d.hasValue then none
  else
    some { entries := d.entries ++ ((prefixes path).filter fun p => !d.has p).map (·, .table)
           headers := d.headers ++ [path], current := path }

/-- A pair: its key may not be in the table. -/
def Doc.put (d : Doc) (key : Key) (v : Value) : Option Doc :=
  if d.has (d.current ++ [key]) then none
  else some { d with entries := d.entries ++ [(d.current ++ [key], .value v)] }

def Doc.add (d : Doc) : Item → Option Doc
  | .table path => d.open path
  | .pair [key] v => d.put key v
  | .pair _ _ => none

/-- The document with these tables and pairs. -/
def Doc.build (items : List Item) : Option Doc := run Doc.add {} items

/-- The document that a text writes. -/
def parse (text : List Char) : Option Doc := (readItems text).bind Doc.build

/-! ### Growing documents -/

theorem prefixes_append (path : Path) (k : Key) :
    prefixes (path ++ [k]) = prefixes path ++ [path ++ [k]] := by
  induction path with
  | nil => rfl
  | cons key path ih =>
    rw [List.cons_append, prefixes, ih, prefixes, List.map_append]
    rfl

theorem isPrefix_of_mem_prefixes {path p : Path} (h : p ∈ prefixes path) : p <+: path := by
  induction path generalizing p with
  | nil => cases h
  | cons key path ih =>
    rcases List.mem_cons.mp h with rfl | h
    · exact ⟨path, rfl⟩
    · obtain ⟨q, hq, rfl⟩ := List.mem_map.mp h
      obtain ⟨rest, rfl⟩ := ih hq
      exact ⟨rest, rfl⟩

theorem Doc.has_iff {d : Doc} {path : Path} : d.has path = true ↔ ∃ e ∈ d.entries, e.1 = path := by
  simp [Doc.has]

theorem Doc.hasValue_iff {d : Doc} {path : Path} :
    d.hasValue path = true ↔ ∃ v, (path, .value v) ∈ d.entries := by
  rw [Doc.hasValue, List.any_eq_true]
  constructor
  · rintro ⟨⟨p, e⟩, hmem, he⟩
    cases e with
    | table => simp at he
    | value v =>
      obtain rfl : p = path := by simpa using he
      exact ⟨v, hmem⟩
  · rintro ⟨v, hmem⟩
    exact ⟨_, hmem, by simp⟩

/-- A path and all on the way to it are tables of the document. -/
def Opened (d : Doc) (path : Path) : Prop :=
  ∀ p ∈ prefixes path, d.has p = true ∧ d.hasValue p = false

/-- The document has nothing at a path or behind it. -/
structure Clear (d : Doc) (path : Path) : Prop where
  entries : ∀ e ∈ d.entries, ¬ path <+: e.1
  headers : ∀ h ∈ d.headers, ¬ path <+: h

/-- A document and one that came of it: what is new is behind these keys of a table. -/
structure Grown (path : Path) (keys : List Key) (new : List (Path × Entry)) (d d' : Doc) :
    Prop where
  entries : d'.entries = d.entries ++ new
  under : ∀ e ∈ new, ∃ k ∈ keys, path ++ [k] <+: e.1
  headers : ∀ h ∈ d'.headers, h ∈ d.headers ∨ ∃ k ∈ keys, path ++ [k] <+: h

theorem not_prefix_sibling {path p : Path} {k k' : Key} (hne : k' ≠ k) (h : path ++ [k] <+: p) :
    ¬ path ++ [k'] <+: p := by
  intro h'
  obtain ⟨rest, rfl⟩ := h
  rw [List.append_assoc, List.prefix_append_right_inj] at h'
  exact hne (List.cons_prefix_cons.mp h').1

theorem Clear.has {d : Doc} {path : Path} (h : Clear d path) : d.has path = false := by
  rw [← Bool.not_eq_true, Doc.has_iff]
  rintro ⟨e, hmem, rfl⟩
  exact h.entries e hmem (List.prefix_refl e.1)

theorem Clear.hasValue {d : Doc} {path : Path} (h : Clear d path) : d.hasValue path = false := by
  rw [← Bool.not_eq_true, Doc.hasValue_iff]
  rintro ⟨v, hmem⟩
  exact h.entries _ hmem (List.prefix_refl path)

theorem Grown.refl (path : Path) (d : Doc) : Grown path [] [] d d :=
  ⟨(List.append_nil _).symm, fun _ he => absurd he List.not_mem_nil, fun _ hh => .inl hh⟩

theorem Grown.mono {path : Path} {keys keys' : List Key} {new : List (Path × Entry)} {d d' : Doc}
    (h : Grown path keys new d d') (hkeys : ∀ k ∈ keys, k ∈ keys') : Grown path keys' new d d' := by
  refine ⟨h.entries, fun e he => ?_, fun p hp => ?_⟩
  · obtain ⟨k, hk, hpre⟩ := h.under e he
    exact ⟨k, hkeys k hk, hpre⟩
  · rcases h.headers p hp with hp | ⟨k, hk, hpre⟩
    · exact .inl hp
    · exact .inr ⟨k, hkeys k hk, hpre⟩

theorem Grown.trans {path : Path} {keys : List Key} {new new' : List (Path × Entry)}
    {d d' d'' : Doc} (h : Grown path keys new d d') (h' : Grown path keys new' d' d'') :
    Grown path keys (new ++ new') d d'' := by
  refine ⟨?_, fun e he => ?_, fun p hp => ?_⟩
  · rw [h'.entries, h.entries, List.append_assoc]
  · rcases List.mem_append.mp he with he | he
    · exact h.under e he
    · exact h'.under e he
  · rcases h'.headers p hp with hp | hp
    · exact h.headers p hp
    · exact .inr hp

/-- What grows in a table grows behind its key. -/
theorem Grown.nest {path : Path} {k : Key} {keys : List Key} {new : List (Path × Entry)}
    {d d' : Doc} (h : Grown (path ++ [k]) keys new d d') : Grown path [k] new d d' := by
  have hpre : ∀ p, (∃ k' ∈ keys, path ++ [k] ++ [k'] <+: p) → ∃ k' ∈ [k], path ++ [k'] <+: p := by
    rintro p ⟨k', -, hk'⟩
    exact ⟨k, List.mem_singleton_self k, (List.prefix_append _ _).trans hk'⟩
  refine ⟨h.entries, fun e he => hpre _ (h.under e he), fun p hp => ?_⟩
  rcases h.headers p hp with hp | hp
  · exact .inl hp
  · exact .inr (hpre p hp)

theorem Opened.grown {path : Path} {keys : List Key} {new : List (Path × Entry)} {d d' : Doc}
    (hopened : Opened d path) (h : Grown path keys new d d') : Opened d' path := by
  intro p hp
  obtain ⟨hhas, hvalue⟩ := hopened p hp
  constructor
  · obtain ⟨e, hmem, he⟩ := Doc.has_iff.mp hhas
    exact Doc.has_iff.mpr ⟨e, by rw [h.entries]; exact List.mem_append_left _ hmem, he⟩
  · rw [← Bool.not_eq_true, Doc.hasValue_iff] at hvalue ⊢
    rintro ⟨v, hmem⟩
    rw [h.entries, List.mem_append] at hmem
    rcases hmem with hmem | hmem
    · exact hvalue ⟨v, hmem⟩
    · -- the new entry is longer than the path
      obtain ⟨k, -, hpre⟩ := h.under _ hmem
      have hlength := (hpre.trans (isPrefix_of_mem_prefixes hp)).length_le
      rw [List.length_append, List.length_singleton] at hlength
      omega

theorem Clear.grown {path : Path} {k : Key} {keys : List Key} {new : List (Path × Entry)}
    {d d' : Doc} (hclear : Clear d (path ++ [k])) (h : Grown path keys new d d') (hk : k ∉ keys) :
    Clear d' (path ++ [k]) := by
  have hother : ∀ p, (∃ k' ∈ keys, path ++ [k'] <+: p) → ¬ path ++ [k] <+: p := by
    rintro p ⟨k', hk', hpre⟩
    exact not_prefix_sibling (fun heq => hk (heq ▸ hk')) hpre
  constructor
  · intro e he
    rw [h.entries, List.mem_append] at he
    rcases he with he | he
    · exact hclear.entries e he
    · exact hother _ (h.under e he)
  · intro p hp
    rcases h.headers p hp with hp | hp
    · exact hclear.headers p hp
    · exact hother p hp

/-- The document behind the header of a new table. -/
def Doc.withTable (d : Doc) (path : Path) : Doc where
  entries := d.entries ++ [(path, .table)]
  headers := d.headers ++ [path]
  current := path

section Table

variable {d : Doc} {path : Path} {k : Key}

/-- The header of a table in an open one. -/
theorem Doc.add_table (hopened : Opened d path) (hclear : Clear d (path ++ [k])) :
    d.add (.table (path ++ [k])) = some (d.withTable (path ++ [k])) := by
  have hheaders : d.headers.contains (path ++ [k]) = false := by
    rw [← Bool.not_eq_true, List.contains_iff_mem]
    exact fun hmem => hclear.headers _ hmem (List.prefix_refl _)
  have hvalues : (prefixes (path ++ [k])).any d.hasValue = false := by
    rw [prefixes_append, List.any_append, List.any_cons, hclear.hasValue, List.any_nil,
      Bool.or_false, Bool.or_false, List.any_eq_false]
    exact fun p hp => by simp [(hopened p hp).2]
  have hnew : (prefixes (path ++ [k])).filter (fun p => !d.has p) = [path ++ [k]] := by
    have hold : (prefixes path).filter (fun p => !d.has p) = [] :=
      List.filter_eq_nil_iff.mpr fun p hp => by simp [(hopened p hp).1]
    rw [prefixes_append, List.filter_append, hold, List.nil_append, List.filter_singleton,
      hclear.has]
    rfl
  show d.open (path ++ [k]) = _
  rw [Doc.open, hheaders, hvalues, hnew, if_neg (by simp)]
  rfl

theorem grown_withTable (d : Doc) (path : Path) (k : Key) :
    Grown path [k] [(path ++ [k], .table)] d (d.withTable (path ++ [k])) := by
  refine ⟨rfl, fun e he => ?_, fun p hp => ?_⟩
  · rw [List.mem_singleton.mp he]
    exact ⟨k, List.mem_singleton_self k, List.prefix_refl _⟩
  · rcases List.mem_append.mp hp with hp | hp
    · exact .inl hp
    · rw [List.mem_singleton.mp hp]
      exact .inr ⟨k, List.mem_singleton_self k, List.prefix_refl _⟩

theorem Opened.withTable (hopened : Opened d path) (hclear : Clear d (path ++ [k])) :
    Opened (d.withTable (path ++ [k])) (path ++ [k]) := by
  intro p hp
  rw [prefixes_append, List.mem_append] at hp
  rcases hp with hp | hp
  · exact hopened.grown (grown_withTable d path k) p hp
  · rw [List.mem_singleton.mp hp]
    constructor
    · exact Doc.has_iff.mpr ⟨_, List.mem_append_right _ (List.mem_singleton_self _), rfl⟩
    · rw [← Bool.not_eq_true, Doc.hasValue_iff]
      rintro ⟨v, hmem⟩
      rcases List.mem_append.mp hmem with hmem | hmem
      · exact hclear.entries _ hmem (List.prefix_refl _)
      · cases List.mem_singleton.mp hmem

/-- A new table is empty. -/
theorem Clear.withTable (hclear : Clear d (path ++ [k])) (k' : Key) :
    Clear (d.withTable (path ++ [k])) (path ++ [k] ++ [k']) := by
  have hlonger : ¬ path ++ [k] ++ [k'] <+: path ++ [k] := by
    intro hpre
    have hlength := hpre.length_le
    rw [List.length_append, List.length_singleton] at hlength
    omega
  have hold : ∀ p, ¬ path ++ [k] <+: p → ¬ path ++ [k] ++ [k'] <+: p :=
    fun p hp hpre => hp ((List.prefix_append _ _).trans hpre)
  constructor
  · intro e he
    rcases List.mem_append.mp he with he | he
    · exact hold _ (hclear.entries e he)
    · rw [List.mem_singleton.mp he]
      exact hlonger
  · intro p hp
    rcases List.mem_append.mp hp with hp | hp
    · exact hold p (hclear.headers p hp)
    · rw [List.mem_singleton.mp hp]
      exact hlonger

end Table

theorem Doc.add_pair {d : Doc} {k : Key} (hclear : Clear d (d.current ++ [k])) (v : Value) :
    ∃ d', d.add (.pair [k] v) = some d' ∧
      Grown d.current [k] [(d.current ++ [k], .value v)] d d' ∧ d'.current = d.current := by
  have hadd : d.add (.pair [k] v) =
      some { d with entries := d.entries ++ [(d.current ++ [k], .value v)] } := by
    show d.put k v = _
    rw [Doc.put, hclear.has, if_neg Bool.false_ne_true]
  refine ⟨_, hadd, ⟨rfl, fun e he => ?_, fun p hp => .inl hp⟩, rfl⟩
  rw [List.mem_singleton.mp he]
  exact ⟨k, List.mem_singleton_self k, List.prefix_refl _⟩

end AmigaFleet.Lib.Toml
