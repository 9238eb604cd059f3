import Mathlib.Data.List.DropRight
import AmigaFleet.Lib.Toml
import AmigaFleet.Host.SandboxCommand

/-!
# Writing the configuration

The TOML writer of `host/src/amiga_fleet_mcp/setup_wizard.py`.

* `run_tomlKey`, `run_tomlValue`: a key and a value are read back, unless the
  character U+007F is in them, which TOML does not allow in a string.
* `readItems_renderToml`: the tables and pairs of the document.
* `build_items`: they make a document, and `mem_entries` says that it has what the
  dictionary has.
* `renderToml_iff`: the dictionaries that are read back.
-/

namespace AmigaFleet.Host.TomlRender

open AmigaFleet.Lib
open AmigaFleet.Lib.Toml (Key Path Item Entry Doc Reader Value StringMode Inside inside isBare
  Opened Clear Grown)
open SandboxCommand (intStr intStr_cases isDigit_toDigits)

/-! ## The writer -/

/-- A value of a configuration that is no dictionary; a path is kept by its `str`. -/
inductive Scalar where
  | str (text : List Char)
  | bool (b : Bool)
  | int (n : Int)
  | path (text : List Char)
  | list (items : List Scalar)

/-- The members of a dictionary in their order. -/
inductive Members where
  | nil
  | scalar (k : Key) (v : Scalar) (members : Members)
  | dict (k : Key) (inner : Members) (members : Members)

/-- A lower-case hexadecimal digit. -/
def hexDigit (n : Nat) : Char := Char.ofNat (if n < 10 then 48 + n else 87 + n)

/-- One character in `_toml_str`. -/
def escapeChar (ch : Char) : List Char :=
  if ch = '\x22' then ['\\', '\x22']
  else if ch = '\\' then ['\\', '\\']
  else if ch = '\n' then ['\\', 'n']
  else if ch = '\t' then ['\\', 't']
  else if ch.toNat < 0x20 then
    ['\\', 'u', hexDigit (ch.toNat / 4096 % 16), hexDigit (ch.toNat / 256 % 16),
      hexDigit (ch.toNat / 16 % 16), hexDigit (ch.toNat % 16)]
  else [ch]

/-- `_toml_str` -/
def tomlStr (s : List Char) : List Char := '\x22' :: (s.flatMap escapeChar ++ ['\x22'])

/-- `_toml_key`; the characters of `_TOML_SAFE_KEY` are those of a bare key. -/
def tomlKey (name : Key) : List Char :=
  if name ≠ [] ∧ name.all isBare then name else tomlStr name

mutual

/-- `_toml_value` -/
def tomlValue : Scalar → List Char
  | .bool b => if b then "true".toList else "false".toList
  | .int n => intStr n
  | .list items => '[' :: (", ".toList.intercalate (tomlValues items) ++ [']'])
  | .path text => tomlStr text
  | .str text => tomlStr text

def tomlValues : List Scalar → List (List Char)
  | [] => []
  | v :: items => tomlValue v :: tomlValues items

end

/-- The `scalars` of `_emit_table` -/
def Members.scalars : Members → List (Key × Scalar)
  | .nil => []
  | .scalar k v members => (k, v) :: members.scalars
  | .dict _ _ members => members.scalars

/-- The `tables` -/
def Members.tables : Members → List (Key × Members)
  | .nil => []
  | .scalar _ _ members => members.tables
  | .dict k inner members => (k, inner) :: members.tables

def headerLine (path : Path) : List Char := '[' :: (['.'].intercalate (path.map tomlKey) ++ [']'])

def pairLine (m : Key × Scalar) : List Char := tomlKey m.1 ++ (" = ".toList ++ tomlValue m.2)

/-- The lines that `_emit_table` writes before it comes to the `tables`. -/
def ownLines (path : Path) (members : Members) : List (List Char) :=
  if path ≠ [] ∨ members.scalars ≠ [] then
    (if path ≠ [] then [headerLine path] else []) ++ members.scalars.map pairLine ++
      if members.tables ≠ [] then [[]] else []
  else []

/-- The loop over the `tables`. -/
def tableLines (path : Path) : Members → List (List Char)
  | .nil => []
  | .scalar _ _ members => tableLines path members
  | .dict k inner members =>
    (ownLines (path ++ [k]) inner ++ tableLines (path ++ [k]) inner) ++ [[]] ++
      tableLines path members

/-- `_emit_table` -/
def emitTable (path : Path) (members : Members) : List (List Char) :=
  ownLines path members ++ tableLines path members

/-- `render_toml` -/
def renderToml (members : Members) : List Char :=
  ['\n'].intercalate ((emitTable [] members).rdropWhile (· = [])) ++ ['\n']

/-! ## Strings -/

/-- No character that TOML forbids is written as it is. -/
def legal (text : List Char) : Bool := !text.contains '\x7f'

theorem hexValue_hexDigit {n : Nat} (hn : n < 16) : Toml.hexValue (hexDigit n) = some n := by
  have hall : ∀ n < 16, Toml.hexValue (hexDigit n) = some n := by decide
  exact hall n hn

/-- Four digits are read as the character. -/
theorem run_hex {c : Char} (hc : c.toNat < 0x20) (text : List Char) :
    run inside (text, .hex 4 0) [hexDigit (c.toNat / 4096 % 16), hexDigit (c.toNat / 256 % 16),
      hexDigit (c.toNat / 16 % 16), hexDigit (c.toNat % 16)] = some (text ++ [c], .plain) := by
  have hstep : ∀ left code n, n < 16 → left ≠ 1 →
      inside (text, .hex left code) (hexDigit n) =
        some (text, .hex (left - 1) (16 * code + n)) := by
    intro left code n hn hleft
    show (Toml.hexValue (hexDigit n)).bind _ = _
    rw [hexValue_hexDigit hn, Option.bind_some, if_neg hleft]
  have hmod : ∀ k, k % 16 < 16 := fun k => Nat.mod_lt k (by decide)
  rw [run, hstep 4 0 _ (hmod _) (by decide)]
  dsimp only
  rw [run, hstep 3 _ _ (hmod _) (by decide)]
  dsimp only
  rw [run, hstep 2 _ _ (hmod _) (by decide)]
  dsimp only
  have hcode : 16 * (16 * (16 * (16 * 0 + c.toNat / 4096 % 16) + c.toNat / 256 % 16) +
      c.toNat / 16 % 16) + c.toNat % 16 = c.toNat := by omega
  have hvalid : Toml.scalarValue c.toNat = some c := by
    rw [Toml.scalarValue, if_pos (.inl (by omega)), Char.ofNat_toNat]
  have hlast : inside (text, .hex 1 (16 * (16 * (16 * 0 + c.toNat / 4096 % 16) +
      c.toNat / 256 % 16) + c.toNat / 16 % 16)) (hexDigit (c.toNat % 16)) =
        some (text ++ [c], .plain) := by
    show (Toml.hexValue (hexDigit _)).bind _ = _
    rw [hexValue_hexDigit (hmod _), Option.bind_some, if_pos rfl, hcode, hvalid]
    rfl
  rw [run, hlast]
  rfl

/-- What is written for a character is read as that character. -/
theorem run_escapeChar {c : Char} (hc : c ≠ '\x7f') (text : List Char) :
    run inside (text, .plain) (escapeChar c) = some (text ++ [c], .plain) := by
  unfold escapeChar
  split
  · rename_i h
    rw [h]
    rfl
  · split
    · rename_i h
      rw [h]
      rfl
    · split
      · rename_i h
        rw [h]
        rfl
      · split
        · rename_i h
          rw [h]
          rfl
        · split
          · rename_i hcontrol
            exact run_hex hcontrol text
          · rename_i hquote hslash hnewline htab hcontrol
            have hplain : Toml.isControl c = false := by
              have hdel : c.toNat ≠ 127 := by
                intro heq
                exact hc (Char.toNat_inj.mp heq)
              simp [Toml.isControl, hcontrol, hdel]
            have hstep : inside (text, .plain) c = some (text ++ [c], .plain) := by
              show (if c = '\\' then _ else if c = '\x22' ∨ Toml.isControl c = true then none
                else _) = _
              rw [if_neg hslash, if_neg (by simp [hquote, hplain])]
            rw [run, hstep]
            rfl

section Strings

variable {mode : List Char → Inside → Toml.Mode} {behind : List Char → Toml.Mode}

/-- The text of a string, up to its end. -/
theorem run_tomlStr (h : StringMode mode behind) (text s : List Char) (items : List Item)
    (more : List Char) :
    run Reader.step ⟨mode text .plain, items⟩ (s.flatMap escapeChar ++ '\x22' :: more) =
      if legal s then run Reader.step ⟨behind (text ++ s), items⟩ more else none := by
  induction s generalizing text with
  | nil =>
    rw [List.flatMap_nil, List.nil_append, run_cons, h.step, if_pos ⟨rfl, rfl⟩, List.append_nil]
    rfl
  | cons c s ih =>
    rw [List.flatMap_cons, List.append_assoc]
    by_cases hc : c = '\x7f'
    · subst hc
      exact h.run_control rfl text items _
    · have hlegal : legal (c :: s) = legal s := by simp [legal, Ne.symm hc]
      rw [run_append (h.run_inside (run_escapeChar hc text) items), ih, hlegal, List.append_assoc]
      rfl

end Strings

/-! ## Keys -/

theorem legal_of_isBare {name : Key} (h : name.all isBare = true) : legal name = true := by
  rw [legal, Bool.not_eq_true', ← Bool.not_eq_true, List.contains_iff_mem]
  intro hmem
  exact absurd (List.all_eq_true.mp h _ hmem) (by decide)

/-- A bare key, up to the character behind it. -/
theorem run_bare {header : Bool} {path : Path} {word name : Key} (h : name.all isBare = true)
    {c : Char} (hc : isBare c = false) (items : List Item) (more : List Char) :
    run Reader.step ⟨.bare header path word, items⟩ (name ++ c :: more) =
      (Toml.keyEndStep header (path ++ [word ++ name]) items c).bind fun r =>
        run Reader.step r more := by
  induction name generalizing word with
  | nil =>
    rw [List.nil_append, run_cons, List.append_nil]
    show (if isBare c = true then _ else _ : Option Reader).bind _ = _
    rw [hc, if_neg Bool.false_ne_true]
  | cons d name ih =>
    rw [List.all_cons, Bool.and_eq_true] at h
    rw [List.cons_append, run_cons]
    show (if isBare d = true then _ else _ : Option Reader).bind _ = _
    rw [if_pos h.1, Option.bind_some, ih h.2, List.append_assoc]
    rfl

/-- A character that is none of a bare key. -/
theorem ne_of_isBare {c d : Char} (hc : isBare c = true) (hd : isBare d = false) : c ≠ d := by
  rintro rfl
  rw [hc] at hd
  cases hd

/-- A key begins in the same way where a line begins. -/
theorem step_key {c : Char} (hc : c = '\x22' ∨ isBare c = true) (header : Bool) (path : Path)
    (items : List Item) :
    Reader.step ⟨.key header path, items⟩ c =
        (Toml.keyStep header path c).map (fun mode => ⟨mode, items⟩) ∧
      Reader.step ⟨.line, items⟩ c = (Toml.keyStep false [] c).map (fun mode => ⟨mode, items⟩) := by
  have hne : ∀ d, d ≠ '\x22' → isBare d = false → c ≠ d := by
    intro d hquote hbare
    rcases hc with rfl | hc
    · exact Ne.symm hquote
    · exact ne_of_isBare hc hbare
  have hblank : Toml.isBlank c = false := by
    simp [Toml.isBlank, hne ' ' (by decide) (by decide), hne '\t' (by decide) (by decide)]
  constructor
  · show (if Toml.isBlank c = true then _ else _) = _
    rw [hblank, if_neg Bool.false_ne_true]
  · show (if (Toml.isBlank c || c = '\n') = true then _ else if c = '#' then _ else
      if c = '[' then _ else _) = _
    rw [hblank, if_neg (by simp [hne '\n' (by decide) (by decide)]),
      if_neg (hne '#' (by decide) (by decide)), if_neg (hne '[' (by decide) (by decide))]

/-- The first character of a key. -/
theorem tomlKey_cons (name : Key) :
    ∃ c rest, tomlKey name = c :: rest ∧ (c = '\x22' ∨ isBare c = true) := by
  unfold tomlKey
  split
  · rename_i hbare
    obtain ⟨hne, hall⟩ := hbare
    obtain ⟨c, rest, rfl⟩ := List.exists_cons_of_ne_nil hne
    exact ⟨c, rest, rfl, .inr (List.all_eq_true.mp hall c List.mem_cons_self)⟩
  · exact ⟨'\x22', _, rfl, .inl rfl⟩

theorem run_line_key (name : Key) (items : List Item) (more : List Char) :
    run Reader.step ⟨.line, items⟩ (tomlKey name ++ more) =
      run Reader.step ⟨.key false [], items⟩ (tomlKey name ++ more) := by
  obtain ⟨c, rest, hkey, hc⟩ := tomlKey_cons name
  obtain ⟨hstep, hline⟩ := step_key hc false [] items
  rw [hkey, List.cons_append, run_cons, run_cons, hstep, hline]

/-- A key where one is due, up to the character behind it. -/
theorem run_tomlKey (header : Bool) (path : Path) (name : Key) {c : Char} (hc : isBare c = false)
    (items : List Item) (more : List Char) :
    run Reader.step ⟨.key header path, items⟩ (tomlKey name ++ c :: more) =
      if legal name then (Toml.keyEndStep header (path ++ [name]) items c).bind fun r =>
        run Reader.step r more else none := by
  unfold tomlKey
  split
  · rename_i hbare
    obtain ⟨hne, hall⟩ := hbare
    rw [if_pos (legal_of_isBare hall)]
    obtain ⟨d, name, rfl⟩ := List.exists_cons_of_ne_nil hne
    rw [List.all_cons, Bool.and_eq_true] at hall
    have hkey : Toml.keyStep header path d = some (.bare header path [d]) := by
      rw [Toml.keyStep, if_neg (ne_of_isBare hall.1 rfl), if_pos hall.1]
    rw [List.cons_append, run_cons, (step_key (.inr hall.1) header path items).1, hkey,
      Option.map_some, Option.bind_some, run_bare hall.2 hc]
    rfl
  · rw [tomlStr, List.cons_append, List.append_assoc, List.singleton_append, run_cons]
    show run Reader.step ⟨.quoted header path [] .plain, items⟩ _ = _
    rw [run_tomlStr (Toml.stringMode_quoted header path)]
    split
    · rw [run_cons]
      rfl
    · rfl

/-! ## Values -/

mutual

/-- The value that is read. -/
def Scalar.read : Scalar → Value
  | .str text => .str text
  | .bool b => .bool b
  | .int n => .int n
  | .path text => .str text
  | .list items => .arr (readAll items)

def readAll : List Scalar → List Value
  | [] => []
  | v :: items => v.read :: readAll items

end

mutual

/-- The texts in a value. -/
def Scalar.texts : Scalar → List (List Char)
  | .str text => [text]
  | .path text => [text]
  | .list items => textsAll items
  | .bool _ => []
  | .int _ => []

def textsAll : List Scalar → List (List Char)
  | [] => []
  | v :: items => v.texts ++ textsAll items

end

/-- Digits have no zero in front of others. -/
theorem head?_toDigits {n : Nat} (h : (Nat.toDigits 10 n).head? = some '0') : n = 0 := by
  induction n using Nat.strong_induction_on with
  | _ n ih =>
    by_cases hsmall : n < 10
    · rw [Nat.toDigits_of_lt_base hsmall] at h
      have hall : ∀ n < 10, [Nat.digitChar n].head? = some '0' → n = 0 := by decide
      exact hall n hsmall h
    · rw [Nat.toDigits_of_base_le (by decide) (by omega), List.head?_append] at h
      cases hhead : (Nat.toDigits 10 (n / 10)).head? with
      | none =>
        rw [List.head?_eq_none_iff] at hhead
        exact absurd hhead Nat.toDigits_ne_nil
      | some d =>
        rw [hhead] at h
        have hzero := ih (n / 10) (by omega) (hhead.trans h)
        omega

theorem digitsValue_toDigits (n : Nat) : Toml.digitsValue (Nat.toDigits 10 n) = some n := by
  have hzero : (Nat.toDigits 10 n).head? = some '0' → Nat.toDigits 10 n = ['0'] := by
    intro h
    rw [head?_toDigits h]
    rfl
  have hdigits : (Nat.toDigits 10 n).all Char.isDigit = true := by
    rw [List.all_eq_true]
    exact fun c hc => isDigit_toDigits hc
  rw [Toml.digitsValue, if_pos ⟨Nat.toDigits_ne_nil, hdigits, hzero⟩, Nat.ofDigitChars_ten_toDigits]

/-- A word that ends at a character which is none of it. -/
theorem run_word {word : List Char} (hne : word ≠ []) (h : word.all Toml.isWord = true) {v : Value}
    (hv : Toml.scalar word = some v) (path : Path) (stack : List (List Value)) (items : List Item)
    {c : Char} (hc : Toml.isWord c = false) (more : List Char) :
    run Reader.step ⟨.value path stack, items⟩ (word ++ c :: more) =
      (Toml.valueEndStep path stack v items c).bind fun r => run Reader.step r more := by
  have hword : ∀ front rest, front ++ rest = word → rest.all Toml.isWord = true →
      run Reader.step ⟨.word path stack front, items⟩ (rest ++ c :: more) =
        (Toml.valueEndStep path stack v items c).bind fun r => run Reader.step r more := by
    intro front rest
    induction rest generalizing front with
    | nil =>
      intro hfront _
      rw [List.append_nil] at hfront
      rw [List.nil_append, run_cons, hfront]
      show (if Toml.isWord c = true then _ else _ : Option Reader).bind _ = _
      rw [hc, if_neg Bool.false_ne_true, hv]
      rfl
    | cons d rest ih =>
      intro hfront hrest
      rw [List.all_cons, Bool.and_eq_true] at hrest
      rw [List.cons_append, run_cons]
      show (if Toml.isWord d = true then _ else _ : Option Reader).bind _ = _
      rw [if_pos hrest.1, Option.bind_some]
      exact ih (front ++ [d]) (by rw [← hfront, List.append_assoc]; rfl) hrest.2
  obtain ⟨d, rest, rfl⟩ := List.exists_cons_of_ne_nil hne
  rw [List.all_cons, Bool.and_eq_true] at h
  have hother : ∀ d', Toml.isWord d' = false → d ≠ d' := by
    rintro d' hd' rfl
    rw [h.1] at hd'
    cases hd'
  have hstep : Toml.valueStep path stack d = some (.word path stack [d]) := by
    have hblank : Toml.isBlank d = false := by
      simp [Toml.isBlank, hother ' ' rfl, hother '\t' rfl]
    unfold Toml.valueStep
    rw [hblank, if_neg (by simp [hother '\n' rfl]), if_neg (hother '\x22' rfl),
      if_neg (hother '[' rfl), if_pos h.1]
  rw [List.cons_append, run_cons]
  show ((Toml.valueStep path stack d).map _).bind _ = _
  rw [hstep]
  exact hword [d] rest rfl h.2

theorem scalar_intStr (n : Int) : Toml.scalar (intStr n) = some (.int n) ∧
    intStr n ≠ [] ∧ (intStr n).all Toml.isWord = true := by
  have hword : ∀ m, (Nat.toDigits 10 m).all Toml.isWord = true := by
    intro m
    rw [List.all_eq_true]
    intro c hc
    have hdigit := isDigit_toDigits hc
    simp [Toml.isWord, Char.isAlphanum, hdigit]
  rcases intStr_cases n with ⟨m, rfl, htext⟩ | ⟨m, rfl, htext⟩
  · rw [htext]
    exact ⟨Toml.scalar_digits (digitsValue_toDigits m), Nat.toDigits_ne_nil, hword m⟩
  · rw [htext, List.all_cons, hword]
    exact ⟨Toml.scalar_minus (digitsValue_toDigits _), List.cons_ne_nil _ _, rfl⟩

theorem run_quoted_value (text : List Char) (path : Path) (stack : List (List Value))
    (items : List Item) (c : Char) (more : List Char) :
    run Reader.step ⟨.value path stack, items⟩ (tomlStr text ++ c :: more) =
      if legal text then (Toml.valueEndStep path stack (.str text) items c).bind fun r =>
        run Reader.step r more else none := by
  have hstep : Reader.step ⟨.value path stack, items⟩ '\x22' =
      some ⟨.string path stack [] .plain, items⟩ := by
    cases stack <;> rfl
  rw [tomlStr, List.cons_append, List.append_assoc, List.singleton_append, run_cons, hstep,
    Option.bind_some]
  rw [run_tomlStr (Toml.stringMode_string path stack), run_cons]
  rfl

/-- The beginning of an array. -/
theorem step_bracket (path : Path) (stack : List (List Value)) (items : List Item) :
    Reader.step ⟨.value path stack, items⟩ '[' = some ⟨.value path ([] :: stack), items⟩ := by
  cases stack <;> rfl

mutual

/-- A value where one is due, up to the character behind it. -/
theorem run_tomlValue : ∀ (v : Scalar) (path : Path) (stack : List (List Value))
    (items : List Item) {c : Char}, Toml.isWord c = false → ∀ more : List Char,
    run Reader.step ⟨.value path stack, items⟩ (tomlValue v ++ c :: more) =
      if v.texts.all legal then (Toml.valueEndStep path stack v.read items c).bind fun r =>
        run Reader.step r more else none
  | .str text, path, stack, items, c, hc, more => by
    rw [tomlValue, run_quoted_value, Scalar.texts, List.all_cons, List.all_nil, Bool.and_true]
    rfl
  | .path text, path, stack, items, c, hc, more => by
    rw [tomlValue, run_quoted_value, Scalar.texts, List.all_cons, List.all_nil, Bool.and_true]
    rfl
  | .bool b, path, stack, items, c, hc, more => by
    cases b with
    | true => exact run_word (by decide) rfl rfl path stack items hc more
    | false => exact run_word (by decide) rfl rfl path stack items hc more
  | .int n, path, stack, items, c, hc, more => by
    obtain ⟨hscalar, hne, hword⟩ := scalar_intStr n
    exact run_word hne hword hscalar path stack items hc more
  | .list [], path, stack, items, c, hc, more => by
    have hclose : Reader.step ⟨.value path ([] :: stack), items⟩ ']' =
        some ⟨.valueEnd path stack (.arr []), items⟩ := rfl
    show run Reader.step ⟨.value path stack, items⟩ ('[' :: ']' :: c :: more) = _
    rw [run_cons, step_bracket, Option.bind_some, run_cons, hclose, Option.bind_some, run_cons]
    rfl
  | .list (v :: vs), path, stack, items, c, hc, more => by
    rw [tomlValue, List.cons_append, List.append_assoc, List.singleton_append, run_cons,
      step_bracket, Option.bind_some]
    rw [run_tomlValues (v :: vs) (List.cons_ne_nil v vs), Scalar.texts, run_cons]
    rfl

/-- The values of an array and its end. -/
theorem run_tomlValues : ∀ vs : List Scalar, vs ≠ [] → ∀ (path : Path) (stack : List (List Value))
    (front : List Value) (items : List Item) (more : List Char),
    run Reader.step ⟨.value path (front :: stack), items⟩
        (", ".toList.intercalate (tomlValues vs) ++ ']' :: more) =
      if (textsAll vs).all legal then
        run Reader.step ⟨.valueEnd path stack (.arr (front ++ readAll vs)), items⟩ more else none
  | [], hne, _, _, _, _, _ => absurd rfl hne
  | [v], _, path, stack, front, items, more => by
    rw [tomlValues, tomlValues, List.intercalate_singleton, run_tomlValue v _ _ _ rfl, textsAll,
      textsAll, List.append_nil]
    rfl
  | v :: w :: vs, _, path, stack, front, items, more => by
    have hrest := run_tomlValues (w :: vs) (List.cons_ne_nil w vs) path stack (front ++ [v.read])
      items more
    have hcomma : Toml.valueEndStep path (front :: stack) v.read items ',' =
        some ⟨.value path ((front ++ [v.read]) :: stack), items⟩ := rfl
    have hblank : Reader.step ⟨.value path ((front ++ [v.read]) :: stack), items⟩ ' ' =
        some ⟨.value path ((front ++ [v.read]) :: stack), items⟩ := rfl
    have htext : ", ".toList.intercalate (tomlValues (v :: w :: vs)) ++ ']' :: more =
        tomlValue v ++ ',' :: ' ' :: (", ".toList.intercalate (tomlValues (w :: vs)) ++
          ']' :: more) := by
      rw [tomlValues, tomlValues, List.intercalate_cons_cons, List.append_assoc, List.append_assoc]
      rfl
    have htexts : (textsAll (v :: w :: vs)).all legal =
        (v.texts.all legal && (textsAll (w :: vs)).all legal) := by
      rw [textsAll, List.all_append]
    have hread : front ++ readAll (v :: w :: vs) = front ++ [v.read] ++ readAll (w :: vs) := by
      rw [readAll, List.append_assoc, List.singleton_append]
    rw [htext, run_tomlValue v path (front :: stack) items rfl, hcomma, Option.bind_some, run_cons,
      hblank, Option.bind_some, hrest, htexts, hread]
    cases v.texts.all legal <;> rfl

end

/-! ## Lines -/

/-- Lines that are read as these tables and pairs, or not at all. -/
def Reads (lines : List (List Char)) (ok : Bool) (new : List Item) : Prop :=
  ∀ items more, run Reader.step ⟨.line, items⟩ (Toml.unlines lines ++ more) =
    if ok then run Reader.step ⟨.line, items ++ new⟩ more else none

theorem Reads.nil : Reads [] true [] := by
  intro items more
  rw [List.append_nil]
  rfl

theorem Reads.blank : Reads [[]] true [] := by
  intro items more
  rw [List.append_nil]
  rfl

theorem Reads.append {lines lines' : List (List Char)} {ok ok' : Bool} {new new' : List Item}
    (h : Reads lines ok new) (h' : Reads lines' ok' new') :
    Reads (lines ++ lines') (ok && ok') (new ++ new') := by
  intro items more
  rw [Toml.unlines_append, List.append_assoc, h items]
  cases ok with
  | false => rfl
  | true =>
    rw [if_pos rfl, h' (items ++ new), List.append_assoc]
    rfl

/-- Behind a line that is not read, no line is. -/
theorem Reads.append_false {lines : List (List Char)} {new : List Item} (h : Reads lines false new)
    (lines' : List (List Char)) (new' : List Item) : Reads (lines ++ lines') false new' := by
  intro items more
  rw [Toml.unlines_append, List.append_assoc]
  exact h items _

/-- A line by itself. -/
theorem Reads.line {line : List Char} {ok : Bool} {new : List Item}
    (h : ∀ items more, run Reader.step ⟨.line, items⟩ (line ++ '\n' :: more) =
      if ok then run Reader.step ⟨.line, items ++ new⟩ more else none) : Reads [line] ok new := by
  intro items more
  rw [Toml.unlines_singleton, List.append_assoc]
  exact h items more

/-- The keys of a header and its end. -/
theorem run_headerKeys {path : Path} (hne : path ≠ []) (front : Path) (items : List Item)
    (more : List Char) :
    run Reader.step ⟨.key true front, items⟩
        (['.'].intercalate (path.map tomlKey) ++ ']' :: more) =
      if path.all legal then run Reader.step ⟨.rest, items ++ [.table (front ++ path)]⟩ more
      else none := by
  induction path generalizing front with
  | nil => exact absurd rfl hne
  | cons name path ih =>
    cases path with
    | nil =>
      rw [List.map_singleton, List.intercalate_singleton, run_tomlKey true front name rfl,
        List.all_cons, List.all_nil, Bool.and_true]
      rfl
    | cons name' path =>
      have htext : ['.'].intercalate ((name :: name' :: path).map tomlKey) ++ ']' :: more =
          tomlKey name ++ '.' :: (['.'].intercalate ((name' :: path).map tomlKey) ++
            ']' :: more) := by
        rw [List.map_cons, List.map_cons, List.intercalate_cons_cons, List.append_assoc,
          List.append_assoc]
        rfl
      have hdot : Toml.keyEndStep true (front ++ [name]) items '.' =
          some ⟨.key true (front ++ [name]), items⟩ := rfl
      rw [htext, run_tomlKey true front name rfl, hdot, Option.bind_some,
        ih (List.cons_ne_nil name' path), List.append_assoc, List.all_cons (a := name)]
      cases legal name <;> rfl

theorem reads_headerLine {path : Path} (hne : path ≠ []) :
    Reads [headerLine path] (path.all legal) [.table path] := by
  refine Reads.line fun items more => ?_
  have hopen : Reader.step ⟨.line, items⟩ '[' = some ⟨.key true [], items⟩ := rfl
  have hend : Reader.step ⟨.rest, items ++ [.table path]⟩ '\n' =
      some ⟨.line, items ++ [.table path]⟩ := rfl
  rw [headerLine, List.cons_append, List.append_assoc, List.singleton_append, run_cons, hopen,
    Option.bind_some, run_headerKeys hne, List.nil_append, run_cons, hend, Option.bind_some]

theorem reads_pairLine (m : Key × Scalar) :
    Reads [pairLine m] (legal m.1 && m.2.texts.all legal) [.pair [m.1] m.2.read] := by
  refine Reads.line fun items more => ?_
  have htext : pairLine m ++ '\n' :: more =
      tomlKey m.1 ++ ' ' :: '=' :: ' ' :: (tomlValue m.2 ++ '\n' :: more) := by
    rw [pairLine, List.append_assoc, List.append_assoc]
    rfl
  have hkey : Toml.keyEndStep false ([] ++ [m.1]) items ' ' = some ⟨.keyEnd false [m.1], items⟩ :=
    rfl
  have heq : Reader.step ⟨.keyEnd false [m.1], items⟩ '=' = some ⟨.value [m.1] [], items⟩ := rfl
  have hblank : Reader.step ⟨.value [m.1] [], items⟩ ' ' = some ⟨.value [m.1] [], items⟩ := rfl
  have hend : Toml.valueEndStep [m.1] [] m.2.read items '\n' =
      some ⟨.line, items ++ [.pair [m.1] m.2.read]⟩ := rfl
  rw [htext, run_line_key, run_tomlKey false [] m.1 rfl, hkey, Option.bind_some, run_cons, heq,
    Option.bind_some, run_cons, hblank, Option.bind_some, run_tomlValue m.2 [m.1] [] items rfl,
    hend, Option.bind_some]
  cases legal m.1 <;> rfl

/-! ## The tables and pairs -/

/-- The table of a dictionary and its pairs. -/
def ownItems (path : Path) (members : Members) : List Item :=
  (if path ≠ [] then [.table path] else []) ++
    members.scalars.map fun m => .pair [m.1] m.2.read

/-- The tables and pairs of the dictionaries in a dictionary. -/
def tableItems (path : Path) : Members → List Item
  | .nil => []
  | .scalar _ _ members => tableItems path members
  | .dict k inner members =>
    (ownItems (path ++ [k]) inner ++ tableItems (path ++ [k]) inner) ++ tableItems path members

/-- The keys, strings and paths of a dictionary. -/
def Members.texts : Members → List (List Char)
  | .nil => []
  | .scalar k v members => k :: (v.texts ++ members.texts)
  | .dict k inner members => k :: (inner.texts ++ members.texts)

/-- Whether its pairs are read. -/
def ownLegal (members : Members) : Bool :=
  members.scalars.all fun m => legal m.1 && m.2.texts.all legal

/-- Whether the dictionaries in it are. -/
def tablesLegal : Members → Bool
  | .nil => true
  | .scalar _ _ members => tablesLegal members
  | .dict k inner members => (legal k && inner.texts.all legal) && tablesLegal members

theorem all_texts (members : Members) :
    members.texts.all legal = (ownLegal members && tablesLegal members) := by
  induction members with
  | nil => rfl
  | scalar k v members ih =>
    have hown : ownLegal (.scalar k v members) =
        ((legal k && v.texts.all legal) && ownLegal members) := rfl
    rw [Members.texts, List.all_cons, List.all_append, ih, hown, tablesLegal, Bool.and_assoc,
      Bool.and_assoc]
  | dict k inner members _ ih =>
    have hown : ownLegal (.dict k inner members) = ownLegal members := rfl
    rw [Members.texts, List.all_cons, List.all_append, ih, hown, tablesLegal, Bool.and_assoc,
      Bool.and_left_comm (inner.texts.all legal) (ownLegal members),
      Bool.and_left_comm (legal k) (ownLegal members)]

/-- The pairs of a table. -/
theorem reads_pairs (scalars : List (Key × Scalar)) :
    Reads (scalars.map pairLine) (scalars.all fun m => legal m.1 && m.2.texts.all legal)
      (scalars.map fun m => .pair [m.1] m.2.read) := by
  induction scalars with
  | nil => exact Reads.nil
  | cons m scalars ih => exact (reads_pairLine m).append ih

theorem reads_ownLines (path : Path) (members : Members) :
    Reads (ownLines path members) (path.all legal && ownLegal members)
      (ownItems path members) := by
  have hheader : Reads (if path ≠ [] then [headerLine path] else []) (path.all legal)
      (if path ≠ [] then [.table path] else []) := by
    split
    · rename_i hpath
      exact reads_headerLine hpath
    · rename_i hpath
      rw [not_not.mp hpath]
      exact Reads.nil
  have hblank : Reads (if members.tables ≠ [] then [[]] else []) true [] := by
    split
    · exact Reads.blank
    · exact Reads.nil
  rw [ownLines]
  split
  · have hall := (hheader.append (reads_pairs members.scalars)).append hblank
    rw [Bool.and_true, List.append_nil] at hall
    exact hall
  · rename_i hempty
    obtain ⟨hpath, hscalars⟩ := not_or.mp hempty
    rw [ownLegal, ownItems, not_not.mp hpath, not_not.mp hscalars]
    exact Reads.nil

theorem reads_tableLines (path : Path) (hpath : path.all legal = true) (members : Members) :
    Reads (tableLines path members) (tablesLegal members) (tableItems path members) := by
  induction members generalizing path with
  | nil => exact Reads.nil
  | scalar k v members ih => exact ih path hpath
  | dict k inner members ihInner ih =>
    have hown := reads_ownLines (path ++ [k]) inner
    have hkey : (path ++ [k]).all legal = legal k := by
      rw [List.all_append, hpath, List.all_cons, List.all_nil, Bool.true_and, Bool.and_true]
    rw [hkey] at hown
    rw [tableLines, tableItems, tablesLegal, all_texts]
    cases hk : legal k with
    | false =>
      -- the header is not read
      rw [hk] at hown
      rw [List.append_assoc, List.append_assoc]
      exact hown.append_false _ _
    | true =>
      rw [hk] at hkey hown
      have hall := ((hown.append (ihInner (path ++ [k]) hkey)).append Reads.blank).append
        (ih path hpath)
      rw [Bool.and_true, List.append_nil] at hall
      exact hall

/-- The tables and pairs that are read, if any are. -/
theorem readItems_renderToml (members : Members) :
    Toml.readItems (renderToml members) =
      if members.texts.all legal then some (ownItems [] members ++ tableItems [] members)
      else none := by
  have hreads := (reads_ownLines [] members).append (reads_tableLines [] rfl members)
  rw [List.all_nil, Bool.true_and, ← all_texts] at hreads
  rw [Toml.readItems, renderToml, Toml.run_intercalate, Toml.run_rdropWhile_blank, emitTable,
    hreads]
  cases members.texts.all legal <;> rfl

/-! ## The dictionary that is read -/

/-- The pairs of a dictionary with their paths. -/
def ownEntries (path : Path) (members : Members) : List (Path × Entry) :=
  members.scalars.map fun m => (path ++ [m.1], .value m.2.read)

/-- What is in the dictionaries of a dictionary, and these. -/
def tableEntries (path : Path) : Members → List (Path × Entry)
  | .nil => []
  | .scalar _ _ members => tableEntries path members
  | .dict k inner members =>
    ((path ++ [k], .table) :: (ownEntries (path ++ [k]) inner ++ tableEntries (path ++ [k]) inner))
      ++ tableEntries path members

/-- The keys of a dictionary. -/
def Members.keys : Members → List Key
  | .nil => []
  | .scalar k _ members => k :: members.keys
  | .dict k _ members => k :: members.keys

/-- No dictionary has two members of one key. -/
def Members.distinct : Members → Prop
  | .nil => True
  | .scalar k _ members => k ∉ members.keys ∧ members.distinct
  | .dict k inner members => k ∉ members.keys ∧ inner.distinct ∧ members.distinct

/-- What a dictionary has at a path. -/
def Members.get : Members → Path → Option Entry
  | _, [] => none
  | .nil, _ => none
  | .scalar k v members, key :: path =>
    if key = k then if path = [] then some (.value v.read) else none
    else members.get (key :: path)
  | .dict k inner members, key :: path =>
    if key = k then if path = [] then some .table else inner.get path
    else members.get (key :: path)

theorem Members.get_nil (members : Members) : members.get [] = none := by
  cases members <;> rfl

/-- A path leads through a key of the dictionary. -/
theorem Members.get_head {members : Members} {path : Path} {e : Entry}
    (h : members.get path = some e) : ∃ k ∈ members.keys, ∃ rest, path = k :: rest := by
  cases path with
  | nil =>
    rw [members.get_nil] at h
    cases h
  | cons key path =>
    refine ⟨key, ?_, path, rfl⟩
    induction members with
    | nil => cases h
    | scalar k v members ih =>
      by_cases hk : key = k
      · exact hk ▸ List.mem_cons_self
      · rw [Members.get, if_neg hk] at h
        exact List.mem_cons_of_mem k (ih h)
    | dict k inner members _ ih =>
      by_cases hk : key = k
      · exact hk ▸ List.mem_cons_self
      · rw [Members.get, if_neg hk] at h
        exact List.mem_cons_of_mem k (ih h)

theorem Members.get_of_notMem {members : Members} {k : Key} (hk : k ∉ members.keys) (path : Path) :
    members.get (k :: path) = none := by
  rw [Option.eq_none_iff_forall_not_mem]
  intro e he
  obtain ⟨k', hmem, rest, heq⟩ := members.get_head he
  rw [List.cons.injEq] at heq
  exact hk (heq.1 ▸ hmem)

theorem Members.get_scalar {members : Members} {k : Key} (hk : k ∉ members.keys) (v : Scalar)
    (path : Path) (e : Entry) :
    (Members.scalar k v members).get path = some e ↔
      (path = [k] ∧ e = .value v.read) ∨ members.get path = some e := by
  cases path with
  | nil => simp [Members.get, Members.get_nil]
  | cons key path =>
    by_cases hkey : key = k
    · subst hkey
      rw [Members.get, if_pos rfl, members.get_of_notMem hk]
      by_cases hpath : path = []
      · simp [hpath, eq_comm]
      · simp [hpath]
    · rw [Members.get, if_neg hkey]
      simp [hkey]

theorem Members.get_dict {members : Members} {k : Key} (hk : k ∉ members.keys) (inner : Members)
    (path : Path) (e : Entry) :
    (Members.dict k inner members).get path = some e ↔
      (path = [k] ∧ e = .table) ∨ (∃ rest, path = k :: rest ∧ inner.get rest = some e) ∨
        members.get path = some e := by
  cases path with
  | nil => simp [Members.get, Members.get_nil]
  | cons key path =>
    by_cases hkey : key = k
    · subst hkey
      rw [Members.get, if_pos rfl, members.get_of_notMem hk]
      by_cases hpath : path = []
      · simp [hpath, inner.get_nil, eq_comm]
      · simp [hpath]
    · rw [Members.get, if_neg hkey]
      simp [hkey]

/-- The entries of a dictionary are what it has. -/
theorem mem_entries {members : Members} (hdistinct : members.distinct) (path p : Path) (e : Entry) :
    (p, e) ∈ ownEntries path members ++ tableEntries path members ↔
      ∃ q, p = path ++ q ∧ members.get q = some e := by
  induction members generalizing path with
  | nil =>
    have hget : ∀ q, Members.nil.get q = none := fun q => by cases q <;> rfl
    simp [ownEntries, tableEntries, Members.scalars, hget]
  | scalar k v members ih =>
    have hmem : (p, e) ∈ ownEntries path (.scalar k v members) ++
          tableEntries path (.scalar k v members) ↔
        (p, e) = (path ++ [k], .value v.read) ∨
          (p, e) ∈ ownEntries path members ++ tableEntries path members := List.mem_cons
    rw [hmem, ih hdistinct.2 path, Prod.mk.injEq]
    simp only [Members.get_scalar hdistinct.1]
    constructor
    · rintro (⟨hp, he⟩ | ⟨q, hp, hq⟩)
      · exact ⟨[k], hp, .inl ⟨rfl, he⟩⟩
      · exact ⟨q, hp, .inr hq⟩
    · rintro ⟨q, hp, ⟨rfl, he⟩ | hq⟩
      · exact .inl ⟨hp, he⟩
      · exact .inr ⟨q, hp, hq⟩
  | dict k inner members ihInner ih =>
    have hmem : (p, e) ∈ ownEntries path (.dict k inner members) ++
          tableEntries path (.dict k inner members) ↔
        (p, e) = (path ++ [k], .table) ∨
          (p, e) ∈ ownEntries (path ++ [k]) inner ++ tableEntries (path ++ [k]) inner ∨
          (p, e) ∈ ownEntries path members ++ tableEntries path members := by
      have hown : ownEntries path (.dict k inner members) = ownEntries path members := rfl
      rw [hown, tableEntries, List.cons_append, List.mem_append, List.mem_cons,
        List.mem_append (s := _ ++ _), List.mem_append (s := ownEntries path members),
        or_left_comm, or_left_comm (a := (p, e) ∈ ownEntries path members)]
    rw [hmem, ihInner hdistinct.2.1, ih hdistinct.2.2 path, Prod.mk.injEq]
    simp only [Members.get_dict hdistinct.1]
    constructor
    · rintro (⟨hp, he⟩ | ⟨q, hp, hq⟩ | ⟨q, hp, hq⟩)
      · exact ⟨[k], hp, .inl ⟨rfl, he⟩⟩
      · exact ⟨k :: q, by rw [hp, List.append_assoc]; rfl, .inr (.inl ⟨q, rfl, hq⟩)⟩
      · exact ⟨q, hp, .inr (.inr hq)⟩
    · rintro ⟨q, hp, ⟨rfl, he⟩ | ⟨rest, rfl, hq⟩ | hq⟩
      · exact .inl ⟨hp, he⟩
      · exact .inr (.inl ⟨rest, by rw [hp, List.append_assoc]; rfl, hq⟩)
      · exact .inr (.inr ⟨q, hp, hq⟩)

theorem mem_keys_of_scalars {members : Members} {k : Key}
    (h : k ∈ members.scalars.map Prod.fst) : k ∈ members.keys := by
  induction members with
  | nil => exact h
  | scalar k' v members ih =>
    rcases List.mem_cons.mp h with rfl | h
    · exact List.mem_cons_self
    · exact List.mem_cons_of_mem k' (ih h)
  | dict k' inner members _ ih => exact List.mem_cons_of_mem k' (ih h)

theorem mem_keys_of_tables {members : Members} {k : Key}
    (h : k ∈ members.tables.map Prod.fst) : k ∈ members.keys := by
  induction members with
  | nil => exact h
  | scalar k' v members ih => exact List.mem_cons_of_mem k' (ih h)
  | dict k' inner members _ ih =>
    rcases List.mem_cons.mp h with rfl | h
    · exact List.mem_cons_self
    · exact List.mem_cons_of_mem k' (ih h)

theorem nodup_scalars {members : Members} (h : members.distinct) :
    (members.scalars.map Prod.fst).Nodup := by
  induction members with
  | nil => exact List.nodup_nil
  | scalar k v members ih =>
    exact List.nodup_cons.mpr ⟨fun hmem => h.1 (mem_keys_of_scalars hmem), ih h.2⟩
  | dict k inner members _ ih => exact ih h.2.2

/-- No key has both a value and a dictionary. -/
theorem notMem_scalars_of_tables {members : Members} (h : members.distinct) {k : Key}
    (hk : k ∈ members.tables.map Prod.fst) : k ∉ members.scalars.map Prod.fst := by
  induction members with
  | nil => cases hk
  | scalar k' v members ih =>
    intro hmem
    rcases List.mem_cons.mp hmem with rfl | hmem
    · exact h.1 (mem_keys_of_tables hk)
    · exact ih h.2 hk hmem
  | dict k' inner members _ ih =>
    intro hmem
    rcases List.mem_cons.mp hk with rfl | hk
    · exact h.1 (mem_keys_of_scalars hmem)
    · exact ih h.2.2 hk hmem

/-- The pairs of the current table. -/
theorem run_pairs {scalars : List (Key × Scalar)} (hnodup : (scalars.map Prod.fst).Nodup)
    {d : Doc} {path : Path} (hcurrent : d.current = path)
    (hclear : ∀ k ∈ scalars.map Prod.fst, Clear d (path ++ [k])) :
    ∃ d', run Doc.add d (scalars.map fun m => .pair [m.1] m.2.read) = some d' ∧
      Grown path (scalars.map Prod.fst)
        (scalars.map fun m => (path ++ [m.1], .value m.2.read)) d d' := by
  induction scalars generalizing d with
  | nil => exact ⟨d, rfl, Grown.refl path d⟩
  | cons m scalars ih =>
    subst hcurrent
    obtain ⟨hnew, hnodup⟩ := List.nodup_cons.mp hnodup
    obtain ⟨d₁, hadd, hgrown, hcurrent⟩ :=
      Doc.add_pair (hclear m.1 List.mem_cons_self) m.2.read
    obtain ⟨d₂, hrun, hmore⟩ := ih hnodup hcurrent fun k hk =>
      (hclear k (List.mem_cons_of_mem m.1 hk)).grown hgrown
        fun heq => hnew (List.mem_singleton.mp heq ▸ hk)
    refine ⟨d₂, by rw [List.map_cons, run_cons, hadd]; exact hrun, ?_⟩
    refine (hgrown.mono fun k hk => ?_).trans (hmore.mono fun k hk => List.mem_cons_of_mem m.1 hk)
    rw [List.mem_singleton.mp hk]
    exact List.mem_cons_self

/-- The dictionaries of a dictionary whose table is open. -/
theorem run_tableItems {members : Members} (hdistinct : members.distinct) {d : Doc} {path : Path}
    (hopened : Opened d path)
    (hclear : ∀ k ∈ members.tables.map Prod.fst, Clear d (path ++ [k])) :
    ∃ d', run Doc.add d (tableItems path members) = some d' ∧
      Grown path (members.tables.map Prod.fst) (tableEntries path members) d d' := by
  induction members generalizing d path with
  | nil => exact ⟨d, rfl, Grown.refl path d⟩
  | scalar k v members ih => exact ih hdistinct.2 hopened hclear
  | dict k inner members ihInner ih =>
    obtain ⟨hnew, hinner, hdistinct⟩ := hdistinct
    have hkey := hclear k List.mem_cons_self
    have htable := Toml.grown_withTable d path k
    have hinside := hopened.withTable hkey
    obtain ⟨d₂, hpairs, hown⟩ := run_pairs (nodup_scalars hinner)
      (d := d.withTable (path ++ [k])) rfl fun k' _ => hkey.withTable k'
    obtain ⟨d₃, htables, hwithin⟩ := ihInner hinner (hinside.grown hown) fun k' hk' =>
      (hkey.withTable k').grown hown (notMem_scalars_of_tables hinner hk')
    have hhere : Grown path [k] ([(path ++ [k], .table)] ++
        (ownEntries (path ++ [k]) inner ++ tableEntries (path ++ [k]) inner)) d d₃ :=
      htable.trans (hown.nest.trans hwithin.nest)
    obtain ⟨d₄, hrest, hmore⟩ := ih hdistinct (hopened.grown hhere) fun k' hk' =>
      (hclear k' (List.mem_cons_of_mem k hk')).grown hhere
        fun heq => hnew (mem_keys_of_tables (List.mem_singleton.mp heq ▸ hk'))
    have hitems : ownItems (path ++ [k]) inner =
        .table (path ++ [k]) :: inner.scalars.map fun m => .pair [m.1] m.2.read := by
      rw [ownItems, if_pos (by simp)]
      rfl
    refine ⟨d₄, ?_, ?_⟩
    · rw [tableItems, hitems, List.cons_append, List.cons_append, run_cons,
        Doc.add_table hopened hkey, Option.bind_some, List.append_assoc, run_append hpairs,
        run_append htables, hrest]
    · refine (hhere.mono fun k' hk' => ?_).trans
        (hmore.mono fun k' hk' => List.mem_cons_of_mem k hk')
      rw [List.mem_singleton.mp hk']
      exact List.mem_cons_self

/-- The tables and pairs of a dictionary make a document. -/
theorem build_items {members : Members} (hdistinct : members.distinct) :
    ∃ d, Doc.build (ownItems [] members ++ tableItems [] members) = some d ∧
      d.entries = ownEntries [] members ++ tableEntries [] members := by
  have hclear : ∀ path, Clear {} path :=
    fun path => ⟨fun e he => absurd he List.not_mem_nil, fun p hp => absurd hp List.not_mem_nil⟩
  have hopened : Opened {} [] := fun p hp => absurd hp List.not_mem_nil
  obtain ⟨d₁, hpairs, hown⟩ := run_pairs (nodup_scalars hdistinct) (d := {}) rfl
    fun k _ => hclear ([] ++ [k])
  obtain ⟨d₂, htables, hmore⟩ := run_tableItems hdistinct (hopened.grown hown) fun k hk =>
    (hclear ([] ++ [k])).grown hown (notMem_scalars_of_tables hdistinct hk)
  refine ⟨d₂, ?_, ?_⟩
  · rw [Doc.build, ownItems, if_neg (by simp), List.nil_append, run_append hpairs, htables]
  · rw [hmore.entries, hown.entries]
    rfl

/-! ## The round trip -/

/-- A dictionary. -/
structure Dictionary where
  members : Members
  distinct : members.distinct

/-- What is written is read as the same dictionary. -/
def Dictionary.readBack (data : Dictionary) : Prop :=
  ∃ doc, Toml.parse (renderToml data.members) = some doc ∧
    ∀ path e, (path, e) ∈ doc.entries ↔ data.members.get path = some e

theorem readBack_of_legal {data : Dictionary} (hlegal : data.members.texts.all legal = true) :
    data.readBack := by
  obtain ⟨doc, hbuild, hentries⟩ := build_items data.distinct
  refine ⟨doc, ?_, fun path e => ?_⟩
  · rw [Toml.parse, readItems_renderToml, if_pos hlegal]
    exact hbuild
  · rw [hentries, mem_entries data.distinct]
    simp

theorem parse_of_not_legal {data : Dictionary} (hlegal : data.members.texts.all legal = false) :
    Toml.parse (renderToml data.members) = none := by
  rw [Toml.parse, readItems_renderToml, hlegal]
  rfl

/-- A dictionary is read back exactly when none of its keys, strings and paths has the
character U+007F, which the writer leaves as it is. -/
theorem renderToml_iff (data : Dictionary) :
    data.readBack ↔ ∀ text ∈ data.members.texts, '\x7f' ∉ text := by
  have hlegal : data.members.texts.all legal = true ↔
      ∀ text ∈ data.members.texts, '\x7f' ∉ text := by
    simp [legal]
  rw [← hlegal]
  constructor
  · rintro ⟨doc, hdoc, -⟩
    by_contra hnot
    rw [parse_of_not_legal (Bool.not_eq_true _ ▸ hnot)] at hdoc
    cases hdoc
  · exact readBack_of_legal

/-- A path with the control character U+007F. -/
def delPath : Dictionary where
  members := .dict "server".toList (.scalar "log_dir".toList (.path "/logs\x7f".toList) .nil) .nil
  distinct := ⟨List.not_mem_nil, ⟨List.not_mem_nil, trivial⟩, trivial⟩

/-- TOML allows no such string. -/
theorem delPath_not_readBack : ¬ delPath.readBack := by
  rintro ⟨doc, hdoc, -⟩
  rw [parse_of_not_legal (by decide)] at hdoc
  cases hdoc

end AmigaFleet.Host.TomlRender
