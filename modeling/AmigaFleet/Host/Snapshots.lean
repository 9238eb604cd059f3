import Mathlib.Data.Bool.AllAny
import AmigaFleet.Lib.Pattern
import AmigaFleet.Host.PyLines
import AmigaFleet.Host.PyWords

/-!
# Listing snapshots

`_parse_info_snapshots` of `host/src/amiga_fleet_mcp/tools/snapshots.py`.

Whether the pattern takes a row or the fall-back does, the entry has the first
word of the row for its id and the second for its name: `entryOf_words`.  So the
names are those of the rows that are not passed over (`names_parseLines`).

* `Table` is what QEMU prints.
* `parseInfoSnapshots_iff`: the tables that are listed without loss.
-/

namespace AmigaFleet.Host.Snapshots

open AmigaFleet.Lib
open AmigaFleet.Host.PyStr

/-! ## The parser -/

/-- The characters of `\d`; those outside ASCII are in Python's Unicode tables. -/
structure Digits where
  contains : Char → Bool
  ascii : ∀ c, c.toNat < 128 → contains c = c.isDigit
  notSpace : ∀ c, contains c = true → isSpace c = false

structure SnapshotEntry where
  id : List Char
  name : List Char
  vmSize : Option (List Char) := none
  date : Option (List Char) := none
  vmClock : Option (List Char) := none
deriving DecidableEq, Repr

/-- `\S+` -/
def reWord : Pattern Char := .plus fun c => !isSpace c

/-- `_SNAPLINE_RE` without its anchors. -/
def reSnapline (d : Digits) : Pattern Char :=
  .all [.many isSpace, .group (.plus fun c => d.contains c || c = '-' || c = '*'), .plus isSpace,
    .group reWord, .plus isSpace,
    .group (.seq reWord (.opt (.seq (.many isSpace) reWord))), .plus isSpace,
    .group (.seq reWord (.seq (.plus isSpace) reWord)), .plus isSpace,
    .group (.plus fun c => d.contains c || c = ':' || c = '.'), .many isSpace]

/-- `_SNAPLINE_RE.match(s)`: the first match behind which the text ends. -/
def matchSnapline (d : Digits) (s : List Char) : Option (Pattern.Hit Char) :=
  ((reSnapline d).hits none s).find? fun m => m.rest = [] ∨ m.rest = ['\n']

/-- The entry of a row. -/
def entryOf (d : Digits) (s : List Char) : Option SnapshotEntry :=
  match matchSnapline d s with
  | some m =>
    some { id := m.groups.getD 0 [], name := m.groups.getD 1 [], vmSize := m.groups[2]?
           date := m.groups[3]?, vmClock := m.groups[4]? }
  | none =>
    match words s with
    | id :: name :: _ => some { id := id, name := name }
    | _ => none

/-- `startswith` -/
def begins (s : List Char) (text : String) : Bool := text.toList.isPrefixOf s

/-- The loop of `_parse_info_snapshots` over the stripped lines. -/
def parseLines (d : Digits) : Bool → List (List Char) → List SnapshotEntry
  | _, [] => []
  | seenHeader, s :: lines =>
    if s = [] then parseLines d seenHeader lines
    else if begins s "ID" || begins s "--" || begins s "List" then parseLines d true lines
    else if seenHeader then (entryOf d s).toList ++ parseLines d seenHeader lines
    else parseLines d seenHeader lines

/-- `_parse_info_snapshots`; `strip` takes the line ends off as well. -/
def parseInfoSnapshots (d : Digits) (out : List Char) : List SnapshotEntry :=
  parseLines d false ((splitLines out).map strip)

/-! ## Words -/

/-- A match takes the first two words. -/
theorem matchSnapline_words {d : Digits} {s : List Char} {m : Pattern.Hit Char}
    (h : matchSnapline d s = some m) :
    ∃ ws, words s = m.groups.getD 0 [] :: m.groups.getD 1 [] :: ws := by
  have hmem : m ∈ (reSnapline d).hits none s := List.mem_of_find?_eq_some h
  obtain ⟨blank, hblank, m₁, hm₁, rfl⟩ := Pattern.mem_hits_seq.mp hmem
  obtain ⟨id, hid, m₂, hm₂, rfl⟩ := Pattern.mem_hits_seq.mp hm₁
  obtain ⟨gap, hgap, m₃, hm₃, rfl⟩ := Pattern.mem_hits_seq.mp hm₂
  obtain ⟨name, hname, m₄, hm₄, rfl⟩ := Pattern.mem_hits_seq.mp hm₃
  obtain ⟨gap', hgap', rest, -, rfl⟩ := Pattern.mem_hits_seq.mp hm₄
  obtain ⟨rfl, hnone, hspaces⟩ := Pattern.mem_manyHits hblank
  obtain ⟨hidrest, hidgroups, hidne, hidchars⟩ := Pattern.mem_hits_group_plus hid
  obtain ⟨hgaprest, hgapgroups, hgapne, hgapchars⟩ := Pattern.mem_hits_plus hgap
  obtain ⟨hnamerest, hnamegroups, hnamene, hnamechars⟩ := Pattern.mem_hits_group_plus hname
  obtain ⟨hgaprest', -, hgapne', hgapchars'⟩ := Pattern.mem_hits_plus hgap'
  have hidspace : ∀ c ∈ id.text, isSpace c = false := by
    intro c hc
    have hin := hidchars c hc
    simp only [Bool.or_eq_true, decide_eq_true_eq] at hin
    rcases hin with (hdigit | rfl) | rfl
    · exact d.notSpace c hdigit
    · decide
    · decide
  have hnamespace : ∀ c ∈ name.text, isSpace c = false := by
    intro c hc
    simpa using hnamechars c hc
  -- a gap begins with a blank
  have hhead : ∀ {t r : List Char}, t ≠ [] → (∀ c ∈ t, isSpace c = true) →
      ∀ c ∈ (t ++ r).head?, isSpace c = true := by
    intro t r hne ht c hc
    cases t with
    | nil => exact absurd rfl hne
    | cons d t =>
      obtain rfl := Option.some.inj hc
      exact ht d List.mem_cons_self
  refine ⟨words gap'.rest, ?_⟩
  have hgroups : (blank.append (id.append (gap.append (name.append (gap'.append rest))))).groups =
      id.text :: name.text :: (gap'.groups ++ rest.groups) := by
    show blank.groups ++ (id.groups ++ (gap.groups ++ (name.groups ++ (gap'.groups ++ _)))) = _
    rw [hnone, hidgroups, hgapgroups, hnamegroups]
    rfl
  rw [hgroups, words_spaces_append hspaces, hidrest, hgaprest,
    words_word_append hidne hidspace (hhead hgapne hgapchars), words_spaces_append hgapchars,
    hnamerest, hgaprest', words_word_append hnamene hnamespace (hhead hgapne' hgapchars'),
    words_spaces_append hgapchars']
  rfl

/-- An entry is made of the first two words. -/
theorem entryOf_words (d : Digits) (s : List Char) :
    (entryOf d s).map SnapshotEntry.name = (words s)[1]? := by
  unfold entryOf
  cases hmatch : matchSnapline d s with
  | some m =>
    obtain ⟨ws, hwords⟩ := matchSnapline_words hmatch
    rw [hwords]
    rfl
  | none =>
    dsimp only
    split
    · rename_i hwords
      rw [hwords]
      rfl
    · rename_i hwords
      cases hs : words s with
      | nil => rfl
      | cons id ws =>
        cases ws with
        | nil => rfl
        | cons name ws => exact absurd hs (hwords id name ws)

/-! ## The loop -/

/-- A line that begins with this word is passed over. -/
def isHeading (w : List Char) : Bool := begins w "ID" || begins w "--" || begins w "List"

theorem begins_strip {text : String} (htext : ∀ c ∈ text.toList, isSpace c = false)
    {s w : List Char} {ws : List (List Char)} (h : words s = w :: ws) :
    begins (strip s) text = begins w text := by
  rw [Bool.eq_iff_iff, begins, begins, List.isPrefixOf_iff_prefix, List.isPrefixOf_iff_prefix]
  exact prefix_strip_iff htext h

theorem isHeading_strip {s w : List Char} {ws : List (List Char)} (h : words s = w :: ws) :
    (begins (strip s) "ID" || begins (strip s) "--" || begins (strip s) "List") = isHeading w := by
  have hid : ∀ c ∈ "ID".toList, isSpace c = false := List.all_iff_forall_prop.mp rfl
  have hdashes : ∀ c ∈ "--".toList, isSpace c = false := List.all_iff_forall_prop.mp rfl
  have hlist : ∀ c ∈ "List".toList, isSpace c = false := List.all_iff_forall_prop.mp rfl
  rw [begins_strip hid h, begins_strip hdashes h, begins_strip hlist h, isHeading]

theorem parseLines_heading (d : Digits) (seenHeader : Bool) {s w : List Char}
    {ws lines : List (List Char)} (h : words s = w :: ws) (hw : isHeading w = true) :
    parseLines d seenHeader (strip s :: lines) = parseLines d true lines := by
  have hne : strip s ≠ [] := by
    rw [ne_eq, strip_eq_nil_iff, h]
    exact List.cons_ne_nil w ws
  rw [parseLines, if_neg hne, isHeading_strip h, if_pos hw]

/-- The names of the rows behind the header. -/
theorem names_row (d : Digits) {s w : List Char} {ws lines : List (List Char)}
    (h : words s = w :: ws) (hw : isHeading w = false) :
    (parseLines d true (strip s :: lines)).map SnapshotEntry.name =
      ws[0]?.toList ++ (parseLines d true lines).map SnapshotEntry.name := by
  have hne : strip s ≠ [] := by
    rw [ne_eq, strip_eq_nil_iff, h]
    exact List.cons_ne_nil w ws
  have hname := entryOf_words d (strip s)
  rw [words_strip, h, List.getElem?_cons_succ] at hname
  rw [parseLines, if_neg hne, isHeading_strip h, hw, if_neg Bool.false_ne_true, if_pos rfl,
    List.map_append, ← hname]
  cases entryOf d (strip s) <;> rfl

/-- A name has no blank in it. -/
theorem notSpace_of_mem (d : Digits) {seenHeader : Bool} {lines : List (List Char)}
    {e : SnapshotEntry} (he : e ∈ parseLines d seenHeader lines) :
    ∀ c ∈ e.name, isSpace c = false := by
  induction lines generalizing seenHeader with
  | nil => cases he
  | cons s lines ih =>
    rw [parseLines] at he
    split at he
    · exact ih he
    · split at he
      · exact ih he
      · split at he
        · rcases List.mem_append.mp he with hfirst | hrest
          · have hname := entryOf_words d s
            rw [Option.mem_toList.mp hfirst] at hname
            exact (mem_words (List.mem_of_getElem? hname.symm)).2
          · exact ih hrest
        · exact ih he

/-! ## Tables -/

/-- The blanks between two columns. -/
def gap (more : Nat) : List Char := List.replicate (more + 1) ' '

/-- A row of the table. -/
structure Row where
  id : List Char
  tag : List Char
  size : List Char
  date : List Char
  clock : List Char
  afterId : Nat
  afterTag : Nat
  afterSize : Nat
  afterDate : Nat
  id_cases : id = ['-', '-'] ∨ id ≠ [] ∧ ∀ c ∈ id, c.isDigit = true
  tag_ne_nil : tag ≠ []
  tag_noBlank : ∀ c ∈ tag, c ≠ ' ' ∧ c ≠ '\t' ∧ c ≠ '\n'
  columns_oneLine : ∀ c ∈ size ++ date ++ clock, isLineBreak c = false

def Row.columns (r : Row) : List Char :=
  r.size ++ (gap r.afterSize ++ (r.date ++ (gap r.afterDate ++ r.clock)))

def Row.line (r : Row) : List Char :=
  r.id ++ (gap r.afterId ++ (r.tag ++ (gap r.afterTag ++ r.columns)))

/-- The output of `info snapshots`. -/
structure Table where
  /-- with `List of snapshots present on all disks:` in front -/
  titled : Bool
  afterId : Nat
  headings : List Char
  rows : List Row
  /-- with returns in front of the line feeds, as the monitor sends them -/
  returns : Bool
  headings_oneLine : ∀ c ∈ headings, isLineBreak c = false

def title : List Char := "List of snapshots present on all disks:".toList

def Table.header (t : Table) : List Char := "ID".toList ++ (gap t.afterId ++ t.headings)

def Table.newline (t : Table) : List Char := if t.returns then ['\r', '\n'] else ['\n']

def Table.lines (t : Table) : List (List Char) :=
  (if t.titled then [title] else []) ++ t.header :: t.rows.map Row.line

def Table.text (t : Table) : List Char := (t.lines.map (· ++ t.newline)).flatten

/-- There is one entry for each row, in order, with the tag of the row. -/
def Lossless (d : Digits) (t : Table) : Prop :=
  (parseInfoSnapshots d t.text).map SnapshotEntry.name = t.rows.map Row.tag

/-! ### The lines of a table -/

theorem gap_space {more : Nat} : ∀ c ∈ gap more, isSpace c = true := by
  intro c hc
  rw [List.eq_of_mem_replicate hc]
  decide

theorem gap_head (more : Nat) (r : List Char) : ∀ c ∈ (gap more ++ r).head?, isSpace c = true := by
  intro c hc
  obtain rfl := Option.some.inj hc
  decide

theorem gap_oneLine {more : Nat} : ∀ c ∈ gap more, isLineBreak c = false := by
  intro c hc
  rw [List.eq_of_mem_replicate hc]
  decide

theorem Row.id_notSpace (r : Row) : ∀ c ∈ r.id, isSpace c = false := by
  intro c hc
  rcases r.id_cases with hdashes | ⟨-, hdigits⟩
  · rw [hdashes] at hc
    simp only [List.mem_cons, List.not_mem_nil, or_false, or_self] at hc
    rw [hc]
    decide
  · exact isSpace_of_isDigit (hdigits c hc)

theorem Row.id_ne_nil (r : Row) : r.id ≠ [] := by
  rcases r.id_cases with hdashes | ⟨hne, -⟩
  · rw [hdashes]
    exact List.cons_ne_nil _ _
  · exact hne

/-- The only rows that are passed over. -/
theorem Row.isHeading_iff (r : Row) : isHeading r.id = true ↔ r.id = ['-', '-'] := by
  constructor
  · intro h
    rcases r.id_cases with hdashes | ⟨hne, hdigits⟩
    · exact hdashes
    · obtain ⟨c, w, hid⟩ := List.exists_cons_of_ne_nil hne
      have hc := hdigits c (by simp [hid])
      have hother : ∀ first : Char, first.isDigit = false → (first == c) = false := by
        intro first hfirst
        rw [beq_eq_false_iff_ne]
        rintro rfl
        rw [hc] at hfirst
        cases hfirst
      rw [hid] at h
      simp [isHeading, begins, List.isPrefixOf, hother] at h
  · intro h
    rw [h]
    decide

theorem Row.words_line (r : Row) (h : ∀ c ∈ r.tag, isSpace c = false) :
    words r.line = r.id :: r.tag :: words r.columns := by
  rw [Row.line, words_word_append r.id_ne_nil r.id_notSpace (gap_head _ _),
    words_spaces_append gap_space, words_word_append r.tag_ne_nil h (gap_head _ _),
    words_spaces_append gap_space]

theorem Row.line_oneLine (r : Row) (h : ∀ c ∈ r.tag, isSpace c = false) :
    ∀ c ∈ r.line, isLineBreak c = false := by
  have hcolumns := r.columns_oneLine
  simp only [List.forall_mem_append] at hcolumns
  simp only [Row.line, Row.columns, List.forall_mem_append]
  exact ⟨fun c hc => isLineBreak_of_notSpace (r.id_notSpace c hc), gap_oneLine,
    fun c hc => isLineBreak_of_notSpace (h c hc), gap_oneLine, hcolumns.1.1, gap_oneLine,
    hcolumns.1.2, gap_oneLine, hcolumns.2⟩

/-! ### Reading a table -/

/-- The rows that are not passed over. -/
def Table.shown (t : Table) : List Row := t.rows.filter fun r => r.id ≠ ['-', '-']

theorem Table.newline_space (t : Table) : ∀ c ∈ t.newline, isSpace c = true := by
  unfold Table.newline
  split <;> exact List.all_iff_forall_prop.mp rfl

theorem Table.words_line (t : Table) (line : List Char) :
    words (line ++ t.newline) = words line := words_append_spaces t.newline_space line

theorem names_rows (d : Digits) (t : Table) (rows : List Row)
    (h : ∀ r ∈ rows, ∀ c ∈ r.tag, isSpace c = false) :
    (parseLines d true (rows.map fun r => strip (r.line ++ t.newline))).map SnapshotEntry.name =
      (rows.filter fun r => r.id ≠ ['-', '-']).map Row.tag := by
  induction rows with
  | nil => rfl
  | cons r rows ih =>
    obtain ⟨hr, hrest⟩ := List.forall_mem_cons.mp h
    have hwords := (t.words_line r.line).trans (r.words_line hr)
    rw [List.map_cons]
    by_cases hid : r.id = ['-', '-']
    · rw [parseLines_heading d true hwords (r.isHeading_iff.mpr hid), ih hrest,
        List.filter_cons_of_neg (by simp [hid])]
    · have hheading : isHeading r.id = false :=
        Bool.eq_false_iff.mpr fun hr => hid (r.isHeading_iff.mp hr)
      rw [names_row d hwords hheading, ih hrest, List.filter_cons_of_pos (by simp [hid])]
      rfl

theorem Table.splitLines_text (t : Table) (h : ∀ r ∈ t.rows, ∀ c ∈ r.tag, isSpace c = false) :
    splitLines t.text = t.lines.map (· ++ t.newline) := by
  have hheader : ∀ c ∈ t.header, isLineBreak c = false := by
    simp only [Table.header, List.forall_mem_append]
    exact ⟨List.all_iff_forall_prop.mp rfl, gap_oneLine, t.headings_oneLine⟩
  have hlines : ∀ line ∈ t.lines, ∀ c ∈ line, isLineBreak c = false := by
    intro line hline
    rcases List.mem_append.mp hline with htitle | hmore
    · split at htitle
      · rw [List.mem_singleton.mp htitle]
        exact List.all_iff_forall_prop.mp rfl
      · cases htitle
    · rcases List.mem_cons.mp hmore with rfl | hrow
      · exact hheader
      · obtain ⟨r, hr, rfl⟩ := List.mem_map.mp hrow
        exact r.line_oneLine (h r hr)
  apply splitLines_flatten
  apply Lined.of_joined
  unfold Table.newline
  split
  · exact joined_returns _ hlines
  · apply joined_newlines
    intro line hline
    obtain ⟨body, hbody, rfl⟩ := List.mem_map.mp hline
    exact ⟨body, rfl, hlines body hbody⟩

theorem words_header (t : Table) : words t.header = "ID".toList :: words t.headings := by
  rw [Table.header, words_word_append (by decide) (List.all_iff_forall_prop.mp rfl) (gap_head _ _),
    words_spaces_append gap_space]

/-- The names in a table whose tags are words. -/
theorem names_table (d : Digits) (t : Table) (h : ∀ r ∈ t.rows, ∀ c ∈ r.tag, isSpace c = false) :
    (parseInfoSnapshots d t.text).map SnapshotEntry.name = t.shown.map Row.tag := by
  have hheader : ∀ seenHeader, (parseLines d seenHeader (strip (t.header ++ t.newline) ::
      t.rows.map fun r => strip (r.line ++ t.newline))).map SnapshotEntry.name =
        t.shown.map Row.tag := by
    intro seenHeader
    rw [parseLines_heading d seenHeader ((t.words_line _).trans (words_header t)) (by decide)]
    exact names_rows d t t.rows h
  have hlines : (t.lines.map (· ++ t.newline)).map strip =
      (if t.titled then [strip (title ++ t.newline)] else []) ++
        strip (t.header ++ t.newline) :: t.rows.map fun r => strip (r.line ++ t.newline) := by
    rw [Table.lines, List.map_append, List.map_append, List.map_cons, List.map_cons, List.map_map,
      List.map_map, List.map_map]
    split <;> rfl
  rw [parseInfoSnapshots, t.splitLines_text h, hlines]
  split
  · have hcut : title = "List".toList ++ " of snapshots present on all disks:".toList := by decide
    have htitle : words title = "List".toList ::
        words " of snapshots present on all disks:".toList := by
      refine (congrArg words hcut).trans (words_word_append (by decide)
        (List.all_iff_forall_prop.mp rfl) fun c hc => ?_)
      obtain rfl := Option.some.inj hc
      decide
    rw [List.singleton_append,
      parseLines_heading d false ((t.words_line _).trans htitle) (by decide)]
    exact hheader true
  · exact hheader false

/-- A table is listed without loss if and only if no row has the id `--` and no tag
a character that Python takes for a blank. -/
theorem parseInfoSnapshots_iff (d : Digits) (t : Table) : Lossless d t ↔
    ∀ r ∈ t.rows, r.id ≠ ['-', '-'] ∧ ∀ c ∈ r.tag, isSpace c = false := by
  constructor
  · intro h
    have htags : ∀ r ∈ t.rows, ∀ c ∈ r.tag, isSpace c = false := by
      intro r hr
      have hmem : r.tag ∈ t.rows.map Row.tag := List.mem_map_of_mem hr
      rw [← h] at hmem
      obtain ⟨e, he, heq⟩ := List.mem_map.mp hmem
      rw [← heq]
      exact notSpace_of_mem d he
    have hlength := congrArg List.length ((names_table d t htags).symm.trans h)
    rw [List.length_map, List.length_map, Table.shown, List.length_filter_eq_length_iff] at hlength
    exact fun r hr => ⟨by simpa using hlength r hr, htags r hr⟩
  · intro h
    have hshown : t.shown = t.rows := List.filter_eq_self.mpr fun r hr => by simpa using (h r hr).1
    rw [Lossless, names_table d t fun r hr => (h r hr).2, hshown]

/-- The digits of ASCII. -/
def asciiDigits : Digits where
  contains c := c.isDigit
  ascii _ _ := rfl
  notSpace _ := isSpace_of_isDigit

/-- The row that the comment above `_SNAPLINE_RE` shows. -/
def beforeTest : Row where
  id := ['-', '-']
  tag := "before-test".toList
  size := "4.2 GiB".toList
  date := "2026-04-29 09:01:23".toList
  clock := "00:01:03.213".toList
  afterId := 7
  afterTag := 7
  afterSize := 0
  afterDate := 2
  id_cases := .inl rfl
  tag_ne_nil := by decide
  tag_noBlank := List.all_iff_forall_prop.mp rfl
  columns_oneLine := List.all_iff_forall_prop.mp rfl

/-- A snapshot that is on all disks is not listed. -/
theorem dashes_unlisted : ¬ ∀ (d : Digits) (t : Table), Lossless d t := by
  intro h
  let t : Table :=
    { titled := true, afterId := 7, headings := "TAG   VM SIZE   DATE   VM CLOCK".toList
      rows := [beforeTest], returns := true, headings_oneLine := List.all_iff_forall_prop.mp rfl }
  have htags : ∀ r ∈ t.rows, ∀ c ∈ r.tag, isSpace c = false := by
    intro r hr
    obtain rfl := List.mem_singleton.mp hr
    exact List.all_iff_forall_prop.mp rfl
  have hnames := (names_table asciiDigits t htags).symm.trans (h asciiDigits t)
  have hlength := congrArg List.length hnames
  rw [List.length_map, List.length_map] at hlength
  exact absurd hlength (by decide)

end AmigaFleet.Host.Snapshots
