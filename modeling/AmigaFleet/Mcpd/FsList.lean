import AmigaFleet.Lib.Utf8
import AmigaFleet.Mcpd.FsExamine

/-!
# fs.list

`_list_emit` and `fs_list` of `mcpd/src/methods/fs.c`.  An `Entry` is what
`ExamineDir` yields for one object, with what it yields in it when that is a
directory; nothing where `Lock` or `ObtainDirContextTags` fails.

The walk carries the path of the directory it is in as a buffer of 512 bytes.
`listEmitAll_eq` says what that makes of an entry: an object with the names
from the root down to it, cut after 511 bytes.
-/

namespace AmigaFleet.Mcpd.Fs

open AmigaFleet.Lib

/-! ## The code -/

inductive Entry where
  | mk (data : ExamineData) (children : List Entry)

/-- What `snprintf` leaves in `rel[512]` or `child_prefix[512]`. -/
def intoRel (text : Bytes) : Bytes := text.take 511

/-- The display name of an entry. -/
def displayName (pre name : Bytes) : Bytes :=
  if pre ≠ [] then intoRel (pre ++ ascii "/" ++ name) else name

/-- `child_prefix` -/
def childPrefix (pre name : Bytes) : Bytes :=
  if pre ≠ [] then intoRel (pre ++ ascii "/" ++ name) else intoRel name

/-- The object of one entry. -/
def entryObject (name : Bytes) (data : ExamineData) : CJson :=
  .object ([(ascii "name", .string name), (ascii "type", cString data.typeName)] ++
    if data.isDirectory then [] else [(ascii "size", .number (double data.fileSize))])

section Walk

variable (recursive : Bool) (maxDepth : Nat)

mutual

/-- `_list_emit`: the objects it adds to `entries` -/
def listEmit (depth : Nat) (pre : Bytes) : Entry → List CJson
  | .mk data children =>
    entryObject (displayName pre data.name) data ::
      if recursive && data.isDirectory && depth < maxDepth then
        listEmitAll (depth + 1) (childPrefix pre data.name) children
      else []

/-- The loop over `ExamineDir`. -/
def listEmitAll (depth : Nat) (pre : Bytes) : List Entry → List CJson
  | [] => []
  | e :: es => listEmit depth pre e ++ listEmitAll depth pre es

end

end Walk

/-- The answers that one `fs_list` is given. -/
structure ListDos where
  locks : Bool := true
  context : Bool := true
  entries : List Entry
  ioErr : IoErr := .other

/-- The recursive flag. -/
def recursiveOf (params : Option CJson) : Bool :=
  match params.bind (CJson.getItem (ascii "recursive")) with
  | some (.bool b) => b
  | _ => false

/-- `max_depth`: an `int`, between 1 and 16. -/
def maxDepthOf (params : Option CJson) : Nat :=
  let maxDepth := (pInt params "max_depth" 8).bmod (2 ^ 32)
  if maxDepth < 1 then 1 else if maxDepth > 16 then 16 else maxDepth.toNat

/-- `fs_list` -/
def fsList (dos : ListDos) : Handler := fun params => do
  let path ← pStr params "path"
  if dos.locks = false then .error (fsErrorFor dos.ioErr path)
  else if dos.context = false then .error (fsErrorFor dos.ioErr path)
  else .ok (.array (listEmitAll (recursiveOf params) (maxDepthOf params) 0 [] dos.entries))

/-! ## Paths -/

/-- The path of a directory below the root of the listing.  A name that is
empty opens no path. -/
def joined (names : List Bytes) : Bytes := [47].intercalate (names.dropWhile (· = []))

/-- The path under which an entry is shown. -/
def shown (above : List Bytes) (name : Bytes) : Bytes :=
  if joined above = [] then name else (joined above ++ 47 :: name).take 511

theorem intercalate_append_singleton (names : List Bytes) (hne : names ≠ []) (name : Bytes) :
    [47].intercalate (names ++ [name]) = [47].intercalate names ++ 47 :: name := by
  induction names with
  | nil => exact absurd rfl hne
  | cons first names ih =>
    cases names with
    | nil => simp
    | cons second names =>
      have hrest := ih (List.cons_ne_nil _ _)
      rw [List.cons_append, List.cons_append, List.intercalate_cons_cons, ← List.cons_append, hrest,
        List.intercalate_cons_cons]
      simp

theorem joined_append_singleton (above : List Bytes) (name : Bytes) :
    joined (above ++ [name]) = if joined above = [] then name else joined above ++ 47 :: name := by
  unfold joined
  induction above with
  | nil =>
    by_cases hname : name = []
    · simp [hname]
    · simp [hname]
  | cons first above ih =>
    by_cases hfirst : first = []
    · simpa [hfirst] using ih
    · have hdrop : ∀ rest : List Bytes,
          (first :: rest).dropWhile (fun x => decide (x = [])) = first :: rest := by
        intro rest
        rw [List.dropWhile_cons_of_neg (by simpa using hfirst)]
      have hne : [47].intercalate (first :: above) ≠ [] := by
        cases above with
        | nil => simpa using hfirst
        | cons second above => simp [hfirst]
      rw [List.cons_append, hdrop, hdrop, if_neg hne, ← List.cons_append]
      exact intercalate_append_singleton _ (List.cons_ne_nil _ _) name

/-- Cutting a path before or after a name is put behind it is the same. -/
theorem take_append_take (k : Nat) (a b : Bytes) : (a.take k ++ b).take k = (a ++ b).take k := by
  rw [List.take_append, List.take_append, List.take_take, Nat.min_self, List.length_take]
  congr 2
  omega

theorem intoRel_eq_nil_iff (path : Bytes) : intoRel path = [] ↔ path = [] := by
  simp [intoRel]

/-- The buffer of the walk holds the path of the directory, as far as it fits. -/
theorem displayName_joined (above : List Bytes) (name : Bytes) :
    displayName (intoRel (joined above)) name = shown above name := by
  unfold displayName shown
  by_cases hempty : joined above = []
  · rw [if_neg (not_not.mpr ((intoRel_eq_nil_iff _).mpr hempty)), if_pos hempty]
  · rw [if_pos (mt (intoRel_eq_nil_iff _).mp hempty), if_neg hempty, intoRel, intoRel,
      List.append_assoc, take_append_take]
    rfl

theorem childPrefix_joined (above : List Bytes) (name : Bytes) :
    childPrefix (intoRel (joined above)) name = intoRel (joined (above ++ [name])) := by
  rw [joined_append_singleton]
  unfold childPrefix
  by_cases hempty : joined above = []
  · rw [if_neg (not_not.mpr ((intoRel_eq_nil_iff _).mpr hempty)), if_pos hempty]
  · rw [if_pos (mt (intoRel_eq_nil_iff _).mp hempty), if_neg hempty, intoRel, intoRel, intoRel,
      List.append_assoc, take_append_take]
    rfl

theorem utf8_joined_iff (names : List Bytes) : Utf8 (joined names) ↔ ∀ name ∈ names, Utf8 name := by
  rw [joined, utf8_intercalate_iff (by decide)]
  constructor
  · intro h name hname
    by_cases hempty : name = []
    · rw [hempty]
      exact utf8_nil
    · have hsplit := List.takeWhile_append_dropWhile (p := fun x : Bytes => decide (x = [])) (l := names)
      rw [← hsplit] at hname
      rcases List.mem_append.mp hname with hdropped | hkept
      · have hall := List.all_takeWhile (p := fun x : Bytes => decide (x = [])) (l := names)
        exact absurd (of_decide_eq_true (List.all_eq_true.mp hall name hdropped)) hempty
      · exact h name hkept
  · exact fun h name hname => h name ((List.dropWhile_sublist _).mem hname)

/-- A path that is not cut is UTF-8 if and only if its names are. -/
theorem utf8_shown_iff {above : List Bytes} {name : Bytes}
    (hfits : (joined above).length + name.length < 511) :
    Utf8 (shown above name) ↔ (∀ dir ∈ above, Utf8 dir) ∧ Utf8 name := by
  unfold shown
  split
  · rename_i hempty
    have habove := utf8_joined_iff above
    rw [hempty] at habove
    exact (and_iff_right (habove.mp utf8_nil)).symm
  · have hlength : (joined above ++ 47 :: name).length ≤ 511 := by
      rw [List.length_append, List.length_cons]
      omega
    rw [List.take_of_length_le hlength, utf8_cut_iff (by decide), utf8_joined_iff]

/-! ## What is listed -/

/-- An entry of a listing with the names of the directories above it. -/
structure Listed where
  above : List Bytes
  data : ExamineData

def Listed.path (l : Listed) : Bytes := shown l.above l.data.name

def Listed.object (l : Listed) : CJson := entryObject l.path l.data

section Walk

variable (recursive : Bool) (maxDepth : Nat)

mutual

/-- The entries that the walk comes to from `e` on. -/
def walk (depth : Nat) (above : List Bytes) : Entry → List Listed
  | .mk data children =>
    ⟨above, data⟩ ::
      if recursive && data.isDirectory && depth < maxDepth then
        walkAll (depth + 1) (above ++ [data.name]) children
      else []

def walkAll (depth : Nat) (above : List Bytes) : List Entry → List Listed
  | [] => []
  | e :: es => walk depth above e ++ walkAll depth above es

end

mutual

theorem listEmit_eq (depth : Nat) (above : List Bytes) : ∀ e : Entry,
    listEmit recursive maxDepth depth (intoRel (joined above)) e =
      (walk recursive maxDepth depth above e).map Listed.object
  | .mk data children => by
    have hchildren := listEmitAll_eq (depth + 1) (above ++ [data.name]) children
    rw [listEmit, walk, displayName_joined, childPrefix_joined, List.map_cons, hchildren]
    split <;> rfl

/-- The walk emits the entries in the order it comes to them, each with its path. -/
theorem listEmitAll_eq (depth : Nat) (above : List Bytes) : ∀ es : List Entry,
    listEmitAll recursive maxDepth depth (intoRel (joined above)) es =
      (walkAll recursive maxDepth depth above es).map Listed.object
  | [] => by rw [listEmitAll, walkAll, List.map_nil]
  | e :: es => by
    rw [listEmitAll, walkAll, List.map_append, listEmit_eq depth above e,
      listEmitAll_eq depth above es]

end

end Walk

/-- The entries of a listing. -/
def listing (dos : ListDos) (params : Option CJson) : List Listed :=
  walkAll (recursiveOf params) (maxDepthOf params) 0 [] dos.entries

theorem fsList_ok {dos : ListDos} {params : Option CJson} {path : Bytes}
    (hpath : pStr params "path" = .ok path) (hlocks : dos.locks = true)
    (hcontext : dos.context = true) :
    fsList dos params = .ok (.array ((listing dos params).map Listed.object)) := by
  have hwalk := listEmitAll_eq (recursiveOf params) (maxDepthOf params) 0 [] dos.entries
  have hroot : intoRel (joined []) = [] := rfl
  rw [hroot] at hwalk
  rw [listing, ← hwalk]
  simp only [fsList, hpath, hlocks, hcontext, bind, Except.bind]
  rfl

/-- Otherwise the answer is an error about the path that was asked for. -/
theorem fsList_error {dos : ListDos} {params : Option CJson} {path : Bytes}
    (hpath : pStr params "path" = .ok path) (hfails : dos.locks = false ∨ dos.context = false) :
    fsList dos params = .error (fsErrorFor dos.ioErr path) := by
  rcases hfails with h | h
  · simp [fsList, hpath, h, bind, Except.bind]
  · simp [fsList, hpath, h, bind, Except.bind]

end AmigaFleet.Mcpd.Fs
