import AmigaFleet.Mcpd.FsList
import Mathlib.Algebra.Order.BigOperators.Group.List
import Mathlib.Algebra.Order.Group.Nat

/-!
# The recursive listing

`_list_emit` and `fs_list` once more, with the locks and the current directory
that they go through.  A `Tree` is a directory whose objects can all be locked
and examined.

* `fsListIn_ok`: over a tree the answer is that of `fsList`, and the directories
  that are examined are those of the tree.
* `walkAll_eq_filter`: the walk comes to the objects within its bound.
* `exact_iff`: when every object is listed once, under its path.
-/

namespace AmigaFleet.Mcpd.Fs

open AmigaFleet.Lib

/-! ## The code -/

/-- What `dos.library` answers about directories. -/
structure DirDos where
  Lock : Type
  /-- `Lock(name, SHARED_LOCK)` in a current directory -/
  lock : Lock → Bytes → Option Lock
  /-- what a directory context of the lock yields -/
  examine : Lock → Option (List ExamineData)
  ioErr : IoErr := .other

/-- The state of one `fs_list`. -/
structure Listing (dos : DirDos) where
  currentDir : dos.Lock
  entries : List CJson
  /-- the locks whose directory is examined -/
  opened : List dos.Lock

section Walk

variable (dos : DirDos) (recursive : Bool) (maxDepth : Nat)

/-- `_list_emit` -/
def listEmitIn (depth : Nat) (pre : Bytes) (ed : ExamineData) (parentLock : dos.Lock)
    (s : Listing dos) : Listing dos :=
  let s := { s with entries := s.entries ++ [entryObject (displayName pre ed.name) ed] }
  if _h : recursive = true ∧ ed.isDirectory = true ∧ depth < maxDepth then
    let savedCd := s.currentDir
    let s := { s with currentDir := parentLock }
    let sub := dos.lock s.currentDir ed.name
    let s := { s with currentDir := savedCd }
    match sub with
    | none => s
    | some sub =>
      match dos.examine sub with
      | none => s
      | some children =>
        children.foldl (fun s child => listEmitIn (depth + 1) (childPrefix pre ed.name) child sub s)
          { s with opened := s.opened ++ [sub] }
  else s
termination_by maxDepth - depth

end Walk

/-- `fs_list`, from the directory that the process is in. -/
def fsListIn (dos : DirDos) (cwd : dos.Lock) (params : Option CJson) :
    Except CJson CJson × Listing dos :=
  let start : Listing dos := ⟨cwd, [], []⟩
  match pStr params "path" with
  | .error e => (.error e, start)
  | .ok path =>
    match dos.lock cwd path with
    | none => (.error (fsErrorFor dos.ioErr path), start)
    | some lock =>
      let s := if recursiveOf params then { start with currentDir := lock } else start
      match dos.examine lock with
      | none => (.error (fsErrorFor dos.ioErr path), start)
      | some objects =>
        let s := objects.foldl
          (fun s ed => listEmitIn dos (recursiveOf params) (maxDepthOf params) 0 [] ed lock s)
          { s with opened := [lock] }
        (.ok (.array s.entries), if recursiveOf params then { s with currentDir := cwd } else s)

/-! ## Trees -/

def Entry.data : Entry → ExamineData
  | .mk data _ => data

section Stands

variable (dos : DirDos)

mutual

/-- The entry is in the directory of the lock, and what is in it can be locked and examined.
The file system allows no empty name and no `/` in a name. -/
def Stands (d : dos.Lock) : Entry → Prop
  | .mk data children =>
    data.name ≠ [] ∧ 47 ∉ data.name ∧
      (data.isDirectory = true → ∃ sub, dos.lock d data.name = some sub ∧
        dos.examine sub = some (children.map Entry.data) ∧
        (children.map fun e => e.data.name).Nodup ∧ StandsAll sub children)

def StandsAll (d : dos.Lock) : List Entry → Prop
  | [] => True
  | e :: es => Stands d e ∧ StandsAll d es

end

end Stands

/-- A directory tree, where all locks and examinations succeed. -/
structure Tree (dos : DirDos) where
  root : dos.Lock
  entries : List Entry
  examine : dos.examine root = some (entries.map Entry.data)
  nodup : (entries.map fun e => e.data.name).Nodup
  stands : StandsAll dos root entries

mutual

/-- The objects of the tree from an entry on, with the names above them. -/
def objects (above : List Bytes) : Entry → List Listed
  | .mk data children =>
    ⟨above, data⟩ ::
      if data.isDirectory then objectsAll (above ++ [data.name]) children else []

def objectsAll (above : List Bytes) : List Entry → List Listed
  | [] => []
  | e :: es => objects above e ++ objectsAll above es

end

/-- Locking one name after another. -/
def openAll (dos : DirDos) (d : dos.Lock) : List Bytes → Option dos.Lock
  | [] => some d
  | name :: names => (dos.lock d name).bind fun sub => openAll dos sub names

theorem openAll_append_singleton (dos : DirDos) (d : dos.Lock) (names : List Bytes) (name : Bytes) :
    openAll dos d (names ++ [name]) = (openAll dos d names).bind fun sub => dos.lock sub name := by
  induction names generalizing d with
  | nil => simp [openAll]
  | cons first names ih =>
    rw [List.cons_append, openAll, openAll]
    cases dos.lock d first with
    | none => rfl
    | some sub => exact ih sub

/-! ## The walk over a tree -/

/-- A lock on a directory of the listed objects. -/
def OnListed (dos : DirDos) (root : dos.Lock) (listed : List Listed) (sub : dos.Lock) : Prop :=
  ∃ l ∈ listed, l.data.isDirectory = true ∧
    openAll dos root (l.above ++ [l.data.name]) = some sub

theorem OnListed.mono {dos : DirDos} {root sub : dos.Lock} {listed listed' : List Listed}
    (h : OnListed dos root listed sub) (hsub : listed ⊆ listed') :
    OnListed dos root listed' sub := by
  obtain ⟨l, hl, hrest⟩ := h
  exact ⟨l, hsub hl, hrest⟩

section Walk

variable {dos : DirDos} {root : dos.Lock} (recursive : Bool) (maxDepth : Nat)

mutual

theorem listEmitIn_eq (depth : Nat) (pre : Bytes) {above : List Bytes} {d : dos.Lock}
    (hd : openAll dos root above = some d) : ∀ (e : Entry) (s : Listing dos), Stands dos d e →
    ∃ locks, listEmitIn dos recursive maxDepth depth pre e.data d s =
        ⟨s.currentDir, s.entries ++ listEmit recursive maxDepth depth pre e, s.opened ++ locks⟩ ∧
      ∀ sub ∈ locks, OnListed dos root (objects above e) sub
  | .mk data children, s, hstands => by
    obtain ⟨-, -, hchildren⟩ := hstands
    rw [listEmitIn, listEmit, objects]
    by_cases hdescend : recursive = true ∧ data.isDirectory = true ∧ depth < maxDepth
    · obtain ⟨sub, hlock, hexamine, -, hbelow⟩ := hchildren hdescend.2.1
      have hsub : openAll dos root (above ++ [data.name]) = some sub := by
        rw [openAll_append_singleton, hd]
        exact hlock
      obtain ⟨locks, hwalk, hlocks⟩ := listEmitIn_all (depth + 1)
        (childPrefix pre data.name) hsub children
        ⟨s.currentDir, s.entries ++ [entryObject (displayName pre data.name) data],
          s.opened ++ [sub]⟩
        hbelow
      refine ⟨sub :: locks, ?_, ?_⟩
      · simp only [Entry.data, dif_pos hdescend, hlock, hexamine]
        rw [List.foldl_map, hwalk]
        simp [hdescend]
      · intro lock hmem
        rcases List.mem_cons.mp hmem with rfl | hmem
        · exact ⟨⟨above, data⟩, List.mem_cons_self, hdescend.2.1, hsub⟩
        · refine (hlocks lock hmem).mono ?_
          rw [if_pos hdescend.2.1]
          exact List.subset_cons_self _ _
    · refine ⟨[], ?_, by simp⟩
      have hstop : (recursive && data.isDirectory && decide (depth < maxDepth)) = false := by
        rw [Bool.eq_false_iff]
        simpa [and_assoc] using hdescend
      rw [hstop, List.append_nil]
      exact dif_neg hdescend

/-- Over a tree the locks make no difference to what is listed. -/
theorem listEmitIn_all (depth : Nat) (pre : Bytes) {above : List Bytes} {d : dos.Lock}
    (hd : openAll dos root above = some d) :
    ∀ (es : List Entry) (s : Listing dos), StandsAll dos d es →
    ∃ locks, es.foldl (fun s e => listEmitIn dos recursive maxDepth depth pre e.data d s) s =
        ⟨s.currentDir, s.entries ++ listEmitAll recursive maxDepth depth pre es,
          s.opened ++ locks⟩ ∧
      ∀ sub ∈ locks, OnListed dos root (objectsAll above es) sub
  | [], s, _ => ⟨[], by simp [listEmitAll], by simp⟩
  | e :: es, s, hstands => by
    obtain ⟨here, hfirst, hhere⟩ := listEmitIn_eq depth pre hd e s hstands.1
    obtain ⟨there, hrest, hthere⟩ := listEmitIn_all depth pre hd es
      ⟨s.currentDir, s.entries ++ listEmit recursive maxDepth depth pre e, s.opened ++
        here⟩ hstands.2
    refine ⟨here ++ there, ?_, ?_⟩
    · rw [List.foldl_cons, hfirst, hrest, listEmitAll, List.append_assoc, List.append_assoc]
    · intro sub hmem
      rw [objectsAll]
      rcases List.mem_append.mp hmem with hmem | hmem
      · exact (hhere sub hmem).mono (List.subset_append_left _ _)
      · exact (hthere sub hmem).mono (List.subset_append_right _ _)

end

end Walk

theorem fsList_entries {params : Option CJson} {path : Bytes}
    (hpath : pStr params "path" = .ok path)
    (es : List Entry) : fsList { entries := es } params =
      .ok (.array (listEmitAll (recursiveOf params) (maxDepthOf params) 0 [] es)) := by
  simp only [fsList, hpath, bind, Except.bind]
  rfl

/-- Over a tree `fs_list` answers what `fsList` does, from any current directory, and
examines directories of the tree only. -/
theorem fsListIn_ok {dos : DirDos} (tree : Tree dos) {cwd : dos.Lock} {params : Option CJson}
    {path : Bytes} (hpath : pStr params "path" = .ok path)
    (hlock : dos.lock cwd path = some tree.root) :
    ∃ locks, fsListIn dos cwd params =
        (fsList { entries := tree.entries } params, ⟨cwd,
          listEmitAll (recursiveOf params) (maxDepthOf params) 0 [] tree.entries,
            tree.root :: locks⟩) ∧
      ∀ sub ∈ locks, OnListed dos tree.root (objectsAll [] tree.entries) sub := by
  have hroot : openAll dos tree.root [] = some tree.root := rfl
  obtain ⟨locks, hwalk, hlocks⟩ := listEmitIn_all (recursiveOf params)
    (maxDepthOf params) 0 [] hroot
    tree.entries ⟨if recursiveOf params then tree.root else cwd, [], [tree.root]⟩ tree.stands
  refine ⟨locks, ?_, hlocks⟩
  unfold fsListIn
  rw [fsList_entries hpath]
  simp only [hpath, hlock, tree.examine, List.foldl_map]
  cases hrec : recursiveOf params with
  | false =>
    simp only [hrec, Bool.false_eq_true, if_false, List.nil_append] at hwalk
    simp [hwalk]
  | true =>
    simp only [hrec, if_true, List.nil_append] at hwalk
    simp [hwalk]

/-! ## The objects within the bound -/

mutual

theorem above_le_of_objects {above : List Bytes} : ∀ e : Entry, ∀ l ∈ objects above e,
    above.length ≤ l.above.length
  | .mk data children => by
    intro l hl
    rw [objects] at hl
    rcases List.mem_cons.mp hl with rfl | hl
    · exact le_rfl
    · split at hl
      · have hbelow := above_le_of_objectsAll children l hl
        rw [List.length_append] at hbelow
        exact Nat.le_of_add_right_le hbelow
      · cases hl

theorem above_le_of_objectsAll {above : List Bytes} : ∀ es : List Entry, ∀ l ∈ objectsAll above es,
    above.length ≤ l.above.length
  | [] => by
    intro l hl
    cases hl
  | e :: es => by
    intro l hl
    rw [objectsAll] at hl
    rcases List.mem_append.mp hl with hl | hl
    · exact above_le_of_objects e l hl
    · exact above_le_of_objectsAll es l hl

end

/-- `l` is at most `bound` directories below the root. -/
def Listed.within (bound : Nat) (l : Listed) : Bool := l.above.length ≤ bound

mutual

theorem walk_eq_filter {maxDepth : Nat} {above : List Bytes} (h : above.length ≤ maxDepth) :
    ∀ e : Entry, walk true maxDepth above.length above e =
      (objects above e).filter (Listed.within maxDepth)
  | .mk data children => by
    have hhere : Listed.within maxDepth ⟨above, data⟩ = true := decide_eq_true h
    have hlength : (above ++ [data.name]).length = above.length + 1 := by simp
    rw [walk, objects, List.filter_cons_of_pos hhere]
    congr 1
    cases hdir : data.isDirectory with
    | false => simp
    | true =>
      by_cases hdeeper : above.length < maxDepth
      · have hbelow : (above ++ [data.name]).length ≤ maxDepth := hlength.le.trans hdeeper
        have hchildren := walkAll_eq_filter hbelow children
        rw [hlength] at hchildren
        simpa [hdeeper] using hchildren
      · -- what is below stands outside the bound
        have hnone : (objectsAll (above ++ [data.name]) children).filter
            (Listed.within maxDepth) = [] := by
          rw [List.filter_eq_nil_iff]
          intro l hl
          have hbelow := above_le_of_objectsAll children l hl
          rw [hlength] at hbelow
          simp only [Listed.within, decide_eq_true_eq]
          omega
        simp [hdeeper, hnone]

/-- The recursive walk comes to the objects within its bound. -/
theorem walkAll_eq_filter {maxDepth : Nat} {above : List Bytes} (h : above.length ≤ maxDepth) :
    ∀ es : List Entry, walkAll true maxDepth above.length above es =
      (objectsAll above es).filter (Listed.within maxDepth)
  | [] => by rw [walkAll, objectsAll, List.filter_nil]
  | e :: es => by
    rw [walkAll, objectsAll, List.filter_append, walk_eq_filter h e, walkAll_eq_filter h es]

end

/-! ## Exact listings -/

/-- The path from the root of the listing. -/
def Listed.exactPath (l : Listed) : Bytes := [47].intercalate (l.above ++ [l.data.name])

/-- The object that a path below the root names. -/
def lookup (dos : DirDos) (root : dos.Lock) (path : Bytes) : Option ExamineData := do
  let parts := path.splitOn 47
  let d ← openAll dos root parts.dropLast
  let found ← dos.examine d
  found.find? fun ed => some ed.name = parts.getLast?

/-- `max_depth`, between 1 and 16. -/
def askedDepth (params : Option CJson) : Nat :=
  (max 1 (min 16 (pInt params "max_depth" 8))).toNat

/-- What is listed are the objects of the tree within the bound, each one once and under
the path that names it, and no directory outside of the tree is examined. -/
structure Exact {dos : DirDos} (tree : Tree dos) (bound : Nat) (listed : List CJson)
    (opened : List dos.Lock) : Prop where
  once : listed.Perm (((objectsAll [] tree.entries).filter (Listed.within bound)).map fun l =>
    entryObject l.exactPath l.data)
  named : ∀ l ∈ objectsAll [] tree.entries, lookup dos tree.root l.exactPath = some l.data
  inside : ∀ sub ∈ opened, sub = tree.root ∨ OnListed dos tree.root (objectsAll [] tree.entries) sub

theorem find_of_nodup {names : List ExamineData} (hnodup : (names.map ExamineData.name).Nodup)
    {ed : ExamineData} (hmem : ed ∈ names) : names.find? (fun x => x.name = ed.name) = some ed := by
  induction names with
  | nil => cases hmem
  | cons first names ih =>
    rw [List.map_cons, List.nodup_cons] at hnodup
    rcases List.mem_cons.mp hmem with rfl | hmem
    · simp
    · have hother : first.name ≠ ed.name := by
        intro heq
        exact hnodup.1 (heq ▸ List.mem_map_of_mem hmem)
      rw [List.find?_cons_of_neg (by simpa using hother)]
      exact ih hnodup.2 hmem

theorem lookup_exactPath {dos : DirDos} {root d : dos.Lock} {above : List Bytes}
    (hd : openAll dos root above = some d) (habove : ∀ name ∈ above, 47 ∉ name)
    {found : List ExamineData} (hexamine : dos.examine d = some found)
    (hnodup : (found.map ExamineData.name).Nodup) {data : ExamineData} (hmem : data ∈ found)
    (hname : 47 ∉ data.name) :
    lookup dos root (Listed.exactPath ⟨above, data⟩) = some data := by
  have hparts : (Listed.exactPath ⟨above, data⟩).splitOn 47 = above ++ [data.name] := by
    refine List.splitOn_intercalate 47 ?_ (by simp)
    intro name hmem
    rcases List.mem_append.mp hmem with hmem | hmem
    · exact habove name hmem
    · rw [List.mem_singleton.mp hmem]
      exact hname
  unfold lookup
  rw [hparts]
  simpa [hd, hexamine] using find_of_nodup hnodup hmem

mutual

theorem lookup_of_objects {dos : DirDos} {root : dos.Lock} {above : List Bytes} {d : dos.Lock}
    {siblings : List Entry} (hd : openAll dos root above = some d)
    (habove : ∀ name ∈ above, 47 ∉ name)
    (hexamine : dos.examine d = some (siblings.map Entry.data))
    (hnodup : (siblings.map fun e => e.data.name).Nodup) :
    ∀ e : Entry, e ∈ siblings → Stands dos d e →
    ∀ l ∈ objects above e, lookup dos root l.exactPath = some l.data
  | .mk data children, hmem, hstands => by
    obtain ⟨-, hname, hchildren⟩ := hstands
    intro l hl
    rw [objects] at hl
    rcases List.mem_cons.mp hl with rfl | hl
    · refine lookup_exactPath hd habove hexamine ?_ (List.mem_map_of_mem hmem) hname
      rw [List.map_map]
      exact hnodup
    · split at hl
      · rename_i hdir
        obtain ⟨sub, hlock, hsubexamine, hsubnodup, hbelow⟩ := hchildren hdir
        have hsub : openAll dos root (above ++ [data.name]) = some sub := by
          rw [openAll_append_singleton, hd]
          exact hlock
        refine lookup_of_objectsAll hsub ?_ hsubexamine hsubnodup children
          (List.Subset.refl _) hbelow l hl
        intro name hmem
        rcases List.mem_append.mp hmem with hmem | hmem
        · exact habove name hmem
        · rw [List.mem_singleton.mp hmem]
          exact hname
      · cases hl

/-- Names without `/`, each once in its directory, make paths that can be looked up. -/
theorem lookup_of_objectsAll {dos : DirDos} {root : dos.Lock} {above : List Bytes} {d : dos.Lock}
    {siblings : List Entry} (hd : openAll dos root above = some d)
    (habove : ∀ name ∈ above, 47 ∉ name)
    (hexamine : dos.examine d = some (siblings.map Entry.data))
    (hnodup : (siblings.map fun e => e.data.name).Nodup) : ∀ es : List Entry, es ⊆ siblings →
    StandsAll dos d es → ∀ l ∈ objectsAll above es, lookup dos root l.exactPath = some l.data
  | [], _, _ => by
    intro l hl
    cases hl
  | e :: es, hsub, hstands => by
    intro l hl
    rw [objectsAll] at hl
    rcases List.mem_append.mp hl with hl | hl
    · exact lookup_of_objects hd habove hexamine hnodup e (hsub List.mem_cons_self) hstands.1 l hl
    · exact lookup_of_objectsAll hd habove hexamine hnodup es (List.subset_of_cons_subset hsub)
        hstands.2 l hl

end

mutual

theorem ne_nil_of_objects {dos : DirDos} {d : dos.Lock} {above : List Bytes}
    (habove : ∀ name ∈ above, name ≠ []) : ∀ e : Entry, Stands dos d e →
    ∀ l ∈ objects above e, ∀ name ∈ l.above, name ≠ []
  | .mk data children, hstands => by
    obtain ⟨hname, -, hchildren⟩ := hstands
    intro l hl
    rw [objects] at hl
    rcases List.mem_cons.mp hl with rfl | hl
    · exact habove
    · split at hl
      · rename_i hdir
        obtain ⟨sub, -, -, -, hbelow⟩ := hchildren hdir
        refine ne_nil_of_objectsAll ?_ children hbelow l hl
        intro name hmem
        rcases List.mem_append.mp hmem with hmem | hmem
        · exact habove name hmem
        · rw [List.mem_singleton.mp hmem]
          exact hname
      · cases hl

theorem ne_nil_of_objectsAll {dos : DirDos} {d : dos.Lock} {above : List Bytes}
    (habove : ∀ name ∈ above, name ≠ []) : ∀ es : List Entry, StandsAll dos d es →
    ∀ l ∈ objectsAll above es, ∀ name ∈ l.above, name ≠ []
  | [], _ => by
    intro l hl
    cases hl
  | e :: es, hstands => by
    intro l hl
    rw [objectsAll] at hl
    rcases List.mem_append.mp hl with hl | hl
    · exact ne_nil_of_objects habove e hstands.1 l hl
    · exact ne_nil_of_objectsAll habove es hstands.2 l hl

end

/-- A name in the root is never cut. -/
theorem path_eq {l : Listed} (habove : ∀ name ∈ l.above, name ≠ []) :
    l.path = if l.above = [] then l.exactPath else l.exactPath.take 511 := by
  obtain ⟨above, data⟩ := l
  unfold Listed.path Listed.exactPath shown
  cases above with
  | nil => simp [joined]
  | cons first above =>
    have hfirst : first ≠ [] := habove first List.mem_cons_self
    have hjoined : joined (first :: above) = [47].intercalate (first :: above) := by
      rw [joined, List.dropWhile_cons_of_neg (by simpa using hfirst)]
    have hne : [47].intercalate (first :: above) ≠ [] := by
      cases above with
      | nil => simpa using hfirst
      | cons second above => simp [hfirst]
    rw [hjoined, if_neg hne, if_neg (List.cons_ne_nil _ _),
      intercalate_append_singleton _ (List.cons_ne_nil _ _)]

/-- The length of the name of an entry. -/
def nameLength : CJson → Nat
  | .object ((_, .string text) :: _) => text.length
  | _ => 0

@[simp] theorem nameLength_entryObject (name : Bytes) (data : ExamineData) :
    nameLength (entryObject name data) = name.length := rfl

/-- Of two nested selections of equal length, each is the other. -/
theorem filter_congr_of_length {α : Type} {p q : α → Bool} {xs : List α}
    (hnested : (∀ x, p x → q x) ∨ (∀ x, q x → p x))
    (hlength : (xs.filter p).length = (xs.filter q).length) :
    ∀ x ∈ xs, p x = q x := by
  have hfilter : xs.filter p = xs.filter q := by
    rcases hnested with h | h
    · exact (List.monotone_filter_right xs h).eq_of_length hlength
    · exact ((List.monotone_filter_right xs h).eq_of_length hlength.symm).symm
  intro x hx
  have hmem : x ∈ xs.filter p ↔ x ∈ xs.filter q := by rw [hfilter]
  rw [List.mem_filter, List.mem_filter, and_iff_right hx, and_iff_right hx] at hmem
  exact Bool.eq_iff_iff.mpr hmem

/-- The paths add up to less when one of them is cut. -/
theorem perm_iff {listed : List Listed} (habove : ∀ l ∈ listed, ∀ name ∈ l.above, name ≠ [])
    {p q : Listed → Bool} (hnested : (∀ l, p l → q l) ∨ (∀ l, q l → p l)) :
    ((listed.filter p).map Listed.object).Perm
        ((listed.filter q).map fun l => entryObject l.exactPath l.data) ↔
      (∀ l ∈ listed, p l = q l) ∧
        ∀ l ∈ listed, q l = true → l.above ≠ [] → l.exactPath.length ≤ 511 := by
  constructor
  · intro hperm
    have hlength := hperm.length_eq
    rw [List.length_map, List.length_map] at hlength
    have hsame := filter_congr_of_length hnested hlength
    refine ⟨hsame, fun l hl hq hne => ?_⟩
    by_contra hlong
    have hsum := (hperm.map nameLength).sum_eq
    rw [List.filter_congr hsame, List.map_map, List.map_map] at hsum
    refine absurd hsum (List.sum_lt_sum _ _ ?_ ⟨l, List.mem_filter.mpr ⟨hl, hq⟩, ?_⟩).ne
    · intro m hm
      show m.path.length ≤ m.exactPath.length
      rw [path_eq (habove m (List.mem_filter.mp hm).1)]
      split
      · exact le_rfl
      · exact List.length_take_le' _ _
    · show l.path.length < l.exactPath.length
      rw [path_eq (habove l hl), if_neg hne, List.length_take]
      omega
  · rintro ⟨hsame, hfits⟩
    rw [List.filter_congr hsame]
    refine List.Perm.of_eq (List.map_congr_left fun l hl => ?_)
    obtain ⟨hl, hq⟩ := List.mem_filter.mp hl
    have hpath : l.path = l.exactPath := by
      rw [path_eq (habove l hl)]
      split
      · rfl
      · rename_i hne
        exact List.take_of_length_le (hfits l hl hq hne)
    rw [Listed.object, hpath]

/-- The bound is the one that was asked for, and every path below the root fits. -/
def Fits {dos : DirDos} (tree : Tree dos) (params : Option CJson) : Prop :=
  (∀ l ∈ objectsAll [] tree.entries, l.within (maxDepthOf params) = l.within (askedDepth params)) ∧
    ∀ l ∈ objectsAll [] tree.entries, l.within (askedDepth params) = true → l.above ≠ [] →
      l.exactPath.length ≤ 511

/-- The answer over a tree, and when it has the objects with their paths. -/
theorem fsListIn_perm_iff {dos : DirDos} (tree : Tree dos) {cwd : dos.Lock} {params : Option CJson}
    {path : Bytes} (hpath : pStr params "path" = .ok path)
    (hlock : dos.lock cwd path = some tree.root)
    (hrecursive : recursiveOf params = true) :
    ∃ listed locks, fsListIn dos cwd params =
        (.ok (.array listed), ⟨cwd, listed, tree.root :: locks⟩) ∧
      (∀ sub ∈ locks, OnListed dos tree.root (objectsAll [] tree.entries) sub) ∧
      (listed.Perm (((objectsAll [] tree.entries).filter (Listed.within (askedDepth params))).map
        fun l => entryObject l.exactPath l.data) ↔ Fits tree params) := by
  obtain ⟨locks, hrun, hlocks⟩ := fsListIn_ok tree hpath hlock
  have hwalk : listEmitAll (recursiveOf params) (maxDepthOf params) 0 [] tree.entries =
      ((objectsAll [] tree.entries).filter (Listed.within (maxDepthOf params))).map
        Listed.object := by
    have hroot : ([] : List Bytes).length ≤ maxDepthOf params := Nat.zero_le _
    rw [hrecursive, ← walkAll_eq_filter hroot]
    exact listEmitAll_eq true (maxDepthOf params) 0 [] tree.entries
  have hnested : (∀ l, Listed.within (maxDepthOf params) l → Listed.within (askedDepth params) l) ∨
      (∀ l, Listed.within (askedDepth params) l → Listed.within (maxDepthOf params) l) := by
    simp only [Listed.within, decide_eq_true_eq]
    rcases Nat.le_total (maxDepthOf params) (askedDepth params) with h | h
    · exact Or.inl fun l hl => hl.trans h
    · exact Or.inr fun l hl => hl.trans h
  have hnone : ∀ name ∈ ([] : List Bytes), name ≠ [] := by simp
  have habove := ne_nil_of_objectsAll hnone tree.entries tree.stands
  refine ⟨listEmitAll (recursiveOf params) (maxDepthOf params) 0 [] tree.entries, locks,
    ?_, hlocks, ?_⟩
  · rw [hrun, fsList_entries hpath]
  · rw [hwalk]
    exact perm_iff habove hnested

/-- A recursive listing is exact exactly when its paths fit into the buffer, and the bound
into an `int`. -/
theorem exact_iff {dos : DirDos} (tree : Tree dos) {cwd : dos.Lock} {params : Option CJson}
    {path : Bytes} (hpath : pStr params "path" = .ok path)
    (hlock : dos.lock cwd path = some tree.root)
    (hrecursive : recursiveOf params = true) :
    (∃ listed, (fsListIn dos cwd params).1 = .ok (.array listed) ∧
      Exact tree (askedDepth params) listed (fsListIn dos cwd params).2.opened) ↔
      Fits tree params := by
  obtain ⟨listed, locks, hrun, hlocks, hperm⟩ := fsListIn_perm_iff tree hpath hlock hrecursive
  rw [← hperm, hrun]
  constructor
  · rintro ⟨listed', hlisted, hexact⟩
    obtain rfl : listed = listed' := CJson.array.inj (Except.ok.inj hlisted)
    exact hexact.once
  · intro honce
    refine ⟨listed, rfl, honce, ?_, ?_⟩
    · exact lookup_of_objectsAll rfl (by simp) tree.examine tree.nodup tree.entries
        (List.Subset.refl _) tree.stands
    · intro sub hsub
      rcases List.mem_cons.mp hsub with rfl | hsub
      · exact Or.inl rfl
      · exact Or.inr (hlocks sub hsub)

/-- A volume with one directory, which has one file in it. -/
def sampleDos (dir file : Bytes) : DirDos where
  Lock := Nat
  lock cwd name :=
    if cwd = 0 ∧ name = ascii "DH1:" then some 1 else if cwd = 1 ∧ name = dir then some 2 else none
  examine
    | 1 => some [⟨dir, true, 0⟩]
    | 2 => some [⟨file, false, 5⟩]
    | _ => none

def sampleTree (dir file : Bytes) (hdir : dir ≠ [] ∧ 47 ∉ dir) (hfile : file ≠ [] ∧ 47 ∉ file) :
    Tree (sampleDos dir file) where
  root := (1 : Nat)
  entries := [.mk ⟨dir, true, 0⟩ [.mk ⟨file, false, 5⟩ []]]
  examine := rfl
  nodup := by simp
  stands := ⟨⟨hdir.1, hdir.2, fun _ => ⟨(2 : Nat), by simp [sampleDos], rfl, by simp,
    ⟨hfile.1, hfile.2, fun h => absurd h Bool.false_ne_true⟩, trivial⟩⟩, trivial⟩

def sampleRequest : Option CJson :=
  some (.object [(ascii "path", .string (ascii "DH1:")), (ascii "recursive", .bool true)])

theorem exact_startup :
    ∃ listed, (fsListIn (sampleDos (ascii "S") (ascii "Startup-Sequence")) (0 : Nat)
      sampleRequest).1 =
        .ok (.array listed) ∧
      Exact (sampleTree (ascii "S") (ascii "Startup-Sequence") (by decide) (by decide))
        (askedDepth sampleRequest) listed
        (fsListIn (sampleDos (ascii "S") (ascii "Startup-Sequence")) (0 : Nat)
          sampleRequest).2.opened :=
  (exact_iff (sampleTree (ascii "S") (ascii "Startup-Sequence") (by decide) (by decide))
    rfl rfl rfl).mpr
    (by unfold Fits; decide)

/-- A name of 300 letters. -/
def longName (letter : UInt8) : Bytes := List.replicate 300 letter

theorem length_longName (letter : UInt8) : (longName letter).length = 300 := List.length_replicate

theorem longName_allowed {letter : UInt8} (h : letter ≠ 47) :
    longName letter ≠ [] ∧ 47 ∉ longName letter := by
  constructor
  · intro hnil
    have hlength := length_longName letter
    rw [hnil] at hlength
    cases hlength
  · intro hmem
    exact h (List.eq_of_mem_replicate hmem).symm

def longTree : Tree (sampleDos (longName 97) (longName 98)) :=
  sampleTree (longName 97) (longName 98) (longName_allowed (by decide))
    (longName_allowed (by decide))

/-- A file with a long name in a directory with a long name. -/
theorem long_path_cut : ¬∃ listed,
    (fsListIn (sampleDos (longName 97) (longName 98)) (0 : Nat) sampleRequest).1 =
        .ok (.array listed) ∧
      Exact longTree (askedDepth sampleRequest) listed
        (fsListIn (sampleDos (longName 97) (longName 98)) (0 : Nat) sampleRequest).2.opened := by
  rintro ⟨listed, hlisted, hexact⟩
  have hpath : pStr sampleRequest "path" = .ok (ascii "DH1:") := rfl
  have hlock : (sampleDos (longName 97) (longName 98)).lock (0 : Nat) (ascii "DH1:") =
      some longTree.root := rfl
  obtain ⟨listed', locks, hrun, -, hperm⟩ := fsListIn_perm_iff longTree hpath hlock rfl
  rw [hrun] at hlisted
  obtain rfl : listed' = listed := CJson.array.inj (Except.ok.inj hlisted)
  have hfits := (hperm.mp hexact.once).2 ⟨[longName 97], longName 98, false, 5⟩
    (by simp [longTree, sampleTree, objectsAll, objects]) rfl (by simp)
  simp [Listed.exactPath, length_longName] at hfits

end AmigaFleet.Mcpd.Fs
