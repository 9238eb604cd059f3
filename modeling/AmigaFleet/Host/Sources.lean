import AmigaFleet.Host.Install
import Mathlib.Logic.Function.Basic

/-!
# Machines and the sources directory

The tables of `installer/machines.py`, and `scan_sources` of
`installer/manifest.py`, which looks for install images in a directory of the
host: bare images `<name>.iso` and packed ones `<name>.iso.lha`.

* `isoFiles_scanSources` and `isoLhaFiles_scanSources`: the images of a machine,
  in the order of the directory.
-/

namespace AmigaFleet.Host.Installer

open AmigaFleet.Host.PyStr

/-! ## Machines -/

/-- `SUPPORTED_MACHINES` -/
inductive Machine where
  | x5000
  | a1222
  | amigaOne
  | pegasosII
  | sam460
deriving DecidableEq, Repr

def supportedMachines : List Machine := [.x5000, .a1222, .amigaOne, .pegasosII, .sam460]

/-- The canonical name. -/
def Machine.id : Machine → List Char
  | .x5000 => "X5000".toList
  | .a1222 => "A1222".toList
  | .amigaOne => "AmigaOne".toList
  | .pegasosII => "PegasosII".toList
  | .sam460 => "Sam460".toList

/-- `ISO_PREFIX_TO_MACHINE` -/
def isoPrefixToMachine : List (List Char × Machine × List Char) :=
  [("AmigaOneX5000InstallCD".toList, .x5000, "AmigaOne X5000".toList),
    ("AmigaOneA1222InstallCD".toList, .a1222, "AmigaOne A1222".toList),
    ("AmigaOneInstallCD".toList, .amigaOne, "AmigaOne (XE/SE)".toList),
    ("Pegasos2InstallCD".toList, .pegasosII, "Pegasos II".toList),
    ("Sam460InstallCD".toList, .sam460, "Sam460ex".toList)]

/-- `UNSUPPORTED_ISO_PREFIXES` -/
def unsupportedIsoPrefixes : List (List Char) :=
  ["ClassicInstallCD".toList, "Sam440InstallCD".toList, "AmigaOneX1000InstallCD".toList]

/-- `MACHINE_ALIASES` -/
def machineAliases : List (List Char × Machine) :=
  [("x5000".toList, .x5000), ("amigaonex5000".toList, .x5000), ("amigaone x5000".toList, .x5000),
    ("a1222".toList, .a1222), ("amigaonea1222".toList, .a1222), ("amigaone a1222".toList, .a1222),
    ("sam460".toList, .sam460), ("sam460ex".toList, .sam460), ("pegasos2".toList, .pegasosII),
    ("pegasosii".toList, .pegasosII), ("pegasos ii".toList, .pegasosII),
    ("peg2".toList, .pegasosII),
    ("amigaone".toList, .amigaOne), ("amigaonexe".toList, .amigaOne),
    ("amigaone xe".toList, .amigaOne), ("a1xe".toList, .amigaOne), ("a1se".toList, .amigaOne)]

/-- `str.lower`.  Letters outside ASCII stay as they are: no text that is compared
here holds what one of them becomes. -/
def lower (s : List Char) : List Char := s.map Char.toLower

/-- `resolve_machine_alias` -/
def resolveMachineAlias (name : List Char) : Option Machine :=
  if name = [] then none
  else
    match supportedMachines.find? (fun m => m.id = name) with
    | some m => some m
    | none => (machineAliases.find? fun a => a.1 = lower (strip name)).map Prod.snd

/-- `detect_machine_from_iso` -/
def detectMachineFromIso (isoFilename : List Char) : Option (Machine × List Char) :=
  (isoPrefixToMachine.find? fun e => e.1.isPrefixOf isoFilename).map Prod.snd

/-- `is_unsupported_iso` -/
def isUnsupportedIso (isoFilename : List Char) : Bool :=
  unsupportedIsoPrefixes.any fun p => p.isPrefixOf isoFilename

/-! ## scan_sources -/

/-- What the host says about the `sources_dir` that is given. -/
structure SourcesDir where
  /-- the argument -/
  path : List Char
  /-- `str(Path(sources_dir).expanduser().resolve())` -/
  resolved : List Char
  /-- the path is a directory -/
  isDir : Bool
  /-- the names in it, as `sorted(p.iterdir())` gives them -/
  entries : List (List Char)
  /-- `(p / name).is_file()` -/
  isFile : List Char → Bool
  /-- `(p / name).exists()` -/
  exists_ : List Char → Bool
  exists_of_isFile : ∀ name, isFile name = true → exists_ name = true
  /-- `Path(name).expanduser().resolve().is_file()` -/
  isFileAt : List Char → Bool

/-- What `scan_sources` has collected. -/
structure Found where
  isoFiles : Machine → List (List Char) := fun _ => []
  isoLhaFiles : Machine → List (List Char) := fun _ => []
  unsupported : List (List Char) := []
  lhaFiles : List (List Char) := []

/-- `name[:-len(".lha")]` -/
def dropLha (name : List Char) : List Char := name.dropLast.dropLast.dropLast.dropLast

def endsWith (s tail : List Char) : Bool := tail.isSuffixOf s

/-- One turn of the loop of `scan_sources`. -/
def scanEntry (dir : SourcesDir) (acc : Found) (name : List Char) : Found :=
  if !dir.isFile name then acc
  else if endsWith (lower name) ".iso".toList then
    match detectMachineFromIso name with
    | some (m, _) =>
      { acc with isoFiles := Function.update acc.isoFiles m (acc.isoFiles m ++ [name]) }
    | none =>
      if isUnsupportedIso name then { acc with unsupported := acc.unsupported ++ [name] } else acc
  else if endsWith (lower name) ".iso.lha".toList then
    match detectMachineFromIso (dropLha name) with
    | some (m, _) =>
      { acc with isoLhaFiles := Function.update acc.isoLhaFiles m (acc.isoLhaFiles m ++ [name]) }
    | none => { acc with lhaFiles := acc.lhaFiles ++ [name] }
  else if endsWith (lower name) ".lha".toList then { acc with lhaFiles := acc.lhaFiles ++ [name] }
  else acc

structure Scan extends Found where
  sourcesDir : List Char
  exists_ : Bool
  detectedMachine : Option Machine
  ambiguousMachines : List Machine

/-- The machines by their names, as `sorted` has them. -/
def sortedMachines : List Machine := [.a1222, .amigaOne, .pegasosII, .sam460, .x5000]

/-- `scan_sources` -/
def scanSources (dir : SourcesDir) : Scan :=
  if dir.isDir then
    let acc := dir.entries.foldl (scanEntry dir) {}
    let seen := sortedMachines.filter fun m => acc.isoFiles m ≠ [] || acc.isoLhaFiles m ≠ []
    { acc with
      sourcesDir := dir.resolved
      exists_ := true
      detectedMachine := match seen with | [m] => some m | _ => none
      ambiguousMachines := match seen with | _ :: _ :: _ => seen | _ => [] }
  else
    { sourcesDir := dir.resolved, exists_ := false, detectedMachine := none,
      ambiguousMachines := [] }

/-! ## The images of a machine -/

/-- A bare image of the machine. -/
def isBare (dir : SourcesDir) (m : Machine) (name : List Char) : Bool :=
  dir.isFile name && endsWith (lower name) ".iso".toList &&
    (detectMachineFromIso name).map Prod.fst = some m

/-- A packed image of the machine. -/
def isPacked (dir : SourcesDir) (m : Machine) (name : List Char) : Bool :=
  dir.isFile name && !endsWith (lower name) ".iso".toList &&
    endsWith (lower name) ".iso.lha".toList &&
      (detectMachineFromIso (dropLha name)).map Prod.fst = some m

/-- What one turn adds to the images of a machine. -/
theorem scanEntry_images (dir : SourcesDir) (acc : Found) (name : List Char) (m : Machine) :
    (scanEntry dir acc name).isoFiles m =
        acc.isoFiles m ++ (if isBare dir m name then [name] else []) ∧
      (scanEntry dir acc name).isoLhaFiles m =
        acc.isoLhaFiles m ++ (if isPacked dir m name then [name] else []) := by
  have hother : ∀ {k : Machine} {names : Machine → List (List Char)}
    (tail : List (List Char)), k ≠ m →
      Function.update names k tail m = names m := by
    intro k names tail hne
    rw [Function.update_of_ne (Ne.symm hne)]
  unfold scanEntry isBare isPacked
  cases dir.isFile name with
  | false => simp
  | true =>
    cases endsWith (lower name) ".iso".toList with
    | true =>
      cases hdetect : detectMachineFromIso name with
      | none =>
        cases isUnsupportedIso name with
        | true => simp
        | false => simp
      | some info =>
        obtain ⟨k, friendly⟩ := info
        by_cases hk : k = m
        · subst hk
          simp
        · simp [hk, hother _ hk]
    | false =>
      cases endsWith (lower name) ".iso.lha".toList with
      | true =>
        cases hdetect : detectMachineFromIso (dropLha name) with
        | none => simp
        | some info =>
          obtain ⟨k, friendly⟩ := info
          by_cases hk : k = m
          · subst hk
            simp
          · simp [hk, hother _ hk]
      | false =>
        cases endsWith (lower name) ".lha".toList with
        | true => simp
        | false => simp

theorem foldl_scanEntry (dir : SourcesDir) (m : Machine) (names : List (List Char)) (acc : Found) :
    (names.foldl (scanEntry dir) acc).isoFiles m = acc.isoFiles m ++ names.filter (isBare dir m) ∧
      (names.foldl (scanEntry dir) acc).isoLhaFiles m =
        acc.isoLhaFiles m ++ names.filter (isPacked dir m) := by
  induction names generalizing acc with
  | nil => simp
  | cons name names ih =>
    obtain ⟨hbare, hpacked⟩ := scanEntry_images dir acc name m
    rw [List.foldl_cons, (ih _).1, (ih _).2, hbare, hpacked, List.filter_cons, List.filter_cons]
    constructor
    · split <;> simp
    · split <;> simp

theorem isoFiles_scanSources {dir : SourcesDir} (h : dir.isDir = true) (m : Machine) :
    (scanSources dir).isoFiles m = dir.entries.filter (isBare dir m) := by
  rw [scanSources, if_pos h]
  exact (foldl_scanEntry dir m dir.entries {}).1.trans (List.nil_append _)

theorem isoLhaFiles_scanSources {dir : SourcesDir} (h : dir.isDir = true) (m : Machine) :
    (scanSources dir).isoLhaFiles m = dir.entries.filter (isPacked dir m) := by
  rw [scanSources, if_pos h]
  exact (foldl_scanEntry dir m dir.entries {}).2.trans (List.nil_append _)

end AmigaFleet.Host.Installer
