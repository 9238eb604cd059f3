import AmigaFleet.Host.InstallRun
import AmigaFleet.Host.Sources

/-!
# Which image is installed

`installer_preflight`, `installer_stage` and `installer_run` of
`tools/installer.py` each look for the image of a machine in the sources
directory, or take the name that is given.

* `preflightSources`, `stageSource` and `runSource` are these parts of the three
  tools.
* `image_preflight`, `toOption_stageSource` and `toOption_runSource`: the name each of
  them comes to.  For a name that is left out the first has the rule `proposal`, the
  others have `autoDetect`.
* `agree_iff`: when they come to the same image, or to none.
-/

namespace AmigaFleet.Host.Installer

open AmigaFleet.Host.PyStr

variable (py : PyText)

/-! ## Preflight -/

/-- `repr` of a list of texts. -/
def reprList (items : List (List Char)) : List Char :=
  '[' :: List.intercalate ", ".toList (items.map py.reprStr) ++ [']']

/-- The machine resolution: `canonical`, and the check `machine_known`. -/
def machineKnown (scan : Scan) : Option (List Char) → Option Machine × PreflightCheck
  | none | some [] =>
    match scan.detectedMachine with
    | some m => (some m, ⟨"machine_known".toList, .ok, "auto-detected from ISO: ".toList ++ m.id⟩)
    | none =>
      if scan.ambiguousMachines ≠ [] then
        (none, ⟨"machine_known".toList, .fail,
          "multiple supported ISOs in sources_dir; specify machine: ".toList ++
            reprList py (scan.ambiguousMachines.map Machine.id)⟩)
      else (none, ⟨"machine_known".toList, .fail,
        "no supported ISO in sources_dir and no machine= given".toList⟩)
  | some machine =>
    match resolveMachineAlias machine with
    | none => (none, ⟨"machine_known".toList, .fail,
        "unknown machine alias ".toList ++ py.reprStr machine⟩)
    | some m => (some m, ⟨"machine_known".toList, .ok, m.id⟩)

/-- The iso resolution: `chosen_iso`, and the check `iso_resolved`. -/
def isoResolved (dir : SourcesDir) (scan : Scan) (m : Machine) (iso : Option (List Char)) :
    Option (List Char) × PreflightCheck :=
  let check := PreflightCheck.mk "iso_resolved".toList
  match iso with
  | none | some [] =>
    match scan.isoFiles m, scan.isoLhaFiles m with
    | [candidate], _ => (some candidate, check .ok candidate)
    | candidates@(_ :: _ :: _), _ => (iso, check .fail ("multiple ISOs matching ".toList ++ m.id ++
        ": ".toList ++ reprList py candidates ++ "; specify iso=".toList))
    | [], [lha] => (some (dropLha lha), check .ok (dropLha lha ++ " (will extract from ".toList ++
        lha ++ ")".toList))
    | [], lhaCandidates@(_ :: _ :: _) =>
      (iso, check .fail ("multiple iso.lha files matching ".toList ++
        m.id ++ ": ".toList ++ reprList py lhaCandidates ++ "; specify iso=".toList))
    | [], [] => (iso, check .fail ("no ISO (raw or .iso.lha) matching machine ".toList ++ m.id ++
        " in sources_dir".toList))
  | some chosen =>
    match detectMachineFromIso chosen with
    | none => (iso, check .fail ("iso filename ".toList ++ py.reprStr chosen ++
        " doesn't match any supported prefix".toList))
    | some (k, _) =>
      if k ≠ m then (iso, check .fail ("iso ".toList ++ py.reprStr chosen ++ " is for ".toList ++
        k.id ++ ", not ".toList ++ m.id))
      else if !dir.exists_ chosen then (iso, check .fail ("iso ".toList ++ py.reprStr chosen ++
        " not found in sources_dir".toList))
      else (iso, check .ok chosen)

structure PreflightSources where
  checks : List PreflightCheck
  canonical : Option Machine
  chosenIso : Option (List Char)

/-- `installer_preflight` from the scan of the sources to the iso resolution. -/
def preflightSources (dir : SourcesDir) (machine iso : Option (List Char)) : PreflightSources :=
  let scan := scanSources dir
  if !scan.exists_ then
    ⟨[⟨"sources_exists".toList, .fail,
      "sources_dir ".toList ++ py.reprStr dir.path ++
        " not found or not a directory".toList⟩], none, iso⟩
  else
    let (canonical, known) := machineKnown py scan machine
    let checks := ⟨"sources_exists".toList, .ok, scan.sourcesDir⟩ :: known ::
      if scan.unsupported ≠ [] then
        [⟨"unsupported_isos".toList, .warn, "unsupported ISOs present (will be ignored): ".toList ++
          reprList py scan.unsupported⟩]
      else []
    match canonical with
    | none => ⟨checks, none, iso⟩
    | some m =>
      let (chosenIso, resolved) := isoResolved py dir scan m iso
      ⟨checks ++ [resolved], some m, chosenIso⟩

/-- The image that preflight accepts. -/
def PreflightSources.image (p : PreflightSources) : Option (List Char) :=
  if p.checks.any fun c => c.name = "iso_resolved".toList && c.status = .ok then p.chosenIso
  else none

/-! ## Staging -/

/-- A file of the host. -/
inductive HostPath where
  | inSources (name : List Char)
  | elsewhere (path : List Char)
deriving DecidableEq, Repr

/-- An entry of the upload list. -/
structure StageItem where
  role : List Char
  srcPath : HostPath
  dstPath : List Char
deriving DecidableEq, Repr

def HostPath.isFile (dir : SourcesDir) : HostPath → Bool
  | .inSources name => dir.isFile name
  | .elsewhere path => dir.isFileAt path

def invalidParams {β : Type} (message : List Char) : Except Raised β :=
  .error (.exception "InvalidParams" message)

def unknownMachine (machine : List Char) : List Char :=
  "unknown machine ".toList ++ py.reprStr machine ++ "; supported: ".toList ++
    List.intercalate ", ".toList (supportedMachines.map Machine.id)

/-- The number of candidates, as the errors have it. -/
def candidatesText (candidates lhaCandidates : List (List Char)) : List Char :=
  (toString candidates.length).toList ++ " bare ISO + ".toList ++
    (toString lhaCandidates.length).toList ++ " iso.lha candidates".toList

/-- The name of the ISO in `installer_stage`. -/
def stageIso (dir : SourcesDir) (m : Machine) (isoFilename isoLhaPath : Option (List Char)) :
    Except Raised (List Char) :=
  let lha := ".lha".toList
  match isoFilename with
  | none =>
    match (scanSources dir).isoFiles m, (scanSources dir).isoLhaFiles m with
    | [candidate], _ => .ok candidate
    | _, [packed] => .ok (dropLha packed)
    | candidates, lhaCandidates =>
      invalidParams ("could not auto-detect iso_filename for ".toList ++ m.id ++ ": ".toList ++
        candidatesText candidates lhaCandidates ++ " in sources_dir".toList)
  | some iso =>
    if !dir.isFile iso && !dir.isFile (iso ++ lha) && isoLhaPath.isNone then
      invalidParams ("neither ".toList ++ py.reprStr iso ++ " nor ".toList ++
        py.reprStr (iso ++ lha) ++ " found in sources_dir, and no iso_lha_path given".toList)
    else .ok iso

/-- The ISO's entry of the upload list in `installer_stage`. -/
def isoItem (dir : SourcesDir) (destVolume iso : List Char) (isoLhaPath : Option (List Char)) :
    Except Raised StageItem := do
  let lha := ".lha".toList
  let staging := normalizeVolume destVolume ++ "tmp/".toList
  let packed : Option HostPath ← match isoLhaPath with
    | none | some [] =>
      pure (if dir.isFile (iso ++ lha) then some (.inSources (iso ++ lha)) else none)
    | some path =>
      if dir.isFileAt path then pure (some (.elsewhere path))
      else invalidParams ("iso_lha_path not found: ".toList ++ py.reprStr path)
  match packed with
  | some path => pure ⟨"iso_lha".toList, path, staging ++ iso ++ lha⟩
  | none => pure ⟨"iso".toList, .inSources iso, staging ++ iso⟩

/-- `installer_stage` from the machine to the ISO's entry of the upload list, without
the look for the daemon's binary in between. -/
def stageSource (dir : SourcesDir) (destVolume machine : List Char)
    (isoFilename isoLhaPath : Option (List Char)) : Except Raised (List Char × StageItem) := do
  let some m := resolveMachineAlias machine | invalidParams (unknownMachine py machine)
  if !dir.isDir then
    invalidParams ("sources_dir not found: ".toList ++ py.reprStr dir.path)
  else
    let iso ← stageIso py dir m isoFilename isoLhaPath
    let item ← isoItem py dir destVolume iso isoLhaPath
    pure (iso, item)

/-! ## The run -/

/-- The keys of `_SEQUENCE_BUILDERS` -/
def sequenceBuilders : List Machine := [.x5000, .pegasosII, .amigaOne, .sam460, .a1222]

/-- `_resolve_sequence_machine` -/
def resolveSequenceMachine (machine : List Char) : Except Raised Machine :=
  match resolveMachineAlias machine with
  | none => invalidParams (unknownMachine py machine)
  | some m =>
    if m ∉ sequenceBuilders then
      invalidParams ("machine ".toList ++ py.reprStr m.id ++
        " sequence not yet implemented (implemented: ".toList ++ List.intercalate ", ".toList
          ((sortedMachines.filter fun k => k ∈ sequenceBuilders).map Machine.id) ++ ")".toList)
    else .ok m

/-- `installer_run` up to the name of the image. -/
def runSource (sources : Option SourcesDir) (machine : List Char)
    (isoFilename : Option (List Char)) : Except Raised (Machine × List Char) := do
  let m ← resolveSequenceMachine py machine
  match isoFilename with
  | some iso => pure (m, iso)
  | none =>
    let noSources := "must pass iso_filename, or sources_dir for auto-detect".toList
    let some dir := sources | invalidParams noSources
    if dir.path = [] then invalidParams noSources
    else
      let scan := scanSources dir
      match scan.isoFiles m, scan.isoLhaFiles m with
      | [candidate], _ => pure (m, candidate)
      | _, [packed] => pure (m, dropLha packed)
      | candidates, lhaCandidates =>
        invalidParams ("could not auto-detect iso_filename: ".toList ++
          candidatesText candidates lhaCandidates ++ " for ".toList ++ m.id ++ " in ".toList ++
            dir.path)

/-! ## One image -/

def bareImages (dir : SourcesDir) (m : Machine) : List (List Char) :=
  dir.entries.filter (isBare dir m)

def packedImages (dir : SourcesDir) (m : Machine) : List (List Char) :=
  dir.entries.filter (isPacked dir m)

/-- The three tools come to one image, whose file is there to be staged, or to none. -/
def Agree (dir : SourcesDir) (destVolume machine : List Char) (iso : Option (List Char)) : Prop :=
  let accepted := (preflightSources py dir (some machine) iso).image
  let staged := (stageSource py dir destVolume machine iso none).toOption
  let installed := (runSource py (some dir) machine iso).toOption
  staged.map Prod.fst = accepted ∧ installed.map Prod.snd = accepted ∧
    ∀ s ∈ staged, s.2.srcPath.isFile dir = true

/-- The directory and the name that is given leave one choice for the machine. -/
def OneImage (dir : SourcesDir) (m : Machine) : Option (List Char) → Prop
  | none => dir.isDir = true →
    match bareImages dir m, packedImages dir m with
    | [_], _ => dir.path ≠ []
    | [], [name] => dir.path ≠ [] ∧
        (dir.isFile (dropLha name ++ ".lha".toList) = true ∨ dir.isFile (dropLha name) = true)
    | [], _ => True
    | _, packed => packed.length ≠ 1
  | some iso => iso ≠ [] ∧ dir.isDir = true ∧ (detectMachineFromIso iso).map Prod.fst = some m ∧
      dir.exists_ iso = true ∧ (dir.isFile (iso ++ ".lha".toList) = true ∨ dir.isFile iso = true)

/-- Preflight has nothing to accept for the machine. -/
def NoImage (dir : SourcesDir) (m : Machine) : Option (List Char) → Prop
  | none | some [] =>
    match bareImages dir m, packedImages dir m with
    | [_], _ | [], [_] => False
    | _, _ => True
  | some iso => ¬((detectMachineFromIso iso).map Prod.fst = some m ∧ dir.exists_ iso = true)

/-- Without a machine staging and the run refuse, and preflight takes the one it finds. -/
def Decided (dir : SourcesDir) (machine : List Char) (iso : Option (List Char)) : Prop :=
  if machine = [] then ∀ m, (scanSources dir).detectedMachine = some m → NoImage dir m iso
  else ∀ m, resolveMachineAlias machine = some m → OneImage dir m iso

theorem exists_scanSources (dir : SourcesDir) : (scanSources dir).exists_ = dir.isDir := by
  unfold scanSources
  cases dir.isDir <;> rfl

theorem name_machineKnown (scan : Scan) (machine : Option (List Char)) :
    (machineKnown py scan machine).2.name = "machine_known".toList := by
  unfold machineKnown
  repeat' split
  all_goals rfl

theorem name_isoResolved (dir : SourcesDir) (scan : Scan) (m : Machine) (iso : Option (List Char)) :
    (isoResolved py dir scan m iso).2.name = "iso_resolved".toList := by
  unfold isoResolved
  repeat' split
  all_goals rfl

/-- Only the last check speaks of the image. -/
theorem image_preflight (dir : SourcesDir) (machine iso : Option (List Char)) :
    (preflightSources py dir machine iso).image =
      if dir.isDir = true then
        (machineKnown py (scanSources dir) machine).1.bind fun m =>
          if (isoResolved py dir (scanSources dir) m iso).2.status = .ok then
            (isoResolved py dir (scanSources dir) m iso).1
          else none
      else none := by
  have hknown := name_machineKnown py (scanSources dir) machine
  have hresolved := fun m => name_isoResolved py dir (scanSources dir) m iso
  have hscan := exists_scanSources dir
  unfold preflightSources PreflightSources.image
  cases hdir : dir.isDir with
  | false => simp [hscan, hdir]
  | true =>
    rw [hdir] at hscan
    cases hcanonical : (machineKnown py (scanSources dir) machine).1 with
    | none =>
      by_cases hun : (scanSources dir).unsupported = []
      · simp [hscan, hcanonical, hknown, hun]
      · simp [hscan, hcanonical, hknown, hun]
    | some m =>
      by_cases hun : (scanSources dir).unsupported = []
      · simp [hscan, hcanonical, hknown, hresolved, hun]
      · simp [hscan, hcanonical, hknown, hresolved, hun]

theorem machineKnown_empty (scan : Scan) :
    (machineKnown py scan (some [])).1 = scan.detectedMachine := by
  unfold machineKnown
  cases scan.detectedMachine with
  | none =>
    dsimp only
    split <;> rfl
  | some m => rfl

theorem machineKnown_some (scan : Scan) {machine : List Char} (h : machine ≠ []) :
    (machineKnown py scan (some machine)).1 = resolveMachineAlias machine := by
  cases machine with
  | nil => exact absurd rfl h
  | cons c cs =>
    unfold machineKnown
    dsimp only
    cases resolveMachineAlias (c :: cs) <;> rfl

/-- What preflight accepts for a name that is left out: a bare image, or else a packed one. -/
def proposal (dir : SourcesDir) (m : Machine) : Option (List Char) :=
  match bareImages dir m, packedImages dir m with
  | [candidate], _ => some candidate
  | [], [packed] => some (dropLha packed)
  | _, _ => none

theorem isoResolved_auto {dir : SourcesDir} (hdir : dir.isDir = true) (m : Machine)
    {iso : Option (List Char)} (h : iso = none ∨ iso = some []) :
    (if (isoResolved py dir (scanSources dir) m iso).2.status = .ok then
      (isoResolved py dir (scanSources dir) m iso).1 else none) = proposal dir m := by
  have hbare : (scanSources dir).isoFiles m = bareImages dir m := isoFiles_scanSources hdir m
  have hpacked : (scanSources dir).isoLhaFiles m = packedImages dir m :=
    isoLhaFiles_scanSources hdir m
  unfold isoResolved proposal
  rw [hbare, hpacked]
  obtain rfl | rfl := h
  · rcases bareImages dir m with _ | ⟨a, _ | ⟨b, bs⟩⟩
    · rcases packedImages dir m with _ | ⟨p, _ | ⟨q, qs⟩⟩ <;> simp
    · simp
    · simp
  · rcases bareImages dir m with _ | ⟨a, _ | ⟨b, bs⟩⟩
    · rcases packedImages dir m with _ | ⟨p, _ | ⟨q, qs⟩⟩ <;> simp
    · simp
    · simp

theorem isoResolved_given (dir : SourcesDir) (scan : Scan) (m : Machine) {iso : List Char}
    (h : iso ≠ []) :
    (if (isoResolved py dir scan m (some iso)).2.status = .ok then
      (isoResolved py dir scan m (some iso)).1 else none) =
      if (detectMachineFromIso iso).map Prod.fst = some m ∧ dir.exists_ iso = true then some iso
      else none := by
  cases iso with
  | nil => exact absurd rfl h
  | cons c cs =>
    unfold isoResolved
    dsimp only
    obtain hdetect | ⟨⟨k, friendly⟩, hdetect⟩ :=
      Option.eq_none_or_eq_some (detectMachineFromIso (c :: cs))
    · simp [hdetect]
    · by_cases hk : k = m
      · by_cases hexists : dir.exists_ (c :: cs) = true
        · simp [hdetect, hk, hexists]
        · simp [hdetect, hk, hexists]
      · simp [hdetect, hk]

/-- Staging and the run know one rule for a name that is left out. -/
def autoDetect (dir : SourcesDir) (m : Machine) : Option (List Char) :=
  if dir.isDir = true then
    match bareImages dir m, packedImages dir m with
    | [candidate], _ => some candidate
    | _, [packed] => some (dropLha packed)
    | _, _ => none
  else none

/-- The packed form is preferred. -/
def stagedItem (dir : SourcesDir) (destVolume iso : List Char) : StageItem :=
  let staging := normalizeVolume destVolume ++ "tmp/".toList
  if dir.isFile (iso ++ ".lha".toList) = true then
    ⟨"iso_lha".toList, .inSources (iso ++ ".lha".toList), staging ++ iso ++ ".lha".toList⟩
  else ⟨"iso".toList, .inSources iso, staging ++ iso⟩

theorem isFile_stagedItem (dir : SourcesDir) (destVolume iso : List Char) :
    (stagedItem dir destVolume iso).srcPath.isFile dir = true ↔
      dir.isFile (iso ++ ".lha".toList) = true ∨ dir.isFile iso = true := by
  unfold stagedItem
  by_cases h : dir.isFile (iso ++ ".lha".toList) = true
  · rw [if_pos h]
    exact ⟨fun _ => Or.inl h, fun _ => h⟩
  · rw [if_neg h]
    exact ⟨Or.inr, fun hor => hor.resolve_left h⟩

theorem isoItem_none (dir : SourcesDir) (destVolume iso : List Char) :
    isoItem py dir destVolume iso none = .ok (stagedItem dir destVolume iso) := by
  unfold isoItem stagedItem
  dsimp only
  cases dir.isFile (iso ++ ".lha".toList) with
  | true => rfl
  | false => rfl

theorem toOption_stageIso_none {dir : SourcesDir} (hdir : dir.isDir = true) (m : Machine) :
    (stageIso py dir m none none).toOption = autoDetect dir m := by
  have hbare : (scanSources dir).isoFiles m = bareImages dir m := isoFiles_scanSources hdir m
  have hpacked : (scanSources dir).isoLhaFiles m = packedImages dir m :=
    isoLhaFiles_scanSources hdir m
  unfold stageIso autoDetect
  rw [if_pos hdir]
  dsimp only
  rw [hbare, hpacked]
  rcases bareImages dir m with _ | ⟨a, _ | ⟨b, bs⟩⟩
  · rcases packedImages dir m with _ | ⟨p, _ | ⟨q, qs⟩⟩ <;> rfl
  · rfl
  · rcases packedImages dir m with _ | ⟨p, _ | ⟨q, qs⟩⟩ <;> rfl

theorem toOption_stageIso_some (dir : SourcesDir) (m : Machine) (iso : List Char) :
    (stageIso py dir m (some iso) none).toOption =
      if dir.isFile (iso ++ ".lha".toList) = true ∨ dir.isFile iso = true then some iso
      else none := by
  unfold stageIso
  dsimp only
  by_cases hbare : dir.isFile iso = true
  · rw [if_pos (Or.inr hbare), if_neg (by rw [hbare]; simp)]
    rfl
  · by_cases hpacked : dir.isFile (iso ++ ".lha".toList) = true
    · rw [if_pos (Or.inl hpacked), if_neg (by rw [hpacked, Bool.and_assoc]; simp)]
      rfl
    · rw [if_neg (not_or_intro hpacked hbare), if_pos]
      · rfl
      · rw [Bool.not_eq_true] at hbare hpacked
        rw [hbare, hpacked]
        rfl

theorem toOption_stageSource (dir : SourcesDir) (destVolume machine : List Char)
    (iso : Option (List Char)) :
    (stageSource py dir destVolume machine iso none).toOption =
      if dir.isDir = true then
        (resolveMachineAlias machine).bind fun m =>
          (stageIso py dir m iso none).toOption.map fun name =>
            (name, stagedItem dir destVolume name)
      else none := by
  unfold stageSource
  cases resolveMachineAlias machine with
  | none => cases dir.isDir <;> rfl
  | some m =>
    cases dir.isDir with
    | false => rfl
    | true =>
      show Except.toOption (stageIso py dir m iso none >>= fun name =>
          isoItem py dir destVolume name none >>= fun item => pure (name, item)) =
        (stageIso py dir m iso none).toOption.map fun name => (name, stagedItem dir destVolume name)
      cases stageIso py dir m iso none with
      | error e => rfl
      | ok name =>
        show Except.toOption (isoItem py dir destVolume name none >>= fun item =>
          pure (name, item)) = _
        rw [isoItem_none]
        rfl

theorem toOption_runSource (dir : SourcesDir) (machine : List Char) (iso : Option (List Char)) :
    (runSource py (some dir) machine iso).toOption.map Prod.snd =
      (resolveMachineAlias machine).bind fun m =>
        match iso with
        | some iso => some iso
        | none => if dir.path = [] then none else autoDetect dir m := by
  unfold runSource resolveSequenceMachine
  cases resolveMachineAlias machine with
  | none => rfl
  | some m =>
    have hmem : m ∈ sequenceBuilders := by cases m <;> decide
    dsimp only
    rw [if_neg (not_not_intro hmem)]
    cases iso with
    | some iso => rfl
    | none =>
      show Option.map Prod.snd (Except.toOption (if dir.path = [] then _ else _)) =
        if dir.path = [] then none else autoDetect dir m
      by_cases hpath : dir.path = []
      · rw [if_pos hpath, if_pos hpath]
        rfl
      · rw [if_neg hpath, if_neg hpath]
        unfold autoDetect bareImages packedImages
        cases hdir : dir.isDir with
        | false =>
          have hscan : (scanSources dir).isoFiles m = [] ∧
              (scanSources dir).isoLhaFiles m = [] := by
            rw [scanSources, if_neg (by rw [hdir]; decide)]
            exact ⟨rfl, rfl⟩
          rw [hscan.1, hscan.2]
          rfl
        | true =>
          rw [if_pos rfl, ← isoFiles_scanSources hdir m, ← isoLhaFiles_scanSources hdir m]
          rcases (scanSources dir).isoFiles m with _ | ⟨a, _ | ⟨b, bs⟩⟩
          · rcases (scanSources dir).isoLhaFiles m with _ | ⟨p, _ | ⟨q, qs⟩⟩ <;> rfl
          · rfl
          · rcases (scanSources dir).isoLhaFiles m with _ | ⟨p, _ | ⟨q, qs⟩⟩ <;> rfl

theorem isFile_of_bareImages {dir : SourcesDir} {m : Machine} {name : List Char}
    (h : name ∈ bareImages dir m) : dir.isFile name = true := by
  have hbare := (List.mem_filter.mp h).2
  simp only [isBare, Bool.and_eq_true] at hbare
  exact hbare.1.1

theorem ne_nil_of_bareImages {dir : SourcesDir} {m : Machine} {name : List Char}
    (h : name ∈ bareImages dir m) : name ≠ [] := by
  rintro rfl
  have hbare := (List.mem_filter.mp h).2
  simp only [isBare, Bool.and_eq_true] at hbare
  exact absurd hbare.1.2 (by decide)

theorem ne_nil_of_packedImages {dir : SourcesDir} {m : Machine} {name : List Char}
    (h : name ∈ packedImages dir m) : dropLha name ≠ [] := by
  intro hnil
  have hpacked := (List.mem_filter.mp h).2
  simp only [isPacked, Bool.and_eq_true] at hpacked
  have hdetect : detectMachineFromIso [] = none := by decide
  rw [hnil, hdetect] at hpacked
  simp at hpacked

theorem proposal_ne_empty (dir : SourcesDir) (m : Machine) : proposal dir m ≠ some [] := by
  have hbare : ∀ name ∈ bareImages dir m, name ≠ [] := fun name h => ne_nil_of_bareImages h
  have hpacked : ∀ name ∈ packedImages dir m, dropLha name ≠ [] := fun name h =>
    ne_nil_of_packedImages h
  unfold proposal
  generalize bareImages dir m = bare at hbare ⊢
  generalize packedImages dir m = packed at hpacked ⊢
  rcases bare with _ | ⟨a, _ | ⟨b, bs⟩⟩
  · rcases packed with _ | ⟨p, _ | ⟨q, qs⟩⟩
    · simp
    · simpa using hpacked
    · simp
  · simpa using hbare
  · simp

/-- `Agree` for the names alone. -/
theorem agree_iff_names (dir : SourcesDir) (destVolume machine : List Char)
    (iso : Option (List Char)) :
    Agree py dir destVolume machine iso ↔
      let accepted := (preflightSources py dir (some machine) iso).image
      let staged := if dir.isDir = true then
          (resolveMachineAlias machine).bind fun m => (stageIso py dir m iso none).toOption
        else none
      let installed := (resolveMachineAlias machine).bind fun m =>
        match iso with
        | some iso => some iso
        | none => if dir.path = [] then none else autoDetect dir m
      staged = accepted ∧ installed = accepted ∧
        ∀ name ∈ staged, dir.isFile (name ++ ".lha".toList) = true ∨ dir.isFile name = true := by
  unfold Agree
  dsimp only
  rw [toOption_stageSource, toOption_runSource]
  cases resolveMachineAlias machine with
  | none => simp
  | some m =>
    cases dir.isDir with
    | false => simp
    | true =>
      simp only [if_true, Option.bind_some]
      cases (stageIso py dir m iso none).toOption with
      | none => simp only [Option.map_none, Option.not_mem_none, false_imp_iff, forall_true_iff]
      | some name =>
        simp only [Option.map_some, Option.mem_some_iff, forall_eq', isFile_stagedItem]

/-- A machine that is known, and no name. -/
theorem auto_iff {dir : SourcesDir} (hdir : dir.isDir = true) (m : Machine) :
    (autoDetect dir m = proposal dir m ∧
      (if dir.path = [] then none else autoDetect dir m) = proposal dir m ∧
      ∀ name ∈ autoDetect dir m,
        dir.isFile (name ++ ".lha".toList) = true ∨ dir.isFile name = true) ↔
      OneImage dir m none := by
  have hfile : ∀ name ∈ bareImages dir m, dir.isFile name = true :=
    fun name h => isFile_of_bareImages h
  unfold OneImage autoDetect proposal
  rw [if_pos hdir, forall_prop_of_true hdir]
  generalize bareImages dir m = bare at hfile ⊢
  rcases bare with _ | ⟨a, _ | ⟨b, bs⟩⟩
  · rcases packedImages dir m with _ | ⟨p, _ | ⟨q, qs⟩⟩
    · simp
    · simp
    · simp
  · have ha : dir.isFile a = true := hfile a (List.mem_singleton_self a)
    simp [ha]
  · rcases packedImages dir m with _ | ⟨p, _ | ⟨q, qs⟩⟩
    · simp
    · simp
    · simp

/-- A machine that is known, and a name. -/
theorem given_iff {dir : SourcesDir} (hdir : dir.isDir = true) {iso : List Char} (hiso : iso ≠ [])
    (m : Machine) :
    let accepted := if (detectMachineFromIso iso).map Prod.fst = some m ∧
      dir.exists_ iso = true then
        some iso
      else none
    let staged := if dir.isFile (iso ++ ".lha".toList) = true ∨ dir.isFile iso = true then some iso
      else none
    (staged = accepted ∧ some iso = accepted ∧
      ∀ name ∈ staged, dir.isFile (name ++ ".lha".toList) = true ∨ dir.isFile name = true) ↔
      OneImage dir m (some iso) := by
  unfold OneImage
  dsimp only
  by_cases hknown : (detectMachineFromIso iso).map Prod.fst = some m ∧ dir.exists_ iso = true
  · by_cases hfile : dir.isFile (iso ++ ".lha".toList) = true ∨ dir.isFile iso = true
    · rw [if_pos hknown, if_pos hfile]
      refine ⟨fun _ => ⟨hiso, hdir, hknown.1, hknown.2, hfile⟩, fun _ => ⟨rfl, rfl, ?_⟩⟩
      rintro name ⟨rfl⟩
      exact hfile
    · rw [if_pos hknown, if_neg hfile]
      constructor
      · rintro ⟨hnone, -⟩
        exact absurd hnone (Option.some_ne_none iso).symm
      · rintro ⟨-, -, -, -, h⟩
        exact absurd h hfile
  · rw [if_neg hknown]
    constructor
    · rintro ⟨-, hnone, -⟩
      exact absurd hnone (Option.some_ne_none iso)
    · rintro ⟨-, -, hdetect, hexists, -⟩
      exact absurd ⟨hdetect, hexists⟩ hknown

theorem noImage_iff {dir : SourcesDir} (hdir : dir.isDir = true) (m : Machine)
    (iso : Option (List Char)) :
    (none = if (isoResolved py dir (scanSources dir) m iso).2.status = .ok then
      (isoResolved py dir (scanSources dir) m iso).1 else none) ↔ NoImage dir m iso := by
  have hproposal : none = proposal dir m ↔ NoImage dir m none := by
    unfold NoImage proposal
    rcases bareImages dir m with _ | ⟨a, _ | ⟨b, bs⟩⟩
    · rcases packedImages dir m with _ | ⟨p, _ | ⟨q, qs⟩⟩ <;> simp
    · simp
    · simp
  cases iso with
  | none =>
    rw [isoResolved_auto py hdir m (Or.inl rfl)]
    exact hproposal
  | some iso =>
    cases iso with
    | nil =>
      rw [isoResolved_auto py hdir m (Or.inr rfl)]
      exact hproposal
    | cons c cs =>
      rw [isoResolved_given py dir _ m (List.cons_ne_nil c cs), eq_comm, ite_eq_right_iff]
      exact forall_congr' fun _ => iff_false_intro (Option.some_ne_none _)

/-- The three come to one image, or to none, exactly when the directory and the name that
is given decide it. -/
theorem agree_iff (dir : SourcesDir) (destVolume machine : List Char) (iso : Option (List Char)) :
    Agree py dir destVolume machine iso ↔ Decided dir machine iso := by
  rw [agree_iff_names, image_preflight]
  unfold Decided
  dsimp only
  by_cases hmachine : machine = []
  · subst hmachine
    have hnone : resolveMachineAlias [] = none := rfl
    rw [if_pos rfl, machineKnown_empty, hnone]
    have hdetected : dir.isDir = false → (scanSources dir).detectedMachine = none := by
      intro hdir
      rw [scanSources, if_neg (by rw [hdir]; decide)]
    cases hdir : dir.isDir with
    | false => simp [hdetected hdir]
    | true =>
      cases (scanSources dir).detectedMachine with
      | none => simp
      | some m =>
        simp only [Option.bind_none, Option.bind_some, Option.some.injEq, forall_eq', if_true]
        rw [← noImage_iff py hdir]
        simp
  · rw [if_neg hmachine, machineKnown_some py _ hmachine]
    cases hm : resolveMachineAlias machine with
    | none => simp
    | some m =>
      simp only [Option.bind_some, Option.some.injEq, forall_eq']
      cases iso with
      | none =>
        cases hdir : dir.isDir with
        | false => simp [OneImage, autoDetect, hdir]
        | true =>
          rw [if_pos rfl, if_pos rfl, toOption_stageIso_none py hdir,
            isoResolved_auto py hdir m (Or.inl rfl)]
          exact auto_iff hdir m
      | some iso =>
        cases hdir : dir.isDir with
        | false => simp [OneImage, hdir]
        | true =>
          rw [if_pos rfl, if_pos rfl, toOption_stageIso_some]
          by_cases hiso : iso = []
          · subst hiso
            rw [isoResolved_auto py hdir m (Or.inr rfl)]
            constructor
            · rintro ⟨-, hinstalled, -⟩
              exact absurd hinstalled.symm (proposal_ne_empty dir m)
            · rintro ⟨hne, -⟩
              exact absurd rfl hne
          · rw [isoResolved_given py dir _ m hiso]
            exact given_iff hdir hiso m

/-- A directory of the host with these files. -/
def sampleSources (names : List (List Char)) : SourcesDir where
  path := "/srv/sources".toList
  resolved := "/srv/sources".toList
  isDir := true
  entries := names
  isFile name := names.contains name
  exists_ name := names.contains name
  exists_of_isFile _ h := h
  isFileAt _ := false

/-- Two bare images, one of them packed as well: preflight asks for a name, staging and the
run take the packed one. -/
theorem packed_among_two : ¬Agree samplePy
    (sampleSources ["AmigaOneX5000InstallCD-53.58.iso".toList,
      "AmigaOneX5000InstallCD-53.71.iso".toList,
      "AmigaOneX5000InstallCD-53.71.iso.lha".toList]) "DH1:".toList "X5000".toList none := by
  rintro ⟨hstaged, -⟩
  have hpreflight :
    (preflightSources samplePy (sampleSources ["AmigaOneX5000InstallCD-53.58.iso".toList,
      "AmigaOneX5000InstallCD-53.71.iso".toList, "AmigaOneX5000InstallCD-53.71.iso.lha".toList])
      (some "X5000".toList) none).image = none := by
    decide +kernel
  rw [hpreflight] at hstaged
  exact absurd hstaged (by decide +kernel)

end AmigaFleet.Host.Installer
