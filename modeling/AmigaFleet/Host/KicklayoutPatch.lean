import AmigaFleet.Host.InstallRun
import AmigaFleet.Host.KicklayoutModules
import Mathlib.Data.List.SplitLengths

/-!
# Patching the kicklayout file

`installer_patch_kicklayout` reads the bytes of the file, edits them as a text
and writes the text back.  The reader puts U+FFFD for a byte above 127, and the
writer raises on it.

* `inOrder_patched`: the lines of the text are there after any number of edits.
* `patchPreserves_iff`: when a patch keeps the bytes of every line and does not
  fail in the encoder.
-/

namespace AmigaFleet.Host.Installer

open AmigaFleet.Lib PyStr
open AmigaFleet.Mcpd (ascii)
open AmigaFleet.Host.Kicklayout

/-! ## Several edits -/

/-- The text after the edits of a list of patches. -/
def patched (alnum : Char → Bool) (text : List Char) (patches : List ModulesPatch) : List Char :=
  patches.foldl (fun before p => addModules alnum before p.modules p.label) text

theorem applyPatches_eq (alnum : Char → Bool) (text : List Char) (patches : List ModulesPatch) :
    (applyPatches alnum text patches []).1 = patched alnum text patches ∧
      (applyPatches alnum text patches []).2.changed =
        decide (patched alnum text patches ≠ text) := by
  have hfold : ∀ (ps : List ModulesPatch) (acc : List Char × Summary),
      (ps.foldl (applyModulesPatch alnum) acc).1 = patched alnum acc.1 ps := by
    intro ps
    induction ps with
    | nil => exact fun acc => rfl
    | cons p ps ih =>
      intro acc
      have hstep : (applyModulesPatch alnum acc p).1 =
          addModules alnum acc.1 p.modules p.label := by
        dsimp only [applyModulesPatch]
        split
        · rfl
        · rfl
      rw [List.foldl_cons, ih, hstep]
      rfl
  have htext : (applyPatches alnum text patches []).1 = patched alnum text patches :=
    hfold patches (text, {})
  refine ⟨htext, ?_⟩
  rw [← htext]
  rfl

/-- A text of printable ASCII. -/
def Printable (s : List Char) : Prop := ∀ c ∈ s, 32 ≤ c.toNat ∧ c.toNat < 127

theorem printable_of_all {s : List Char}
    (h : (s.all fun c => 32 ≤ c.toNat && c.toNat < 127) = true) : Printable s := by
  intro c hc
  simpa using List.all_eq_true.mp h c hc

theorem Printable.unbroken {s : List Char} (h : Printable s) : Unbroken s := by
  intro c hc
  obtain ⟨hlow, hhigh⟩ := h c hc
  simp only [isLineBreak, decide_eq_false_iff_not]
  omega

section

variable {alnum : Char → Bool} {text : List Char} {modules : List (List Char)} {label : List Char}
  {patches : List ModulesPatch}

theorem prefixes_reread (block : List (List Char)) :
    List.SublistForall₂ (· <+: ·) block (reread alnum modules label block) := by
  rcases reread_cases alnum modules label block with
    hreread | ⟨front, last, rfl, -, -, -, hreread⟩
  · rw [hreread]
    conv => arg 2; rw [← List.append_nil block]
    exact prefixes_append (prefixes_refl block) .nil
  · rw [hreread]
    exact prefixes_append (prefixes_refl front) (.cons (List.prefix_append _ _) .nil)

/-- Every line of the text begins a line of the result. -/
theorem prefixes_addModules (alnum : Char → Bool) (hmodules : ∀ m ∈ modules, Unbroken m)
    (hlabel : Unbroken label) (text : List Char) :
    List.SublistForall₂ (· <+: ·) (splitLines text)
      (splitLines (addModules alnum text modules label)) := by
  by_cases hne : modules = []
  · rw [addModules, if_pos hne]
    exact prefixes_refl _
  · rw [lines_addModules hmodules hlabel hne]
    exact rel_mapBlocks .nil (fun _ => prefixes_refl _) prefixes_append fun block _ =>
      prefixes_reread block

theorem prefixes_patched (alnum : Char → Bool)
    (hpatches : ∀ p ∈ patches, (∀ m ∈ p.modules, Printable m) ∧ Printable p.label)
    (text : List Char) :
    List.SublistForall₂ (· <+: ·) (splitLines text) (splitLines (patched alnum text patches)) := by
  induction patches generalizing text with
  | nil => exact prefixes_refl _
  | cons p patches ih =>
    obtain ⟨⟨hmodules, hlabel⟩, hrest⟩ := List.forall_mem_cons.mp hpatches
    have hfirst := prefixes_addModules alnum (fun m hm => (hmodules m hm).unbroken)
      hlabel.unbroken text
    have htrans : IsTrans (List Char) (· <+: ·) := ⟨fun _ _ _ => List.IsPrefix.trans⟩
    exact IsTrans.trans _ _ _ hfirst (ih hrest _)

/-- The lines of the text are in the result, in order. -/
theorem inOrder_patched (alnum : Char → Bool)
    (hpatches : ∀ p ∈ patches, (∀ m ∈ p.modules, Printable m) ∧ Printable p.label)
    (text : List Char) : InOrder (splitLines text) (patched alnum text patches) := by
  have hlines := inOrder_of_prefixes (prefixes_patched alnum hpatches text)
  rwa [flatten_splitLines] at hlines

/-- No patch has a module that is missing in a config block of the text. -/
def NothingMissing (alnum : Char → Bool) (text : List Char) (patches : List ModulesPatch) : Prop :=
  ∀ p ∈ patches, ∀ block ∈ blocks isBlank [] (splitLines text), blockIsConfig block = true →
    ∀ m ∈ p.modules, blockHasModule alnum block m = true

theorem addModules_eq_self_iff : addModules alnum text modules label = text ↔
    ∀ block ∈ blocks isBlank [] (splitLines text), blockIsConfig block = true →
      ∀ m ∈ modules, blockHasModule alnum block m = true := by
  rw [addModules_eq_self]
  refine forall₂_congr fun block _ => ?_
  rw [← not_iff_not, ← Ne, addition_ne_nil, missing_ne_nil]
  simp only [Classical.not_imp, not_forall, Bool.not_eq_true]

/-- The edits change the text exactly if some module is missing. -/
theorem patched_eq_self
    (hpatches : ∀ p ∈ patches, (∀ m ∈ p.modules, Printable m) ∧ Printable p.label)
    (text : List Char) : patched alnum text patches = text ↔ NothingMissing alnum text patches := by
  have hone : NothingMissing alnum text patches ↔
      ∀ p ∈ patches, addModules alnum text p.modules p.label = text :=
    forall₂_congr fun p _ => addModules_eq_self_iff.symm
  rw [hone]
  induction patches with
  | nil => simp [patched]
  | cons p patches ih =>
    obtain ⟨⟨hmodules, hlabel⟩, hrest⟩ := List.forall_mem_cons.mp hpatches
    rw [List.forall_mem_cons]
    constructor
    · intro hsame
      -- a text that has grown does not shrink again
      have hgrow := (inOrder_of_prefixes (prefixes_addModules alnum
        (fun m hm => (hmodules m hm).unbroken) hlabel.unbroken text)).sublist
      have hlater := (inOrder_patched alnum hrest
        (addModules alnum text p.modules p.label)).sublist
      rw [flatten_splitLines, flatten_splitLines] at hgrow
      rw [flatten_splitLines] at hlater
      have hfirst : addModules alnum text p.modules p.label = text := by
        refine (hgrow.eq_of_length_le ?_).symm
        have hle := hlater.length_le
        rwa [show patched alnum (addModules alnum text p.modules p.label) patches = text from hsame]
          at hle
      refine ⟨hfirst, (ih hrest (forall₂_congr fun p _ => addModules_eq_self_iff.symm)).mp ?_⟩
      rw [patched, List.foldl_cons, hfirst] at hsame
      exact hsame
    · rintro ⟨hfirst, hlater⟩
      rw [patched, List.foldl_cons, hfirst]
      exact (ih hrest (forall₂_congr fun p _ => addModules_eq_self_iff.symm)).mpr hlater

theorem Printable.ascii {s : List Char} (h : Printable s) : ∀ c ∈ s, c.toNat < 128 :=
  fun c hc => Nat.lt_of_lt_of_le (h c hc).2 (by omega)

/-- What is put in is ASCII. -/
theorem ascii_addition (hmodules : ∀ m ∈ modules, Printable m) (hlabel : Printable label)
    {block : List (List Char)} {ln : List Char} (hln : ln ∈ addition alnum modules label block) :
    ∀ c ∈ ln, c.toNat < 128 := by
  have hsign : ∀ c ∈ ";\n".toList, c.toNat < 128 := List.all_iff_forall_prop.mp rfl
  have hkeyword : ∀ c ∈ "MODULE ".toList, c.toNat < 128 := List.all_iff_forall_prop.mp rfl
  have hcomment : ∀ c ∈ "; ".toList, c.toNat < 128 := List.all_iff_forall_prop.mp rfl
  have hnewline : ∀ c ∈ "\n".toList, c.toNat < 128 := List.all_iff_forall_prop.mp rfl
  rcases inserted_of_addition hln with rfl | rfl | ⟨m, hm, rfl⟩
  · exact hsign
  · exact List.forall_mem_append.mpr
      ⟨List.forall_mem_append.mpr ⟨hcomment, hlabel.ascii⟩, hnewline⟩
  · exact List.forall_mem_append.mpr
      ⟨List.forall_mem_append.mpr ⟨hkeyword, (hmodules m hm).ascii⟩, hnewline⟩

theorem ascii_addModules (hmodules : ∀ m ∈ modules, Printable m) (hlabel : Printable label)
    (htext : ∀ c ∈ text, c.toNat < 128) :
    ∀ c ∈ addModules alnum text modules label, c.toNat < 128 := by
  by_cases hne : modules = []
  · rwa [addModules, if_pos hne]
  rw [addModules_eq hne]
  rw [← flatten_splitLines text] at htext
  refine rel_mapBlocks (R := fun l l' : List (List Char) => (∀ c ∈ l.flatten, c.toNat < 128) →
    ∀ c ∈ l'.flatten, c.toNat < 128) (fun h => h) (fun _ h => h) ?_ ?_ htext
  · intro k k' m m' hk hm hboth
    rw [List.flatten_append, List.forall_mem_append] at hboth ⊢
    exact ⟨hk hboth.1, hm hboth.2⟩
  · intro block _ hblock
    rw [flushBlock_eq, List.flatten_append, List.forall_mem_append]
    refine ⟨hblock, fun c hc => ?_⟩
    obtain ⟨ln, hln, hc⟩ := List.mem_flatten.mp hc
    exact ascii_addition hmodules hlabel hln c hc

theorem ascii_patched
    (hpatches : ∀ p ∈ patches, (∀ m ∈ p.modules, Printable m) ∧ Printable p.label)
    (htext : ∀ c ∈ text, c.toNat < 128) : ∀ c ∈ patched alnum text patches, c.toNat < 128 := by
  induction patches generalizing text with
  | nil => exact htext
  | cons p patches ih =>
    obtain ⟨⟨hmodules, hlabel⟩, hrest⟩ := List.forall_mem_cons.mp hpatches
    exact ih hrest (ascii_addModules hmodules hlabel htext)

end

/-! ## The bytes of a text -/

/-- The lines of a file, as bytes. -/
def fileLines (file : Bytes) : List Bytes :=
  ((splitLines (decodeAscii file)).map List.length).splitLengths file

theorem splitLengths_flatten {α : Type} (lines : List (List α)) :
    (lines.map List.length).splitLengths lines.flatten = lines := by
  induction lines with
  | nil => rfl
  | cons ln lines ih => simp [ih]

/-- The lines of an ASCII file are those of its text. -/
theorem fileLines_eq {file : Bytes} (h : ∀ b ∈ file, b < 128) :
    fileLines file = (splitLines (decodeAscii file)).map asciiBytes := by
  have hflat : ((splitLines (decodeAscii file)).map asciiBytes).flatten = file := by
    have hmap : ((splitLines (decodeAscii file)).map asciiBytes).flatten =
        asciiBytes (splitLines (decodeAscii file)).flatten := List.map_flatten.symm
    rw [hmap, flatten_splitLines, asciiBytes_decodeAscii h]
  have hlengths : (splitLines (decodeAscii file)).map List.length =
      ((splitLines (decodeAscii file)).map asciiBytes).map List.length := by
    rw [List.map_map]
    exact List.map_congr_left fun ln _ => (List.length_map _).symm
  have hcut := splitLengths_flatten ((splitLines (decodeAscii file)).map asciiBytes)
  rw [hflat] at hcut
  rw [fileLines, hlengths, hcut]

/-! ## A run -/

/-- The request that reads the file. -/
def readRequest (t : Mcpd) (path : List Char) : Request :=
  ⟨t, "fs.read", [("path", .str path)], none⟩

/-- The request that writes `written` to the file. -/
def writeRequest (t : Mcpd) (path : List Char) (written : Bytes) : Request :=
  ⟨t, "fs.write", [("path", .str path),
    ("content_b64", .str ((Base64.encode written).map fun c => Char.ofNat c.toNat))], some 120⟩

/-- The file is read as it is. -/
def ReadsFile (world : World) (t : Mcpd) (path : List Char) (file : Bytes) : Prop :=
  ∃ raw, world [] (readRequest t path) = .ok raw ∧ (∃ members, raw = .dict members) ∧
    raw.get "content_b64" = some (.str (Base64.encode file))

/-- The error of the encoder is not one of a request. -/
def encodeError : Raised → Prop
  | .exception cls _ => cls = "UnicodeEncodeError"
  | .cancelled => False

/-- A request that does not change the content of the file. -/
def LeavesFile (path : List Char) (r : Request) : Prop :=
  r.method = "fs.read" ∨ r.method = "fs.stat" ∨
    (r.method = "fs.copy" ∧ ∃ src dst, r.params = [("src", src), ("dst", .str dst)] ∧ dst ≠ path) ∨
    (r.method = "exec.cmd" ∧ ∃ setdate timeout, r.params =
      [("command", .str ("SetDate \"".toList ++ path ++ "\" ".toList ++ setdate)), timeout])

/-- Nothing is written but what has the old lines in it, and the encoder does not fail. -/
def PreservesFile (t : Mcpd) (path : List Char) (file : Bytes)
    (out : Except Raised PatchKicklayoutResult × List Event) : Prop :=
  (∀ ev ∈ out.2, LeavesFile path ev.1 ∨
    ∃ written, ev.1 = writeRequest t path written ∧ InOrder (fileLines file) written) ∧
  ∀ e, out.1 = .error e → ¬ encodeError e

/-- A patch preserves the file, whatever the requests behind the read come to. -/
def PatchPreserves (py : PyText) (fleet : Fleet) (target destVolume : List Char) (t : Mcpd)
    (patches : List ModulesPatch) (backupSuffix : Option (List Char)) (file : Bytes) : Prop :=
  ∀ world : World, ReadsFile world t (kicklayoutPath destVolume) file →
    (∀ h r e, world h r = .error e → ¬ encodeError e) →
    PreservesFile t (kicklayoutPath destVolume) file
      (Prog.exec world (installerPatchKicklayout py fleet target destVolume patches [] true
        backupSuffix) [])

/-- What the patch does once it has the file. -/
def patchFile (py : PyText) (fleet : Fleet) (target destVolume : List Char)
    (patches : List ModulesPatch) (backupSuffix : Option (List Char)) (file : Bytes) :
    Install PatchKicklayoutResult := do
  let (newText, summary) := applyPatches py.alnum (decodeAscii file) patches []
  if summary.changed then
    let t ← liftExcept (fleet.mcpd target)
    let origMtime ← tryExcept (do
      let s ← pathRequest t "fs.stat" (kicklayoutPath destVolume) (some 10)
      pure (modifiedOf s)) fun _ _ => pure .null
    let wr ← installerWriteKicklayout py fleet target (normalizeVolume destVolume) newText true
      backupSuffix
    restoreDate py t (kicklayoutPath destVolume) origMtime
    pure {
      target := target, destVolume := normalizeVolume destVolume, path := kicklayoutPath destVolume
      changed := true
      modulesAdded := summary.modulesAdded, labelsApplied := summary.labelsApplied
      replacementsDone := summary.replacementsDone, replacements := summary.replacements
      bytesWritten := wr.bytesWritten, backupPath := wr.backupPath }
  else
    pure { target := target, destVolume := normalizeVolume destVolume,
           path := kicklayoutPath destVolume, changed := false }

theorem normalizeVolume_of {v : List Char} (hstrip : strip v = v) (hlast : v.getLast? = some ':') :
    normalizeVolume v = v := by
  unfold normalizeVolume
  rw [hstrip]
  simp [hlast]

/-- The volume is normalized a second time by the writer. -/
theorem normalizeVolume_idem (vol : List Char) :
    normalizeVolume (normalizeVolume vol) = normalizeVolume vol := by
  obtain ⟨w, hhead, hw⟩ : ∃ w, (∀ c, w.head? = some c → isSpace c = false) ∧
      normalizeVolume vol = if w.getLast? = some ':' then w else w ++ [':'] := by
    refine ⟨if (strip vol).getLast? = some '/' then (strip vol).dropLast else strip vol, ?_, rfl⟩
    split
    · intro c hc
      obtain ⟨rest, hrest⟩ := List.dropLast_prefix (strip vol)
      refine head_strip (s := vol) ?_
      rw [← hrest, List.head?_append, hc]
      rfl
    · exact fun c hc => head_strip hc
  have hlast : (normalizeVolume vol).getLast? = some ':' := by
    rw [hw]
    split
    · assumption
    · rw [List.getLast?_concat]
  refine normalizeVolume_of (strip_eq_self ?_ fun c hc => ?_) hlast
  · rw [hw]
    split
    · exact hhead
    · intro c hc
      cases w with
      | nil =>
        cases hc
        rfl
      | cons d w => exact hhead c hc
  · rw [hlast] at hc
    cases hc
    rfl

section

variable {py : PyText} {fleet : Fleet} {target destVolume : List Char} {t : Mcpd}
  {patches : List ModulesPatch} {backupSuffix : Option (List Char)} {file : Bytes} {world : World}

theorem exec_read (ht : fleet.mcpd target = .ok t) {raw : Json}
    (hread : world [] (readRequest t (kicklayoutPath destVolume)) = .ok raw)
    (hdict : ∃ members, raw = .dict members)
    (hcontent : raw.get "content_b64" = some (.str (Base64.encode file))) :
    Prog.exec world (installerReadKicklayout py fleet target destVolume) [] =
      (.ok ⟨target, normalizeVolume destVolume, kicklayoutPath destVolume, decodeAscii file,
        (decodeAscii file).length⟩, [(readRequest t (kicklayoutPath destVolume), .ok raw)]) := by
  obtain ⟨members, rfl⟩ := hdict
  simp only [installerReadKicklayout, ht, liftExcept, pathRequest, request, send, Prog.pure_bind,
    Prog.call_bind, Prog.exec]
  rw [show world [] ⟨t, "fs.read", [("path", .str (kicklayoutPath destVolume))], none⟩
    = _ from hread]
  simp only [Prog.pure_bind, getItem, hcontent, Option.getD_some, decodeB64_encode,
    Prog.exec_return]
  rfl

theorem exec_patch (ht : fleet.mcpd target = .ok t) {raw : Json}
    (hread : world [] (readRequest t (kicklayoutPath destVolume)) = .ok raw)
    (hdict : ∃ members, raw = .dict members)
    (hcontent : raw.get "content_b64" = some (.str (Base64.encode file))) :
    Prog.exec world (installerPatchKicklayout py fleet target destVolume patches [] true
        backupSuffix) [] =
      ((Prog.exec world (patchFile py fleet target destVolume patches backupSuffix file)
          [(readRequest t (kicklayoutPath destVolume), .ok raw)]).1,
        (readRequest t (kicklayoutPath destVolume), .ok raw) ::
          (Prog.exec world (patchFile py fleet target destVolume patches backupSuffix file)
            [(readRequest t (kicklayoutPath destVolume), .ok raw)]).2) :=
  Prog.exec_bind_ok (f := fun _ => _) (exec_read ht hread hdict hcontent)

/-- What a run asks. -/
def Allowed (t : Mcpd) (path : List Char) (file : Bytes) (r : Request) : Prop :=
  LeavesFile path r ∨ ∃ written, r = writeRequest t path written ∧ InOrder (fileLines file) written

theorem makes_stat (path : List Char) (timeoutS : Option Nat) :
    (pathRequest t "fs.stat" path timeoutS).Makes (Allowed t path file) :=
  makes_send (Or.inl (Or.inr (Or.inl rfl)))

theorem makes_backUp_allowed (path : List Char) (suffix : Option (List Char)) :
    (backUp t path suffix).Makes (Allowed t path file) := by
  unfold backUp
  split
  · exact Prog.makes_return none
  · exact Prog.makes_return none
  · rename_i suffix hne
    refine makes_tryExcept ((makes_stat path none).bind fun _ => Prog.Makes.bind ?_ fun _ =>
      Prog.makes_return _) fun _ _ => Prog.makes_return none
    refine makes_send (Or.inl (Or.inr (Or.inr (Or.inl ⟨rfl, _, _, rfl, ?_⟩))))
    intro heq
    exact hne (by simpa using heq)

theorem makes_write_allowed (ht : fleet.mcpd target = .ok t) {newText : List Char}
    (hlines : (∀ c ∈ newText, c.toNat < 128) → InOrder (fileLines file) (asciiBytes newText)) :
    (installerWriteKicklayout py fleet target (normalizeVolume destVolume) newText true
      backupSuffix).Makes (Allowed t (kicklayoutPath destVolume) file) := by
  have hpath : kicklayoutPath (normalizeVolume destVolume) = kicklayoutPath destVolume := by
    rw [kicklayoutPath, normalizeVolume_idem, ← kicklayoutPath]
  unfold installerWriteKicklayout
  simp only [hpath, ht, liftExcept, Prog.pure_bind]
  refine (makes_requireConfirm _ _).bind fun _ => ?_
  refine (makes_backUp_allowed (kicklayoutPath destVolume) backupSuffix).bind fun _ => ?_
  unfold encodeAscii
  split
  · rename_i hall
    rw [Prog.return_bind]
    refine Prog.Makes.bind (makes_send (Or.inr ⟨asciiBytes newText, rfl, ?_⟩)) fun _ =>
      Prog.makes_return _
    exact hlines fun c hc => of_decide_eq_true (List.all_eq_true.mp hall c hc)
  · exact makes_raisePy _ _

theorem makes_restore_allowed (path : List Char) (origMtime : Json) :
    (restoreDate py t path origMtime).Makes (Allowed t path file) := by
  unfold restoreDate
  split
  · split
    · split
      · exact makes_guarded (makes_send (Or.inl (Or.inr (Or.inr (Or.inr ⟨rfl, _, _, rfl⟩)))))
      · exact Prog.makes_return ()
    · exact makes_raisePy _ _
  · exact Prog.makes_return ()

theorem makes_patchFile (ht : fleet.mcpd target = .ok t)
    (hlines : (∀ c ∈ patched py.alnum (decodeAscii file) patches, c.toNat < 128) →
      InOrder (fileLines file) (asciiBytes (patched py.alnum (decodeAscii file) patches))) :
    (patchFile py fleet target destVolume patches backupSuffix file).Makes
      (Allowed t (kicklayoutPath destVolume) file) := by
  rw [← (applyPatches_eq py.alnum (decodeAscii file) patches).1] at hlines
  unfold patchFile
  split
  rename_i newText summary heq
  rw [heq] at hlines
  split
  · rw [ht]
    exact (makes_tryExcept ((makes_stat _ _).bind fun _ => Prog.makes_return _) fun _ _ =>
      Prog.makes_return _).bind fun value => (makes_write_allowed ht hlines).bind fun _ =>
        (makes_restore_allowed _ value).bind fun _ => Prog.makes_return _
  · exact Prog.makes_return _

/-! ## The exceptions of a run -/

/-- An exception that does not come from the encoder. -/
def Other (e : Raised) : Prop := ¬ encodeError e

theorem raises_send (hworld : ∀ h r e, world h r = .error e → Other e) (r : Request) :
    (send r).Raises world Other := by
  intro h e heq
  simp only [send, Prog.exec] at heq
  cases hans : world h r with
  | error e' =>
    rw [hans] at heq
    cases heq
    exact hworld h r e hans
  | ok raw =>
    rw [hans] at heq
    cases heq

theorem raises_tryExcept {β : Type} {p : Install β} {f : String → List Char → Install β}
    (hp : p.Raises world Other) (hf : ∀ cls message, (f cls message).Raises world Other) :
    (tryExcept p f).Raises world Other := by
  refine hp.attempt_bind (fun b => Prog.raises_return b) ?_
  rintro (⟨cls, message⟩ | _) he
  · exact hf cls message
  · exact Prog.raises_raise he

theorem raises_backUp (hworld : ∀ h r e, world h r = .error e → Other e) (path : List Char)
    (suffix : Option (List Char)) : (backUp t path suffix).Raises world Other := by
  unfold backUp
  split
  · exact Prog.raises_return none
  · exact Prog.raises_return none
  · exact raises_tryExcept ((raises_send hworld _).bind fun _ => (raises_send hworld _).bind fun _ =>
      Prog.raises_return _) fun _ _ => Prog.raises_return none

theorem raises_restoreDate (hworld : ∀ h r e, world h r = .error e → Other e) (path : List Char)
    (origMtime : Json) : (restoreDate py t path origMtime).Raises world Other := by
  unfold restoreDate
  split
  · split
    · split
      · exact raises_tryExcept ((raises_send hworld _).bind fun _ => Prog.raises_return ())
          fun _ _ => Prog.raises_return ()
      · exact Prog.raises_return ()
    · exact Prog.raises_raise (by simp [Other, encodeError])
  · exact Prog.raises_return ()

/-- A patch whose text is ASCII, or that changes nothing, does not fail in the encoder. -/
theorem raises_patchFile (ht : fleet.mcpd target = .ok t)
    (hworld : ∀ h r e, world h r = .error e → Other e)
    (hfine : patched py.alnum (decodeAscii file) patches = decodeAscii file ∨
      ∀ c ∈ patched py.alnum (decodeAscii file) patches, c.toNat < 128) :
    (patchFile py fleet target destVolume patches backupSuffix file).Raises world Other := by
  have happly := applyPatches_eq py.alnum (decodeAscii file) patches
  rw [← happly.1] at hfine
  unfold patchFile
  split
  rename_i newText summary heq
  rw [heq] at hfine happly
  split
  · rename_i hchanged
    have hne : newText ≠ decodeAscii file := by
      rw [show newText = _ from happly.1]
      exact of_decide_eq_true (happly.2 ▸ hchanged)
    have hascii : newText.all (·.toNat < 128) = true :=
      List.all_eq_true.mpr fun c hc => decide_eq_true (hfine.resolve_left hne c hc)
    rw [ht]
    refine (raises_tryExcept ((raises_send hworld _).bind fun _ => Prog.raises_return _) fun _ _ =>
      Prog.raises_return _).bind fun value => Prog.Raises.bind ?_ fun _ =>
        (raises_restoreDate hworld _ value).bind fun _ => Prog.raises_return _
    simp only [installerWriteKicklayout, ht, liftExcept, requireConfirm, if_true,
      encodeAscii, hascii,
      Prog.pure_bind, Prog.return_bind]
    exact (raises_backUp hworld _ backupSuffix).bind fun _ => (raises_send hworld _).bind fun _ =>
      Prog.raises_return _
  · exact Prog.raises_return _

/-! ## When the file is preserved -/

/-- A world in which every request is answered, the read with the file. -/
def answering (file : Bytes) : World := fun _ r =>
  .ok (if r.method = "fs.read" then .dict [(ascii "content_b64", .str (Base64.encode file))]
    else .null)

theorem exec_answering (ht : fleet.mcpd target = .ok t)
    (hchanged : patched py.alnum (decodeAscii file) patches ≠ decodeAscii file)
    (hascii : ¬ ∀ c ∈ patched py.alnum (decodeAscii file) patches, c.toNat < 128)
    (h : List Event) :
    (Prog.exec (answering file)
      (patchFile py fleet target destVolume patches backupSuffix file) h).1 =
        .error (.exception "UnicodeEncodeError" (py.message "UnicodeEncodeError" .null)) := by
  have happly := applyPatches_eq py.alnum (decodeAscii file) patches
  have hencode : encodeAscii py (patched py.alnum (decodeAscii file) patches) =
      raisePy py "UnicodeEncodeError" .null := by
    rw [encodeAscii, if_neg]
    intro hall
    exact hascii fun c hc => of_decide_eq_true (List.all_eq_true.mp hall c hc)
  have hback : ∀ path h, ∃ b es, Prog.exec (answering file) (backUp t path backupSuffix) h =
      (.ok b, es) := by
    intro path h
    unfold backUp
    split
    · exact ⟨_, _, rfl⟩
    · exact ⟨_, _, rfl⟩
    · exact ⟨_, _, rfl⟩
  have hwrite : ∀ h, (Prog.exec (answering file) (installerWriteKicklayout py fleet target
      (normalizeVolume destVolume) (patched py.alnum (decodeAscii file) patches) true
        backupSuffix) h).1 =
      .error (.exception "UnicodeEncodeError" (py.message "UnicodeEncodeError" .null)) := by
    intro h
    obtain ⟨b, es, hrun⟩ := hback (kicklayoutPath (normalizeVolume destVolume)) h
    simp only [installerWriteKicklayout, requireConfirm, if_true, ht, liftExcept, Prog.pure_bind,
      Prog.return_bind, hencode]
    rw [Prog.exec_bind_ok hrun]
    rfl
  unfold patchFile
  split
  rename_i newText summary heq
  rw [heq] at happly
  rw [if_pos (happly.2.trans (decide_eq_true hchanged)), ht, show newText = _ from happly.1]
  obtain ⟨es, hstat⟩ : ∃ es, Prog.exec (answering file) (tryExcept (do
      let s ← pathRequest t "fs.stat" (kicklayoutPath destVolume) (some 10)
      pure (modifiedOf s)) fun _ _ => pure Json.null) h = (.ok .null, es) := ⟨_, rfl⟩
  rw [liftExcept, Prog.pure_bind, Prog.exec_bind_ok hstat,
    Prog.exec_bind_error (Prod.ext (hwrite _) rfl)]

/-- A patch preserves the file exactly if the file is ASCII or nothing is missing. -/
theorem patchPreserves_iff (py : PyText) (fleet : Fleet) (target destVolume : List Char) (t : Mcpd)
    (patches : List ModulesPatch) (backupSuffix : Option (List Char)) (file : Bytes)
    (ht : fleet.mcpd target = .ok t)
    (hpatches : ∀ p ∈ patches, (∀ m ∈ p.modules, Printable m) ∧ Printable p.label) :
    PatchPreserves py fleet target destVolume t patches backupSuffix file ↔
      (∀ b ∈ file, b < 128) ∨ NothingMissing py.alnum (decodeAscii file) patches := by
  rw [← patched_eq_self hpatches, ← ascii_decodeAscii]
  have hlines := inOrder_patched py.alnum hpatches (decodeAscii file)
  have hsub := hlines.sublist
  rw [flatten_splitLines] at hsub
  constructor
  · intro hpreserves
    by_contra hneither
    push Not at hneither
    obtain ⟨⟨c, hc, hlarge⟩, hchanged⟩ := hneither
    obtain ⟨-, hfails⟩ := hpreserves (answering file) ⟨_, rfl, ⟨_, rfl⟩, rfl⟩
      (fun h r e heq => by cases heq)
    rw [exec_patch ht rfl ⟨_, rfl⟩ rfl] at hfails
    refine hfails _ (exec_answering ht hchanged (fun hall => ?_) _) rfl
    exact absurd (hall c (hsub.mem hc)) (by omega)
  · rintro hfine world ⟨raw, hread, hdict, hcontent⟩ hworld
    rw [exec_patch ht hread hdict hcontent]
    refine ⟨List.forall_mem_cons.mpr ⟨Or.inl (Or.inl rfl), fun ev hev => ?_⟩, fun e he => ?_⟩
    · refine (makes_patchFile ht fun hall => ?_).events _ ev hev
      have hfile : ∀ b ∈ file, b < 128 := ascii_decodeAscii.mp fun c hc => hall c (hsub.mem hc)
      rw [fileLines_eq hfile]
      exact hlines.map _
    · exact raises_patchFile ht hworld (hfine.symm.imp_right (ascii_patched hpatches)) _ e he

end

/-- The bytes of `; caf` and 233, and a block without the module. -/
def latinFile : Bytes := [59, 32, 99, 97, 102, 233, 10, 10, 76, 65, 66, 69, 76, 10]

def samplePatches : List ModulesPatch := [⟨["b.kmod".toList], "L".toList⟩]

theorem samplePatches_printable :
    ∀ p ∈ samplePatches, (∀ m ∈ p.modules, Printable m) ∧ Printable p.label := by
  have hmodule : Printable "b.kmod".toList := printable_of_all rfl
  have hlabel : Printable "L".toList := printable_of_all rfl
  intro p hp
  rw [List.mem_singleton.mp hp]
  exact ⟨fun m hm => by rwa [List.mem_singleton.mp hm], hlabel⟩

/-- An ASCII file. -/
theorem ascii_file_preserved :
    PatchPreserves samplePy ⟨fun _ => .ok 0⟩ "x5000".toList "DH0:".toList 0 samplePatches none
      [76, 65, 66, 69, 76, 10] :=
  (patchPreserves_iff samplePy ⟨fun _ => .ok 0⟩ "x5000".toList "DH0:".toList 0 samplePatches none
    [76, 65, 66, 69, 76, 10] rfl samplePatches_printable).mpr (Or.inl (by simp))

/-- A comment with a byte above 127 in another block: the patch raises. -/
theorem latin_comment_fails :
    ¬ PatchPreserves samplePy ⟨fun _ => .ok 0⟩ "x5000".toList "DH0:".toList 0 samplePatches none
      latinFile := by
  intro hpreserves
  obtain ⟨-, hfails⟩ := hpreserves (answering latinFile) ⟨_, rfl, ⟨_, rfl⟩, rfl⟩
    (fun h r e heq => by cases heq)
  have hchanged : patched samplePy.alnum (decodeAscii latinFile) samplePatches ≠
      decodeAscii latinFile := by decide +kernel
  have hreplaced : Char.ofNat 0xFFFD ∈ patched samplePy.alnum (decodeAscii latinFile)
      samplePatches := by decide +kernel
  have hlarge : ¬ ∀ c ∈ patched samplePy.alnum (decodeAscii latinFile) samplePatches,
      c.toNat < 128 := fun hall => absurd (hall _ hreplaced) (by decide)
  rw [exec_patch rfl rfl ⟨_, rfl⟩ rfl] at hfails
  exact hfails _ (exec_answering rfl hchanged hlarge _) rfl

end AmigaFleet.Host.Installer
