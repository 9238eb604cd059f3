import Mathlib.Data.Bool.AllAny
import AmigaFleet.Host.PyStr

/-!
# Destination volumes of the installer

The check `dest_not_system` of `installer_preflight` and the normalisation in
`installer_run`, of `tools/installer.py`.  They bring the destination into
shape in two ways: the check leaves a destination with a colon in it alone and
keeps a trailing slash, the run drops the slash and appends a colon.

AmigaDOS takes what stands before the first colon of a path for its volume.  So
the run writes to the running system where the check has let through a system
volume's name with a slash behind it, or with a colon and a path: `Evades`.
-/

namespace AmigaFleet.Host.Installer

open AmigaFleet.Host.PyStr

/-! ## The check -/

/-- `_normalize_dest` -/
def normalizeDest (dest : List Char) : List Char :=
  let d := strip dest
  if d.getLast? ≠ some ':' ∧ ':' ∉ d then d ++ [':'] else d

/-- The names that `_is_system_volume` compares with, without their colons. -/
def systemNames : List (List Char) :=
  ["SYS".toList, "AMIGAOS".toList, "WORKBENCH".toList, "SYSTEM".toList]

/-- `_is_system_volume` -/
def isSystemVolume (dest : List Char) : Bool :=
  upper (normalizeDest dest) ∈ systemNames.map (· ++ [':'])

inductive Status where
  | ok
  | warn
  | fail
deriving DecidableEq, Repr

structure PreflightCheck where
  name : List Char
  status : Status
  detail : List Char
deriving DecidableEq, Repr

/-- The check `dest_not_system` of `installer_preflight`. -/
def destNotSystem (repr : List Char → List Char) (destVolume : List Char) : PreflightCheck :=
  let destNorm := normalizeDest destVolume
  if isSystemVolume destNorm then
    ⟨"dest_not_system".toList, .fail, "dest_volume ".toList ++ repr destNorm ++
      " is a system volume; install would clobber the running OS".toList⟩
  else ⟨"dest_not_system".toList, .ok, destNorm ++ " is safe to write".toList⟩

/-! ## The run -/

/-- `_normalize_volume`, which makes the `dest_volume` of the install steps. -/
def normalizeVolume (vol : List Char) : List Char :=
  let v := strip vol
  let v := if v.getLast? = some '/' then v.dropLast else v
  if v.getLast? = some ':' then v else v ++ [':']

/-- The volume of a path. -/
def volumeOf (path : List Char) : List Char := path.takeWhile (· ≠ ':')

/-- A system volume; AmigaDOS does not tell capitals from small letters. -/
def IsSystem (name : List Char) : Prop := name.map Char.toUpper ∈ systemNames

instance (name : List Char) : Decidable (IsSystem name) := inferInstanceAs (Decidable (_ ∈ _))

/-- Where the check passes, the run does not write to a system volume. -/
def Guarded (repr : List Char → List Char) (dest : List Char) : Prop :=
  (destNotSystem repr dest).status = .ok → ¬ IsSystem (volumeOf (normalizeVolume dest))

/-- The destination is a system volume's name with a slash, or with a colon and
something behind it. -/
def Evades (dest : List Char) : Prop :=
  ∃ name, IsSystem name ∧
    (strip dest = name ++ ['/'] ∨ ∃ rest, rest ≠ [] ∧ strip dest = name ++ ':' :: rest)

/-! ## Names -/

theorem isSystem_ascii {name : List Char} (h : IsSystem name) {c : Char} (hc : c ∈ name) :
    c.toUpper.toNat < 128 ∧ c ≠ ':' ∧ c ≠ '/' := by
  have hletters : ∀ n ∈ systemNames, ∀ u ∈ n, u.toNat < 128 ∧ u ≠ ':' ∧ u ≠ '/' := by
    simp only [← List.all_iff_forall_prop]
    rfl
  obtain ⟨hascii, hcolon, hslash⟩ := hletters _ h _ (List.mem_map_of_mem hc)
  refine ⟨hascii, ?_, ?_⟩
  · rintro rfl
    exact hcolon rfl
  · rintro rfl
    exact hslash rfl

theorem upper_system {name : List Char} (h : IsSystem name) : upper name = name.map Char.toUpper :=
  upper_of_toUpper fun _ hc => (isSystem_ascii h hc).1

theorem volumeOf_append {name : List Char} (h : ':' ∉ name) (rest : List Char) :
    volumeOf (name ++ ':' :: rest) = name := by
  induction name with
  | nil => simp [volumeOf]
  | cons c name ih =>
    simp only [List.mem_cons, not_or] at h
    have hc : c ≠ ':' := fun heq => h.1 heq.symm
    rw [volumeOf] at ih ⊢
    rw [List.cons_append, List.takeWhile_cons, if_pos (by simpa using hc), ih h.2]

/-! ## The two shapes -/

theorem normalizeDest_colon {dest : List Char} (h : ':' ∈ strip dest) :
    normalizeDest dest = strip dest := by
  simp [normalizeDest, h]

theorem normalizeDest_plain {dest : List Char} (h : ':' ∉ strip dest) :
    normalizeDest dest = strip dest ++ [':'] := by
  have hlast : (strip dest).getLast? ≠ some ':' := fun hlast => h (List.mem_of_getLast? hlast)
  simp [normalizeDest, h, hlast]

/-- The check looks at a destination that is in shape already. -/
theorem normalizeDest_idem (dest : List Char) :
    normalizeDest (normalizeDest dest) = normalizeDest dest := by
  by_cases hcolon : ':' ∈ strip dest
  · rw [normalizeDest_colon hcolon, normalizeDest_colon (by simpa using hcolon), strip_strip]
  · rw [normalizeDest_plain hcolon]
    have hstrip : strip (strip dest ++ [':']) = strip dest ++ [':'] := by
      apply strip_eq_self
      · intro c hc
        cases hdest : strip dest with
        | nil =>
          rw [hdest] at hc
          cases hc
          decide
        | cons c' rest =>
          rw [hdest] at hc
          cases hc
          exact head_strip (by rw [hdest]; rfl)
      · intro c hc
        rw [List.getLast?_append, List.getLast?_singleton] at hc
        cases hc
        decide
    rw [normalizeDest_colon (by simp [hstrip]), hstrip]

/-- A path with a colon is on the volume before it, also without its last slash. -/
theorem volume_colon {dest name rest : List Char} (h : strip dest = name ++ ':' :: rest)
    (hname : ':' ∉ name) : volumeOf (normalizeVolume dest) = name := by
  have hvolume : ∀ v : List Char, (∃ rest', v = name ++ ':' :: rest') →
      volumeOf (if v.getLast? = some ':' then v else v ++ [':']) = name := by
    rintro v ⟨rest', rfl⟩
    split
    · exact volumeOf_append hname rest'
    · rw [List.append_assoc]
      exact volumeOf_append hname (rest' ++ [':'])
  unfold normalizeVolume
  apply hvolume
  rw [h]
  split
  · rename_i hslash
    have hrest : rest ≠ [] := by
      rintro rfl
      simp at hslash
    refine ⟨rest.dropLast, ?_⟩
    rw [List.dropLast_append_of_ne_nil (List.cons_ne_nil _ _), List.dropLast_cons_of_ne_nil hrest]
  · exact ⟨rest, rfl⟩

theorem volume_slash {dest name : List Char} (h : strip dest = name ++ ['/']) (hname : ':' ∉ name) :
    volumeOf (normalizeVolume dest) = name := by
  have hlast : name.getLast? ≠ some ':' := fun hlast => hname (List.mem_of_getLast? hlast)
  simp only [normalizeVolume, h, List.getLast?_concat, if_true, List.dropLast_concat, hlast,
    if_false]
  exact volumeOf_append hname []

theorem volume_plain {dest : List Char} (hcolon : ':' ∉ strip dest)
    (hslash : (strip dest).getLast? ≠ some '/') :
    volumeOf (normalizeVolume dest) = strip dest := by
  have hlast : (strip dest).getLast? ≠ some ':' := fun hlast => hcolon (List.mem_of_getLast? hlast)
  simp only [normalizeVolume, hslash, hlast, if_false]
  exact volumeOf_append hcolon []

/-! ## What the check compares -/

theorem isSystemVolume_of {name : List Char} (h : IsSystem name) {dest : List Char}
    (hdest : normalizeDest dest = name ++ [':']) : isSystemVolume dest = true := by
  have hcapitals : upper (normalizeDest dest) = name.map Char.toUpper ++ [':'] := by
    rw [hdest, upper_append, upper_system h]
    rfl
  rw [isSystemVolume, hcapitals]
  exact decide_eq_true (List.mem_map_of_mem h)

/-- The check compares the whole text. -/
theorem not_isSystemVolume_of {name rest : List Char} (h : IsSystem name) (hrest : rest ≠ [])
    {dest : List Char} (hdest : normalizeDest dest = name ++ ':' :: rest) :
    isSystemVolume dest = false := by
  have hcapitals : upper (normalizeDest dest) = name.map Char.toUpper ++ ':' :: upper rest := by
    rw [hdest, upper_append, upper_system h]
    rfl
  rw [isSystemVolume, hcapitals]
  apply decide_eq_false
  intro hmem
  obtain ⟨other, hother, heq⟩ := List.mem_map.mp hmem
  have hplain : ∀ n ∈ systemNames, ':' ∉ n := by decide
  have hvolume := congrArg volumeOf heq
  rw [volumeOf_append (hplain other hother), volumeOf_append (hplain _ h)] at hvolume
  rw [hvolume] at heq
  have htail : ([] : List Char) = upper rest := by
    simpa using List.append_cancel_left heq
  exact hrest (upper_eq_nil htail.symm)

/-- No system volume is written with a slash. -/
theorem not_isSystemVolume_slash {dest : List Char} (h : '/' ∈ upper (normalizeDest dest)) :
    isSystemVolume dest = false := by
  apply decide_eq_false
  intro hmem
  obtain ⟨name, hname, heq⟩ := List.mem_map.mp hmem
  have hplain : ∀ n ∈ systemNames, '/' ∉ n ++ [':'] := by decide
  apply hplain name hname
  rw [heq]
  exact h

theorem destNotSystem_ok {repr : List Char → List Char} {dest : List Char} :
    (destNotSystem repr dest).status = .ok ↔ isSystemVolume (normalizeDest dest) = false := by
  unfold destNotSystem
  dsimp only
  split
  · rename_i h
    simp [h]
  · rename_i h
    simp [h]

/-! ## Agreement -/

/-- The check guards the run against the system volumes, except for the
destinations that evade it. -/
theorem guarded_iff (repr : List Char → List Char) (dest : List Char) :
    Guarded repr dest ↔ ¬ Evades dest := by
  unfold Guarded
  rw [destNotSystem_ok]
  constructor
  · rintro hguard ⟨name, hsystem, hslash | ⟨rest, hrest, hcolon⟩⟩
    · have hplain : ':' ∉ name := fun hmem => (isSystem_ascii hsystem hmem).2.1 rfl
      have hdest : ':' ∉ strip dest := by
        rw [hslash]
        simp [hplain]
      refine hguard ?_ ((volume_slash hslash hplain).symm ▸ hsystem)
      apply not_isSystemVolume_slash
      rw [normalizeDest_idem, normalizeDest_plain hdest, hslash, upper_append, upper_append]
      apply List.mem_append_left
      apply List.mem_append_right
      decide
    · have hplain : ':' ∉ name := fun hmem => (isSystem_ascii hsystem hmem).2.1 rfl
      refine hguard ?_ ((volume_colon hcolon hplain).symm ▸ hsystem)
      apply not_isSystemVolume_of hsystem hrest
      rw [normalizeDest_idem, normalizeDest_colon (by simp [hcolon]), hcolon]
  · intro hevades hpasses hsystem
    apply hevades
    by_cases hcolon : ':' ∈ strip dest
    · obtain ⟨name, rest, hdest, hname⟩ := List.eq_append_cons_of_mem hcolon
      rw [volume_colon hdest hname] at hsystem
      refine ⟨name, hsystem, Or.inr ⟨rest, ?_, hdest⟩⟩
      rintro rfl
      have hnorm : normalizeDest (normalizeDest dest) = name ++ [':'] := by
        rw [normalizeDest_idem, normalizeDest_colon hcolon, hdest]
      rw [isSystemVolume_of hsystem hnorm] at hpasses
      cases hpasses
    · by_cases hslash : (strip dest).getLast? = some '/'
      · obtain ⟨name, hdest⟩ := List.getLast?_eq_some_iff.mp hslash
        have hname : ':' ∉ name := by
          rw [hdest] at hcolon
          simpa using hcolon
        rw [volume_slash hdest hname] at hsystem
        exact ⟨name, hsystem, Or.inl hdest⟩
      · rw [volume_plain hcolon hslash] at hsystem
        have hnorm : normalizeDest (normalizeDest dest) = strip dest ++ [':'] := by
          rw [normalizeDest_idem, normalizeDest_plain hcolon]
        rw [isSystemVolume_of hsystem hnorm] at hpasses
        cases hpasses

/-- `SYS/` passes the check, and the run writes to `SYS:`. -/
theorem slash_evades : (destNotSystem id "SYS/".toList).status = .ok ∧
    normalizeVolume "SYS/".toList = "SYS:".toList ∧ ¬ Guarded id "SYS/".toList := by
  have hpasses : (destNotSystem id "SYS/".toList).status = .ok := by decide +kernel
  have hvolume : normalizeVolume "SYS/".toList = "SYS:".toList := by decide +kernel
  refine ⟨hpasses, hvolume, fun hguard => hguard hpasses ?_⟩
  rw [hvolume]
  decide +kernel

end AmigaFleet.Host.Installer
