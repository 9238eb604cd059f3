import Mathlib.Algebra.Ring.Int.Defs
import Mathlib.Algebra.Ring.Nat
import Mathlib.Algebra.Order.Ring.Rat
import Mathlib.Data.List.Sort

/-!
# The retention of serial logs

`prune_logs` of `host/src/amiga_fleet_mcp/archive/store.py`, which bounds the
logs of a directory by their number and by their size together.

* `trim_eq_take`: the loop takes from the front, no more than it has to.
* `pruneLogs_pruned`: what is removed is the shortest part in oldest-first order
  whose removal meets both bounds, the newest log excepted.
-/

namespace AmigaFleet.Host.PruneLogs

/-! ## The code -/

/-- A path with the answers of `is_file` and `stat`. -/
structure LogFile where
  name : String
  isFile : Bool
  mtime : Rat
  size : Nat
deriving DecidableEq, Repr

/-- What `iterdir` gives, in its order; no name occurs twice. -/
structure Directory where
  files : List LogFile
  names : (files.map LogFile.name).Nodup

/-- `sorted((f for f in directory.glob(pattern) if f.is_file()), key=…)` -/
def Directory.oldestFirst (d : Directory) (pattern : String → Bool) : List LogFile :=
  (d.files.filter fun f => pattern f.name && f.isFile).insertionSort fun f g => f.mtime ≤ g.mtime

/-- The sum of the sizes. -/
def totalSize (files : List LogFile) : Nat := (files.map LogFile.size).sum

/-- The loop over `survivors[:-1]`: what it appends to `doomed`. -/
def trim (maxTotalBytes : Int) : Int → List LogFile → List LogFile
  | _, [] => []
  | total, f :: files =>
    if total ≤ maxTotalBytes then []
    else f :: trim maxTotalBytes (total - f.size) files

/-- `doomed` after the bound on the number. -/
def overCount (files : List LogFile) (keep : Int) : List LogFile :=
  if keep > 0 ∧ files.length > keep then files.take (files.length - keep.toNat) else []

/-- `doomed` after both bounds. -/
def doomed (files : List LogFile) (keep : Int) (maxTotalBytes : Option Int) : List LogFile :=
  let doomed := overCount files keep
  match maxTotalBytes with
  | none => doomed
  | some maxTotalBytes =>
    let survivors := files.filter fun f => !(doomed.map LogFile.name).contains f.name
    doomed ++ trim maxTotalBytes (totalSize survivors) survivors.dropLast

/-- `prune_logs`; `none` for a path that is no directory, and `unlinks` says
which deletions succeed. -/
def pruneLogs (directory : Option Directory) (keep : Int) (pattern : String → Bool)
    (maxTotalBytes : Option Int) (unlinks : LogFile → Bool) : List LogFile :=
  match directory with
  | none => []
  | some d =>
    if keep ≤ 0 ∧ maxTotalBytes = none then []
    else (doomed (d.oldestFirst pattern) keep maxTotalBytes).filter unlinks

/-! ## The bounds -/

/-- The logs are within both bounds. -/
def WithinBounds (keep : Int) (maxTotalBytes : Option Int) (files : List LogFile) : Prop :=
  (keep > 0 → files.length ≤ keep) ∧ ∀ maxTotal ∈ maxTotalBytes, totalSize files ≤ maxTotal

/-- A removal from logs in oldest-first order. -/
structure Pruned (keep : Int) (maxTotalBytes : Option Int) (logs removed : List LogFile) :
    Prop where
  oldest : removed <+: logs
  newest : ∀ log ∈ logs.getLast?, log ∉ removed
  bounded : WithinBounds keep maxTotalBytes (logs.drop removed.length) ∨
    (logs.drop removed.length).length ≤ 1
  needed : ∀ n < removed.length, ¬ WithinBounds keep maxTotalBytes (logs.drop n)

theorem totalSize_cons (f : LogFile) (files : List LogFile) :
    totalSize (f :: files) = f.size + totalSize files := by
  rw [totalSize, List.map_cons, List.sum_cons, totalSize]

/-- The loop stops at the first part that fits, or at the newest file. -/
theorem trim_eq_take (maxTotal : Int) (files : List LogFile) (hne : files ≠ []) :
    ∃ n, trim maxTotal (totalSize files) files.dropLast = files.take n ∧ n < files.length ∧
      ((totalSize (files.drop n) : Int) ≤ maxTotal ∨ n + 1 = files.length) ∧
      ∀ k < n, maxTotal < totalSize (files.drop k) := by
  induction files with
  | nil => exact absurd rfl hne
  | cons f files ih =>
    cases files with
    | nil => exact ⟨0, rfl, Nat.one_pos, .inr rfl, nofun⟩
    | cons g files =>
      rw [List.dropLast_cons_cons, trim]
      by_cases hfits : (totalSize (f :: g :: files) : Int) ≤ maxTotal
      · rw [if_pos hfits]
        exact ⟨0, rfl, Nat.succ_pos _, .inl hfits, nofun⟩
      · obtain ⟨n, htrim, hlt, hstop, hmore⟩ := ih nofun
        have htotal : (totalSize (f :: g :: files) : Int) - f.size = totalSize (g :: files) := by
          rw [totalSize_cons]
          omega
        rw [if_neg hfits, htotal, htrim]
        refine ⟨n + 1, rfl, Nat.succ_lt_succ hlt, hstop.imp id (congrArg (· + 1)), fun k hk => ?_⟩
        cases k with
        | zero => exact Int.not_le.mp hfits
        | succ k => exact hmore k (Nat.lt_of_succ_lt_succ hk)

/-- Without the first files those that are left are the others. -/
theorem survivors_eq_drop {files : List LogFile} (h : (files.map LogFile.name).Nodup) (n : Nat) :
    (files.filter fun f => !((files.take n).map LogFile.name).contains f.name) = files.drop n := by
  have hsplit := h
  rw [← List.take_append_drop n files, List.map_append, List.nodup_append] at hsplit
  obtain ⟨-, -, hapart⟩ := hsplit
  have hparts : ∀ p, files.filter p = (files.take n).filter p ++ (files.drop n).filter p := by
    intro p
    rw [← List.filter_append, List.take_append_drop]
  rw [hparts, List.filter_eq_nil_iff.mpr, List.filter_eq_self.mpr, List.nil_append]
  · intro f hf
    rw [Bool.not_eq_true', ← Bool.not_eq_true, List.contains_iff_mem]
    exact fun hmem => hapart _ hmem _ (List.mem_map_of_mem hf) rfl
  · intro f hf
    rw [Bool.not_eq_true', Bool.not_eq_false, List.contains_iff_mem]
    exact List.mem_map_of_mem hf

theorem overCount_eq_take (files : List LogFile) (keep : Int) :
    ∃ n, overCount files keep = files.take n ∧ (files ≠ [] → n < files.length) ∧
      (keep > 0 → (files.drop n).length ≤ keep) ∧
      ∀ k < n, keep > 0 ∧ keep < (files.drop k).length := by
  by_cases h : keep > 0 ∧ files.length > keep
  · refine ⟨files.length - keep.toNat, if_pos h, fun _ => by omega, fun _ => ?_, fun k hk => ?_⟩
    · rw [List.length_drop]
      omega
    · rw [List.length_drop]
      omega
  · refine ⟨0, if_neg h, List.length_pos_iff.mpr, fun hkeep => ?_, nofun⟩
    rw [List.drop_zero]
    omega

/-- What is doomed is the shortest part from the front that meets both bounds,
and the last file is not among it. -/
theorem doomed_eq_take {files : List LogFile} (h : (files.map LogFile.name).Nodup)
    (hne : files ≠ []) (keep : Int) (maxTotalBytes : Option Int) :
    ∃ n, doomed files keep maxTotalBytes = files.take n ∧ n < files.length ∧
      (WithinBounds keep maxTotalBytes (files.drop n) ∨ n + 1 = files.length) ∧
      ∀ k < n, ¬ WithinBounds keep maxTotalBytes (files.drop k) := by
  obtain ⟨n, hover, hlt, hcount, hmore⟩ := overCount_eq_take files keep
  have hn := hlt hne
  have hshort : ∀ k < n, ¬ WithinBounds keep maxTotalBytes (files.drop k) := by
    intro k hk hwithin
    exact absurd (hwithin.1 (hmore k hk).1) (Int.not_le.mpr (hmore k hk).2)
  unfold doomed
  rw [hover]
  cases maxTotalBytes with
  | none => exact ⟨n, rfl, hn, .inl ⟨hcount, nofun⟩, hshort⟩
  | some maxTotal =>
    dsimp only
    rw [survivors_eq_drop h]
    obtain ⟨m, htrim, hm, hstop, hlarge⟩ := trim_eq_take maxTotal (files.drop n)
      (by rwa [ne_eq, List.drop_eq_nil_iff, Nat.not_le])
    rw [htrim, ← List.take_add]
    rw [List.length_drop] at hm hstop
    refine ⟨n + m, rfl, by omega, ?_, fun k hk => ?_⟩
    · rcases hstop with hfits | hlast
      · refine .inl ⟨fun hkeep => ?_, fun maxTotal' hmax => ?_⟩
        · have := hcount hkeep
          rw [List.length_drop] at this ⊢
          omega
        · obtain rfl := Option.some_inj.mp hmax
          rwa [← List.drop_drop]
      · exact .inr (by omega)
    · by_cases hkn : k < n
      · exact hshort k hkn
      · intro hwithin
        have hover := hlarge (k - n) (by omega)
        rw [List.drop_drop, Nat.add_sub_cancel' (Nat.not_lt.mp hkn)] at hover
        exact absurd (hwithin.2 maxTotal rfl) (Int.not_le.mpr hover)

/-! ## The removal -/

theorem Directory.names_oldestFirst (d : Directory) (pattern : String → Bool) :
    ((d.oldestFirst pattern).map LogFile.name).Nodup := by
  refine ((List.perm_insertionSort ..).map _).nodup_iff.mpr ?_
  exact d.names.sublist (List.filter_sublist.map _)

theorem Directory.oldestFirst_perm (d : Directory) (pattern : String → Bool) :
    (d.oldestFirst pattern).Perm (d.files.filter fun f => pattern f.name && f.isFile) :=
  List.perm_insertionSort ..

theorem Directory.oldestFirst_pairwise (d : Directory) (pattern : String → Bool) :
    (d.oldestFirst pattern).Pairwise fun f g => f.mtime ≤ g.mtime := by
  have htotal : Std.Total fun f g : LogFile => f.mtime ≤ g.mtime := ⟨fun f g => le_total ..⟩
  have htrans : IsTrans LogFile fun f g => f.mtime ≤ g.mtime := ⟨fun _ _ _ => le_trans⟩
  exact List.pairwise_insertionSort ..

theorem pruned_nil {maxTotalBytes : Option Int} (keep : Int) (logs : List LogFile)
    (h : WithinBounds keep maxTotalBytes logs) : Pruned keep maxTotalBytes logs [] :=
  ⟨List.nil_prefix, fun _ _ => List.not_mem_nil, .inl h, nofun⟩

theorem pruned_take {keep : Int} {maxTotalBytes : Option Int} {logs : List LogFile}
    (hnames : (logs.map LogFile.name).Nodup) {n : Nat} (hn : n < logs.length)
    (hbounded : WithinBounds keep maxTotalBytes (logs.drop n) ∨ n + 1 = logs.length)
    (hneeded : ∀ k < n, ¬ WithinBounds keep maxTotalBytes (logs.drop k)) :
    Pruned keep maxTotalBytes logs (logs.take n) := by
  have hlength : (logs.take n).length = n := by
    rw [List.length_take]
    omega
  refine ⟨List.take_prefix .., ?_, ?_, ?_⟩
  · intro log hlast hmem
    have hnodup := hnames.of_map
    rw [← List.take_append_drop n logs, List.nodup_append] at hnodup
    have hdrop : log ∈ logs.drop n := by
      rw [Option.mem_def, ← List.take_append_drop n logs, List.getLast?_append_of_ne_nil] at hlast
      · exact List.mem_of_getLast? hlast
      · rwa [ne_eq, List.drop_eq_nil_iff, Nat.not_le]
    exact hnodup.2.2 _ hmem _ hdrop rfl
  · rw [hlength]
    refine hbounded.imp id fun h => ?_
    rw [List.length_drop]
    omega
  · rwa [hlength]

/-- When the deletions succeed `prune_logs` removes the shortest part in
oldest-first order that brings the logs within both bounds, and never the newest
log. -/
theorem pruneLogs_pruned (d : Directory) (keep : Int) (pattern : String → Bool)
    (maxTotalBytes : Option Int) {unlinks : LogFile → Bool}
    (hunlinks : ∀ f ∈ d.oldestFirst pattern, unlinks f = true) :
    ∃ logs : List LogFile, logs.Perm (d.files.filter fun f => pattern f.name && f.isFile) ∧
      (logs.Pairwise fun f g => f.mtime ≤ g.mtime) ∧
      Pruned keep maxTotalBytes logs (pruneLogs (some d) keep pattern maxTotalBytes unlinks) := by
  refine ⟨_, d.oldestFirst_perm pattern, d.oldestFirst_pairwise pattern, ?_⟩
  have hnames := d.names_oldestFirst pattern
  rw [pruneLogs]
  split
  · rename_i hnone
    obtain ⟨hkeep, rfl⟩ := hnone
    exact pruned_nil keep _ ⟨fun h => absurd h (Int.not_lt.mpr hkeep), nofun⟩
  · by_cases hne : d.oldestFirst pattern = []
    · have hempty : doomed [] keep maxTotalBytes = [] := by
        cases maxTotalBytes <;> simp [doomed, overCount, trim]
      rw [hne, hempty]
      refine ⟨List.nil_prefix, nofun, .inr (Nat.zero_le _), nofun⟩
    · obtain ⟨n, hdoomed, hn, hbounded, hneeded⟩ := doomed_eq_take hnames hne keep maxTotalBytes
      rw [hdoomed, List.filter_eq_self.mpr fun f hf => hunlinks f (List.mem_of_mem_take hf)]
      exact pruned_take hnames hn hbounded hneeded

/-- Three logs of 100 bytes. -/
def threeLogs : Directory where
  files := [⟨"b.log", true, 2, 100⟩, ⟨"a.log", true, 1, 100⟩, ⟨"c.log", true, 3, 100⟩]
  names := by decide

/-- There is room for two of them. -/
theorem pruneLogs_pruned_sample :
    (pruneLogs (some threeLogs) 0 (fun _ => true) (some 250) fun _ => true) =
        [⟨"a.log", true, 1, 100⟩] ∧
      ∃ logs : List LogFile,
        logs.Perm (threeLogs.files.filter fun f => (fun _ => true) f.name && f.isFile) ∧
        (logs.Pairwise fun f g => f.mtime ≤ g.mtime) ∧
        Pruned 0 (some 250) logs
          (pruneLogs (some threeLogs) 0 (fun _ => true) (some 250) fun _ => true) :=
  ⟨by decide, pruneLogs_pruned threeLogs 0 (fun _ => true) (some 250) fun _ _ => rfl⟩

end AmigaFleet.Host.PruneLogs
