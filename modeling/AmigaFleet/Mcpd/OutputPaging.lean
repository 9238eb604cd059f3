import AmigaFleet.Mcpd.MachineText

/-!
# Reading an output file in pages

A client calls `exec.output` with the offset moved on by the `bytes` of each
answer, until `eof`.  The reader is `amigaReadOutput32`, with sizes of 32 bits;
below 4 GiB it is `amigaReadOutput`.

`readPages_iff`: the texts are the whole file exactly if the file has no NUL,
which ends the C string of a page while `bytes` counts on, and is shorter than
4 GiB.
-/

namespace AmigaFleet.Mcpd.Exec

open AmigaFleet.Lib AmigaFleet.Mcpd.Jobs

/-! ## The reader -/

/-- Files below 4 GiB. -/
theorem amigaReadOutput32_eq {files : Files}
    (h : ∀ path content, files path = some content → content.length < 2 ^ 32) :
    amigaReadOutput32 files = amigaReadOutput files := by
  funext path offset max
  unfold amigaReadOutput32 amigaReadOutput amigaReadOutputWith
  cases hfile : files path with
  | none => rfl
  | some content =>
    have hsize := h path content hfile
    have hleft : content.length - offset < 2 ^ 32 := Nat.lt_of_le_of_lt (Nat.sub_le ..) hsize
    simp only [id, Nat.mod_eq_of_lt hsize, Nat.mod_eq_of_lt hleft]

theorem execOutputWith_eq (jobsGet : Nat → Option JobInfo) {files : Files}
    (h : ∀ path content, files path = some content → content.length < 2 ^ 32) :
    execOutputWith amigaReadOutput32 jobsGet files = execOutput jobsGet files := by
  funext params
  unfold execOutput execOutputWith
  rw [amigaReadOutput32_eq h]

/-! ## The client -/

def pageParams (id offset : Nat) (max : Int) : CJson :=
  .object [(ascii "job_id", cNumber id), (ascii "offset", cNumber offset),
    (ascii "max_bytes", cNumber max)]

/-- The texts of the pages from `offset` on, `none` if `fuel` pages are not
enough or a page cannot be read. -/
def readPages (page : Nat → Outcome) : Nat → Nat → Option (List Char)
  | 0, _ => none
  | fuel + 1, offset =>
    match page offset with
    | .error _ => none
    | .ok result =>
      match result.getItem (ascii "output"), result.getItem (ascii "bytes"),
        result.getItem (ascii "eof") with
      | some (.string text), some (.number bytes), some (.bool eof) => do
        let chars ← utf8Decode text
        if eof then some chars
        else (readPages page fuel (offset + (toLongLong bytes).toNat)).map (chars ++ ·)
      | _, _, _ => none

/-- A finished job whose output is there. -/
structure Finished (jobsGet : Nat → Option JobInfo) (files : Files) (id : Nat)
    (content : Bytes) : Prop where
  id_pos : 1 ≤ id
  id_lt : id < 2 ^ 32
  job : ∃ ji, jobsGet id = some ji ∧ ji.state = .exited ∧ ji.outputDeleted = false ∧
    files ji.outPath = some content

variable {jobsGet : Nat → Option JobInfo} {files : Files} {id : Nat} {content : Bytes}

/-- The bytes of the page at `offset`. -/
def slice (content : Bytes) (max : Int) (offset : Nat) : Bytes :=
  ((content.take (content.length % 2 ^ 32)).drop offset).take (min execCapMax max.toNat)

theorem cText_latin1_cut (buf : Bytes) :
    cText (amigaLatin1ToUtf8 buf) = amigaLatin1ToUtf8 (buf.takeWhile (· ≠ 0)) := by
  induction buf with
  | nil => rfl
  | cons c buf ih =>
    by_cases hc : c = 0
    · subst hc
      rfl
    · rw [List.takeWhile_cons_of_pos (by simpa using hc)]
      have hsplit := amigaLatin1ToUtf8_append [c]
      have hclean : ∀ b ∈ amigaLatin1ToUtf8 [c], decide (b ≠ 0) = true :=
        List.takeWhile_eq_self_iff.mp (cText_latin1 (by simpa using Ne.symm hc))
      rw [← List.singleton_append, hsplit, ← List.singleton_append (l := buf.takeWhile _), hsplit,
        cText, List.takeWhile_append_of_pos hclean]
      exact congrArg _ ih

theorem pJobId_page {id : Nat} (hpos : 1 ≤ id) (hlt : id < 2 ^ 32) (offset : Nat) (max : Int) :
    pJobId (some (pageParams id offset max)) = .ok id := by
  have hget : (some (pageParams id offset max)).bind (CJson.getItem (ascii "job_id")) =
      some (.number ((id : Int) : Rat)) := rfl
  have hvalue : ¬ ((id : Int) : Rat) < 1 := by
    rw [not_lt]
    exact_mod_cast hpos
  rw [pJobId, hget]
  dsimp only
  rw [if_neg hvalue, toLongLong_intCast, Fs.sizeT, Int.toNat_natCast, Nat.mod_eq_of_lt hlt]

theorem offsetOf_page (id offset : Nat) (max : Int) :
    offsetOf (some (pageParams id offset max)) = offset := by
  have hget : (some (pageParams id offset max)).bind (CJson.getItem (ascii "offset")) =
      some (.number ((offset : Int) : Rat)) := rfl
  rw [offsetOf, pInt, hget]
  dsimp only
  rw [toLongLong_intCast]
  omega

theorem maxBytesOf_page (id offset : Nat) {max : Int} (h : 1 ≤ max) :
    maxBytesOf (some (pageParams id offset max)) = min execCapMax max.toNat := by
  have hget : (some (pageParams id offset max)).bind (CJson.getItem (ascii "max_bytes")) =
      some (.number ((max : Int) : Rat)) := rfl
  have hparam : pInt (some (pageParams id offset max)) "max_bytes" execOutputDefault = max := by
    rw [pInt, hget]
    exact toLongLong_intCast max
  unfold maxBytesOf
  have hpos : ¬ max ≤ 0 := by omega
  simp only [hparam, if_neg hpos]
  split <;> omega

theorem page_eq (h : Finished jobsGet files id content) {max : Int} (hmax : 1 ≤ max) {offset : Nat}
    (hoffset : offset ≤ content.length % 2 ^ 32) :
    ∃ result, execOutputWith amigaReadOutput32 jobsGet files (some (pageParams id offset max)) =
        .ok result ∧
      result.getItem (ascii "output") = some (.string (cText (amigaLatin1ToUtf8 (slice content max offset)))) ∧
      result.getItem (ascii "bytes") = some (.number (slice content max offset).length) ∧
      result.getItem (ascii "eof") =
        some (.bool (offset + (slice content max offset).length = content.length % 2 ^ 32)) := by
  obtain ⟨ji, hjob, hstate, hdeleted, hfile⟩ := h.job
  have hoff : Fs.sizeT (offset : Int) = offset := by
    rw [Fs.sizeT, Int.toNat_natCast, Nat.mod_eq_of_lt (by omega)]
  have hread : amigaReadOutput32 files ji.outPath offset (min execCapMax max.toNat) =
      ⟨amigaLatin1ToUtf8 (slice content max offset), (slice content max offset).length,
        content.length % 2 ^ 32⟩ := by
    have hwant : (if offset < content.length then (content.length - offset) % 2 ^ 32 else 0) =
        content.length % 2 ^ 32 - offset := by
      split <;> omega
    have hcap : ∀ want cap : Nat, (if want > cap then cap else want) = min cap want := by
      intro want cap
      split <;> omega
    rw [amigaReadOutput32, amigaReadOutputWith, hfile]
    simp only [hwant, hcap, slice, List.drop_take, List.take_take]
  refine ⟨outputResult ji offset ⟨amigaLatin1ToUtf8 (slice content max offset),
    (slice content max offset).length, content.length % 2 ^ 32⟩, ?_, ?_, ?_, ?_⟩
  · rw [execOutputWith, pJobId_page h.id_pos h.id_lt]
    simp only [bind, Except.bind, hjob, hdeleted, Bool.false_eq_true, if_false, offsetOf_page,
      maxBytesOf_page id offset hmax, hoff, hread]
  · simp only [outputResult, addJobFields, hstate]
    rfl
  · simp only [outputResult, addJobFields, hstate]
    rfl
  · have hfits : offset + (slice content max offset).length ≤ content.length % 2 ^ 32 := by
      simp only [slice, List.length_take, List.length_drop]
      omega
    have heof : (Fs.sizeT offset + (slice content max offset).length) % 2 ^ 32 ≥
        content.length % 2 ^ 32 ↔
        offset + (slice content max offset).length = content.length % 2 ^ 32 := by
      rw [hoff]
      omega
    simp only [outputResult, addJobFields, hstate, heof]
    rfl
/-! ## All pages -/

theorem length_slice_le {content : Bytes} (max : Int) {offset : Nat}
    (h : offset ≤ content.length % 2 ^ 32) :
    offset + (slice content max offset).length ≤ content.length % 2 ^ 32 := by
  simp only [slice, List.length_take, List.length_drop]
  omega

/-- The rest of the file begins with the page. -/
theorem slice_append (content : Bytes) (max : Int) (offset : Nat) :
    (content.take (content.length % 2 ^ 32)).drop offset = slice content max offset ++
      (content.take (content.length % 2 ^ 32)).drop (offset + (slice content max offset).length) := by
  have hprefix : slice content max offset <+:
      (content.take (content.length % 2 ^ 32)).drop offset := List.take_prefix ..
  rw [← List.drop_drop]
  exact (List.prefix_iff_eq_append.mp hprefix).symm

/-- One call. -/
theorem readPages_succ (h : Finished jobsGet files id content) {max : Int} (hmax : 1 ≤ max)
    {offset : Nat} (hoffset : offset ≤ content.length % 2 ^ 32) (fuel : Nat) :
    readPages (fun offset => execOutputWith amigaReadOutput32 jobsGet files
        (some (pageParams id offset max))) (fuel + 1) offset =
      if offset + (slice content max offset).length = content.length % 2 ^ 32 then
        some (((slice content max offset).takeWhile (· ≠ 0)).map latin1Char)
      else
        (readPages (fun offset => execOutputWith amigaReadOutput32 jobsGet files
          (some (pageParams id offset max))) fuel (offset + (slice content max offset).length)).map
          (((slice content max offset).takeWhile (· ≠ 0)).map latin1Char ++ ·) := by
  obtain ⟨result, hpage, htext, hbytes, heof⟩ := page_eq h hmax hoffset
  have hdecode : utf8Decode (cText (amigaLatin1ToUtf8 (slice content max offset))) =
      some (((slice content max offset).takeWhile (· ≠ 0)).map latin1Char) := by
    rw [cText_latin1_cut, amigaLatin1ToUtf8_eq, utf8Decode_encode]
  have hnumber : toLongLong ((slice content max offset).length : Rat) =
      (slice content max offset).length := toLongLong_intCast (slice content max offset).length
  rw [readPages, hpage]
  dsimp only
  rw [htext, hbytes, heof]
  simp only [hdecode, hnumber, Int.toNat_natCast, Option.bind_eq_bind, Option.bind_some,
    decide_eq_true_eq]

/-- The pages from `offset` on hold at most one character for each byte, and
only without NULs all of them. -/
theorem readPages_length (h : Finished jobsGet files id content) {max : Int} (hmax : 1 ≤ max)
    {fuel offset : Nat} (hoffset : offset ≤ content.length % 2 ^ 32) {text : List Char}
    (hread : readPages (fun offset => execOutputWith amigaReadOutput32 jobsGet files
      (some (pageParams id offset max))) fuel offset = some text) :
    offset + text.length ≤ content.length % 2 ^ 32 ∧
      (offset + text.length = content.length % 2 ^ 32 →
        (0 : UInt8) ∉ (content.take (content.length % 2 ^ 32)).drop offset) := by
  induction fuel generalizing offset text with
  | zero => cases hread
  | succ fuel ih =>
    have hfits := length_slice_le max hoffset
    have hprefix := List.takeWhile_prefix (p := (· ≠ (0 : UInt8))) (l := slice content max offset)
    have hcut := hprefix.length_le
    have hpage : ((slice content max offset).takeWhile (· ≠ 0)).length =
        (slice content max offset).length → (0 : UInt8) ∉ slice content max offset := by
      intro hlen hmem
      have hall := List.takeWhile_eq_self_iff.mp (List.IsPrefix.eq_of_length hprefix hlen)
      simpa using hall 0 hmem
    rw [readPages_succ h hmax hoffset] at hread
    split at hread
    · rename_i hend
      cases hread
      rw [List.length_map]
      refine ⟨by omega, fun hlen => ?_⟩
      rw [slice_append content max offset, hend, List.drop_eq_nil_of_le, List.append_nil]
      · exact hpage (by omega)
      · rw [List.length_take]
        omega
    · rw [Option.map_eq_some_iff] at hread
      obtain ⟨rest, hrest, rfl⟩ := hread
      obtain ⟨hle, hclean⟩ := ih hfits hrest
      rw [List.length_append, List.length_map]
      refine ⟨by omega, fun hlen => ?_⟩
      rw [slice_append content max offset, List.mem_append, not_or]
      exact ⟨hpage (by omega), hclean (by omega)⟩

theorem readPages_all (h : Finished jobsGet files id content) {max : Int} (hmax : 1 ≤ max)
    (hclean : (0 : UInt8) ∉ content) (hsize : content.length < 2 ^ 32) {offset : Nat}
    (hoffset : offset ≤ content.length) :
    ∃ fuel, readPages (fun offset => execOutputWith amigaReadOutput32 jobsGet files
      (some (pageParams id offset max))) fuel offset = some ((content.drop offset).map latin1Char) := by
  have hmod : content.length % 2 ^ 32 = content.length := Nat.mod_eq_of_lt hsize
  have hsplit : ∀ offset, content.drop offset = slice content max offset ++
      content.drop (offset + (slice content max offset).length) := by
    intro offset
    have happend := slice_append content max offset
    rwa [hmod, List.take_length] at happend
  have hpage : ∀ offset, (slice content max offset).takeWhile (· ≠ 0) = slice content max offset := by
    intro offset
    refine List.takeWhile_eq_self_iff.mpr fun c hc => decide_eq_true ?_
    rintro rfl
    have hmem : (0 : UInt8) ∈ content.drop offset := by
      rw [hsplit]
      exact List.mem_append_left _ hc
    exact hclean (List.mem_of_mem_drop hmem)
  -- The pages are counted by what is left of the file; none is empty before its end.
  induction hleft : content.length - offset using Nat.strong_induction_on generalizing offset with
  | _ left ih =>
    have hsucc := readPages_succ h hmax (hmod.symm ▸ hoffset)
    have hfits := length_slice_le max (hmod.symm ▸ hoffset)
    simp only [hpage, hmod] at hsucc hfits
    by_cases hend : offset + (slice content max offset).length = content.length
    · refine ⟨1, ?_⟩
      rw [hsucc 0, if_pos hend, hsplit offset, hend, List.drop_length, List.append_nil]
    · have hsome : 1 ≤ (slice content max offset).length := by
        have hcap : 1 ≤ min execCapMax max.toNat := by
          unfold execCapMax
          omega
        rw [slice, List.length_take, List.length_drop, hmod, List.take_length] at hend ⊢
        omega
      obtain ⟨fuel, hrest⟩ := ih _ (by omega) hfits rfl
      refine ⟨fuel + 1, ?_⟩
      rw [hsucc fuel, if_neg hend, hrest, hsplit offset, List.map_append]
      rfl

/-- For every finished output and every limit of at least one byte, the pages
are the whole file if and only if it has no NUL and is shorter than 4 GiB. -/
theorem readPages_iff (h : Finished jobsGet files id content) {max : Int} (hmax : 1 ≤ max) :
    (∃ fuel, readPages (fun offset => execOutputWith amigaReadOutput32 jobsGet files
        (some (pageParams id offset max))) fuel 0 = some (content.map latin1Char)) ↔
      (0 : UInt8) ∉ content ∧ content.length < 2 ^ 32 := by
  constructor
  · rintro ⟨fuel, hread⟩
    obtain ⟨hle, hclean⟩ := readPages_length h hmax (Nat.zero_le _) hread
    rw [List.length_map, Nat.zero_add] at hle hclean
    have hmod : content.length % 2 ^ 32 ≤ content.length := Nat.mod_le ..
    have hsize : content.length = content.length % 2 ^ 32 := by omega
    have hnul := hclean hsize
    rw [List.drop_zero, ← hsize, List.take_length] at hnul
    exact ⟨hnul, by omega⟩
  · rintro ⟨hclean, hsize⟩
    exact readPages_all h hmax hclean hsize (Nat.zero_le _)

def endedJob : JobInfo :=
  ⟨1, .exited, 0, 0, 0, 0, 0, 0, 0, false, false, 0, [], []⟩

theorem endedJob_finished (content : Bytes) :
    Finished (fun _ => some endedJob) (fun _ => some content) 1 content :=
  ⟨by decide, by decide, endedJob, rfl, rfl, rfl, rfl⟩

theorem readPages_iff_ended :
    (∃ fuel, readPages (fun offset => execOutputWith amigaReadOutput32 (fun _ => some endedJob)
        (fun _ => some [65, 255]) (some (pageParams 1 offset 1))) fuel 0 =
      some ([65, 255].map latin1Char)) ↔ (0 : UInt8) ∉ [65, 255] ∧ [(65 : UInt8), 255].length < 2 ^ 32 :=
  readPages_iff (endedJob_finished [65, 255]) (by decide)

/-- A file with a NUL loses it, and what is behind it in its page. -/
theorem nul_lost : ¬∀ (jobsGet : Nat → Option JobInfo) (files : Files) (id : Nat) (content : Bytes)
    (max : Int), Finished jobsGet files id content → 1 ≤ max →
      ∃ fuel, readPages (fun offset => execOutputWith amigaReadOutput32 jobsGet files
        (some (pageParams id offset max))) fuel 0 = some (content.map latin1Char) := by
  intro h
  have hjob := endedJob_finished [65, 0, 66]
  obtain ⟨fuel, hread⟩ := h _ _ 1 [65, 0, 66] 65536 hjob (by decide)
  exact absurd ((readPages_length hjob (by decide) (Nat.zero_le _) hread).2 rfl) (by decide)

end AmigaFleet.Mcpd.Exec
