import AmigaFleet.Lib.Run
import Mathlib.Data.List.Basic
import Mathlib.Logic.Function.Basic

/-!
# A mailbox without a lock

One record that a poster overwrites, and a flag that it raises.  A reader looks
at the flag, lowers it and copies the record read by read; nothing keeps the
next record out of a copy, and two readers can have seen the same flag.

* `Inv.last`: the last record is not lost.  The flag is up, or a reader is
  copying it, or a reader has taken it as a whole.
* `Inv.taken`: each value of a copy is that of a posted record.
* `Inv.once`: a reader takes at most one copy for a record.
* `taken_whole`: without a post between the first and the last read of a copy,
  every copy is that of one record.
* `run_pass`: a reader that nobody disturbs gets to the whole record.
-/

namespace AmigaFleet.Lib.Mailbox

variable {ρ ν : Type}

/-- Where a reader stands. -/
inductive Reader (ν : Type) where
  | idle
  /-- it has seen the flag up -/
  | found
  /-- it has lowered the flag -/
  | copying (got : List ν)

structure Box (ρ ν : Type) where
  flag : Bool
  record : ρ
  /-- the records so far, the last one at the end -/
  posted : List ρ
  readers : Nat → Reader ν
  /-- the copies so far, with their readers -/
  taken : List (Nat × List ν)

/-- A box that nothing has been posted to; `record` is what its memory holds. -/
def Box.empty (record : ρ) : Box ρ ν := ⟨false, record, [], fun _ => .idle, []⟩

def Box.setReader (b : Box ρ ν) (i : Nat) (reader : Reader ν) : Box ρ ν :=
  { b with readers := Function.update b.readers i reader }

/-- A record is posted. -/
def Box.post (b : Box ρ ν) (r : ρ) : Box ρ ν :=
  { b with flag := true, record := r, posted := b.posted ++ [r] }

inductive Label (ρ : Type) where
  | post (r : ρ)
  /-- reader `i` looks at the flag -/
  | look (i : Nat)
  /-- reader `i` lowers the flag -/
  | lower (i : Nat)
  /-- the next read of reader `i` -/
  | copy (i : Nat)
  /-- reader `i` has made all reads -/
  | take (i : Nat)

/-- `reads` are the reads of a copy in their order. -/
def step (reads : List (ρ → ν)) (b : Box ρ ν) : Label ρ → Option (Box ρ ν)
  | .post r => some (b.post r)
  | .look i =>
    match b.readers i with
    | .idle => some (if b.flag then b.setReader i .found else b)
    | _ => none
  | .lower i =>
    match b.readers i with
    | .found => some { b.setReader i (.copying []) with flag := false }
    | _ => none
  | .copy i =>
    match b.readers i with
    | .copying got =>
      (reads[got.length]?).map fun read => b.setReader i (.copying (got ++ [read b.record]))
    | _ => none
  | .take i =>
    match b.readers i with
    | .copying got =>
      if got.length = reads.length then
        some { b.setReader i .idle with taken := b.taken ++ [(i, got)] }
      else none
    | _ => none

variable {reads : List (ρ → ν)} {b b' : Box ρ ν}

/-- The copy of a record. -/
def copyOf (reads : List (ρ → ν)) (r : ρ) : List ν := reads.map fun read => read r

theorem length_copyOf (r : ρ) : (copyOf reads r).length = reads.length := List.length_map ..

/-! ## What a step can do -/

inductive Stepped (reads : List (ρ → ν)) (b : Box ρ ν) : Label ρ → Box ρ ν → Prop where
  | post (r : ρ) : Stepped reads b (.post r) (b.post r)
  | found (i : Nat) (hreader : b.readers i = .idle) (hflag : b.flag = true) :
      Stepped reads b (.look i) (b.setReader i .found)
  | nothing (i : Nat) (hreader : b.readers i = .idle) (hflag : b.flag = false) :
      Stepped reads b (.look i) b
  | lowered (i : Nat) (hreader : b.readers i = .found) :
      Stepped reads b (.lower i) { b.setReader i (.copying []) with flag := false }
  | copied (i : Nat) (got : List ν) (read : ρ → ν) (hreader : b.readers i = .copying got)
      (hread : reads[got.length]? = some read) :
      Stepped reads b (.copy i) (b.setReader i (.copying (got ++ [read b.record])))
  | took (i : Nat) (got : List ν) (hreader : b.readers i = .copying got)
      (hlength : got.length = reads.length) :
      Stepped reads b (.take i) { b.setReader i .idle with taken := b.taken ++ [(i, got)] }

theorem step_cases {a : Label ρ} (h : step reads b a = some b') : Stepped reads b a b' := by
  cases a with
  | post r =>
    cases h
    exact .post r
  | look i =>
    rw [step] at h
    split at h
    · rename_i hreader
      cases h
      split
      · rename_i hflag
        exact .found i hreader hflag
      · rename_i hflag
        exact .nothing i hreader (Bool.not_eq_true _ ▸ hflag)
    · cases h
  | lower i =>
    rw [step] at h
    split at h
    · rename_i hreader
      cases h
      exact .lowered i hreader
    · cases h
  | copy i =>
    rw [step] at h
    split at h
    · rename_i got hreader
      obtain ⟨read, hread, rfl⟩ := Option.map_eq_some_iff.mp h
      exact .copied i got read hreader hread
    · cases h
  | take i =>
    rw [step] at h
    split at h
    · rename_i got hreader
      split at h
      · rename_i hlength
        cases h
        exact .took i got hreader hlength
      · cases h
    · cases h

@[simp] theorem readers_setReader_self (i : Nat) (reader : Reader ν) :
    (b.setReader i reader).readers i = reader := Function.update_self ..

theorem readers_setReader_ne {i j : Nat} (h : j ≠ i) (reader : Reader ν) :
    (b.setReader i reader).readers j = b.readers j := Function.update_of_ne h ..

theorem setReader_setReader (i : Nat) (reader moved : Reader ν) :
    (b.setReader i moved).setReader i reader = b.setReader i reader := by
  unfold Box.setReader
  simp only [Function.update_idem]

/-- The readers after one of them has moved. -/
theorem readers_setReader {i j : Nat} {reader moved : Reader ν}
    (h : (b.setReader i moved).readers j = reader) :
    (j = i ∧ reader = moved) ∨ (j ≠ i ∧ b.readers j = reader) := by
  by_cases hj : j = i
  · subst hj
    rw [readers_setReader_self] at h
    exact Or.inl ⟨rfl, h.symm⟩
  · rw [readers_setReader_ne hj] at h
    exact Or.inr ⟨hj, h⟩

/-! ## The values of a copy -/

/-- Each value of a copy, whole or not, is that of one of these records. -/
def Values (reads : List (ρ → ν)) (posted : List ρ) (got : List ν) : Prop :=
  ∀ (k : Nat) (v : ν), got[k]? = some v →
    ∃ (read : ρ → ν) (r : ρ), reads[k]? = some read ∧ r ∈ posted ∧ v = read r

theorem values_nil (posted : List ρ) : Values reads posted [] := fun _ _ h => by cases h

theorem Values.snoc {posted : List ρ} {got : List ν} (h : Values reads posted got)
    {read : ρ → ν} {r : ρ} (hread : reads[got.length]? = some read) (hr : r ∈ posted) :
    Values reads posted (got ++ [read r]) := by
  intro k v hk
  rw [List.getElem?_append] at hk
  split at hk
  · exact h k v hk
  · rename_i hle
    obtain ⟨hlast, hv⟩ := List.getElem?_eq_some_iff.mp hk
    have hkey : k = got.length := by
      rw [List.length_singleton] at hlast
      omega
    subst hkey
    refine ⟨read, r, hread, hr, ?_⟩
    rw [← hv]
    simp

theorem Values.mono {posted more : List ρ} {got : List ν} (h : Values reads posted got) :
    Values reads (posted ++ more) got := fun k v hk => by
  obtain ⟨read, r, hread, hr, hv⟩ := h k v hk
  exact ⟨read, r, hread, List.mem_append_left _ hr, hv⟩

/-- A copy of one record so far goes on as one if the record has not changed. -/
theorem prefix_snoc {got : List ν} {r : ρ} {read : ρ → ν} (h : got <+: copyOf reads r)
    (hread : reads[got.length]? = some read) : got ++ [read r] <+: copyOf reads r := by
  obtain ⟨rest, hrest⟩ := h
  have hget : (copyOf reads r)[got.length]? = some (read r) := by
    rw [copyOf, List.getElem?_map, hread]
    rfl
  cases rest with
  | nil =>
    rw [← hrest, List.append_nil, List.getElem?_eq_none (Nat.le_refl _)] at hget
    cases hget
  | cons v rest =>
    have hv : v = read r := by
      rw [← hrest, List.getElem?_append_right (Nat.le_refl _), Nat.sub_self] at hget
      exact Option.some.inj hget
    exact ⟨rest, by rw [← hrest, hv, List.append_assoc]; rfl⟩

theorem eq_copyOf {got : List ν} {r : ρ} (h : got <+: copyOf reads r)
    (hlength : got.length = reads.length) : got = copyOf reads r :=
  h.eq_of_length (hlength.trans (length_copyOf r).symm)

/-! ## The invariant -/

def Reader.isIdle : Reader ν → Bool
  | .idle => true
  | _ => false

/-- The copies that reader `i` has taken or goes for. -/
def Box.passes (b : Box ρ ν) (i : Nat) : Nat :=
  (b.taken.filter fun t => t.1 = i).length + if (b.readers i).isIdle then 0 else 1

/-- Record `r` is on its way to somebody, or there. -/
def Box.Kept (reads : List (ρ → ν)) (b : Box ρ ν) (r : ρ) : Prop :=
  b.flag = true ∨ (∃ i got, b.readers i = .copying got ∧ got <+: copyOf reads r) ∨
    ∃ i, (i, copyOf reads r) ∈ b.taken

structure Inv (reads : List (ρ → ν)) (b : Box ρ ν) : Prop where
  record : ∀ r, b.posted.getLast? = some r → b.record = r
  some_posted : (b.flag = true ∨ ∃ i, b.readers i ≠ .idle) → b.record ∈ b.posted
  last : ∀ r, b.posted.getLast? = some r → b.Kept reads r
  copying : ∀ i got, b.readers i = .copying got → Values reads b.posted got
  taken : ∀ t ∈ b.taken, Values reads b.posted t.2
  once : ∀ i, b.passes i ≤ b.posted.length ∧
    (b.flag = true → b.readers i ≠ .found → b.passes i < b.posted.length)

theorem empty_inv (record : ρ) : Inv reads (Box.empty record : Box ρ ν) where
  record _ h := by cases h
  some_posted h := by
    rcases h with h | ⟨i, h⟩
    · cases h
    · exact absurd rfl h
  last _ h := by cases h
  copying _ _ h := by cases h
  taken _ h := by cases h
  once _ := ⟨Nat.le_refl _, fun h => by cases h⟩

/-! ## Every step keeps it -/

theorem Inv.post (h : Inv reads b) (r : ρ) : Inv reads (b.post r) where
  record r' hr' := by
    rw [Box.post, List.getLast?_concat] at hr'
    exact Option.some.inj hr'
  some_posted _ := List.mem_append_right _ (List.mem_singleton_self r)
  last _ _ := Or.inl rfl
  copying i got hgot := (h.copying i got hgot).mono
  taken t ht := (h.taken t ht).mono
  once i := by
    have hle := (h.once i).1
    have hlength : (b.post r).posted.length = b.posted.length + 1 := List.length_append
    have hsame : (b.post r).passes i = b.passes i := rfl
    rw [hlength, hsame]
    exact ⟨Nat.le_succ_of_le hle, fun _ _ => Nat.lt_succ_of_le hle⟩

/-- The passes of a reader that has moved. -/
theorem passes_setReader (i j : Nat) (reader : Reader ν) :
    (b.setReader i reader).passes j =
      if j = i then (b.taken.filter fun t => t.1 = i).length + (if reader.isIdle then 0 else 1)
      else b.passes j := by
  unfold Box.passes
  by_cases hj : j = i
  · subst hj
    rw [if_pos rfl, readers_setReader_self]
    rfl
  · rw [if_neg hj, readers_setReader_ne hj]
    rfl

theorem Inv.found (h : Inv reads b) {i : Nat} (hreader : b.readers i = .idle)
    (hflag : b.flag = true) : Inv reads (b.setReader i .found) where
  record := h.record
  some_posted _ := h.some_posted (Or.inl hflag)
  last _ _ := Or.inl hflag
  copying j got hgot := by
    rcases readers_setReader hgot with ⟨_, hmoved⟩ | ⟨_, hsame⟩
    · cases hmoved
    · exact h.copying j got hsame
  taken := h.taken
  once j := by
    rw [passes_setReader]
    split
    · rename_i heq
      subst heq
      have hlt := (h.once j).2 hflag (by rw [hreader]; exact fun h => nomatch h)
      have hpasses : b.passes j = (b.taken.filter fun t => t.1 = j).length := by
        rw [Box.passes, hreader]
        rfl
      refine ⟨?_, fun _ hne => absurd (readers_setReader_self j _) hne⟩
      rw [hpasses] at hlt
      exact hlt
    · rename_i hne
      rw [readers_setReader_ne hne]
      exact h.once j

theorem Inv.lowered (h : Inv reads b) {i : Nat} (hreader : b.readers i = .found) :
    Inv reads { b.setReader i (.copying []) with flag := false } where
  record := h.record
  some_posted _ := h.some_posted (Or.inr ⟨i, by rw [hreader]; exact fun h => nomatch h⟩)
  last r _ := Or.inr (Or.inl ⟨i, [], readers_setReader_self i _, List.nil_prefix⟩)
  copying j got hgot := by
    rcases readers_setReader hgot with ⟨_, hmoved⟩ | ⟨_, hsame⟩
    · cases hmoved
      exact values_nil _
    · exact h.copying j got hsame
  taken := h.taken
  once j := by
    refine ⟨?_, fun hflag => by cases hflag⟩
    show (b.setReader i (.copying [])).passes j ≤ b.posted.length
    have hle := (h.once j).1
    rw [passes_setReader]
    split
    · rename_i heq
      subst heq
      rw [Box.passes, hreader] at hle
      exact hle
    · exact hle

theorem Inv.copied (h : Inv reads b) {i : Nat} {got : List ν} {read : ρ → ν}
    (hreader : b.readers i = .copying got) (hread : reads[got.length]? = some read) :
    Inv reads (b.setReader i (.copying (got ++ [read b.record]))) where
  record := h.record
  some_posted _ := h.some_posted (Or.inr ⟨i, by rw [hreader]; exact fun h => nomatch h⟩)
  last r hr := by
    rcases h.last r hr with hflag | ⟨j, got', hcopying, hprefix⟩ | htaken
    · exact Or.inl hflag
    · by_cases hj : j = i
      · subst hj
        rw [hreader] at hcopying
        cases hcopying
        refine Or.inr (Or.inl ⟨j, _, readers_setReader_self j _, ?_⟩)
        rw [h.record r hr]
        exact prefix_snoc hprefix hread
      · exact Or.inr (Or.inl ⟨j, got', (readers_setReader_ne hj _).trans hcopying, hprefix⟩)
    · exact Or.inr (Or.inr htaken)
  copying j got' hgot := by
    rcases readers_setReader hgot with ⟨_, hmoved⟩ | ⟨_, hsame⟩
    · cases hmoved
      refine (h.copying i got hreader).snoc hread (h.some_posted (Or.inr ⟨i, ?_⟩))
      rw [hreader]
      exact fun h => nomatch h
    · exact h.copying j got' hsame
  taken := h.taken
  once j := by
    have hone := h.once j
    rw [passes_setReader]
    split
    · rename_i heq
      subst heq
      rw [Box.passes, hreader] at hone
      exact ⟨hone.1, fun hflag _ => hone.2 hflag fun h => nomatch h⟩
    · rename_i hne
      rw [readers_setReader_ne hne]
      exact hone

theorem Inv.took (h : Inv reads b) {i : Nat} {got : List ν}
    (hreader : b.readers i = .copying got) (hlength : got.length = reads.length) :
    Inv reads { b.setReader i .idle with taken := b.taken ++ [(i, got)] } where
  record := h.record
  some_posted _ := h.some_posted (Or.inr ⟨i, by rw [hreader]; exact fun h => nomatch h⟩)
  last r hr := by
    rcases h.last r hr with hflag | ⟨j, got', hcopying, hprefix⟩ | ⟨j, htaken⟩
    · exact Or.inl hflag
    · by_cases hj : j = i
      · subst hj
        rw [hreader] at hcopying
        cases hcopying
        refine Or.inr (Or.inr ⟨j, List.mem_append_right _ ?_⟩)
        rw [← eq_copyOf hprefix hlength]
        exact List.mem_singleton_self _
      · exact Or.inr (Or.inl ⟨j, got', (readers_setReader_ne hj _).trans hcopying, hprefix⟩)
    · exact Or.inr (Or.inr ⟨j, List.mem_append_left _ htaken⟩)
  copying j got' hgot := by
    rcases readers_setReader hgot with ⟨_, hmoved⟩ | ⟨_, hsame⟩
    · cases hmoved
    · exact h.copying j got' hsame
  taken t ht := by
    rcases List.mem_append.mp ht with ht | ht
    · exact h.taken t ht
    · rw [List.mem_singleton.mp ht]
      exact h.copying i got hreader
  once j := by
    have hone := h.once j
    have hpasses : ({ b.setReader i .idle with taken := b.taken ++ [(i, got)] } : Box ρ ν).passes j =
        b.passes j := by
      unfold Box.passes
      rw [List.filter_append, List.length_append]
      by_cases hj : j = i
      · subst hj
        rw [hreader]
        show _ + ([(j, got)].filter fun t => t.1 = j).length +
          (if ((b.setReader j Reader.idle).readers j).isIdle then 0 else 1) = _
        rw [readers_setReader_self]
        simp [Reader.isIdle]
      · show _ + ([(i, got)].filter fun t => t.1 = j).length +
          (if ((b.setReader i Reader.idle).readers j).isIdle then 0 else 1) = _
        rw [readers_setReader_ne hj]
        have hne : i ≠ j := Ne.symm hj
        simp [hne]
    refine ⟨hpasses ▸ hone.1, fun hflag hne => hpasses ▸ hone.2 hflag ?_⟩
    by_cases hj : j = i
    · subst hj
      rw [hreader]
      exact fun h => nomatch h
    · rw [← readers_setReader_ne hj Reader.idle]
      exact hne

theorem Inv.step {a : Label ρ} (h : Inv reads b) (hstep : step reads b a = some b') :
    Inv reads b' := by
  cases step_cases hstep with
  | post r => exact h.post r
  | found i hreader hflag => exact h.found hreader hflag
  | nothing i hreader hflag => exact h
  | lowered i hreader => exact h.lowered hreader
  | copied i got read hreader hread => exact h.copied hreader hread
  | took i got hreader hlength => exact h.took hreader hlength

/-- The records of a run, the last one at the end. -/
def posts (as : List (Label ρ)) : List ρ :=
  as.filterMap fun
    | .post r => some r
    | _ => none

theorem run_posted {as : List (Label ρ)} (hrun : run (Mailbox.step reads) b as = some b') :
    b'.posted = b.posted ++ posts as := by
  induction as generalizing b with
  | nil =>
    cases hrun
    exact (List.append_nil _).symm
  | cons a as ih =>
    obtain ⟨b₁, hb₁, hrest⟩ := run_cons_some hrun
    rw [ih hrest]
    cases step_cases hb₁ with
    | post r => exact List.append_assoc ..
    | found i hreader hflag => rfl
    | nothing i hreader hflag => rfl
    | lowered i hreader => rfl
    | copied i got read hreader hread => rfl
    | took i got hreader hlength => rfl

/-- The invariant of every run from an empty box. -/
theorem run_inv {record : ρ} {as : List (Label ρ)}
    (hrun : run (step reads) (Box.empty record) as = some b) : Inv reads b :=
  run_invariant_all (fun _ _ _ h hstep => h.step hstep) (empty_inv record) hrun

/-! ## A reader on its own -/

/-- What is left to read, without a post. -/
theorem run_copies (i : Nat) (done rest : List (ρ → ν)) (b : Box ρ ν) :
    run (Mailbox.step (done ++ rest)) (b.setReader i (.copying (copyOf done b.record)))
        (List.replicate rest.length (.copy i)) =
      some (b.setReader i (.copying (copyOf (done ++ rest) b.record))) := by
  induction rest generalizing done with
  | nil => rw [List.append_nil, List.length_nil, List.replicate_zero, run_nil]
  | cons read rest ih =>
    have hread : (done ++ read :: rest)[(copyOf done b.record).length]? = some read := by
      rw [length_copyOf, List.getElem?_append_right (Nat.le_refl _), Nat.sub_self]
      rfl
    have hstep : Mailbox.step (done ++ read :: rest) (b.setReader i (.copying (copyOf done b.record)))
        (.copy i) = some (b.setReader i (.copying (copyOf (done ++ [read]) b.record))) := by
      rw [step, readers_setReader_self]
      simp only [hread, Option.map_some, setReader_setReader]
      rw [copyOf, copyOf, List.map_append]
      rfl
    have hsame : done ++ read :: rest = (done ++ [read]) ++ rest := by
      rw [List.append_assoc, List.singleton_append]
    rw [List.length_cons, List.replicate_succ, run_cons, hstep, Option.bind_some, hsame]
    exact ih (done ++ [read])

/-- The labels of reader `i` for one copy. -/
def pass (reads : List (ρ → ν)) (i : Nat) : List (Label ρ) :=
  [.look i, .lower i] ++ List.replicate reads.length (.copy i)

/-- With the flag up, an idle reader gets to the whole record on its own. -/
theorem run_pass (reads : List (ρ → ν)) {b : Box ρ ν} {i : Nat} (hflag : b.flag = true)
    (hidle : b.readers i = .idle) :
    run (Mailbox.step reads) b (pass reads i) =
      some { b.setReader i (.copying (copyOf reads b.record)) with flag := false } := by
  have hlook : Mailbox.step reads b (.look i) = some (b.setReader i .found) := by
    rw [step, hidle]
    simp only [hflag, if_true]
  have hlower : Mailbox.step reads (b.setReader i .found) (.lower i) =
      some ({ b with flag := false }.setReader i (.copying (copyOf [] b.record))) := by
    rw [step, readers_setReader_self]
    simp only [setReader_setReader]
    rfl
  rw [pass, List.cons_append, run_cons, hlook, Option.bind_some, List.cons_append, run_cons,
    hlower, Option.bind_some, List.nil_append]
  exact run_copies i [] reads { b with flag := false }

/-- It takes the record and is idle again. -/
theorem step_take (reads : List (ρ → ν)) {i : Nat} {r : ρ} (hidle : b.readers i = .idle) :
    Mailbox.step reads { b.setReader i (.copying (copyOf reads r)) with flag := false } (.take i) =
      some { b with flag := false, taken := b.taken ++ [(i, copyOf reads r)] } := by
  have hcopying : ({ b.setReader i (.copying (copyOf reads r)) with flag := false } : Box ρ ν).readers i =
      .copying (copyOf reads r) := readers_setReader_self i _
  have hback : Function.update (b.setReader i (.copying (copyOf reads r))).readers i .idle =
      b.readers := by
    rw [Box.setReader, Function.update_idem, ← hidle]
    exact Function.update_eq_self i b.readers
  rw [Mailbox.step, hcopying]
  simp only [length_copyOf, if_true, Box.setReader]
  rw [Box.setReader] at hback
  rw [hback]

/-! ## Copies that nothing is posted into -/

/-- A post finds no reader between the first and the last read of a copy. -/
def Quiet (reads : List (ρ → ν)) (b : Box ρ ν) : Label ρ → Prop
  | .post _ => ∀ i got, b.readers i = .copying got → got = [] ∨ got.length = reads.length
  | _ => True

/-- It is the copy of a posted record. -/
def Box.Posted (reads : List (ρ → ν)) (b : Box ρ ν) (got : List ν) : Prop :=
  ∃ r ∈ b.posted, got = copyOf reads r

theorem Box.Posted.post {got : List ν} (h : b.Posted reads got) (r : ρ) :
    (b.post r).Posted reads got := by
  obtain ⟨r', hr', heq⟩ := h
  exact ⟨r', List.mem_append_left _ hr', heq⟩

/-- A copy that has all reads is one of the record that was there. -/
theorem Inv.posted_copy (h : Inv reads b) {i : Nat} {got : List ν}
    (hreader : b.readers i = .copying got) (hgot : got <+: copyOf reads b.record)
    (hlength : got.length = reads.length) : b.Posted reads got := by
  refine ⟨b.record, h.some_posted (Or.inr ⟨i, ?_⟩), eq_copyOf hgot hlength⟩
  rw [hreader]
  exact fun h => nomatch h

/-- Every copy is that of one posted record; one under way can go on as that of
the present record, or it has all reads. -/
structure Whole (reads : List (ρ → ν)) (b : Box ρ ν) : Prop where
  inv : Inv reads b
  copying : ∀ i got, b.readers i = .copying got →
    got <+: copyOf reads b.record ∨ b.Posted reads got
  taken : ∀ t ∈ b.taken, b.Posted reads t.2

/-- A copy under way after a post is empty or has all reads. -/
theorem Whole.copying_post (h : Whole reads b) {r : ρ} (hquiet : Quiet reads b (.post r))
    {i : Nat} {got : List ν} (hreader : b.readers i = .copying got) :
    got <+: copyOf reads r ∨ (b.post r).Posted reads got := by
  rcases hquiet i got hreader with hnil | hlength
  · rw [hnil]
    exact Or.inl List.nil_prefix
  · refine Or.inr (Box.Posted.post ?_ r)
    rcases h.copying i got hreader with hprefix | hposted
    · exact h.inv.posted_copy hreader hprefix hlength
    · exact hposted

theorem Whole.step {a : Label ρ} (h : Whole reads b) (hquiet : Quiet reads b a)
    (hstep : Mailbox.step reads b a = some b') : Whole reads b' := by
  have hinv := h.inv.step hstep
  cases step_cases hstep with
  | post r =>
    exact ⟨hinv, fun i got hgot => h.copying_post hquiet hgot, fun t ht => (h.taken t ht).post r⟩
  | found i hreader hflag =>
    refine ⟨hinv, fun j got hgot => ?_, h.taken⟩
    rcases readers_setReader hgot with ⟨_, hmoved⟩ | ⟨_, hsame⟩
    · cases hmoved
    · exact h.copying j got hsame
  | nothing i hreader hflag => exact h
  | lowered i hreader =>
    refine ⟨hinv, fun j got hgot => ?_, h.taken⟩
    rcases readers_setReader hgot with ⟨_, hmoved⟩ | ⟨_, hsame⟩
    · cases hmoved
      exact Or.inl List.nil_prefix
    · exact h.copying j got hsame
  | copied i got read hreader hread =>
    refine ⟨hinv, fun j got' hgot => ?_, h.taken⟩
    rcases readers_setReader hgot with ⟨_, hmoved⟩ | ⟨_, hsame⟩
    · cases hmoved
      rcases h.copying i got hreader with hprefix | ⟨r, _, heq⟩
      · exact Or.inl (prefix_snoc hprefix hread)
      · -- it has all reads, so there is none to come
        rw [heq, length_copyOf, List.getElem?_eq_none (Nat.le_refl _)] at hread
        cases hread
    · exact h.copying j got' hsame
  | took i got hreader hlength =>
    refine ⟨hinv, fun j got' hgot => ?_, fun t ht => ?_⟩
    · rcases readers_setReader hgot with ⟨_, hmoved⟩ | ⟨_, hsame⟩
      · cases hmoved
      · exact h.copying j got' hsame
    · rcases List.mem_append.mp ht with ht | ht
      · exact h.taken t ht
      · rw [List.mem_singleton.mp ht]
        rcases h.copying i got hreader with hprefix | hposted
        · exact h.inv.posted_copy hreader hprefix hlength
        · exact hposted

theorem taken_whole {record : ρ} {as : List (Label ρ)}
    (hquiet : Along (step reads) (Quiet reads) (Box.empty record) as)
    (hrun : run (step reads) (Box.empty record) as = some b) :
    ∀ t ∈ b.taken, b.Posted reads t.2 := by
  have hempty : Whole reads (Box.empty record : Box ρ ν) :=
    ⟨empty_inv record, fun _ _ h => (nomatch h), fun _ h => (nomatch h)⟩
  exact (run_invariant (fun _ _ _ h hok hstep => h.step hok hstep) hempty hquiet hrun).taken

end AmigaFleet.Lib.Mailbox
