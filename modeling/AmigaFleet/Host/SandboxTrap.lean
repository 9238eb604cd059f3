import AmigaFleet.Host.DebugRing
import AmigaFleet.Host.Kicklayout
import AmigaFleet.Lib.Around

/-!
# The last trap in the debug ring

`_extract_trap` of `tools/sandbox.py`.  It looks for the last line that speaks
of a trap, takes the lines around it that belong to a trap or to SandboxVM, and
reads the first trap type and the hints in them.  `alnum` tells which characters
outside ASCII are letters or digits.

`extractTrap_iff` says when this is what the last dump alone would give, line by
line: a trap type that begins in one line can end in the next one
(`stays_reTraptype`), and a hint stands in one line (`infix_joined_iff`).
`adjacent_dumps` is a ring where the trap before is returned.
-/

namespace AmigaFleet.Host.SandboxTrap

open AmigaFleet.Lib AmigaFleet.Host.DebugRing PyStr
open Kicklayout (isWord)

/-! ## The patterns -/

/-- The characters that a small letter of a pattern matches with `(?i)`. -/
def anyCaseOf (letter c : Char) : Bool :=
  c.toLower = letter || (letter = 'i' && (c.toNat = 0x130 || c.toNat = 0x131)) ||
    (letter = 's' && c.toNat = 0x17F)

def litAnyCase (w : List Char) : Pattern Char := .all (w.map fun c => .one (anyCaseOf c))

/-- `[0-9a-f]` with `(?i)` -/
def isHexDigit (c : Char) : Bool := c.isDigit || ('a' ≤ c.toLower && c.toLower ≤ 'f')

variable (alnum : Char → Bool)

/-- `_RE_TRAPTYPE` -/
def reTraptype : Pattern Char :=
  .seq (.boundary (isWord alnum)) <| .seq (litAnyCase "trap".toList) <|
  .seq (.opt (.one fun c => c = '_' || c = ' ')) <| .seq (litAnyCase "type".toList) <|
  .seq (.many isSpace) <| .seq (.one (· = '=')) <| .seq (.many isSpace) <|
  .seq (litAnyCase "0x".toList) <| .group (.plus isHexDigit)

/-- `_RE_SANDBOXVM_LINE` -/
def reSandboxvmLine : Pattern Char :=
  .seq (litAnyCase "[sandbox".toList) <| .seq (.opt (.group (litAnyCase "vm".toList))) <|
  .one (· = ']')

/-- `_RE_TRAP_LINE` -/
def reTrapLine : Pattern Char :=
  .seq (.boundary (isWord alnum)) <|
  .seq (.group <| .alt (litAnyCase "trap".toList) <| .alt (litAnyCase "dsi".toList) <|
    .alt (litAnyCase "isi".toList) <| .alt (litAnyCase "alignment".toList) <|
    .alt (litAnyCase "illegal".toList) <| .alt (litAnyCase "privilege".toList) <|
    litAnyCase "fault".toList) <|
  .boundary (isWord alnum)

/-- A line with a trap type. -/
def hasTraptype (line : List Char) : Bool := ((reTraptype alnum).search line).isSome

/-- `_is_anchor` -/
def isAnchor (line : List Char) : Bool :=
  hasTraptype alnum line || ((reTrapLine alnum).search line).isSome

/-- `_is_block_member` -/
def isBlockMember (line : List Char) : Bool :=
  isAnchor alnum line || (reSandboxvmLine.search line).isSome

/-! ## `_extract_trap` -/

/-- `_TRAP_KIND_BY_HEX` -/
def trapKindByHex (hex : List Char) : Option TrapKind :=
  if hex = "300".toList then some .dsi
  else if hex = "400".toList then some .isi
  else if hex = "600".toList then some .alignment
  else if hex = "700".toList then some .program
  else if hex = "800".toList then some .fpUnavailable
  else none

/-- `"\n".join` -/
def joined (lines : List (List Char)) : List Char := ['\n'].intercalate lines

/-- The number of a trap type: small hex digits without leading zeros. -/
def numberOf (m : Pattern.Hit Char) : List Char :=
  let hex := ((m.groups.getD 0 []).map Char.toLower).dropWhile (· = '0')
  if hex = [] then ['0'] else hex

/-- The first trap type in some lines. -/
def firstTraptype (lines : List (List Char)) : Option (List Char) :=
  ((reTraptype alnum).search (joined lines)).map numberOf

/-- What is returned about a trap, without the lines. -/
structure TrapReport where
  kind : Option TrapKind
  fingerprint : Option Fingerprint
  traptypeHex : Option (List Char)
deriving DecidableEq, Repr

/-- What `_extract_trap` reads in its block. -/
def trapReport (block : List (List Char)) : TrapReport :=
  let hex := firstTraptype alnum block
  { kind := hex.bind trapKindByHex
    fingerprint := fingerprintOf (joined block)
    traptypeHex := hex.map ("0x".toList ++ ·) }

section

variable {α : Type} (p : α → Bool) (lines : List α)

/-- The search for `last_trap_idx`, below an index. -/
def lastTrapIdx : Nat → Option Nat
  | 0 => none
  | i + 1 => if lines[i]?.any p then some i else lastTrapIdx i

/-- The loop that moves `start`. -/
def blockStart : Nat → Nat
  | 0 => 0
  | start + 1 => if lines[start]?.any p then blockStart start else start + 1

/-- The loop that moves `end`, with the lines behind it. -/
def blockEnd (stop : Nat) : List α → Nat
  | [] => stop
  | l :: rest => if p l then blockEnd (stop + 1) rest else stop

end

/-- `_extract_trap` -/
def extractTrap (lines : List (List Char)) : TrapReport × List (List Char) :=
  match lastTrapIdx (isAnchor alnum) lines lines.length with
  | none => (⟨none, none, none⟩, [])
  | some lastTrap =>
    let start := blockStart (isBlockMember alnum) lines lastTrap
    let stop := blockEnd (isBlockMember alnum) lastTrap (lines.drop (lastTrap + 1))
    let block := (lines.take (stop + 1)).drop start
    (trapReport alnum block, block)

/-! ## Dumps -/

/-- The last dump: the last line with a trap type, and the lines of a trap or of
SandboxVM behind it. -/
def lastDump (lines : List (List Char)) : List (List Char) :=
  match splitLast (hasTraptype alnum) lines with
  | none => []
  | some (_, line, after) => line :: after.takeWhile (isBlockMember alnum)

/-- The first trap type that begins in `line`; it may end in the line behind. -/
def fieldIn (line next : List Char) : Option (List Char) :=
  ((reTraptype alnum).searchIn none line ('\n' :: next)).map numberOf

/-- The first trap type that begins in one of the lines but the last. -/
def fieldBefore : List (List Char) → Option (List Char)
  | line :: next :: rest => (fieldIn alnum line next).or (fieldBefore (next :: rest))
  | _ => none

/-- All the hints stand in the lines, each in one of them. -/
def Hinted (lines : List (List Char)) : Prop := ∀ hint ∈ kmodHints, ∃ line ∈ lines, hint <:+: line

/-- The lines directly in front of a dump do not change what it shows: no trap
type begins there, or the first that does is that of the dump, and they do not
make up the hints that the dump lacks. -/
structure Unspoilt (front : List (List Char)) (line : List Char) (rest : List (List Char)) :
    Prop where
  number : ∀ hex, fieldBefore alnum (front ++ [line]) = some hex →
    firstTraptype alnum (line :: rest) = some hex
  hints : ¬ Hinted (line :: rest) → ∃ hint ∈ kmodHints, ∀ l ∈ front ++ line :: rest, ¬ hint <:+: l

/-- Lines without a trap type show what the dump shows: a trap type that is
broken over two of them is that of the dump, and they have all the hints if it
has. -/
structure Mimics (lines dump : List (List Char)) : Prop where
  number : fieldBefore alnum lines = firstTraptype alnum dump
  hints : Hinted lines ↔ Hinted dump

/-- The last dump is what is read.  No line behind it speaks of a trap, or the
lines around the last one that does show the same as the dump; and if none does,
the lines directly in front of the dump do not change it.  Without a dump the
lines around the last one that speaks of a trap show nothing. -/
def Latest (lines : List (List Char)) : Prop :=
  match splitLast (hasTraptype alnum) lines with
  | none => ∀ run, IsRun (isAnchor alnum) (isBlockMember alnum) lines run → Mimics alnum run []
  | some (before, line, after) =>
    let rest := after.takeWhile (isBlockMember alnum)
    let behind := after.dropWhile (isBlockMember alnum)
    (∀ run, IsRun (isAnchor alnum) (isBlockMember alnum) behind run →
        Mimics alnum run (line :: rest)) ∧
      ((∀ l ∈ behind, isAnchor alnum l = false) →
        Unspoilt alnum (before.rtakeWhile (isBlockMember alnum)) line rest)

/-! ## The block -/

/-- The lines of a trap or of SandboxVM around the last line that speaks of a
trap. -/
def trapRun (lines : List (List Char)) : List (List Char) :=
  around (isAnchor alnum) (isBlockMember alnum) lines

section

variable {α : Type} {p : α → Bool}

theorem lastTrapIdx_append {y : α} {after : List α} (hy : p y = true)
    (hafter : ∀ x ∈ after, p x = false) (before : List α) {k : Nat} (hk : k ≤ after.length) :
    lastTrapIdx p (before ++ y :: after) (before.length + 1 + k) = some before.length := by
  induction k with
  | zero =>
    have hget : (before ++ y :: after)[before.length]? = some y := by
      rw [List.getElem?_append_right (Nat.le_refl _), Nat.sub_self, List.getElem?_cons_zero]
    rw [Nat.add_zero, lastTrapIdx, hget, Option.any_some, if_pos hy]
  | succ k ih =>
    have hlt : k < after.length := by omega
    have hget : (before ++ y :: after)[before.length + 1 + k]? = some after[k] := by
      rw [List.getElem?_append_right (by omega)]
      have hidx : before.length + 1 + k - before.length = k + 1 := by omega
      rw [hidx, List.getElem?_cons_succ, List.getElem?_eq_getElem hlt]
    rw [← Nat.add_assoc, lastTrapIdx, hget, Option.any_some, hafter _ (List.getElem_mem hlt)]
    exact ih (by omega)

theorem lastTrapIdx_none {lines : List α} (h : ∀ x ∈ lines, p x = false) (i : Nat) :
    lastTrapIdx p lines i = none := by
  induction i with
  | zero => rfl
  | succ i ih =>
    rw [lastTrapIdx]
    cases hget : lines[i]? with
    | none => exact ih
    | some x =>
      rw [Option.any_some, h x (List.mem_of_getElem? hget)]
      exact ih

theorem blockStart_append (before rest : List α) :
    blockStart p (before ++ rest) before.length = (before.rdropWhile p).length := by
  induction before using List.reverseRecOn generalizing rest with
  | nil => rfl
  | append_singleton before x ih =>
    have hget : (before ++ [x] ++ rest)[before.length]? = some x := by
      rw [List.append_assoc, List.getElem?_append_right (Nat.le_refl _), Nat.sub_self]
      rfl
    rw [List.length_append, List.length_singleton, blockStart, hget, Option.any_some,
      List.rdropWhile_concat]
    split
    · rw [List.append_assoc, ih]
    · rw [List.length_append, List.length_singleton]

theorem blockEnd_eq (stop : Nat) (rest : List α) :
    blockEnd p stop rest = stop + (rest.takeWhile p).length := by
  induction rest generalizing stop with
  | nil => rfl
  | cons x rest ih =>
    rw [blockEnd, List.takeWhile_cons]
    split
    · rw [ih, List.length_cons]
      omega
    · rfl

/-- The slice between the two ends is the run around the element. -/
theorem slice_append (before : List α) (y : α) (after : List α) :
    ((before ++ y :: after).take (before.length + (after.takeWhile p).length + 1)).drop
        (before.rdropWhile p).length =
      before.rtakeWhile p ++ y :: after.takeWhile p := by
  have hlist : before ++ y :: after =
      (before.rdropWhile p ++ (before.rtakeWhile p ++ y :: after.takeWhile p)) ++
        after.dropWhile p := by
    calc before ++ y :: after
        = (before.rdropWhile p ++ before.rtakeWhile p) ++
            y :: (after.takeWhile p ++ after.dropWhile p) := by
          rw [List.rdropWhile_append_rtakeWhile, List.takeWhile_append_dropWhile]
      _ = _ := by simp only [List.append_assoc, List.cons_append]
  have hlength : before.length + (after.takeWhile p).length + 1 =
      (before.rdropWhile p ++ (before.rtakeWhile p ++ y :: after.takeWhile p)).length := by
    have hparts : (before.rdropWhile p ++ before.rtakeWhile p).length = before.length := by
      rw [List.rdropWhile_append_rtakeWhile]
    simp only [List.length_append, List.length_cons] at hparts ⊢
    omega
  rw [hlist, hlength, List.take_left, List.drop_left]

end

variable {alnum} {lines : List (List Char)}

theorem trapReport_nil : trapReport alnum [] = ⟨none, none, none⟩ := by
  rfl

theorem isBlockMember_of_isAnchor {line : List Char} (h : isAnchor alnum line = true) :
    isBlockMember alnum line = true := by
  rw [isBlockMember, h, Bool.true_or]

/-- The block is the run around the last line that speaks of a trap. -/
theorem extractTrap_eq :
    extractTrap alnum lines = (trapReport alnum (trapRun alnum lines), trapRun alnum lines) := by
  unfold extractTrap trapRun around
  cases hsplit : splitLast (isAnchor alnum) lines with
  | none =>
    rw [lastTrapIdx_none (splitLast_eq_none.mp hsplit)]
    dsimp only
    rw [trapReport_nil]
  | some m =>
    obtain ⟨before, y, after⟩ := m
    obtain ⟨rfl, hy, hafter⟩ := eq_of_splitLast hsplit
    have hlast := lastTrapIdx_append hy hafter before (Nat.le_refl _)
    have hlength : (before ++ y :: after).length = before.length + 1 + after.length := by
      rw [List.length_append, List.length_cons]
      omega
    have hdrop : (before ++ y :: after).drop (before.length + 1) = after := by
      rw [List.append_cons]
      exact List.drop_left' (by rw [List.length_append, List.length_singleton])
    rw [hlength, hlast]
    simp only [hdrop, blockStart_append, blockEnd_eq, slice_append]

/-! ## Lines and their text -/

theorem joined_cons (line next : List Char) (rest : List (List Char)) :
    joined (line :: next :: rest) = line ++ '\n' :: joined (next :: rest) := by
  simp [joined, List.intercalate]

/-- A text without line breaks stands in one of the lines. -/
theorem infix_joined_iff {w : List Char} (hne : w ≠ []) (hw : '\n' ∉ w) (lines : List (List Char)) :
    w <:+: joined lines ↔ ∃ line ∈ lines, w <:+: line := by
  have hsplit : ∀ s t : List Char, w <:+: s ++ '\n' :: t ↔ w <:+: s ∨ w <:+: t := by
    intro s t
    constructor
    · rintro ⟨u, v, huv⟩
      rw [List.append_assoc] at huv
      rcases List.append_eq_append_iff.mp huv with ⟨x, hs, hx⟩ | ⟨x, hu, hx⟩
      · rcases List.append_eq_append_iff.mp hx with ⟨y, hx', -⟩ | ⟨y, hwy, hy⟩
        · exact Or.inl ⟨u, y, by rw [hs, hx', List.append_assoc]⟩
        · cases y with
          | nil => exact Or.inl ⟨u, [], by rw [hs, hwy, List.append_nil, List.append_nil]⟩
          | cons c y =>
            obtain ⟨rfl, -⟩ := List.cons_eq_cons.mp hy
            exact absurd (hwy ▸ List.mem_append_right x List.mem_cons_self) hw
      · cases x with
        | nil =>
          cases w with
          | nil => exact absurd rfl hne
          | cons c w =>
            obtain ⟨rfl, -⟩ := List.cons_eq_cons.mp hx
            exact absurd List.mem_cons_self hw
        | cons c x =>
          obtain ⟨-, ht⟩ := List.cons_eq_cons.mp hx
          exact Or.inr ⟨x, v, (List.append_assoc x w v).trans ht.symm⟩
    · rintro (h | h)
      · exact h.trans (List.prefix_append s _).isInfix
      · exact h.trans ⟨s ++ ['\n'], [], by simp⟩
  induction lines with
  | nil => simpa [joined] using hne
  | cons line lines ih =>
    cases lines with
    | nil => simp [joined]
    | cons next rest =>
      rw [joined_cons, hsplit, List.exists_mem_cons_iff]
      exact or_congr_right ih

theorem hinted_iff (lines : List (List Char)) :
    Hinted lines ↔ ∀ hint ∈ kmodHints, hint <:+: joined lines := by
  have hplain : ∀ hint ∈ kmodHints, hint ≠ [] ∧ '\n' ∉ hint := by decide
  refine forall₂_congr fun hint hmem => ?_
  exact (infix_joined_iff (hplain hint hmem).1 (hplain hint hmem).2 lines).symm

theorem fingerprintOf_eq_iff {s t : List Char} : fingerprintOf s = fingerprintOf t ↔
    ((∀ hint ∈ kmodHints, hint <:+: s) ↔ ∀ hint ∈ kmodHints, hint <:+: t) := by
  have hall : ∀ u : List Char, kmodHints.all (fun hint => decide (hint <:+: u)) = true ↔
      ∀ hint ∈ kmodHints, hint <:+: u := by
    intro u
    simp only [List.all_eq_true, decide_eq_true_eq]
  unfold fingerprintOf
  rw [← hall s, ← hall t]
  cases kmodHints.all fun hint => decide (hint <:+: s) <;>
    cases kmodHints.all fun hint => decide (hint <:+: t) <;> simp

theorem trapReport_eq_iff {xs ys : List (List Char)} :
    trapReport alnum xs = trapReport alnum ys ↔
      firstTraptype alnum xs = firstTraptype alnum ys ∧ (Hinted xs ↔ Hinted ys) := by
  have hhex : (firstTraptype alnum xs).map ("0x".toList ++ ·) =
      (firstTraptype alnum ys).map ("0x".toList ++ ·) ↔
        firstTraptype alnum xs = firstTraptype alnum ys :=
    (Option.map_injective fun _ _ h => List.append_cancel_left h).eq_iff
  rw [hinted_iff, hinted_iff, ← fingerprintOf_eq_iff, ← hhex, trapReport, trapReport,
    TrapReport.mk.injEq, hhex]
  constructor
  · rintro ⟨-, hfingerprint, htype⟩
    exact ⟨htype, hfingerprint⟩
  · rintro ⟨htype, hfingerprint⟩
    exact ⟨by rw [htype], hfingerprint, htype⟩

/-! ## Trap types in neighbouring lines -/

/-- A character that stands neither for white space nor for `=`. -/
def Solid (line : List Char) : Prop := ∃ c ∈ line, isSpace c = false ∧ c ≠ '='

theorem toLower_of_isSpace {c : Char} (hc : isSpace c = true) : c.toLower = c := by
  have hnot : ¬ (65 ≤ c.toNat ∧ c.toNat ≤ 90) := by
    simp only [isSpace, decide_eq_true_eq] at hc
    omega
  unfold Char.toLower
  split
  · rename_i hupper
    exact absurd hupper hnot
  · rfl

/-- A letter of a pattern takes no white space and no `=`. -/
theorem anyCaseOf_solid {letter c : Char} (hletter : isSpace letter = false ∧ letter ≠ '=')
    (h : anyCaseOf letter c = true) : isSpace c = false ∧ c ≠ '=' := by
  constructor
  · by_contra hspace
    have hc : isSpace c = true := by simpa using hspace
    simp only [anyCaseOf, toLower_of_isSpace hc, Bool.or_eq_true, Bool.and_eq_true,
      decide_eq_true_eq] at h
    simp only [isSpace, decide_eq_true_eq] at hc
    rcases h with (rfl | ⟨-, hi | hi⟩) | ⟨-, hs⟩
    · simp only [isSpace, decide_eq_false_iff_not] at hletter
      omega
    all_goals omega
  · rintro rfl
    have hlow : ('=' : Char).toLower = '=' := by decide
    simp only [anyCaseOf, hlow, Bool.or_eq_true, Bool.and_eq_true, decide_eq_true_eq] at h
    rcases h with (rfl | ⟨-, hi | hi⟩) | ⟨-, hs⟩
    · exact hletter.2 rfl
    · exact absurd hi (by decide)
    · exact absurd hi (by decide)
    · exact absurd hs (by decide)

theorem solid_of_leads {w : List Char} (letter : Char) (hw : w.head? = some letter)
    (hletter : isSpace letter = false ∧ letter ≠ '=') {prev : Option Char} {s : List Char}
    {P : Option Char → List Char → Prop} (h : (litAnyCase w).Leads prev s P) : Solid s := by
  cases w with
  | nil => cases hw
  | cons first w =>
    obtain rfl := Option.some.inj hw
    obtain ⟨c, r, rfl, hc, -⟩ := Pattern.leads_one.mp (Pattern.leads_seq.mp h)
    exact ⟨c, List.mem_cons_self, anyCaseOf_solid hletter hc⟩

theorem Solid.append_left {s : List Char} (h : Solid s) (t : List Char) : Solid (t ++ s) := by
  obtain ⟨c, hc, hsolid⟩ := h
  exact ⟨c, List.mem_append_right t hc, hsolid⟩

theorem solid_of_hasTraptype {line : List Char} (h : hasTraptype alnum line = true) : Solid line := by
  obtain ⟨t, r, rfl, hleads⟩ := (Pattern.searchFrom_isSome _ _ _).mp h
  rw [reTraptype, Pattern.leads_seq, Pattern.leads_boundary, Pattern.leads_seq] at hleads
  exact (solid_of_leads 't' rfl (by decide) hleads.2).append_left t

theorem solid_of_isBlockMember {line : List Char} (h : isBlockMember alnum line = true) :
    Solid line := by
  simp only [isBlockMember, isAnchor, Bool.or_eq_true] at h
  rcases h with (htype | htrap) | hsandbox
  · exact solid_of_hasTraptype htype
  · obtain ⟨t, r, rfl, hleads⟩ := (Pattern.searchFrom_isSome _ _ _).mp htrap
    rw [reTrapLine, Pattern.leads_seq, Pattern.leads_boundary, Pattern.leads_seq,
      Pattern.leads_group] at hleads
    simp only [Pattern.leads_alt] at hleads
    refine Solid.append_left ?_ t
    rcases hleads.2 with h | h | h | h | h | h | h
    · exact solid_of_leads 't' rfl (by decide) h
    · exact solid_of_leads 'd' rfl (by decide) h
    · exact solid_of_leads 'i' rfl (by decide) h
    · exact solid_of_leads 'a' rfl (by decide) h
    · exact solid_of_leads 'i' rfl (by decide) h
    · exact solid_of_leads 'p' rfl (by decide) h
    · exact solid_of_leads 'f' rfl (by decide) h
  · obtain ⟨t, r, rfl, hleads⟩ := (Pattern.searchFrom_isSome _ _ _).mp hsandbox
    rw [reSandboxvmLine, Pattern.leads_seq] at hleads
    exact (solid_of_leads '[' rfl (by decide) hleads).append_left t

/-- No letter of such a word is a newline. -/
theorem anyCaseOf_newline {w : List Char}
    (hall : (w.all fun letter => !isSpace letter && letter != '=') = true) {letter : Char}
    (hmem : letter ∈ w) : anyCaseOf letter '\n' = false := by
  have hsolid : isSpace letter = false ∧ letter ≠ '=' := by
    simpa using List.all_eq_true.mp hall letter hmem
  by_contra hany
  exact absurd (anyCaseOf_solid hsolid (eq_true_of_ne_false hany)).1 (by decide)

theorem takes_litAnyCase {w : List Char}
    (hall : (w.all fun letter => !isSpace letter && letter != '=') = true) :
    (litAnyCase w).Takes (· ≠ '\n') := by
  refine Pattern.takes_all fun a ha => ?_
  obtain ⟨letter, hmem, rfl⟩ := List.mem_map.mp ha
  refine Pattern.takes_one fun c hc heq => ?_
  rw [heq, anyCaseOf_newline hall hmem] at hc
  cases hc

theorem stays_litAnyCase {w more : List Char}
    (hall : (w.all fun letter => !isSpace letter && letter != '=') = true)
    (hmore : ∀ c ∈ more.head?, c = '\n') (prev : Option Char) (s : List Char) :
    (litAnyCase w).Stays more prev s := by
  refine Pattern.stays_all fun a ha => ?_
  obtain ⟨letter, hmem, rfl⟩ := List.mem_map.mp ha
  exact fun prev s => Pattern.stays_one fun c hc => hmore c hc ▸ anyCaseOf_newline hall hmem

/-- A trap type that begins in front of a line break ends in the line behind it. -/
theorem stays_reTraptype {prev : Option Char} {t next more : List Char} (hsolid : Solid next)
    (hmore : ∀ c ∈ more.head?, c = '\n') :
    (reTraptype alnum).Stays more prev (t ++ '\n' :: next) := by
  have hclosed : ∀ p : Char → Bool, p '\n' = false → ∀ c ∈ more.head?, p c = false :=
    fun p hp c hc => hmore c hc ▸ hp
  have hnewline : ¬ ('\n' ≠ '\n') := fun h => h rfl
  have hsep : ∀ c : Char, (decide (c = '_') || decide (c = ' ')) = true → c ≠ '\n' := by
    rintro c hc rfl
    cases hc
  obtain ⟨x, hx, hspace, heq⟩ := hsolid
  obtain ⟨u, v, rfl⟩ := List.mem_iff_append.mp hx
  have hnospace : ¬ isSpace x = true := by simp [hspace]
  -- behind `type` the character `x` stands in the text, which neither white space nor `=` takes
  have hvalue : ∀ prev s, (Pattern.seq (litAnyCase "0x".toList)
      (.group (.plus isHexDigit))).Stays more prev s := by
    intro prev s
    refine Pattern.stays_seq (stays_litAnyCase (by decide) hmore prev s) fun h _ => ?_
    refine Pattern.stays_group (Pattern.stays_seq (Pattern.stays_one ?_) fun h _ => ?_)
    · exact hclosed isHexDigit (by decide)
    · exact Pattern.stays_many (Or.inr (hclosed isHexDigit (by decide)))
  have hblanks : ∀ prev (s r : List Char), (Pattern.many isSpace).Stays more prev (s ++ x :: r) :=
    fun prev s r => Pattern.stays_many (Or.inl
      ⟨x, List.mem_append_right s List.mem_cons_self, hspace⟩)
  have htail : ∀ prev s, (Pattern.seq (.many isSpace) <| .seq (.one (· = '=')) <|
      .seq (.many isSpace) <| .seq (litAnyCase "0x".toList) <|
        .group (.plus isHexDigit)).Stays more prev (s ++ x :: v) := by
    intro prev s
    refine (Pattern.takes_many fun c hc => hc).stays_seq hnospace (hblanks prev s v) fun prev s => ?_
    refine (Pattern.takes_one (P := (· = '=')) fun c hc => of_decide_eq_true hc).stays_seq heq
      (Pattern.stays_one (hclosed _ (by decide))) fun prev s => ?_
    refine (Pattern.takes_many fun c hc => hc).stays_seq hnospace (hblanks prev s v) fun prev s => ?_
    exact hvalue prev _
  unfold reTraptype
  refine (Pattern.takes_boundary _).stays_seq hnewline
    (Pattern.stays_boundary _ (by simp)) fun prev t => ?_
  refine (takes_litAnyCase (by decide)).stays_seq hnewline
    (stays_litAnyCase (by decide) hmore prev _) fun prev t => ?_
  refine ((Pattern.takes_one hsep).alt Pattern.takes_empty).stays_seq hnewline
    (Pattern.stays_alt (Pattern.stays_one (hclosed _ (by decide))) Pattern.stays_empty)
    fun prev t => ?_
  refine (takes_litAnyCase (by decide)).stays_seq hnewline
    (stays_litAnyCase (by decide) hmore prev _) fun prev t => ?_
  have htext : t ++ '\n' :: (u ++ x :: v) = (t ++ '\n' :: u) ++ x :: v := by simp
  rw [htext]
  exact htail prev _

/-- The first trap type of some lines begins in the first of them, or it is the
first of the others. -/
theorem firstTraptype_cons {line next : List Char} {rest : List (List Char)}
    (h : rest = [] ∨ Solid next) :
    firstTraptype alnum (line :: next :: rest) =
      (fieldIn alnum line next).or (firstTraptype alnum (next :: rest)) := by
  have hfirst : ((reTraptype alnum).searchIn none line ('\n' :: joined (next :: rest))).map numberOf =
      fieldIn alnum line next := by
    cases rest with
    | nil => simp [joined, fieldIn]
    | cons l rest =>
      have hsolid := h.resolve_left (List.cons_ne_nil _ _)
      have hstays : ∀ prev t, (reTraptype alnum).Stays ('\n' :: joined (l :: rest)) prev
          (t ++ '\n' :: next) :=
        fun prev t => stays_reTraptype hsolid fun c hc => (Option.some.inj hc).symm
      rw [joined_cons, ← List.cons_append, Pattern.searchIn_stays none hstays, Option.map_map]
      rfl
  have hbars : (reTraptype alnum).Bars ['\n'] := by
    refine Pattern.Bars.boundary_seq (Pattern.Bars.seq (Pattern.Bars.seq ?_ _) _) _
    refine Pattern.bars_one fun c hc => ?_
    rw [List.mem_singleton.mp hc]
    rfl
  have hblind : (reTraptype alnum).Blind (some '\n') none := by
    refine ⟨rfl, ?_⟩
    simp [Pattern.Blind, litAnyCase, Pattern.all, Pattern.opt, Pattern.plus]
  have hbehind : ∀ prev text, (reTraptype alnum).searchFrom prev ('\n' :: text) =
      (reTraptype alnum).search text := by
    intro prev text
    rw [Pattern.searchFrom, hbars '\n' (List.mem_singleton_self _) prev text]
    exact hblind.searchFrom_eq text
  rw [firstTraptype, Pattern.search, joined_cons, Pattern.searchFrom_append, Option.map_or, hfirst,
    hbehind]
  rfl

theorem firstTraptype_append {front rest : List (List Char)} {line : List Char}
    (hsolid : ∀ l ∈ front ++ [line], Solid l) :
    firstTraptype alnum (front ++ line :: rest) =
      (fieldBefore alnum (front ++ [line])).or (firstTraptype alnum (line :: rest)) := by
  induction front with
  | nil => rfl
  | cons l front ih =>
    rw [List.cons_append, List.forall_mem_cons] at hsolid
    have hrest := ih hsolid.2
    cases front with
    | nil =>
      have hline : Solid line := hsolid.2 line List.mem_cons_self
      show firstTraptype alnum (l :: line :: rest) = ((fieldIn alnum l line).or none).or _
      rw [firstTraptype_cons (Or.inr hline), Option.or_none]
    | cons next front =>
      have hnext : Solid next := hsolid.2 next List.mem_cons_self
      show firstTraptype alnum (l :: next :: (front ++ line :: rest)) =
        ((fieldIn alnum l next).or (fieldBefore alnum (next :: front ++ [line]))).or _
      rw [firstTraptype_cons (Or.inr hnext), Option.or_assoc, ← hrest]
      rfl

/-- Where no line has a trap type of its own, one can only be broken over two. -/
theorem firstTraptype_of_none {lines : List (List Char)} (hsolid : ∀ l ∈ lines, Solid l)
    (hnone : ∀ l ∈ lines, hasTraptype alnum l = false) :
    firstTraptype alnum lines = fieldBefore alnum lines := by
  cases lines using List.reverseRecOn with
  | nil => rfl
  | append_singleton front line =>
    have hline := hnone line (List.mem_append_right front List.mem_cons_self)
    have hlast : firstTraptype alnum [line] = none := by
      have hsearch : (reTraptype alnum).search (joined [line]) = none :=
        Option.not_isSome_iff_eq_none.mp (by simpa [joined, hasTraptype] using hline)
      rw [firstTraptype, hsearch]
      rfl
    rw [firstTraptype_append hsolid, hlast, Option.or_none]

/-! ## Which dump is read -/

theorem solid_of_mem_trapRun {lines : List (List Char)} {line : List Char}
    (h : line ∈ trapRun alnum lines) : Solid line :=
  solid_of_isBlockMember (of_mem_around (q := isAnchor alnum) (fun _ => isBlockMember_of_isAnchor) h)

theorem trapReport_eq_iff_mimics {lines dump : List (List Char)}
    (hsolid : ∀ l ∈ lines, Solid l) (hnone : ∀ l ∈ lines, hasTraptype alnum l = false) :
    trapReport alnum lines = trapReport alnum dump ↔ Mimics alnum lines dump := by
  rw [trapReport_eq_iff, firstTraptype_of_none hsolid hnone]
  exact ⟨fun h => ⟨h.1, h.2⟩, fun h => ⟨h.number, h.hints⟩⟩

theorem trapReport_eq_iff_unspoilt {front rest : List (List Char)} {line : List Char}
    (hsolid : ∀ l ∈ front ++ [line], Solid l) :
    trapReport alnum (front ++ line :: rest) = trapReport alnum (line :: rest) ↔
      Unspoilt alnum front line rest := by
  have hback : Hinted (line :: rest) → Hinted (front ++ line :: rest) := by
    intro h hint hmem
    obtain ⟨l, hl, hinfix⟩ := h hint hmem
    exact ⟨l, List.mem_append_right front hl, hinfix⟩
  have hlacks : ¬ Hinted (front ++ line :: rest) ↔
      ∃ hint ∈ kmodHints, ∀ l ∈ front ++ line :: rest, ¬ hint <:+: l := by
    simp only [Hinted, not_forall, not_exists, not_and, exists_prop]
  rw [trapReport_eq_iff, firstTraptype_append hsolid]
  constructor
  · rintro ⟨hnumber, hhints⟩
    refine ⟨fun hex hfield => ?_, fun hnot => hlacks.mp (mt hhints.mp hnot)⟩
    rw [hfield, Option.some_or] at hnumber
    exact hnumber.symm
  · rintro ⟨hnumber, hhints⟩
    refine ⟨?_, ⟨fun hall => ?_, hback⟩⟩
    · cases hfield : fieldBefore alnum (front ++ [line]) with
      | none => rfl
      | some hex => rw [Option.some_or, hnumber hex hfield]
    · by_contra hnot
      exact hlacks.mpr (hhints hnot) hall

theorem forall_isRun_iff {lines dump : List (List Char)}
    (hspeaks : ∃ l ∈ lines, isAnchor alnum l = true) :
    (∀ run, IsRun (isAnchor alnum) (isBlockMember alnum) lines run → Mimics alnum run dump) ↔
      Mimics alnum (trapRun alnum lines) dump := by
  constructor
  · exact fun h => h _ (isRun_around (fun _ => isBlockMember_of_isAnchor) hspeaks)
  · intro h run hrun
    rw [hrun.eq_around]
    exact h

theorem not_isRun {lines run : List (List Char)} (hsilent : ∀ l ∈ lines, isAnchor alnum l = false)
    (h : IsRun (isAnchor alnum) (isBlockMember alnum) lines run) : False := by
  obtain ⟨⟨before, after, rfl, -⟩, -, l, hl, hspeaks⟩ := h
  rw [hsilent l (List.mem_append_left _ (List.mem_append_right _ hl))] at hspeaks
  cases hspeaks

theorem trapRun_silent {lines : List (List Char)} (hsilent : ∀ l ∈ lines, isAnchor alnum l = false) :
    trapRun alnum lines = [] := by
  rw [trapRun, around, splitLast_eq_none.mpr hsilent]

/-- The lines around a later line that speaks of a trap do not reach the dump. -/
theorem trapRun_behind (before : List (List Char)) (line : List Char) {after : List (List Char)}
    (hlater : ∃ l ∈ after.dropWhile (isBlockMember alnum), isAnchor alnum l = true) :
    trapRun alnum (before ++ line :: after) =
      trapRun alnum (after.dropWhile (isBlockMember alnum)) := by
  obtain ⟨later, hmem, hanchor⟩ := hlater
  have hparts := List.takeWhile_append_dropWhile (p := isBlockMember alnum) (l := after)
  cases hdrop : after.dropWhile (isBlockMember alnum) with
  | nil =>
    rw [hdrop] at hmem
    cases hmem
  | cons gap behind =>
    have hgap : isBlockMember alnum gap = false := by
      have hhead := List.head?_dropWhile_not (isBlockMember alnum) after
      rw [hdrop] at hhead
      simpa using hhead
    have hbehind : ∃ l ∈ behind, isAnchor alnum l = true := by
      rw [hdrop] at hmem
      refine ⟨later, (List.mem_cons.mp hmem).resolve_left ?_, hanchor⟩
      rintro rfl
      rw [isBlockMember_of_isAnchor hanchor] at hgap
      cases hgap
    have hlines : before ++ line :: after =
        (before ++ line :: after.takeWhile (isBlockMember alnum)) ++ gap :: behind := by
      rw [List.append_assoc, List.cons_append, ← hdrop, hparts]
    rw [trapRun, trapRun, hlines, around_append_stop hgap hbehind, ← List.nil_append (gap :: _),
      around_append_stop hgap hbehind]

/-- The lines around the last dump, when it speaks of a trap last. -/
theorem trapRun_dump (before : List (List Char)) {line : List Char} {after : List (List Char)}
    (hline : hasTraptype alnum line = true) (hafter : ∀ l ∈ after, hasTraptype alnum l = false)
    (hbehind : ∀ l ∈ after.dropWhile (isBlockMember alnum), isAnchor alnum l = false) :
    trapRun alnum (before ++ line :: after) =
      before.rtakeWhile (isBlockMember alnum) ++ line :: after.takeWhile (isBlockMember alnum) := by
  have hanchor : isAnchor alnum line = true := by rw [isAnchor, hline, Bool.true_or]
  exact (around_eq hanchor (fun _ => isBlockMember_of_isAnchor) hline hafter hbehind).trans
    (around_append hline hafter before)

/-- What is returned about a trap is what the last dump alone gives, exactly if
the last dump is what is read. -/
theorem extractTrap_iff (alnum : Char → Bool) (lines : List (List Char)) :
    (extractTrap alnum lines).1 = trapReport alnum (lastDump alnum lines) ↔ Latest alnum lines := by
  rw [extractTrap_eq]
  unfold lastDump Latest
  cases hsplit : splitLast (hasTraptype alnum) lines with
  | none =>
    have hnone := splitLast_eq_none.mp hsplit
    dsimp only
    by_cases hspeaks : ∃ l ∈ lines, isAnchor alnum l = true
    · rw [forall_isRun_iff hspeaks]
      exact trapReport_eq_iff_mimics (fun l hl => solid_of_mem_trapRun hl)
        fun l hl => hnone l (mem_of_mem_around hl)
    · have hsilent : ∀ l ∈ lines, isAnchor alnum l = false := fun l hl =>
        eq_false_of_ne_true fun hl' => hspeaks ⟨l, hl, hl'⟩
      rw [trapRun_silent hsilent]
      exact iff_of_true rfl fun run hrun => (not_isRun hsilent hrun).elim
  | some m =>
    obtain ⟨before, line, after⟩ := m
    obtain ⟨rfl, hline, hafter⟩ := eq_of_splitLast hsplit
    have hparts := List.takeWhile_append_dropWhile (p := isBlockMember alnum) (l := after)
    dsimp only
    by_cases hlater : ∃ l ∈ after.dropWhile (isBlockMember alnum), isAnchor alnum l = true
    · have hnot : ¬ ∀ l ∈ after.dropWhile (isBlockMember alnum), isAnchor alnum l = false := by
        obtain ⟨l, hl, hspeaks⟩ := hlater
        intro hsilent
        rw [hsilent l hl] at hspeaks
        cases hspeaks
      rw [trapRun_behind before line hlater, forall_isRun_iff hlater,
        and_iff_left fun hsilent => absurd hsilent hnot]
      refine trapReport_eq_iff_mimics (fun l hl => solid_of_mem_trapRun hl) fun l hl => ?_
      exact hafter l (hparts ▸ List.mem_append_right _ (mem_of_mem_around hl))
    · have hsilent : ∀ l ∈ after.dropWhile (isBlockMember alnum), isAnchor alnum l = false :=
        fun l hl => eq_false_of_ne_true fun hl' => hlater ⟨l, hl, hl'⟩
      rw [trapRun_dump before hline hafter hsilent,
        and_iff_right fun run hrun => (not_isRun hsilent hrun).elim, imp_iff_right hsilent]
      refine trapReport_eq_iff_unspoilt fun l hl => ?_
      rcases List.mem_append.mp hl with hl | hl
      · exact solid_of_isBlockMember (List.mem_rtakeWhile_imp hl)
      · rw [List.mem_singleton.mp hl]
        exact solid_of_hasTraptype hline

/-- Two dumps with no line between them. -/
def adjacent : List (List Char) :=
  ["[sandboxvm] traptype=0x700 pc=0x10".toList, "[sandboxvm] traptype=0x300 dar=0x4".toList]

/-- The older one is returned. -/
theorem adjacent_dumps :
    (extractTrap (fun _ => false) adjacent).1 = ⟨some .program, none, some "0x700".toList⟩ ∧
      trapReport (fun _ => false) (lastDump (fun _ => false) adjacent) =
        ⟨some .dsi, none, some "0x300".toList⟩ ∧
      (extractTrap (fun _ => false) adjacent).1 ≠
        trapReport (fun _ => false) (lastDump (fun _ => false) adjacent) := by
  decide +kernel

/-- Enough: no line of a trap or of SandboxVM directly in front of the last dump,
and none that speaks of a trap behind it. -/
theorem latest_of_apart {before after : List (List Char)} {line : List Char}
    (hline : hasTraptype alnum line = true) (hafter : ∀ l ∈ after, hasTraptype alnum l = false)
    (hfront : ∀ l ∈ before.getLast?, isBlockMember alnum l = false)
    (hbehind : ∀ l ∈ after.dropWhile (isBlockMember alnum), isAnchor alnum l = false) :
    Latest alnum (before ++ line :: after) := by
  have hnone : before.rtakeWhile (isBlockMember alnum) = [] := by
    refine List.rtakeWhile_eq_nil_iff.mpr fun hne => ?_
    rw [hfront _ (List.getLast?_eq_some_getLast hne)]
    exact Bool.false_ne_true
  unfold Latest
  rw [splitLast_append hline hafter before]
  dsimp only
  refine ⟨fun run hrun => (not_isRun hbehind hrun).elim, fun _ => ?_⟩
  rw [hnone]
  refine ⟨fun hex hfield => (nomatch hfield), fun hnot => ?_⟩
  simpa only [Hinted, not_forall, not_exists, not_and, exists_prop, List.nil_append] using hnot

end AmigaFleet.Host.SandboxTrap
