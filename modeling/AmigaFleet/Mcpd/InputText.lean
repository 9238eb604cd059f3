import Mathlib.Data.List.Induction
import Mathlib.Data.List.TakeWhile
import AmigaFleet.Lib.Utf8
import AmigaFleet.Mcpd.InputCalls
import AmigaFleet.Mcpd.InputWhole

/-!
# What input.type types

The loops of `_utf8_strlen` and `input_type` over the bytes of a text, by index.
A read at or past the end of the text is a `none`.

* `strlenLoop_eq`, `typeLoop_eq`: no loop reads past the end, and they see the
  code points of `codePoints`.
* `codePoints_encode`: the code points of an encoded text are its characters.
* `typeAll_typed`: what is asked of the key mapper, which events are written, and
  what is reported.
-/

namespace AmigaFleet.Mcpd.Input

open AmigaFleet.Lib

/-! ## Reads by index -/

/-- The bytes that a lead byte wants behind it, and its bits. -/
def utf8Lead (c : UInt8) : Option (Nat × Nat) :=
  if c < 0x80 then none
  else if c &&& 0xE0 = 0xC0 then some (1, (c &&& 0x1F).toNat)
  else if c &&& 0xF0 = 0xE0 then some (2, (c &&& 0x0F).toNat)
  else if c &&& 0xF8 = 0xF0 then some (3, (c &&& 0x07).toNat)
  else none

/-- The continuation bytes from index `i` on; `some none` is a byte that is none. -/
def continuationAt (s : Bytes) : Nat → Nat → Nat → Option (Option Nat)
  | 0, cp, _ => some (some cp)
  | need + 1, cp, i => do
    let cn ← s[i]?
    if cn &&& 0xC0 ≠ 0x80 then some none
    else continuationAt s need (cp * 64 + (cn &&& 0x3F).toNat) (i + 1)

/-- `_utf8_next` -/
def utf8NextAt (s : Bytes) (len i : Nat) : Option (Nat × Nat) := do
  let c0 ← s[i]?
  match utf8Lead c0 with
  | none => some (1, c0.toNat)
  | some (need, cp) =>
    if i + need ≥ len then some (1, c0.toNat)
    else do
      let done ← continuationAt s need cp (i + 1)
      match done with
      | none => some (1, c0.toNat)
      | some cp => some (need + 1, cp)

/-- The loop of `_utf8_strlen`. -/
def strlenLoop (s : Bytes) : Nat → Nat → Nat → Option Nat
  | 0, _, _ => none
  | fuel + 1, i, n =>
    if i < s.length then do
      let next ← utf8NextAt s s.length i
      strlenLoop s fuel (i + next.1) (n + 1)
    else some n

/-- What `input_type` keeps, with the code points it has read and the characters it
has looked up. -/
structure Typist extends Typing where
  read : List Nat := []
  asked : List UInt8 := []

/-- The strokes of an ANSI character, from the key mapper or from the US table. -/
def lookUp (keymap : Option Keymap) (i : Nat) (ch : UInt8) : Option (List Event) :=
  match keymap with
  | some mapAnsi => (mapAnsi i ch).strokes
  | none => (asciiToRaw ch).map fun k => [keyDown k.1 (if k.2 then qualLShift else 0)]

/-- One round of the loop of `input_type`, behind the decoder; an error leaves the loop. -/
def typeChar (keymap : Option Keymap) (delay cp : Nat) (t : Typist) : Except Typist Typist :=
  let i := t.read.length
  let t := { t with read := t.read ++ [cp] }
  if cp > 0xFF then .ok { t with unmapped := t.unmapped ++ [codePointText cp] }
  else
    let ch := UInt8.ofNat cp
    let t := { t with asked := t.asked ++ [ch] }
    match lookUp keymap i ch with
    | none => .ok { t with unmapped := t.unmapped ++ [codePointText cp] }
    | some downs =>
      match pressStrokes delay downs t.ctx with
      | .error c => .error { t with ctx := c }
      | .ok c => .ok { t with ctx := c, mapped := t.mapped + 1 }

/-- The loop of `input_type`. -/
def typeLoop (keymap : Option Keymap) (delay : Nat) (s : Bytes) : Nat → Nat → Typist → Option Typist
  | 0, _, _ => none
  | fuel + 1, i, t =>
    if i < s.length then do
      let next ← utf8NextAt s s.length i
      match typeChar keymap delay next.2 t with
      | .error t => some t
      | .ok t => typeLoop keymap delay s fuel (i + next.1) t
    else some t

/-- The rounds of the loop over code points. -/
def typeAll (keymap : Option Keymap) (delay : Nat) : List Nat → Typist → Typist
  | [], t => t
  | cp :: cps, t =>
    match typeChar keymap delay cp t with
    | .error t => t
    | .ok t => typeAll keymap delay cps t

/-! ## No read past the end -/

theorem continuationAt_eq (s : Bytes) (need cp i : Nat) (h : i + need ≤ s.length) :
    continuationAt s need cp i = some (continuation need cp (s.drop i)) := by
  induction need generalizing cp i with
  | zero => rfl
  | succ need ih =>
    have hi : i < s.length := by omega
    rw [continuationAt, List.getElem?_eq_getElem hi, List.drop_eq_getElem_cons hi, continuation]
    show (if s[i] &&& 0xC0 ≠ 0x80 then some none else _) = _
    split
    · rfl
    · exact ih _ _ (by omega)

theorem utf8NextAt_eq {s : Bytes} {i : Nat} (hi : i < s.length) :
    utf8NextAt s s.length i = some (utf8Next s[i] (s.drop (i + 1))) := by
  have hlength : (s.drop (i + 1)).length = s.length - (i + 1) := List.length_drop
  rw [utf8NextAt, List.getElem?_eq_getElem hi]
  show (match utf8Lead s[i] with | none => _ | some (need, cp) => _) =
    some (match utf8Lead s[i] with
    | none => _ | some (need, cp) => _)
  cases utf8Lead s[i] with
  | none => rfl
  | some lead =>
    obtain ⟨need, cp⟩ := lead
    dsimp only
    by_cases hcut : i + need ≥ s.length
    · rw [if_pos hcut, if_pos (by omega)]
    · rw [if_neg hcut, if_neg (by omega), continuationAt_eq s need cp (i + 1) (by omega)]
      show (match continuation need cp (s.drop (i + 1)) with | none => _ | some cp => _) = _
      cases continuation need cp (s.drop (i + 1)) <;> rfl

theorem utf8Next_pos (c : UInt8) (text : Bytes) : 0 < (utf8Next c text).1 := by
  show 0 < (match utf8Lead c with | none => _ | some (need, cp) => _ : Nat × Nat).1
  cases utf8Lead c with
  | none => exact Nat.one_pos
  | some lead =>
    dsimp only
    split
    · exact Nat.one_pos
    · split
      · exact Nat.one_pos
      · exact Nat.succ_pos _

/-- Fuel beyond the length of the text adds nothing. -/
theorem codePointsUpTo_eq {n m : Nat} {text : Bytes} (hn : text.length ≤ n) (hm : text.length ≤ m) :
    codePointsUpTo n text = codePointsUpTo m text := by
  induction n generalizing m text with
  | zero =>
    obtain rfl := List.length_eq_zero_iff.mp (Nat.le_zero.mp hn)
    cases m <;> rfl
  | succ n ih =>
    cases text with
    | nil => cases m <;> rfl
    | cons c text =>
      cases m with
      | zero => exact absurd hm (by simp)
      | succ m =>
        have hrest : (text.drop ((utf8Next c text).1 - 1)).length ≤ text.length := by
          rw [List.length_drop]
          omega
        rw [codePointsUpTo, codePointsUpTo]
        rw [ih (hrest.trans (Nat.le_of_succ_le_succ hn)) (hrest.trans (Nat.le_of_succ_le_succ hm))]

theorem codePoints_cons (c : UInt8) (text : Bytes) :
    codePoints (c :: text) =
      (utf8Next c text).2 :: codePoints (text.drop ((utf8Next c text).1 - 1)) := by
  have hrest : (text.drop ((utf8Next c text).1 - 1)).length ≤ text.length := by
    rw [List.length_drop]
    omega
  show codePointsUpTo (text.length + 1) (c :: text) = _
  rw [codePointsUpTo, codePointsUpTo_eq hrest le_rfl]
  rfl

/-- The code points from index `i` on. -/
theorem codePoints_drop {s : Bytes} {i : Nat} (hi : i < s.length) :
    codePoints (s.drop i) = (utf8Next s[i] (s.drop (i + 1))).2 ::
      codePoints (s.drop (i + (utf8Next s[i] (s.drop (i + 1))).1)) := by
  have hpos := utf8Next_pos s[i] (s.drop (i + 1))
  have hadd : ∀ used, 0 < used → i + 1 + (used - 1) = i + used := by omega
  rw [List.drop_eq_getElem_cons hi, codePoints_cons, List.drop_drop, hadd _ hpos]

theorem codePoints_drop_nil {s : Bytes} {i : Nat} (hi : ¬i < s.length) :
    codePoints (s.drop i) = [] := by
  rw [List.drop_eq_nil_of_le (Nat.le_of_not_lt hi)]
  rfl

/-- Every round takes a byte. -/
theorem strlenLoop_drop (s : Bytes) (fuel i n : Nat) (hfuel : s.length - i < fuel) :
    strlenLoop s fuel i n = some (n + (codePoints (s.drop i)).length) := by
  induction fuel generalizing i n with
  | zero => exact absurd hfuel (Nat.not_lt_zero _)
  | succ fuel ih =>
    rw [strlenLoop]
    split
    · rename_i hi
      have hpos := utf8Next_pos s[i] (s.drop (i + 1))
      rw [utf8NextAt_eq hi, codePoints_drop hi, List.length_cons, ← Nat.add_assoc,
        Nat.add_right_comm]
      exact ih _ _ (by omega)
    · rename_i hi
      rw [codePoints_drop_nil hi]
      rfl

theorem typeLoop_drop (keymap : Option Keymap) (delay : Nat) (s : Bytes) (fuel i : Nat) (t : Typist)
    (hfuel : s.length - i < fuel) :
    typeLoop keymap delay s fuel i t = some (typeAll keymap delay (codePoints (s.drop i)) t) := by
  induction fuel generalizing i t with
  | zero => exact absurd hfuel (Nat.not_lt_zero _)
  | succ fuel ih =>
    rw [typeLoop]
    split
    · rename_i hi
      have hpos := utf8Next_pos s[i] (s.drop (i + 1))
      rw [utf8NextAt_eq hi, codePoints_drop hi, typeAll]
      show (match typeChar keymap delay _ t with | .error t => _ | .ok t => _) = _
      cases typeChar keymap delay (utf8Next s[i] (s.drop (i + 1))).2 t with
      | error t' => rfl
      | ok t' => exact ih _ _ (by omega)
    · rename_i hi
      rw [codePoints_drop_nil hi]
      rfl

/-- `_utf8_strlen` counts what `input_type` reads. -/
theorem strlenLoop_eq (s : Bytes) : strlenLoop s (s.length + 1) 0 0 = some (utf8Strlen s) := by
  rw [strlenLoop_drop s _ 0 0 (by omega), Nat.zero_add]
  rfl

theorem typeLoop_eq (keymap : Option Keymap) (delay : Nat) (s : Bytes) (t : Typist) :
    typeLoop keymap delay s (s.length + 1) 0 t = some (typeAll keymap delay (codePoints s) t) :=
  typeLoop_drop keymap delay s _ 0 t (by omega)

/-! ## Typing -/

theorem strokesOf_eq (keymap : Option Keymap) (i cp : Nat) :
    strokesOf keymap i cp = if cp > 0xFF then none else lookUp keymap i (UInt8.ofNat cp) := rfl

theorem typeAll_toTyping (keymap : Option Keymap) (delay : Nat) (cps : List Nat) (t : Typist) :
    (typeAll keymap delay cps t).toTyping =
      typeChars keymap delay t.read.length cps t.toTyping := by
  induction cps generalizing t with
  | nil => rfl
  | cons cp cps ih =>
    have hlength : (t.read ++ [cp]).length = t.read.length + 1 := List.length_append
    rw [typeAll, typeChar, typeChars, strokesOf_eq]
    dsimp only
    by_cases hwide : cp > 0xFF
    · rw [if_pos hwide, if_pos hwide]
      dsimp only
      rw [ih, hlength]
    · rw [if_neg hwide, if_neg hwide]
      cases lookUp keymap t.read.length (UInt8.ofNat cp) with
      | none =>
        dsimp only
        rw [ih, hlength]
      | some downs =>
        dsimp only
        cases pressStrokes delay downs t.ctx with
        | error c => rfl
        | ok c =>
          dsimp only
          rw [ih, hlength]

/-- The code points that are reported: those above U+00FF, and those that have no key. -/
def unmappedOf (keymap : Option Keymap) (read : List Nat) : List Nat :=
  (read.zipIdx.filter fun p =>
    0xFF < p.1 ∨ (lookUp keymap p.2 (UInt8.ofNat p.1)).isNone).map Prod.fst

/-- What has been looked up and reported is what has been read. -/
structure Typist.Accounts (keymap : Option Keymap) (t : Typist) : Prop where
  asked : t.asked = (t.read.filter (· ≤ 0xFF)).map UInt8.ofNat
  unmapped : t.unmapped = (unmappedOf keymap t.read).map codePointText

theorem unmappedOf_concat (keymap : Option Keymap) (read : List Nat) (cp : Nat) :
    unmappedOf keymap (read ++ [cp]) = unmappedOf keymap read ++
      if 0xFF < cp ∨ (lookUp keymap read.length (UInt8.ofNat cp)).isNone then [cp] else [] := by
  rw [unmappedOf, List.zipIdx_append, List.filter_append, List.map_append, unmappedOf]
  congr 1
  show ([(cp, 0 + read.length)].filter _).map _ = _
  rw [Nat.zero_add, List.filter_singleton]
  by_cases h : 0xFF < cp ∨ (lookUp keymap read.length (UInt8.ofNat cp)).isNone
  · rw [if_pos h, decide_eq_true h]
    rfl
  · rw [if_neg h, decide_eq_false h]
    rfl

theorem asked_concat (read : List Nat) (cp : Nat) :
    ((read ++ [cp]).filter (· ≤ 0xFF)).map UInt8.ofNat =
      (read.filter (· ≤ 0xFF)).map UInt8.ofNat ++ if cp > 0xFF then [] else [UInt8.ofNat cp] := by
  rw [List.filter_append, List.map_append, List.filter_singleton]
  by_cases h : cp > 0xFF
  · rw [if_pos h, decide_eq_false (Nat.not_le.mpr h)]
    rfl
  · rw [if_neg h, decide_eq_true (Nat.not_lt.mp h)]
    rfl

/-- The accounts after a round, by what it adds. -/
theorem Typist.Accounts.read_on {keymap : Option Keymap} {t t' : Typist}
    (h : t.Accounts keymap) {cp : Nat}
    (hread : t'.read = t.read ++ [cp])
    (hasked : t'.asked = t.asked ++ if cp > 0xFF then [] else [UInt8.ofNat cp])
    (hunmapped : t'.unmapped = t.unmapped ++
      if 0xFF < cp ∨ (lookUp keymap t.read.length (UInt8.ofNat cp)).isNone then
        [codePointText cp] else []) :
    t'.Accounts keymap where
  asked := by rw [hasked, hread, asked_concat, h.asked]
  unmapped := by
    rw [hunmapped, hread, unmappedOf_concat, List.map_append, h.unmapped]
    split <;> rfl

theorem pressStroke_cut (delay : Nat) (down : Event) (c : Ctx) : Cut (pressStroke delay down c) :=
  (cut_writeEvent _ c).bind fun _ => (cut_writeEvent _ _).bind fun _ => cut_ok _

theorem pressStrokes_cut (delay : Nat) (downs : List Event) (c : Ctx) :
    Cut (pressStrokes delay downs c) := by
  induction downs generalizing c with
  | nil => exact cut_ok c
  | cons down downs ih => exact (pressStroke_cut delay down c).bind ih

/-- A round reads its code point; it goes on with a character more, or has been truncated. -/
theorem typeChar_accounts (keymap : Option Keymap) (delay cp : Nat) {t : Typist}
    (ht : t.Accounts keymap) :
    match typeChar keymap delay cp t with
    | .ok t' => t'.Accounts keymap ∧ t'.read = t.read ++ [cp] ∧
        t'.mapped + t'.unmapped.length = t.mapped + t.unmapped.length + 1
    | .error t' => t'.Accounts keymap ∧ t'.read = t.read ++ [cp] ∧ t'.ctx.truncated = true := by
  unfold typeChar
  dsimp only
  by_cases hwide : cp > 0xFF
  · rw [if_pos hwide]
    refine ⟨ht.read_on rfl ?_ ?_, rfl, ?_⟩
    · rw [if_pos hwide, List.append_nil]
    · rw [if_pos (Or.inl hwide)]
    · rw [List.length_append, List.length_singleton, Nat.add_assoc]
  · rw [if_neg hwide]
    cases hkey : lookUp keymap t.read.length (UInt8.ofNat cp) with
    | none =>
      refine ⟨ht.read_on rfl ?_ ?_, rfl, ?_⟩
      · rw [if_neg hwide]
      · rw [hkey, if_pos (Or.inr Option.isNone_none)]
      · rw [List.length_append, List.length_singleton, Nat.add_assoc]
    | some downs =>
      have hsome : ¬(some downs).isNone = true := by simp
      dsimp only
      cases hpress : pressStrokes delay downs t.ctx with
      | error c =>
        refine ⟨ht.read_on rfl ?_ ?_, rfl, pressStrokes_cut delay downs t.ctx c hpress⟩
        · rw [if_neg hwide]
        · rw [hkey, if_neg (not_or_intro hwide hsome), List.append_nil]
      | ok c =>
        refine ⟨ht.read_on rfl ?_ ?_, rfl, Nat.add_right_comm _ _ _⟩
        · rw [if_neg hwide]
        · rw [hkey, if_neg (not_or_intro hwide hsome), List.append_nil]

/-- The loop reads the code points in order, and to the end if it is not truncated. -/
theorem typeAll_accounts (keymap : Option Keymap) (delay : Nat) (cps : List Nat) {t : Typist}
    (ht : t.Accounts keymap) :
    (typeAll keymap delay cps t).Accounts keymap ∧
      (typeAll keymap delay cps t).read <+: t.read ++ cps ∧
      ((typeAll keymap delay cps t).ctx.truncated = false →
        (typeAll keymap delay cps t).read = t.read ++ cps ∧
        (typeAll keymap delay cps t).mapped + (typeAll keymap delay cps t).unmapped.length =
          t.mapped + t.unmapped.length + cps.length) := by
  induction cps generalizing t with
  | nil =>
    rw [List.append_nil]
    exact ⟨ht, List.prefix_rfl, fun _ => ⟨rfl, rfl⟩⟩
  | cons cp cps ih =>
    have hround := typeChar_accounts keymap delay cp ht
    rw [typeAll]
    cases hresult : typeChar keymap delay cp t with
    | error t' =>
      rw [hresult] at hround
      obtain ⟨haccounts, hread, htruncated⟩ := hround
      refine ⟨haccounts, ?_, fun hwhole => ?_⟩
      · show t'.read <+: _
        rw [hread, List.append_cons t.read cp cps]
        exact List.prefix_append _ _
      · rw [show t'.ctx.truncated = false from hwhole] at htruncated
        cases htruncated
    | ok t' =>
      rw [hresult] at hround
      obtain ⟨haccounts, hread, hcount⟩ := hround
      have hrest := ih haccounts
      rw [hread, hcount, ← List.append_cons] at hrest
      rw [List.length_cons, Nat.add_comm cps.length 1, ← Nat.add_assoc]
      exact hrest

/-! ### The events -/

/-- The strokes of the characters that have keys, character by character. -/
def keysOf (keymap : Option Keymap) (read : List Nat) : List (List Event) :=
  read.zipIdx.filterMap fun p => strokesOf keymap p.2 p.1

/-- Each stroke is a press and its release. -/
def eventsOf (downs : List Event) : List Event := downs.flatMap fun down => [down, down.up]

theorem strokes_eq_flatten (keymap : Option Keymap) (i : Nat) (cps : List Nat) :
    strokes keymap i cps = ((cps.zipIdx i).filterMap fun p => strokesOf keymap p.2 p.1).flatten := by
  induction cps generalizing i with
  | nil => rfl
  | cons cp cps ih =>
    rw [strokes, List.zipIdx_cons, List.filterMap_cons, ih]
    cases strokesOf keymap i cp <;> rfl

/-- Every character has keys or is reported. -/
theorem length_keysOf (keymap : Option Keymap) (read : List Nat) :
    (keysOf keymap read).length + (unmappedOf keymap read).length = read.length := by
  induction read using List.reverseRecOn with
  | nil => rfl
  | append_singleton read cp ih =>
    have hkeys : keysOf keymap (read ++ [cp]) =
        keysOf keymap read ++ (strokesOf keymap read.length cp).toList := by
      rw [keysOf, List.zipIdx_append, List.filterMap_append, keysOf, Nat.zero_add]
      show _ ++ List.filterMap _ [(cp, read.length)] = _
      rw [List.filterMap_cons]
      cases strokesOf keymap read.length cp <;> rfl
    rw [hkeys, unmappedOf_concat, strokesOf_eq, List.length_append, List.length_append,
      List.length_append, List.length_singleton]
    by_cases hwide : cp > 0xFF
    · rw [if_pos hwide, if_pos (Or.inl hwide)]
      show _ + 0 + (_ + 1) = _
      omega
    · rw [if_neg hwide]
      cases hkey : lookUp keymap read.length (UInt8.ofNat cp) with
      | none =>
        rw [if_pos (Or.inr Option.isNone_none)]
        show _ + 0 + (_ + 1) = _
        omega
      | some downs =>
        rw [if_neg (not_or_intro hwide (by simp))]
        show _ + 1 + (_ + 0) = _
        omega

theorem pressStroke_events (delay : Nat) (down : Event) (c : Ctx) :
    (∀ c', pressStroke delay down c = .ok c' → c'.written = c.written ++ [down, down.up]) ∧
      ∀ c', pressStroke delay down c = .error c' → c'.written <+: c.written ++ [down, down.up] := by
  unfold pressStroke
  cases hpress : c.writeEvent down with
  | error c₁ =>
    refine ⟨fun c' h => (nomatch h), fun c' h => ?_⟩
    cases h
    rw [writeEvent_error hpress]
    exact List.prefix_append c.written [down, down.up]
  | ok c₁ =>
    have hdown : (c₁.delayMs (half delay)).written = c.written ++ [down] := by
      rw [delayMs_written, writeEvent_ok hpress]
      rfl
    show (∀ c', (c₁.delayMs (half delay)).writeEvent down.up >>= _ = .ok c' → _) ∧
      ∀ c', (c₁.delayMs (half delay)).writeEvent down.up >>= _ = .error c' → _
    cases hrelease : (c₁.delayMs (half delay)).writeEvent down.up with
    | error c₂ =>
      refine ⟨fun c' h => (nomatch h), fun c' h => ?_⟩
      cases h
      rw [writeEvent_error hrelease]
      show (c₁.delayMs (half delay)).written <+: _
      rw [hdown]
      exact ⟨[down.up], List.append_assoc _ _ _⟩
    | ok c₂ =>
      refine ⟨fun c' h => ?_, fun c' h => (nomatch h)⟩
      cases h
      rw [delayMs_written, writeEvent_ok hrelease]
      show (c₁.delayMs (half delay)).written ++ [down.up] = _
      rw [hdown, List.append_assoc]
      rfl

/-- A run of strokes writes a beginning of their events, and all of them if it
comes to its end. -/
theorem pressStrokes_events (delay : Nat) (downs : List Event) (c : Ctx) :
    (∀ c', pressStrokes delay downs c = .ok c' → c'.written = c.written ++ eventsOf downs) ∧
      (finish (pressStrokes delay downs c)).written <+: c.written ++ eventsOf downs := by
  induction downs generalizing c with
  | nil =>
    refine ⟨fun c' h => ?_, ?_⟩
    · cases h
      exact (List.append_nil _).symm
    · show c.written <+: c.written ++ []
      exact List.prefix_append c.written []
  | cons down downs ih =>
    obtain ⟨hok, herror⟩ := pressStroke_events delay down c
    have hsplit : c.written ++ eventsOf (down :: downs) =
        c.written ++ [down, down.up] ++ eventsOf downs := by
      rw [List.append_assoc]
      rfl
    rw [pressStrokes, hsplit]
    cases hstroke : pressStroke delay down c with
    | error c₁ =>
      refine ⟨fun c' h => ?_, (herror c₁ hstroke).trans (List.prefix_append _ _)⟩
      cases h
    | ok c₁ =>
      rw [← hok c₁ hstroke]
      exact ih c₁

/-- The events of the loop are those of the characters that have keys. -/
theorem typeChars_events (keymap : Option Keymap) (delay : Nat) (cps : List Nat) (c : Ctx) :
    (typeChars keymap delay 0 cps { ctx := c }).ctx.written <+:
        c.written ++ eventsOf (keysOf keymap cps).flatten ∧
      ((typeChars keymap delay 0 cps { ctx := c }).ctx.truncated = false →
        (typeChars keymap delay 0 cps { ctx := c }).ctx.written =
          c.written ++ eventsOf (keysOf keymap cps).flatten) := by
  have hkeys : strokes keymap 0 cps = (keysOf keymap cps).flatten := strokes_eq_flatten keymap 0 cps
  obtain ⟨hall, hfront⟩ := pressStrokes_events delay (strokes keymap 0 cps) c
  rw [typeChars_ctx, ← hkeys]
  refine ⟨hfront, fun hwhole => ?_⟩
  exact hall _ ((pressStrokes_cut delay (strokes keymap 0 cps) c).ok hwhole)

/-! ## Encoded texts -/

/-- What `utf8Lead` sees in the bytes of a UTF-8 encoder. -/
theorem utf8Lead_ofNat :
    (∀ a < 128, utf8Lead (UInt8.ofNat a) = none) ∧
    (∀ a < 32, utf8Lead (UInt8.ofNat (a + 0xC0)) = some (1, a)) ∧
    (∀ a < 16, utf8Lead (UInt8.ofNat (a + 0xE0)) = some (2, a)) ∧
    (∀ a < 8, utf8Lead (UInt8.ofNat (a + 0xF0)) = some (3, a)) := by
  decide

theorem continuation_ofNat {a : Nat} (ha : a < 64) (need cp : Nat) (text : Bytes) :
    continuation (need + 1) cp (UInt8.ofNat (a + 0x80) :: text) =
      continuation need (cp * 64 + a) text := by
  have hbits : ∀ a < 64, UInt8.ofNat (a + 0x80) &&& 0xC0 = 0x80 ∧
      (UInt8.ofNat (a + 0x80) &&& 0x3F).toNat = a := by decide
  obtain ⟨htail, hvalue⟩ := hbits a ha
  rw [continuation, if_neg (not_not_intro htail), hvalue]

theorem utf8Next_single {c : UInt8} (h : utf8Lead c = none) (text : Bytes) :
    utf8Next c text = (1, c.toNat) := by
  show (match utf8Lead c with | none => _ | some (need, cp) => _) = _
  rw [h]

theorem utf8Next_sequence {c : UInt8} {text : Bytes} {need cp cp' : Nat}
    (hlead : utf8Lead c = some (need, cp)) (hlength : need ≤ text.length)
    (htail : continuation need cp text = some cp') : utf8Next c text = (need + 1, cp') := by
  show (match utf8Lead c with | none => _ | some (need, cp) => _) = _
  rw [hlead]
  dsimp only
  rw [if_neg (by omega), htail]

/-- A sequence that is cut off or broken counts as one byte. -/
theorem utf8Next_broken {c : UInt8} {text : Bytes} {need cp : Nat}
    (hlead : utf8Lead c = some (need, cp))
    (htail : need ≤ text.length → continuation need cp text = none) :
    utf8Next c text = (1, c.toNat) := by
  show (match utf8Lead c with | none => _ | some (need, cp) => _) = _
  rw [hlead]
  dsimp only
  by_cases hcut : need ≥ text.length + 1
  · rw [if_pos hcut]
  · rw [if_neg hcut, htail (by omega)]

/-- The decoder reads back one character. -/
theorem codePoints_encode_cons (ch : Char) (text : Bytes) :
    codePoints (String.utf8EncodeChar ch ++ text) = ch.toNat :: codePoints text := by
  obtain ⟨hone, htwo, hthree, hfour⟩ := utf8Lead_ofNat
  have hrange : ch.val.toNat < 0x110000 := by
    have hvalid : ch.val.toNat < 0xD800 ∨ 0xDFFF < ch.val.toNat ∧
      ch.val.toNat < 0x110000 := ch.valid
    omega
  rw [show ch.toNat = ch.val.toNat from rfl]
  unfold String.utf8EncodeChar
  generalize ch.val.toNat = v at hrange ⊢
  dsimp only
  split
  · rename_i h
    rw [List.singleton_append, codePoints_cons, utf8Next_single (hone v (by omega))]
    rw [UInt8.toNat_ofNat_of_lt' (show v < 256 by omega)]
    rfl
  · split
    · rename_i h
      rw [List.cons_append, List.singleton_append, codePoints_cons,
        utf8Next_sequence (htwo _ (Nat.mod_lt _ (by decide))) (by simp)
          (by rw [continuation_ofNat (Nat.mod_lt _ (by decide))]; rfl)]
      rw [show v / 64 % 0x20 * 64 + v % 0x40 = v by omega]
      rfl
    · split
      · rename_i h
        rw [List.cons_append, List.cons_append, List.singleton_append, codePoints_cons,
          utf8Next_sequence (hthree _ (Nat.mod_lt _ (by decide))) (by simp)
            (by rw [continuation_ofNat (Nat.mod_lt _ (by decide)),
              continuation_ofNat (Nat.mod_lt _ (by decide))]; rfl)]
        rw [show (v / 4096 % 0x10 * 64 + v / 64 % 0x40) * 64 + v % 0x40 = v by omega]
        rfl
      · rename_i h
        rw [List.cons_append, List.cons_append, List.cons_append, List.singleton_append,
          codePoints_cons,
          utf8Next_sequence (hfour _ (Nat.mod_lt _ (by decide))) (by simp)
            (by rw [continuation_ofNat (Nat.mod_lt _ (by decide)),
              continuation_ofNat (Nat.mod_lt _ (by decide)),
              continuation_ofNat (Nat.mod_lt _ (by decide))]; rfl)]
        have hvalue : ((v / 262144 % 0x08 * 64 + v / 4096 % 0x40) * 64 + v / 64 % 0x40) * 64 +
            v % 0x40 = v := by omega
        rw [hvalue]
        rfl

theorem codePoints_encode (chars : List Char) :
    codePoints (chars.flatMap String.utf8EncodeChar) = chars.map Char.toNat := by
  induction chars with
  | nil => rfl
  | cons ch chars ih => rw [List.flatMap_cons, codePoints_encode_cons, ih, List.map_cons]

/-- The C string of a text in UTF-8. -/
def utf8Text (chars : List Char) : Bytes := cText (chars.flatMap String.utf8EncodeChar)

/-- Without a NUL the C string is all of the text. -/
theorem codePoints_utf8Text {chars : List Char} (hchars : ∀ ch ∈ chars, ch.toNat ≠ 0) :
    codePoints (utf8Text chars) = chars.map Char.toNat := by
  have hall : utf8Text chars = chars.flatMap String.utf8EncodeChar := by
    refine List.takeWhile_eq_self_iff.mpr fun c hc => ?_
    obtain ⟨ch, hch, hmem⟩ := List.mem_flatMap.mp hc
    have hzero : c ≠ 0 := by
      intro h
      rw [h] at hmem
      rcases utf8EncodeChar_cases ch with ⟨c', -, hone⟩ | ⟨-, hhigh⟩
      · have hcps := codePoints_encode_cons ch []
        rw [hone] at hmem hcps
        rw [← List.mem_singleton.mp hmem] at hcps
        exact hchars ch hch (List.cons.inj hcps).1.symm
      · exact absurd (hhigh 0 hmem) (by decide)
    simpa using hzero
  rw [hall, codePoints_encode]

/-! ## Requests -/

theorem parseType_ok {params : Option CJson} {req : TypeRequest} (h : parseType params = .ok req) :
    pStr params "text" = .ok req.text := by
  unfold parseType at h
  cases hconfirm : requireConfirm params "input.type" with
  | error e =>
    rw [hconfirm] at h
    cases h
  | ok _ =>
    rw [hconfirm] at h
    cases htext : pStr params "text" with
    | error e =>
      rw [htext] at h
      cases h
    | ok text =>
      rw [htext] at h
      dsimp only [bind, Except.bind] at h
      split at h
      · cases h
      · split at h
        · cases h
        · cases hdelay : getDelay params inputDefCharMs with
          | error e =>
            rw [hdelay] at h
            dsimp only at h
            repeat' split at h
            all_goals cases h
          | ok delay =>
            rw [hdelay] at h
            dsimp only at h
            repeat' split at h
            all_goals cases h
            all_goals rfl

/-- What `input_type` leaves of a text, in a context that has written the events
`before`: behind them come, in order, the strokes of the characters that have
keys. -/
structure Typist.Typed (keymap : Option Keymap) (before : List Event) (chars : List Char)
    (t : Typist) : Prop extends t.Accounts keymap where
  read_prefix : t.read <+: chars.map Char.toNat
  written_prefix : t.ctx.written <+:
    before ++ eventsOf (keysOf keymap (chars.map Char.toNat)).flatten
  whole : t.ctx.truncated = false →
    t.read = chars.map Char.toNat ∧ t.mapped + t.unmapped.length = chars.length ∧
      t.mapped = (keysOf keymap (chars.map Char.toNat)).length ∧
      t.ctx.written = before ++ eventsOf (keysOf keymap (chars.map Char.toNat)).flatten

theorem typeAll_typed (keymap : Option Keymap) (delay : Nat) (chars : List Char) (c : Ctx) :
    (typeAll keymap delay (chars.map Char.toNat) { ctx := c }).Typed keymap c.written chars := by
  have hnone : ({ ctx := c } : Typist).Accounts keymap := ⟨rfl, rfl⟩
  obtain ⟨haccounts, hread, hwhole⟩ := typeAll_accounts keymap delay (chars.map Char.toNat) hnone
  have hctx : (typeAll keymap delay (chars.map Char.toNat) { ctx := c }).ctx =
      (typeChars keymap delay 0 (chars.map Char.toNat) { ctx := c }).ctx :=
    congrArg Typing.ctx (typeAll_toTyping keymap delay (chars.map Char.toNat) { ctx := c })
  obtain ⟨hfront, hevents⟩ := typeChars_events keymap delay (chars.map Char.toNat) c
  rw [← hctx] at hfront hevents
  refine ⟨haccounts, hread, hfront, fun htruncated => ?_⟩
  obtain ⟨hall, hcount⟩ := hwhole htruncated
  have hkeys := length_keysOf keymap (chars.map Char.toNat)
  have hunmapped := congrArg List.length haccounts.unmapped
  rw [show _ = chars.map Char.toNat from hall, List.length_map] at hunmapped
  rw [List.length_map] at hcount hkeys
  have htotal := hcount.trans (Nat.zero_add _)
  exact ⟨hall, htotal, by omega, hevents htruncated⟩

/-- What is typed and reported of a text in a call that is not truncated. -/
theorem typeChars_whole (keymap : Option Keymap) (delay : Nat) (chars : List Char) {c : Ctx}
    (hwhole :
    (typeChars keymap delay 0 (chars.map Char.toNat) { ctx := c }).ctx.truncated = false) :
    (typeChars keymap delay 0 (chars.map Char.toNat) { ctx := c }).unmapped =
        (unmappedOf keymap (chars.map Char.toNat)).map codePointText ∧
      (typeChars keymap delay 0 (chars.map Char.toNat) { ctx := c }).mapped =
        (keysOf keymap (chars.map Char.toNat)).length := by
  have htyping := typeAll_toTyping keymap delay (chars.map Char.toNat) { ctx := c }
  have htyped := typeAll_typed keymap delay chars c
  change _ = typeChars keymap delay 0 (chars.map Char.toNat) { ctx := c } at htyping
  rw [← htyping] at hwhole ⊢
  obtain ⟨hread, -, hmapped, -⟩ := htyped.whole hwhole
  have hunmapped := htyped.unmapped
  rw [hread] at hunmapped
  exact ⟨hunmapped, hmapped⟩

/-- The answer tells of every character whether it was typed or has no key, and
the events of the call are, in order, the strokes of those that were typed. -/
def AnswersFor (w : World) (params : Option CJson) (chars : List Char) (result : CJson) : Prop :=
  ∃ req keys unmapped, parseType params = .ok req ∧
    keys = keysOf (req.keymap w) (chars.map Char.toNat) ∧
    unmapped = unmappedOf (req.keymap w) (chars.map Char.toNat) ∧
    result.getItem (ascii "text_len") = some (cNumber chars.length) ∧
    result.getItem (ascii "chars_mapped") = some (cNumber keys.length) ∧
    result.getItem (ascii "unmapped") =
      some (.array (unmapped.map fun cp => .string (codePointText cp))) ∧
    keys.length + unmapped.length = chars.length ∧
    (inputType w params).written = eventsOf keys.flatten

theorem inputType_answers {w : World} {params : Option CJson} {chars : List Char}
    (hchars : ∀ ch ∈ chars, ch.toNat ≠ 0) (htext : pStr params "text" = .ok (utf8Text chars))
    (hwhole : (inputType w params).Whole) :
    ∃ result, (inputType w params).outcome = .ok result ∧ AnswersFor w params chars result := by
  unfold inputType at hwhole ⊢
  split at hwhole
  · exact absurd hwhole (not_whole_refused _)
  · rename_i henabled
    rw [if_neg henabled]
    cases hparse : parseType params with
    | error e =>
      rw [hparse] at hwhole
      exact absurd hwhole (not_whole_refused _)
    | ok req =>
      rw [hparse] at hwhole
      have hreq : req.text = utf8Text chars := by
        rw [parseType_ok hparse] at htext
        exact Except.ok.inj htext
      dsimp only at hwhole ⊢
      have hnames : ascii "truncated" ∉
          [ascii "op", ascii "text_len", ascii "chars_mapped", ascii "unmapped",
            ascii "keymap"] := by
        decide
      obtain ⟨hopen, htruncated, hwritten⟩ := whole_inject hwhole fun _ => hnames
      dsimp only at htruncated hwritten
      have hevents : (inputType w params).written =
          eventsOf (keysOf (req.keymap w) (chars.map Char.toNat)).flatten := by
        have hidle : (finish (pressStrokes req.delay
            (strokes (req.keymap w) 0 (codePoints req.text)) { tioOpen := w.timer })).Idle :=
          pressStrokes_idle ⟨rfl, rfl⟩
        rw [← typeChars_ctx (req.keymap w) req.delay 0 (codePoints req.text)
          { ctx := { tioOpen := w.timer } }] at hidle
        unfold inputType
        rw [if_neg henabled, hparse]
        dsimp only
        rw [hwritten, hidle.close_written]
        rw [hreq, codePoints_utf8Text hchars] at htruncated ⊢
        exact (typeChars_events _ _ _ _).2 htruncated
      rw [hreq, codePoints_utf8Text hchars] at htruncated ⊢
      obtain ⟨hunmapped, hmapped⟩ := typeChars_whole _ _ _ htruncated
      have hcount := length_keysOf (req.keymap w) (chars.map Char.toNat)
      rw [List.length_map] at hcount
      unfold World.inject
      rw [hopen]
      refine ⟨_, rfl, req, _, _, hparse, rfl, rfl, ?_, ?_, ?_, hcount, hevents⟩
      · rw [utf8Strlen, codePoints_utf8Text hchars, List.length_map]
        rfl
      · rw [← hmapped]
        rfl
      · show some (CJson.array ((typeChars _ _ 0 _ _).unmapped.map CJson.string)) = _
        rw [hunmapped, List.map_map]
        rfl

/-- Both loops over a text without NUL, for every key mapper, and what input.type
writes and answers when it is not truncated. -/
theorem typed_text_exact {chars : List Char} (hchars : ∀ ch ∈ chars, ch.toNat ≠ 0) :
    codePoints (utf8Text chars) = chars.map Char.toNat ∧
    strlenLoop (utf8Text chars) ((utf8Text chars).length + 1) 0 0 = some chars.length ∧
    (∀ (keymap : Option Keymap) (delay : Nat) (c : Ctx), ∃ t : Typist,
      typeLoop keymap delay (utf8Text chars) ((utf8Text chars).length + 1) 0 { ctx := c } = some t ∧
        t.toTyping = typeChars keymap delay 0 (codePoints (utf8Text chars)) { ctx := c } ∧
        t.Typed keymap c.written chars) ∧
    ∀ (w : World) (params : Option CJson), pStr params "text" = .ok (utf8Text chars) →
      (inputType w params).Whole →
        ∃ result, (inputType w params).outcome = .ok result ∧ AnswersFor w params chars result := by
  have hcps := codePoints_utf8Text hchars
  refine ⟨hcps, ?_, fun keymap delay c => ?_, fun w params htext hwhole => ?_⟩
  · rw [strlenLoop_eq, utf8Strlen, hcps, List.length_map]
  · refine ⟨_, typeLoop_eq keymap delay _ _, typeAll_toTyping keymap delay _ _, ?_⟩
    rw [hcps]
    exact typeAll_typed keymap delay chars c
  · exact inputType_answers hchars htext hwhole

/-- A character of each length. -/
def fourLengths : List Char := ['a', 'é', '€', '😀']

def fourLengthsRequest : Option CJson :=
  some (.object [(ascii "confirm", .bool true), (ascii "text", .string (utf8Text fourLengths))])

theorem four_lengths_exact :
    strlenLoop (utf8Text fourLengths) 11 0 0 = some 4 ∧
    (∃ t, typeLoop none 30 (utf8Text fourLengths) 11 0 { ctx := { tioOpen := true } } = some t ∧
      t.Typed none [] fourLengths) ∧
    ∃ result, (inputType plainWorld fourLengthsRequest).outcome = .ok result ∧
      AnswersFor plainWorld fourLengthsRequest fourLengths result := by
  have hchars : ∀ ch ∈ fourLengths, ch.toNat ≠ 0 := by simp [fourLengths]
  obtain ⟨-, hstrlen, hloop, hanswer⟩ := typed_text_exact hchars
  obtain ⟨t, ht, -, htyped⟩ := hloop none 30 { tioOpen := true }
  exact ⟨hstrlen, ⟨t, ht, htyped⟩, hanswer plainWorld fourLengthsRequest rfl ⟨_, rfl, rfl⟩⟩

end AmigaFleet.Mcpd.Input
