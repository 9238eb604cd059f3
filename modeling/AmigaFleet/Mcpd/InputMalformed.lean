import AmigaFleet.Mcpd.InputText

/-!
# Malformed bytes in input.type

`_utf8_next` hands on a byte that begins no sequence as it is, and takes any
sequence of lead and continuation bytes for what its bits spell.

* `pieces`: what the decoder takes a text apart into.
* `readAsOne_mem_pieces`: a sequence that is read as one is a piece, wherever it
  stands.
* `pieces_cases`: a piece is one byte or a sequence that is spelled out.
* `untyped_iff`: the texts whose malformed bytes no key mapper can type.
-/

namespace AmigaFleet.Mcpd.Input

open AmigaFleet.Lib

/-! ## The rounds -/

/-- The rounds over some code points; an error has left the loop. -/
def typeRounds (keymap : Option Keymap) (delay : Nat) (cps : List Nat) (t : Typist) :
    Except Typist Typist :=
  cps.foldlM (fun t cp => typeChar keymap delay cp t) t

theorem typeRounds_cons (keymap : Option Keymap) (delay cp : Nat) (cps : List Nat) (t : Typist) :
    typeRounds keymap delay (cp :: cps) t =
      (typeChar keymap delay cp t).bind (typeRounds keymap delay cps) := rfl

/-- The loop goes on behind rounds that do not leave it. -/
theorem typeAll_append {keymap : Option Keymap} {delay : Nat} {cps : List Nat} {t t' : Typist}
    (h : typeRounds keymap delay cps t = .ok t') (more : List Nat) :
    typeAll keymap delay (cps ++ more) t = typeAll keymap delay more t' := by
  induction cps generalizing t with
  | nil =>
    obtain rfl := Except.ok.inj h
    rfl
  | cons cp cps ih =>
    rw [typeRounds_cons] at h
    rw [List.cons_append, typeAll]
    cases hchar : typeChar keymap delay cp t with
    | error t'' =>
      rw [hchar] at h
      cases h
    | ok t'' =>
      rw [hchar] at h
      exact ih h

/-- A round without a key: nothing is written and the code point is reported. -/
theorem typeChar_unmapped {keymap : Option Keymap} {cp : Nat} {t : Typist}
    (h : strokesOf keymap t.read.length cp = none) (delay : Nat) :
    ∃ t', typeChar keymap delay cp t = .ok t' ∧ t'.ctx = t.ctx ∧ t'.read = t.read ++ [cp] ∧
      t'.unmapped = t.unmapped ++ [codePointText cp] := by
  rw [strokesOf_eq] at h
  unfold typeChar
  dsimp only
  by_cases hwide : cp > 0xFF
  · rw [if_pos hwide]
    exact ⟨_, rfl, rfl, rfl, rfl⟩
  · rw [if_neg hwide] at h ⊢
    rw [h]
    exact ⟨_, rfl, rfl, rfl, rfl⟩

/-- A round with a key reports nothing. -/
theorem typeChar_mapped {keymap : Option Keymap} {delay cp : Nat} {t t' : Typist}
    (h : strokesOf keymap t.read.length cp ≠ none) (ht' : typeChar keymap delay cp t = .ok t') :
    t'.unmapped = t.unmapped := by
  rw [strokesOf_eq] at h
  unfold typeChar at ht'
  dsimp only at ht'
  by_cases hwide : cp > 0xFF
  · rw [if_pos hwide] at h
    exact absurd rfl h
  · rw [if_neg hwide] at h ht'
    cases hkey : lookUp keymap t.read.length (UInt8.ofNat cp) with
    | none => exact absurd hkey h
    | some downs =>
      rw [hkey] at ht'
      dsimp only at ht'
      cases hpress : pressStrokes delay downs t.ctx with
      | error c =>
        rw [hpress] at ht'
        cases ht'
      | ok c =>
        rw [hpress] at ht'
        obtain rfl := Except.ok.inj ht'
        rfl

/-- Rounds without a key. -/
theorem typeRounds_unmapped {keymap : Option Keymap} (delay : Nat) (cps : List Nat) {t : Typist}
    (h : ∀ j, t.read.length ≤ j → j < t.read.length + cps.length →
      ∀ cp, strokesOf keymap j cp = none) :
    ∃ t', typeRounds keymap delay cps t = .ok t' ∧ t'.ctx = t.ctx ∧
      t'.read.length = t.read.length + cps.length := by
  induction cps generalizing t with
  | nil => exact ⟨t, rfl, rfl, rfl⟩
  | cons cp cps ih =>
    rw [List.length_cons] at h
    obtain ⟨t', ht', hctx, hread, -⟩ :=
      typeChar_unmapped (h t.read.length le_rfl (by omega) cp) delay
    have hlength : t'.read.length = t.read.length + 1 := by
      rw [hread, List.length_append, List.length_singleton]
    obtain ⟨t'', ht'', hctx', hlength'⟩ := ih (t := t') fun j hj hlt => h j (by omega) (by omega)
    refine ⟨t'', ?_, hctx'.trans hctx, ?_⟩
    · rw [typeRounds_cons, ht']
      exact ht''
    · rw [hlength', hlength, List.length_cons]
      omega

/-- What has been reported stays reported. -/
theorem typeChar_reports {keymap : Option Keymap} {delay cp : Nat} {t t' : Typist}
    (h : typeChar keymap delay cp t = .ok t' ∨ typeChar keymap delay cp t = .error t') :
    t.unmapped <+: t'.unmapped := by
  unfold typeChar at h
  dsimp only at h
  split at h
  · rcases h with h | h
    · obtain rfl := Except.ok.inj h
      exact List.prefix_append _ _
    · cases h
  · split at h
    · rcases h with h | h
      · obtain rfl := Except.ok.inj h
        exact List.prefix_append _ _
      · cases h
    · split at h
      · rcases h with h | h
        · cases h
        · obtain rfl := Except.error.inj h
          exact List.prefix_rfl
      · rcases h with h | h
        · obtain rfl := Except.ok.inj h
          exact List.prefix_rfl
        · cases h

theorem typeAll_reports (keymap : Option Keymap) (delay : Nat) (cps : List Nat) (t : Typist) :
    t.unmapped <+: (typeAll keymap delay cps t).unmapped := by
  induction cps generalizing t with
  | nil => exact List.prefix_rfl
  | cons cp cps ih =>
    rw [typeAll]
    cases hchar : typeChar keymap delay cp t with
    | error t' => exact typeChar_reports (.inr hchar)
    | ok t' => exact (typeChar_reports (.inl hchar)).trans (ih t')

/-! ## Sequences -/

def leadByte (base a : Nat) : UInt8 := UInt8.ofNat (a + base)

def tailByte (a : Nat) : UInt8 := UInt8.ofNat (a + 0x80)

/-- A lead byte with as many continuation bytes as it wants, and the number that
their bits spell. -/
inductive Spelled : Bytes → Nat → Prop where
  | two {a b : Nat} (ha : a < 32) (hb : b < 64) :
      Spelled [leadByte 0xC0 a, tailByte b] (a * 64 + b)
  | three {a b c : Nat} (ha : a < 16) (hb : b < 64) (hc : c < 64) :
      Spelled [leadByte 0xE0 a, tailByte b, tailByte c] ((a * 64 + b) * 64 + c)
  | four {a b c d : Nat} (ha : a < 8) (hb : b < 64) (hc : c < 64) (hd : d < 64) :
      Spelled [leadByte 0xF0 a, tailByte b, tailByte c, tailByte d]
        (((a * 64 + b) * 64 + c) * 64 + d)

def isTail (c : UInt8) : Bool := c &&& 0xC0 = 0x80

theorem isTail_tailByte {a : Nat} (ha : a < 64) : isTail (tailByte a) = true := by
  have hall : ∀ a < 64, isTail (tailByte a) = true := by decide
  exact hall a ha

theorem isTail_leadByte : (∀ a < 32, isTail (leadByte 0xC0 a) = false) ∧
    (∀ a < 16, isTail (leadByte 0xE0 a) = false) ∧ ∀ a < 8, isTail (leadByte 0xF0 a) = false := by
  decide

theorem isTail_ascii {c : UInt8} (h : c < 128) : isTail c = false := by
  have hall : ∀ k : Fin 128, isTail (UInt8.ofNat k.val) = false := by decide
  have hc := hall ⟨c.toNat, UInt8.lt_iff_toNat_lt.mp h⟩
  rwa [UInt8.ofNat_toNat] at hc

/-- A sequence that is read as one wherever it begins. -/
structure ReadAsOne (c : UInt8) (tail : Bytes) (v : Nat) : Prop where
  first : isTail c = false
  next : ∀ text, utf8Next c (tail ++ text) = (tail.length + 1, v)

theorem readAsOne_ascii {c : UInt8} (h : c < 128) : ReadAsOne c [] c.toNat where
  first := isTail_ascii h
  next text := by
    have hall : ∀ k : Fin 128, utf8Lead (UInt8.ofNat k.val) = none := by decide
    have hlead := hall ⟨c.toNat, UInt8.lt_iff_toNat_lt.mp h⟩
    rw [UInt8.ofNat_toNat] at hlead
    exact utf8Next_single hlead _

theorem Spelled.readAsOne {seq : Bytes} {v : Nat} (h : Spelled seq v) :
    ∃ c tail, seq = c :: tail ∧ ReadAsOne c tail v := by
  obtain ⟨-, htwo, hthree, hfour⟩ := utf8Lead_ofNat
  obtain ⟨hlead2, hlead3, hlead4⟩ := isTail_leadByte
  cases h with
  | two ha hb =>
    refine ⟨_, _, rfl, hlead2 _ ha, fun text => ?_⟩
    show utf8Next _ (tailByte _ :: text) = (1 + 1, _)
    refine utf8Next_sequence (htwo _ ha) (by simp) ?_
    rw [tailByte, continuation_ofNat hb]
    rfl
  | three ha hb hc =>
    refine ⟨_, _, rfl, hlead3 _ ha, fun text => ?_⟩
    show utf8Next _ (tailByte _ :: tailByte _ :: text) = (2 + 1, _)
    refine utf8Next_sequence (hthree _ ha) (by simp) ?_
    rw [tailByte, tailByte, continuation_ofNat hb, continuation_ofNat hc]
    rfl
  | four ha hb hc hd =>
    refine ⟨_, _, rfl, hlead4 _ ha, fun text => ?_⟩
    show utf8Next _ (tailByte _ :: tailByte _ :: tailByte _ :: text) = (3 + 1, _)
    refine utf8Next_sequence (hfour _ ha) (by simp) ?_
    rw [tailByte, tailByte, tailByte, continuation_ofNat hb, continuation_ofNat hc,
      continuation_ofNat hd]
    rfl

theorem Spelled.tails {c : UInt8} {tail : Bytes} {v : Nat} (h : Spelled (c :: tail) v) :
    ∀ d ∈ tail, isTail d = true := by
  cases h with
  | two ha hb => simp [isTail_tailByte, hb]
  | three ha hb hc => simp [isTail_tailByte, hb, hc]
  | four ha hb hc hd => simp [isTail_tailByte, hb, hc, hd]

/-- A character is an ASCII byte or is spelled out. -/
theorem encodeChar_cases (ch : Char) :
    (∃ c : UInt8, c < 128 ∧ String.utf8EncodeChar ch = [c]) ∨
      Spelled (String.utf8EncodeChar ch) ch.toNat := by
  have hrange : ch.val.toNat < 0x110000 := by
    have hvalid : ch.val.toNat < 0xD800 ∨ 0xDFFF < ch.val.toNat ∧
      ch.val.toNat < 0x110000 := ch.valid
    omega
  rw [show ch.toNat = ch.val.toNat from rfl]
  unfold String.utf8EncodeChar
  generalize ch.val.toNat = v at hrange ⊢
  dsimp only
  split
  · rename_i h
    refine .inl ⟨_, ?_, rfl⟩
    rw [UInt8.lt_iff_toNat_lt, UInt8.toNat_ofNat_of_lt' (Nat.lt_of_le_of_lt h (by decide))]
    exact Nat.lt_of_le_of_lt h (by decide)
  · refine .inr ?_
    split
    · rename_i h
      have hspelled := Spelled.two (a := v / 64 % 0x20) (b := v % 0x40) (Nat.mod_lt _ (by decide))
        (Nat.mod_lt _ (by decide))
      rwa [show v / 64 % 0x20 * 64 + v % 0x40 = v by omega] at hspelled
    · split
      · rename_i h
        have hspelled := Spelled.three (a := v / 4096 % 0x10) (b := v / 64 % 0x40) (c := v % 0x40)
          (Nat.mod_lt _ (by decide)) (Nat.mod_lt _ (by decide)) (Nat.mod_lt _ (by decide))
        rwa [show (v / 4096 % 0x10 * 64 + v / 64 % 0x40) * 64 + v % 0x40 = v by omega] at hspelled
      · rename_i h
        have hspelled := Spelled.four (a := v / 262144 % 0x08) (b := v / 4096 % 0x40)
          (c := v / 64 % 0x40) (d := v % 0x40) (Nat.mod_lt _ (by decide))
          (Nat.mod_lt _ (by decide)) (Nat.mod_lt _ (by decide)) (Nat.mod_lt _ (by decide))
        rwa [show ((v / 262144 % 0x08 * 64 + v / 4096 % 0x40) * 64 + v / 64 % 0x40) * 64 +
          v % 0x40 = v by omega] at hspelled

theorem encodeChar_readAsOne (ch : Char) :
    ∃ c tail, String.utf8EncodeChar ch = c :: tail ∧ ∃ v, ReadAsOne c tail v := by
  rcases encodeChar_cases ch with ⟨c, hc, hone⟩ | hspelled
  · exact ⟨c, [], hone, _, readAsOne_ascii hc⟩
  · obtain ⟨c, tail, hseq, hunit⟩ := hspelled.readAsOne
    exact ⟨c, tail, hseq, _, hunit⟩

theorem utf8Lead_some {c : UInt8} {need cp : Nat} (h : utf8Lead c = some (need, cp)) :
    need = 1 ∧ cp < 32 ∧ c = leadByte 0xC0 cp ∨ need = 2 ∧ cp < 16 ∧ c = leadByte 0xE0 cp ∨
      need = 3 ∧ cp < 8 ∧ c = leadByte 0xF0 cp := by
  have hall : ∀ k : Fin 256, ∀ lead ∈ utf8Lead (UInt8.ofNat k.val),
      lead.1 = 1 ∧ lead.2 < 32 ∧ UInt8.ofNat k.val = leadByte 0xC0 lead.2 ∨
      lead.1 = 2 ∧ lead.2 < 16 ∧ UInt8.ofNat k.val = leadByte 0xE0 lead.2 ∨
      lead.1 = 3 ∧ lead.2 < 8 ∧ UInt8.ofNat k.val = leadByte 0xF0 lead.2 := by
    decide +kernel
  have hc := hall ⟨c.toNat, c.toNat_lt⟩ (need, cp)
  rw [UInt8.ofNat_toNat] at hc
  exact hc h

theorem continuation_some {need cp v : Nat} {text : Bytes}
    (h : continuation (need + 1) cp text = some v) :
    ∃ b < 64, ∃ rest, text = tailByte b :: rest ∧
      continuation need (cp * 64 + b) rest = some v := by
  have hall : ∀ k : Fin 256, UInt8.ofNat k.val &&& 0xC0 = 0x80 →
      (UInt8.ofNat k.val &&& 0x3F).toNat < 64 ∧
        UInt8.ofNat k.val = tailByte (UInt8.ofNat k.val &&& 0x3F).toNat := by
    decide +kernel
  cases text with
  | nil => cases h
  | cons c rest =>
    rw [continuation] at h
    split at h
    · cases h
    · rename_i hc
      have hbits := hall ⟨c.toNat, c.toNat_lt⟩
      rw [UInt8.ofNat_toNat] at hbits
      obtain ⟨hlt, hbyte⟩ := hbits (not_not.mp hc)
      refine ⟨_, hlt, rest, ?_, h⟩
      rw [← hbyte]

/-- One step of the decoder: a byte handed on as it is, or a sequence. -/
theorem utf8Next_cases (c : UInt8) (text : Bytes) :
    utf8Next c text = (1, c.toNat) ∨
      ((utf8Next c text).1 - 1 ≤ text.length ∧
        Spelled (c :: text.take ((utf8Next c text).1 - 1)) (utf8Next c text).2) := by
  cases hlead : utf8Lead c with
  | none => exact .inl (utf8Next_single hlead text)
  | some lead =>
    obtain ⟨need, cp⟩ := lead
    by_cases hcut : need ≥ text.length + 1
    · exact .inl (utf8Next_broken hlead fun hlength => by omega)
    · cases htail : continuation need cp text with
      | none => exact .inl (utf8Next_broken hlead fun _ => htail)
      | some v =>
        refine .inr ?_
        rw [utf8Next_sequence hlead (by omega) htail]
        rcases utf8Lead_some hlead with ⟨rfl, hcp, rfl⟩ | ⟨rfl, hcp, rfl⟩ | ⟨rfl, hcp, rfl⟩
        · obtain ⟨b, hb, rest, rfl, hone⟩ := continuation_some htail
          obtain rfl := Option.some.inj hone
          exact ⟨by simp, .two hcp hb⟩
        · obtain ⟨b, hb, rest, rfl, hone⟩ := continuation_some htail
          obtain ⟨c, hc, rest, rfl, htwo⟩ := continuation_some hone
          obtain rfl := Option.some.inj htwo
          exact ⟨by simp, .three hcp hb hc⟩
        · obtain ⟨b, hb, rest, rfl, hone⟩ := continuation_some htail
          obtain ⟨c, hc, rest, rfl, htwo⟩ := continuation_some hone
          obtain ⟨d, hd, rest, rfl, hthree⟩ := continuation_some htwo
          obtain rfl := Option.some.inj hthree
          exact ⟨by simp, .four hcp hb hc hd⟩

/-! ## Pieces -/

/-- What the rounds of a loop over `_utf8_next` take, with the code points. -/
def piecesUpTo : Nat → Bytes → List (Bytes × Nat)
  | 0, _ => []
  | _ + 1, [] => []
  | n + 1, c :: text =>
    (c :: text.take ((utf8Next c text).1 - 1), (utf8Next c text).2) ::
      piecesUpTo n (text.drop ((utf8Next c text).1 - 1))

def pieces (text : Bytes) : List (Bytes × Nat) := piecesUpTo text.length text

theorem pieces_codePoints (text : Bytes) : (pieces text).map Prod.snd = codePoints text := by
  have hupTo : ∀ n text, (piecesUpTo n text).map Prod.snd = codePointsUpTo n text := by
    intro n
    induction n with
    | zero => intro text; rfl
    | succ n ih =>
      intro text
      cases text with
      | nil => rfl
      | cons c text => rw [piecesUpTo, codePointsUpTo, List.map_cons, ih]
  exact hupTo text.length text

theorem piecesUpTo_eq {n m : Nat} {text : Bytes} (hn : text.length ≤ n) (hm : text.length ≤ m) :
    piecesUpTo n text = piecesUpTo m text := by
  induction n generalizing m text with
  | zero =>
    obtain rfl := List.length_eq_zero_iff.mp (Nat.le_zero.mp hn)
    cases m <;> rfl
  | succ n ih =>
    cases text with
    | nil => cases m <;> rfl
    | cons c text =>
      cases m with
      | zero => exact absurd hm (by simp)
      | succ m =>
        have hrest : (text.drop ((utf8Next c text).1 - 1)).length ≤ text.length := by
          rw [List.length_drop]
          omega
        rw [piecesUpTo, piecesUpTo]
        rw [ih (hrest.trans (Nat.le_of_succ_le_succ hn)) (hrest.trans (Nat.le_of_succ_le_succ hm))]

theorem pieces_cons (c : UInt8) (text : Bytes) :
    pieces (c :: text) = (c :: text.take ((utf8Next c text).1 - 1), (utf8Next c text).2) ::
      pieces (text.drop ((utf8Next c text).1 - 1)) := by
  have hrest : (text.drop ((utf8Next c text).1 - 1)).length ≤ text.length := by
    rw [List.length_drop]
    omega
  show piecesUpTo (text.length + 1) (c :: text) = _
  rw [piecesUpTo, piecesUpTo_eq hrest le_rfl]
  rfl

/-- Round by round. -/
theorem by_pieces {motive : Bytes → Prop} (nil : motive [])
    (cons : ∀ c text, motive (text.drop ((utf8Next c text).1 - 1)) → motive (c :: text))
    (text : Bytes) : motive text := by
  induction hn : text.length using Nat.strong_induction_on generalizing text with
  | _ n ih =>
    cases text with
    | nil => exact nil
    | cons c text =>
      refine cons c text (ih _ ?_ _ rfl)
      rw [List.length_drop, ← hn, List.length_cons]
      omega

theorem pieces_flatten (text : Bytes) : (pieces text).flatMap Prod.fst = text := by
  induction text using by_pieces with
  | nil => rfl
  | cons c text ih =>
    rw [pieces_cons, List.flatMap_cons, ih, List.cons_append, List.take_append_drop]

/-- What a piece is. -/
theorem pieces_cases {text : Bytes} {p : Bytes × Nat} (h : p ∈ pieces text) :
    (∃ c : UInt8, p = ([c], c.toNat)) ∨ Spelled p.1 p.2 := by
  induction text using by_pieces with
  | nil => cases h
  | cons c text ih =>
    rw [pieces_cons] at h
    rcases List.mem_cons.mp h with rfl | hrest
    · rcases utf8Next_cases c text with hone | ⟨-, hspelled⟩
      · rw [hone]
        exact .inl ⟨c, rfl⟩
      · exact .inr hspelled
    · exact ih hrest

/-- A piece does not reach beyond a byte that is no continuation byte. -/
theorem piece_stops (d c : UInt8) (a b : Bytes) (hc : isTail c = false) :
    (utf8Next d (a ++ c :: b)).1 - 1 ≤ a.length := by
  by_contra hlong
  rcases utf8Next_cases d (a ++ c :: b) with hone | ⟨-, hspelled⟩
  · rw [hone] at hlong
    exact hlong (Nat.zero_le _)
  · have hmem : c ∈ (a ++ c :: b).take ((utf8Next d (a ++ c :: b)).1 - 1) := by
      rw [List.take_append, List.take_of_length_le (by omega)]
      obtain ⟨n, hn⟩ : ∃ n, (utf8Next d (a ++ c :: b)).1 - 1 - a.length = n + 1 :=
        ⟨(utf8Next d (a ++ c :: b)).1 - 1 - a.length - 1, by omega⟩
      rw [hn, List.take_succ_cons]
      simp
    rw [hspelled.tails c hmem] at hc
    cases hc

/-- Such a sequence is a piece wherever it stands. -/
theorem readAsOne_mem_pieces {c : UInt8} {tail : Bytes} {v : Nat} (hunit : ReadAsOne c tail v)
    (a b : Bytes) :
    ∃ ps qs, pieces (a ++ c :: (tail ++ b)) = ps ++ (c :: tail, v) :: qs ∧
      ps.flatMap Prod.fst = a := by
  induction hn : a.length using Nat.strong_induction_on generalizing a with
  | _ n ih =>
    cases a with
    | nil =>
      refine ⟨[], pieces b, ?_, rfl⟩
      rw [List.nil_append, pieces_cons, hunit.next, Nat.add_sub_cancel, List.take_left',
        List.drop_left']
      · rfl
      · rfl
      · rfl
    | cons d a =>
      have hstop := piece_stops d c a (tail ++ b) hunit.first
      generalize hnext : utf8Next d (a ++ c :: (tail ++ b)) = next at hstop
      obtain ⟨ps, qs, hpieces, hflat⟩ := ih (a.drop (next.1 - 1)).length
        (by rw [← hn, List.length_drop, List.length_cons]; omega) _ rfl
      refine ⟨(d :: a.take (next.1 - 1), next.2) :: ps, qs, ?_, ?_⟩
      · rw [List.cons_append, pieces_cons, hnext, List.take_append_of_le_length hstop,
          List.drop_append_of_le_length hstop, hpieces]
        rfl
      · rw [List.flatMap_cons, hflat, List.cons_append, List.take_append_drop]

/-! ## Positions -/

/-- Byte `i` of the text is in an occurrence of these bytes. -/
def Within (text seq : Bytes) (i : Nat) : Prop :=
  ∃ a b, text = a ++ (seq ++ b) ∧ a.length ≤ i ∧ i < a.length + seq.length

/-- Byte `i` is part of no character. -/
def Malformed (text : Bytes) (i : Nat) : Prop :=
  i < text.length ∧ ∀ ch, ¬ Within text (String.utf8EncodeChar ch) i

/-- Byte `i` is in the piece behind these. -/
def Covers (ps : List (Bytes × Nat)) (p : Bytes × Nat) (i : Nat) : Prop :=
  (ps.flatMap Prod.fst).length ≤ i ∧ i < (ps.flatMap Prod.fst).length + p.1.length

theorem exists_covers (all : List (Bytes × Nat)) {i : Nat} (h : i < (all.flatMap Prod.fst).length) :
    ∃ ps p qs, all = ps ++ p :: qs ∧ Covers ps p i := by
  induction all generalizing i with
  | nil => exact absurd h (Nat.not_lt_zero _)
  | cons p all ih =>
    by_cases hfirst : i < p.1.length
    · exact ⟨[], p, all, rfl, Nat.zero_le _, by simpa using hfirst⟩
    · rw [List.flatMap_cons, List.length_append] at h
      obtain ⟨ps, q, qs, rfl, hcovers⟩ := ih (i := i - p.1.length) (by omega)
      refine ⟨p :: ps, q, qs, rfl, ?_⟩
      unfold Covers at hcovers ⊢
      rw [List.flatMap_cons, List.length_append]
      omega

/-- A byte is in one piece only. -/
theorem covers_unique {ps ps' qs qs' : List (Bytes × Nat)} {p p' : Bytes × Nat} {i : Nat}
    (h : ps ++ p :: qs = ps' ++ p' :: qs') (hp : Covers ps p i) (hp' : Covers ps' p' i) :
    ps = ps' ∧ p = p' := by
  unfold Covers at hp hp'
  rcases List.append_eq_append_iff.mp h with ⟨more, rfl, hmore⟩ | ⟨more, rfl, hmore⟩
  · cases more with
    | nil => exact ⟨(List.append_nil _).symm, (List.cons.inj hmore).1⟩
    | cons q more =>
      obtain ⟨rfl, -⟩ := List.cons.inj hmore
      rw [List.flatMap_append, List.flatMap_cons, List.length_append, List.length_append] at hp'
      omega
  · cases more with
    | nil => exact ⟨List.append_nil _, (List.cons.inj hmore).1.symm⟩
    | cons q more =>
      obtain ⟨rfl, -⟩ := List.cons.inj hmore
      rw [List.flatMap_append, List.flatMap_cons, List.length_append, List.length_append] at hp
      omega

/-- Such a sequence around a byte is the piece of the byte. -/
theorem piece_of_within {text : Bytes} {ps qs : List (Bytes × Nat)} {p : Bytes × Nat} {i : Nat}
    (hpieces : pieces text = ps ++ p :: qs) (hp : Covers ps p i) {c : UInt8} {tail : Bytes}
    {v : Nat} (hunit : ReadAsOne c tail v) (hwithin : Within text (c :: tail) i) :
    p = (c :: tail, v) := by
  obtain ⟨a, b, rfl, hle, hlt⟩ := hwithin
  obtain ⟨ps', qs', hpieces', rfl⟩ := readAsOne_mem_pieces hunit a b
  exact (covers_unique (hpieces.symm.trans hpieces') hp ⟨hle, hlt⟩).2

theorem within_piece {text : Bytes} {ps qs : List (Bytes × Nat)} {p : Bytes × Nat} {i : Nat}
    (hpieces : pieces text = ps ++ p :: qs) (hp : Covers ps p i) : Within text p.1 i := by
  refine ⟨ps.flatMap Prod.fst, qs.flatMap Prod.fst, ?_, hp⟩
  rw [← pieces_flatten text, hpieces, List.flatMap_append, List.flatMap_cons]

/-- A byte is malformed when its piece is no character. -/
theorem malformed_iff {text : Bytes} {ps qs : List (Bytes × Nat)} {p : Bytes × Nat} {i : Nat}
    (hpieces : pieces text = ps ++ p :: qs) (hp : Covers ps p i) :
    Malformed text i ↔ ∀ ch, p.1 ≠ String.utf8EncodeChar ch := by
  constructor
  · intro hmalformed ch hch
    exact hmalformed.2 ch (hch ▸ within_piece hpieces hp)
  · intro hne
    refine ⟨?_, fun ch hwithin => ?_⟩
    · obtain ⟨a, b, htext, -, hlt⟩ := within_piece hpieces hp
      rw [htext, List.length_append, List.length_append]
      omega
    · obtain ⟨c, tail, hch, v, hunit⟩ := encodeChar_readAsOne ch
      rw [hch] at hwithin
      refine hne ch ?_
      rw [piece_of_within hpieces hp hunit hwithin, hch]

/-- A malformed byte is in a sequence that spells a code point above U+00FF. -/
def SpelledWide (text : Bytes) (i : Nat) : Prop :=
  ∃ seq v, Spelled seq v ∧ 0xFF < v ∧ Within text seq i

theorem spelledWide_iff {text : Bytes} {ps qs : List (Bytes × Nat)} {p : Bytes × Nat} {i : Nat}
    (hpieces : pieces text = ps ++ p :: qs) (hp : Covers ps p i) :
    SpelledWide text i ↔ 0xFF < p.2 := by
  constructor
  · rintro ⟨seq, v, hspelled, hwide, hwithin⟩
    obtain ⟨c, tail, rfl, hunit⟩ := hspelled.readAsOne
    rwa [piece_of_within hpieces hp hunit hwithin]
  · intro hwide
    have hmem : p ∈ pieces text := by
      rw [hpieces]
      exact List.mem_append_right _ List.mem_cons_self
    rcases pieces_cases hmem with ⟨c, rfl⟩ | hspelled
    · exact absurd c.toNat_lt (Nat.not_lt.mpr hwide)
    · exact ⟨p.1, p.2, hspelled, hwide, within_piece hpieces hp⟩

/-! ## What is typed of them -/

/-- No malformed byte of the text is typed, and each is reported: in every round
that the call comes to, when the round reads a malformed byte. -/
def Untyped (keymap : Option Keymap) (delay : Nat) (c : Ctx) (text : Bytes) : Prop :=
  ∀ ps p qs, pieces text = ps ++ p :: qs → ∀ i, Covers ps p i → Malformed text i →
    ∀ t, typeRounds keymap delay (ps.map Prod.snd) { ctx := c } = .ok t →
      ∃ t', typeChar keymap delay p.2 t = .ok t' ∧ t'.ctx.written = t.ctx.written ∧
        t'.unmapped = t.unmapped ++ [codePointText p.2] ∧
        codePointText p.2 ∈ (typeAll keymap delay (codePoints text) { ctx := c }).unmapped

/-- The answers of a key mapper that has a key for everything in one round, and no
key in the others. -/
def onlyRound (k : Nat) : Keymap := fun i _ => ⟨if i = k then 1 else 0, fun _ => (0x20, 0)⟩

theorem strokesOf_onlyRound (k i cp : Nat) :
    strokesOf (some (onlyRound k)) i cp = none ↔ 0xFF < cp ∨ i ≠ k := by
  rw [strokesOf]
  by_cases hwide : cp > 0xFF
  · simp [hwide]
  · rw [if_neg hwide]
    by_cases hi : i = k
    · simp [onlyRound, MapAnswer.strokes, hi]
      omega
    · simp [onlyRound, MapAnswer.strokes, hi]

/-- A round without a key leaves its code point in the answer. -/
theorem untyped_round {keymap : Option Keymap} {delay : Nat} {c : Ctx} {text : Bytes}
    {ps qs : List (Bytes × Nat)} {p : Bytes × Nat} (hpieces : pieces text = ps ++ p :: qs)
    {t : Typist} (ht : typeRounds keymap delay (ps.map Prod.snd) { ctx := c } = .ok t)
    (hnone : strokesOf keymap t.read.length p.2 = none) :
    ∃ t', typeChar keymap delay p.2 t = .ok t' ∧ t'.ctx.written = t.ctx.written ∧
      t'.unmapped = t.unmapped ++ [codePointText p.2] ∧
      codePointText p.2 ∈ (typeAll keymap delay (codePoints text) { ctx := c }).unmapped := by
  obtain ⟨t', ht', hctx, -, hunmapped⟩ := typeChar_unmapped hnone delay
  refine ⟨t', ht', by rw [hctx], hunmapped, ?_⟩
  have hall : typeAll keymap delay (codePoints text) { ctx := c } =
      typeAll keymap delay (qs.map Prod.snd) t' := by
    rw [← pieces_codePoints, hpieces, List.map_append, typeAll_append ht, List.map_cons, typeAll,
      ht']
  rw [hall]
  refine (typeAll_reports keymap delay _ t').subset ?_
  rw [hunmapped]
  exact List.mem_append_right _ List.mem_cons_self

/-- No key mapper can type a malformed byte of the text when each is in a
sequence that spells a code point above U+00FF, and only then. -/
theorem untyped_iff (text : Bytes) :
    (∀ (keymap : Option Keymap) (delay : Nat) (c : Ctx), Untyped keymap delay c text) ↔
      ∀ i, Malformed text i → SpelledWide text i := by
  constructor
  · intro huntyped i hmalformed
    have hlength := hmalformed.1
    rw [← pieces_flatten text] at hlength
    obtain ⟨ps, p, qs, hpieces, hcovers⟩ := exists_covers _ hlength
    rw [spelledWide_iff hpieces hcovers]
    -- the first rounds have no key and use up no event
    have hnone : ∀ j, 0 ≤ j → j < 0 + (ps.map Prod.snd).length →
        ∀ cp, strokesOf (some (onlyRound ps.length)) j cp = none := by
      intro j _ hlt cp
      rw [List.length_map, Nat.zero_add] at hlt
      exact (strokesOf_onlyRound ..).mpr (.inr (Nat.ne_of_lt hlt))
    obtain ⟨t, ht, -, hread⟩ :=
      typeRounds_unmapped 0 (ps.map Prod.snd) (t := { ctx := { tioOpen := true } }) hnone
    rw [List.length_map] at hread
    obtain ⟨t', ht', -, hunmapped, -⟩ := huntyped (some (onlyRound ps.length)) 0 { tioOpen := true }
      ps p qs hpieces i hcovers hmalformed t ht
    by_contra hnarrow
    have hkey : strokesOf (some (onlyRound ps.length)) t.read.length p.2 ≠ none := by
      rw [ne_eq, strokesOf_onlyRound]
      simp [hread, hnarrow]
    rw [typeChar_mapped hkey ht'] at hunmapped
    simp at hunmapped
  · intro hwide keymap delay c ps p qs hpieces i hcovers hmalformed t ht
    have hspelled := (spelledWide_iff hpieces hcovers).mp (hwide i hmalformed)
    exact untyped_round hpieces ht (if_pos hspelled)

/-- An overlong form of `/` is typed with the US table. -/
theorem overlong_typed : ¬ ∀ (text : Bytes) (keymap : Option Keymap) (delay : Nat) (c : Ctx),
    Untyped keymap delay c text := by
  intro h
  have hpieces : pieces [0xC0, 0xAF] = [] ++ ([0xC0, 0xAF], 0x2F) :: [] := by decide
  have hcovers : Covers [] ([0xC0, 0xAF], 0x2F) 0 := ⟨by decide, by decide⟩
  have hmalformed : Malformed [0xC0, 0xAF] 0 := by
    rw [malformed_iff hpieces hcovers]
    intro ch hch
    dsimp only at hch
    have hcps := codePoints_encode_cons ch []
    rw [← hch] at hcps
    have hslash : ch.toNat = '/'.toNat := (List.cons.inj hcps).1.symm
    obtain rfl : ch = '/' := Char.toNat_inj.mp hslash
    exact absurd hch (by decide)
  obtain ⟨t', ht', hwritten, -⟩ :=
    h [0xC0, 0xAF] none 0 { tioOpen := true } [] _ [] hpieces 0 hcovers hmalformed _ rfl
  have hevents : (typeChar none 0 0x2F { ctx := { tioOpen := true } }).toOption.map
      (fun t => t.ctx.written.length) = some 2 := by decide
  rw [ht', Except.toOption, Option.map_some, hwritten] at hevents
  cases hevents

end AmigaFleet.Mcpd.Input
