import Mathlib.Data.Bool.AllAny
import Mathlib.Data.List.TakeWhile
import AmigaFleet.Host.Discover
import AmigaFleet.Mcpd.Discovery

/-!
# The text of a discovery reply

`_discovery_loop` builds its reply with `snprintf`: the host name and the tag
are copied between two quotes as they are.  `_extract_str_field` cuts the tag
out of the probe at the next quote, and `_sanitize_inplace` keeps quotes and
backslashes.

* `TagText`: the quoted text behind the first `"tag"` of a probe, and
  `tag_cases`: what is echoed is this text, cut and sanitised.
* `parse_reply`: what a JSON reader makes of a reply.
* `length_reply`: how long a reply is.
-/

namespace AmigaFleet.Mcpd.Discovery

open AmigaFleet.Lib
open AmigaFleet.Lib.JsonText (Members Value Reader run_string_cases run_inside_plain)
open AmigaFleet.Host (glyphs name)

/-! ## The text of the tag -/

theorem strstr_some {needle text rest : Bytes} (h : strstr needle text = some rest) :
    ∃ before, text = before ++ (needle ++ rest) ∧
      ∀ a b, text = a ++ (needle ++ b) → before.length ≤ a.length := by
  induction text with
  | nil =>
    rw [strstr] at h
    split at h
    · rename_i hnil
      cases h
      exact ⟨[], by rw [hnil]; rfl, fun _ _ _ => Nat.zero_le _⟩
    · cases h
  | cons c text ih =>
    rw [strstr] at h
    split at h
    · rename_i hhere
      obtain ⟨more, hmore⟩ := hhere
      cases h
      refine ⟨[], ?_, fun _ _ _ => Nat.zero_le _⟩
      rw [List.nil_append, ← hmore, List.drop_left]
    · rename_i hhere
      obtain ⟨before, htext, hfirst⟩ := ih h
      refine ⟨c :: before, by rw [htext]; rfl, ?_⟩
      intro a b hab
      cases a with
      | nil => exact absurd ⟨b, hab.symm⟩ hhere
      | cons d a =>
        have hle := hfirst a b (List.cons.inj hab).2
        simp only [List.length_cons]
        omega

theorem strstr_none {needle text : Bytes} (h : strstr needle text = none) (a b : Bytes) :
    text ≠ a ++ (needle ++ b) := by
  induction text generalizing a with
  | nil =>
    rw [strstr] at h
    split at h
    · cases h
    · rename_i hne
      intro hab
      obtain ⟨-, hneedle⟩ := List.append_eq_nil_iff.mp hab.symm
      exact hne (List.append_eq_nil_iff.mp hneedle).1
  | cons c text ih =>
    rw [strstr] at h
    split at h
    · cases h
    · rename_i hhere
      intro hab
      cases a with
      | nil => exact hhere ⟨b, hab.symm⟩
      | cons d a => exact ih h a (List.cons.inj hab).2

/-- What stands between a key and its value for `_extract_str_field`. -/
def Separators (seps : Bytes) : Prop := ∀ c ∈ seps, c = 32 ∨ c = 9 ∨ c = 58

/-- Behind the first `"tag"` of the text stands `raw` between two quotes. -/
def TagText (text raw : Bytes) : Prop :=
  ∃ before seps after,
    text = before ++ (needleOf "tag" ++ (seps ++ CJson.quote :: (raw ++ CJson.quote :: after))) ∧
      (∀ a b, text = a ++ (needleOf "tag" ++ b) → before.length ≤ a.length) ∧
      Separators seps ∧ CJson.quote ∉ raw

theorem takeWhile_quote {raw : Bytes} (after : Bytes) (h : CJson.quote ∉ raw) :
    (raw ++ CJson.quote :: after).takeWhile (· ≠ CJson.quote) = raw := by
  rw [List.takeWhile_append_of_pos, List.takeWhile_cons_of_neg (by simp), List.append_nil]
  intro c hc
  simpa using fun heq : c = CJson.quote => h (heq ▸ hc)

/-- The scanning functions find the text of the tag. -/
theorem TagText.found {text raw : Bytes} (h : TagText text raw) :
    ∃ p rest, strstr (needleOf "tag") text = some p ∧
      (p.dropWhile fun c => c = 32 ∨ c = 9 ∨ c = 58) = CJson.quote :: rest ∧
      CJson.quote ∈ rest ∧ rest.takeWhile (· ≠ CJson.quote) = raw := by
  obtain ⟨before, seps, after, htext, hfirst, hseps, hraw⟩ := h
  refine ⟨seps ++ CJson.quote :: (raw ++ CJson.quote :: after), raw ++ CJson.quote :: after,
    ?_, ?_, List.mem_append_right _ (List.mem_cons_self ..), takeWhile_quote after hraw⟩
  · cases hfound : strstr (needleOf "tag") text with
    | none => exact absurd htext (strstr_none hfound _ _)
    | some rest =>
      obtain ⟨before', htext', hfirst'⟩ := strstr_some hfound
      have hle := hfirst _ _ htext'
      have hge := hfirst' _ _ htext
      rw [htext] at htext'
      have hsplit := List.append_inj htext' (Nat.le_antisymm hle hge)
      rw [List.append_cancel_left hsplit.2]
  · rw [List.dropWhile_append_of_pos, List.dropWhile_cons_of_neg (by decide)]
    intro c hc
    simpa using hseps c hc

theorem TagText.unique {text raw raw' : Bytes} (h : TagText text raw) (h' : TagText text raw') :
    raw = raw' := by
  obtain ⟨p, rest, hp, hrest, -, hraw⟩ := h.found
  obtain ⟨p', rest', hp', hrest', -, hraw'⟩ := h'.found
  cases Option.some.inj (hp.symm.trans hp')
  cases (List.cons.inj (hrest.symm.trans hrest')).2
  exact hraw.symm.trans hraw'

/-- The field that is extracted is the text behind the first occurrence of its
name. -/
theorem extractStrField_of_tagText {g : Datagram} {raw : Bytes} (h : TagText (cText g.buf) raw) :
    extractStrField g.buf "tag" 64 = some (raw.take 63) := by
  obtain ⟨p, rest, hp, hrest, hmem, hraw⟩ := h.found
  unfold extractStrField
  rw [hp]
  dsimp only
  rw [hrest]
  dsimp only
  rw [if_pos ⟨rfl, hmem⟩, hraw]

theorem tagText_of_extractStrField {g : Datagram} {out : Bytes}
    (h : extractStrField g.buf "tag" 64 = some out) :
    ∃ raw, TagText (cText g.buf) raw ∧ out = raw.take 63 := by
  unfold extractStrField at h
  split at h
  · cases h
  · rename_i p hp
    obtain ⟨before, htext, hfirst⟩ := strstr_some hp
    split at h
    · rename_i c rest hrest
      split at h
      · rename_i hquote
        obtain ⟨rfl, hmem⟩ := hquote
        cases h
        have hsplit := List.takeWhile_append_dropWhile (p := fun c => c = 32 ∨ c = 9 ∨ c = 58) (l := p)
        rw [hrest] at hsplit
        have hraw := List.takeWhile_append_dropWhile (p := fun c => c ≠ CJson.quote) (l := rest)
        cases hafter : rest.dropWhile (fun c => c ≠ CJson.quote) with
        | nil =>
          have := List.dropWhile_eq_nil_iff.mp hafter _ hmem
          simp at this
        | cons d after =>
          have hd : d = CJson.quote := by
            have := List.head?_dropWhile_not (fun c => decide (c ≠ CJson.quote)) rest
            rw [hafter] at this
            simpa using this
          subst hd
          rw [hafter] at hraw
          refine ⟨_, ⟨before, p.takeWhile fun c => c = 32 ∨ c = 9 ∨ c = 58, after, ?_, hfirst, ?_, ?_⟩, rfl⟩
          · rw [hraw, hsplit]
            exact htext
          · intro c hc
            simpa using List.mem_takeWhile_imp hc
          · intro hc
            have := List.mem_takeWhile_imp hc
            simp at this
      · cases h
    · cases h

/-- The tag that is echoed. -/
theorem tag_cases (g : Datagram) :
    (∃ raw, TagText (cText g.buf) raw ∧ g.tag = sanitize (raw.take 63)) ∨
      (∀ raw, ¬ TagText (cText g.buf) raw) ∧ g.tag = [] := by
  unfold Datagram.tag
  cases hfield : extractStrField g.buf "tag" 64 with
  | none =>
    refine Or.inr ⟨fun raw hraw => ?_, rfl⟩
    rw [extractStrField_of_tagText hraw] at hfield
    cases hfield
  | some out =>
    obtain ⟨raw, hraw, rfl⟩ := tagText_of_extractStrField hfield
    exact Or.inl ⟨raw, hraw, rfl⟩

/-! ## Decimals -/

theorem decimal_natCast (n : Nat) :
    decimal n = (Nat.toDigits 10 n).map fun c => UInt8.ofNat c.toNat := by
  show (n.repr).toList.map _ = _
  rw [Nat.toList_repr]

theorem decimal_negSucc (n : Nat) : decimal (Int.negSucc n) = 45 :: decimal (n + 1 : Nat) := by
  rw [decimal_natCast]
  show ("-" ++ (n + 1).repr).toList.map _ = _
  rw [String.toList_append, List.map_append, Nat.toList_repr]
  rfl

/-- The digits of a number, as bytes. -/
theorem isDigit_of_mem_decimal {n : Nat} {c : UInt8} (h : c ∈ decimal n) :
    JsonText.isDigit c = true := by
  rw [decimal_natCast] at h
  obtain ⟨d, hd, rfl⟩ := List.mem_map.mp h
  have hdigit := Nat.isDigit_of_mem_toDigits (by decide) (by decide) hd
  simp only [Char.isDigit, Bool.and_eq_true, decide_eq_true_eq, UInt32.le_iff_toNat_le] at hdigit
  have hval : d.val.toNat = d.toNat := rfl
  simp only [JsonText.isDigit, UInt8.le_iff_toNat_le, UInt8.toNat_ofNat']
  have h48 : '0'.val.toNat = 48 := rfl
  have h57 : '9'.val.toNat = 57 := rfl
  have h48' : (48 : UInt8).toNat = 48 := rfl
  have h57' : (57 : UInt8).toNat = 57 := rfl
  simp only [Bool.decide_and, Bool.and_eq_true, decide_eq_true_eq]
  omega

theorem length_decimal_lt {n k : Nat} (hk : 0 < k) (h : n < 10 ^ k) : (decimal n).length ≤ k := by
  rw [decimal_natCast, List.length_map]
  exact (Nat.length_toDigits_le_iff (by decide) hk).mpr h

/-- Digits continue a number. -/
theorem run_digits {digits : Bytes} (h : ∀ c ∈ digits, JsonText.isDigit c = true) :
    run JsonText.Number.step .int digits = some .int := by
  induction digits with
  | nil => rfl
  | cons c digits ih =>
    have hc : JsonText.Number.step .int c = some .int := if_pos (h c (List.mem_cons_self ..))
    rw [run, hc]
    exact ih fun d hd => h d (List.mem_cons_of_mem _ hd)

/-- The decimal of a positive number starts with another digit than 0. -/
theorem decimal_head {n : Nat} (h : 0 < n) : ∃ c digits, decimal n = c :: digits ∧ c ≠ 48 := by
  induction n using Nat.strongRecOn with
  | ind n ih =>
    rw [decimal_natCast]
    rcases Nat.lt_or_ge n 10 with hlt | hge
    · have hdigit : ∀ k < 10, 0 < k → UInt8.ofNat (Nat.digitChar k).toNat ≠ 48 := by decide
      rw [Nat.toDigits_of_lt_base hlt]
      exact ⟨_, [], rfl, hdigit n hlt h⟩
    · obtain ⟨c, digits, hhead, hc⟩ := ih (n / 10) (by omega) (by omega)
      rw [decimal_natCast] at hhead
      rw [Nat.toDigits_of_base_le (by decide) hge, List.map_append, hhead]
      exact ⟨c, _, rfl, hc⟩

/-- A decimal is a number of a JSON text. -/
theorem number_decimal (n : Nat) :
    ∃ s, run JsonText.Number.step .start (decimal n) = some s ∧
      run JsonText.Number.step .minus (decimal n) = some s ∧ s.complete = true := by
  rcases Nat.eq_zero_or_pos n with rfl | hpos
  · exact ⟨.zero, rfl, rfl, rfl⟩
  · obtain ⟨c, digits, hdec, hc⟩ := decimal_head hpos
    have hall : ∀ d ∈ c :: digits, JsonText.isDigit d = true := fun d hd =>
      isDigit_of_mem_decimal (hdec ▸ hd)
    have hdigit := hall c (List.mem_cons_self ..)
    have hminus : c ≠ 45 := by
      rintro rfl
      exact absurd hdigit (by decide)
    have hrest := run_digits fun d hd => hall d (List.mem_cons_of_mem _ hd)
    have hstart : JsonText.Number.step .start c = some .int := by
      show (if c = 45 then _ else _) = _
      rw [if_neg hminus, if_neg hc, if_pos hdigit]
    have hsigned : JsonText.Number.step .minus c = some .int := by
      show (if c = 48 then _ else _) = _
      rw [if_neg hc, if_pos hdigit]
    rw [hdec, run, hstart, run, hsigned]
    exact ⟨.int, hrest, hrest, rfl⟩

theorem number_decimal_int (n : Int) :
    (run JsonText.Number.step .start (decimal n)).any JsonText.Number.complete = true := by
  cases n with
  | ofNat n =>
    obtain ⟨s, hs, -, hdone⟩ := number_decimal n
    show (run JsonText.Number.step .start (decimal (n : Nat))).any _ = true
    rw [hs]
    exact hdone
  | negSucc n =>
    obtain ⟨s, -, hs, hdone⟩ := number_decimal (n + 1)
    have hsign : JsonText.Number.step .start 45 = some .minus := rfl
    rw [decimal_negSucc, run, hsign]
    show (run JsonText.Number.step .minus (decimal (n + 1 : Nat))).any _ = true
    rw [hs]
    exact hdone

/-- The bytes of a decimal. -/
theorem mem_decimal {n : Int} {c : UInt8} (h : c ∈ decimal n) :
    c = 45 ∨ JsonText.isDigit c = true := by
  cases n with
  | ofNat n => exact Or.inr (isDigit_of_mem_decimal h)
  | negSucc n =>
    rw [decimal_negSucc] at h
    rcases List.mem_cons.mp h with rfl | hc
    · exact Or.inl rfl
    · exact Or.inr (isDigit_of_mem_decimal hc)

theorem not_delimits_decimal {n : Int} {c : UInt8} (h : c ∈ decimal n) :
    JsonText.delimits c = false := by
  have hne : ∀ k : UInt8, k ≠ 45 → JsonText.isDigit k = false → c ≠ k := by
    rintro k hsign hdigit rfl
    rcases mem_decimal h with h | h
    · exact hsign h
    · rw [hdigit] at h
      cases h
  simp [JsonText.delimits, JsonText.isBlank, JsonText.markOf, JsonText.quote, hne 32 (by decide) rfl,
    hne 9 (by decide) rfl, hne 10 (by decide) rfl, hne 13 (by decide) rfl, hne 34 (by decide) rfl,
    hne 91 (by decide) rfl, hne 93 (by decide) rfl, hne 123 (by decide) rfl,
    hne 125 (by decide) rfl, hne 44 (by decide) rfl, hne 58 (by decide) rfl]

theorem scalar_decimal (n : Int) : JsonText.scalar (decimal n) = some (.num (decimal n)) := by
  unfold JsonText.scalar
  have hletter : ∀ word : Bytes, (∃ c ∈ word, c ≠ 45 ∧ JsonText.isDigit c = false) → decimal n ≠ word := by
    rintro word ⟨c, hc, hsign, hdigit⟩ rfl
    rcases mem_decimal hc with h | h
    · exact hsign h
    · rw [hdigit] at h
      cases h
  rw [if_neg (hletter _ ⟨110, by decide, by decide⟩), if_neg (hletter _ ⟨116, by decide, by decide⟩),
    if_neg (hletter _ ⟨102, by decide, by decide⟩), if_pos (number_decimal_int n)]

/-! ## What a reply says -/

/-- The members of a reply in front of the host name. -/
def Daemon.preamble (d : Daemon) : Members :=
  [(name "mcp_discovery", .num (ascii "1")), (name "v", .num (ascii "1")),
    (name "server", .str (name "mcpd/2.2")), (name "protocol", .str (name "1.0")),
    (name "tcp_port", .num (decimal d.tcpPort.toNat))]

/-- The members of a reply. -/
def Daemon.announcement (d : Daemon) (tag : List JsonText.Glyph) : Members :=
  d.preamble ++ [(name "host", .str (glyphs d.host)),
    (name "methods", .num (decimal d.methods.toInt)), (name "tag", .str tag)]

/-- A reply, from its host name on. -/
def Daemon.body (d : Daemon) (tag : Bytes) : Bytes :=
  d.host ++ CJson.quote :: (ascii ",\"methods\":" ++ (decimal d.methods.toInt ++
    (ascii ",\"tag\":\"" ++ (tag ++ [CJson.quote, 125]))))

theorem reply_eq (d : Daemon) (tag : Bytes) :
    d.reply tag =
      ascii "\x7b\"mcp_discovery\":1,\"v\":1,\"server\":\"mcpd/2.2\",\"protocol\":\"1.0\",\"tcp_port\":" ++
        (decimal d.tcpPort.toNat ++ (ascii ",\"host\":\"" ++ d.body tag)) := by
  have hmid : ascii "\",\"methods\":" = CJson.quote :: ascii ",\"methods\":" := rfl
  have hend : ascii "\"\x7d" = [CJson.quote, 125] := rfl
  simp only [Daemon.reply, Daemon.body, hmid, hend, List.append_assoc, List.cons_append]

/-- The reader at the start of the host name. -/
def Daemon.atHost (d : Daemon) : Reader :=
  ⟨.string [] .plain, .value, [.object d.preamble (name "host")]⟩

/-- A number ends at a comma. -/
theorem step_comma (n : Int) (members : Members) (key : List JsonText.Glyph)
    (stack : List JsonText.Frame) :
    Reader.step ⟨.word (decimal n), .value, .object members key :: stack⟩ 44 =
      some ⟨.between, .name (members ++ [(key, .num (decimal n))]) false, stack⟩ := by
  show (Reader.word _ (decimal n)).bind (fun r => r.outside 44) = _
  unfold Reader.word
  rw [scalar_decimal]
  rfl

theorem run_decimal (n : Int) (p : JsonText.Phase) (stack : List JsonText.Frame) :
    run Reader.step ⟨.between, p, stack⟩ (decimal n) = some ⟨.word (decimal n), p, stack⟩ := by
  refine JsonText.run_word p stack ?_ fun c hc => not_delimits_decimal hc
  intro hnil
  have hnum := number_decimal_int n
  rw [hnil] at hnum
  cases hnum

theorem parse_reply_eq (d : Daemon) (tag : Bytes) :
    JsonText.parse (d.reply tag) = (run Reader.step d.atHost (d.body tag)).bind Reader.finish := by
  have hhead : run Reader.step .start
      (ascii "\x7b\"mcp_discovery\":1,\"v\":1,\"server\":\"mcpd/2.2\",\"protocol\":\"1.0\",\"tcp_port\":") =
      some ⟨.between, .value, [.object (d.preamble.take 4) (name "tcp_port")]⟩ := rfl
  have hcomma : ascii ",\"host\":\"" = 44 :: ascii "\"host\":\"" := rfl
  have hname : run Reader.step ⟨.between, .name d.preamble false, []⟩ (ascii "\"host\":\"") =
      some d.atHost := rfl
  rw [JsonText.parse, reply_eq, run_append hhead, run_append (run_decimal _ _ _), hcomma,
    List.cons_append, run, step_comma]
  exact congrArg (fun r => r.bind Reader.finish) (run_append hname)

/-- The reader behind the host name. -/
theorem run_behind_host (members : Members) (key : List JsonText.Glyph) (host : Value) (n : Int)
    (rest : Bytes) :
    run Reader.step ⟨.between, .done host, [.object members key]⟩
        (ascii ",\"methods\":" ++ (decimal n ++ (ascii ",\"tag\":\"" ++ rest))) =
      run Reader.step ⟨.string [] .plain, .value,
        [.object (members ++ [(key, host)] ++ [(name "methods", .num (decimal n))]) (name "tag")]⟩
        rest := by
  have hmethods : run Reader.step ⟨.between, .done host, [.object members key]⟩
      (ascii ",\"methods\":") =
      some ⟨.between, .value, [.object (members ++ [(key, host)]) (name "methods")]⟩ := rfl
  have hcomma : ascii ",\"tag\":\"" = 44 :: ascii "\"tag\":\"" := rfl
  have htag : ∀ members : Members,
      run Reader.step ⟨.between, .name members false, []⟩ (ascii "\"tag\":\"") =
        some ⟨.string [] .plain, .value, [.object members (name "tag")]⟩ := fun _ => rfl
  rw [run_append hmethods, run_append (run_decimal _ _ _), hcomma, List.cons_append, run, step_comma]
  exact run_append (htag _)

/-- A tag without quotes at the end of an object. -/
theorem finish_tag (members : Members) (key : List JsonText.Glyph) {tag : Bytes}
    (h : CJson.quote ∉ tag) :
    (run Reader.step ⟨.string [] .plain, .value, [.object members key]⟩
        (tag ++ [CJson.quote, 125])).bind Reader.finish =
      (JsonText.spell tag).map fun text => .obj (members ++ [(key, .str text)]) := by
  unfold JsonText.spell
  cases hrun : run JsonText.inside ([], .plain) tag with
  | some q =>
    obtain ⟨text, s⟩ := q
    rw [run_append (JsonText.run_string .value [.object members key] hrun)]
    cases s with
    | plain => rfl
    | escape => rfl
    | hex digits code => rfl
  | none =>
    cases hall : run Reader.step ⟨.string [] .plain, .value, [.object members key]⟩
        (tag ++ [CJson.quote, 125]) with
    | none => rfl
    | some r =>
      obtain ⟨m, hm, -⟩ := run_append_some hall
      rcases run_string_cases (q := ([], .plain)) hm with ⟨q, hq, -⟩ | ⟨body, rest, _, _, rfl, -⟩
      · rw [hrun] at hq
        cases hq
      · exact absurd (List.mem_append_right _ (List.mem_cons_self ..)) h

/-- A text that a JSON string shows as it is. -/
def Plain (text : Bytes) : Prop := ∀ c ∈ text, c ≠ CJson.quote ∧ c ≠ JsonText.backslash

/-- A plain host name is announced. -/
theorem parse_reply {d : Daemon} {tag : Bytes} (hhost : Plain d.host)
    (hprint : ∀ c ∈ d.host, 32 ≤ c) (htag : CJson.quote ∉ tag) :
    JsonText.parse (d.reply tag) = (JsonText.spell tag).map fun text => .obj (d.announcement text) := by
  have hread : run Reader.step d.atHost d.host =
      some ⟨.string (glyphs d.host) .plain, .value, [.object d.preamble (name "host")]⟩ :=
    JsonText.run_string .value _
      (run_inside_plain [] fun c hc => ⟨hprint c hc, hhost c hc⟩)
  have hquote : Reader.step
      ⟨.string (glyphs d.host) .plain, .value, [.object d.preamble (name "host")]⟩ CJson.quote =
      some ⟨.between, .done (.str (glyphs d.host)), [.object d.preamble (name "host")]⟩ := rfl
  rw [parse_reply_eq, Daemon.body, run_append hread, run, hquote]
  dsimp only
  rw [run_behind_host, finish_tag _ _ htag]
  simp only [Daemon.announcement, List.append_assoc, List.cons_append, List.nil_append]

/-- A string that goes on behind the host name is another one: it would end
with the comma behind the host name, and the host name with a backslash. -/
theorem beyond_host {host rest after extra : Bytes}
    (h : 44 :: CJson.quote :: after = extra ++ CJson.quote :: rest) :
    run JsonText.inside ([], .plain) (host ++ CJson.quote :: extra) ≠
      some (glyphs host, .plain) := by
  intro hrun
  obtain ⟨⟨text, s⟩, hhost, hextra⟩ := run_append_some hrun
  obtain ⟨q, hquote, hextra⟩ := run_cons_some hextra
  cases s with
  | plain => cases hquote
  | hex digits code => cases hquote
  | escape =>
    cases hquote
    -- behind the quote come a comma and the next quote
    match extra, h with
    | [], h => cases h
    | [c], h =>
      obtain ⟨rfl, -⟩ := List.cons.inj h
      obtain ⟨q, hcomma, hend⟩ := run_cons_some hextra
      cases hcomma
      have htext := congrArg Prod.fst (Option.some.inj hend)
      rcases List.eq_nil_or_concat host with rfl | ⟨init, last, rfl⟩
      · cases hhost
      · rw [List.concat_eq_append] at hhost htext
        rw [glyphs, List.map_append] at htext
        have hlast := (List.append_inj_right' htext rfl)
        cases JsonText.run_inside_escape hhost
        cases hlast
    | c :: d :: extra, h =>
      obtain ⟨hc, htail⟩ := List.cons.inj h
      obtain ⟨hd, -⟩ := List.cons.inj htail
      subst hc hd
      obtain ⟨q, hcomma, hend⟩ := run_cons_some hextra
      cases hcomma
      cases hend

/-- A host name that a reader finds again in the reply is plain. -/
theorem plain_of_parse_reply {d : Daemon} {tag : Bytes} {text : List JsonText.Glyph}
    (h : JsonText.parse (d.reply tag) = some (.obj (d.announcement text))) : Plain d.host := by
  rw [parse_reply_eq] at h
  obtain ⟨r, hrun, hfinish⟩ := Option.bind_eq_some_iff.mp h
  rcases run_string_cases (q := ([], .plain)) hrun with
    ⟨q, -, rfl⟩ | ⟨body, rest, content, next, hsplit, hbody, hnext, hrest⟩
  · cases hfinish
  · cases hnext
    -- the string that the reader finds is the host name
    have hcontent : content = glyphs d.host := by
      have hext : Reader.Extends (d.preamble ++ [(name "host", .str content)])
          ⟨.between, .done (.str content), [.object d.preamble (name "host")]⟩ :=
        ⟨[], by rw [List.append_nil]; rfl⟩
      obtain ⟨more, hmore⟩ := JsonText.finish_extends hext hrest hfinish
      have hobj := Value.obj.inj hmore
      rw [Daemon.announcement, List.append_assoc] at hobj
      have htail := List.append_cancel_left hobj
      have hhead := (List.cons.inj htail).1
      exact (Value.str.inj (Prod.mk.inj hhead).2).symm
    subst hcontent
    have hcount : (glyphs d.host).length = d.host.length := List.length_map ..
    have hlen : (glyphs d.host).length + 0 ≤ 0 + 0 + body.length :=
      JsonText.run_inside_length hbody
    obtain ⟨extra, hextra⟩ : d.host <+: body :=
      List.prefix_of_prefix_length_le ⟨_, rfl⟩ ⟨_, hsplit.symm⟩ (by omega)
    subst hextra
    rw [Daemon.body, List.append_assoc] at hsplit
    have hbehind := List.append_cancel_left hsplit
    cases extra with
    | nil =>
      rw [List.append_nil] at hbody
      exact (JsonText.run_inside_full hbody (by rw [hcount]; simp [JsonText.Inside.debt])).2
    | cons c extra =>
      rw [List.cons_append] at hbehind
      obtain ⟨rfl, hcomma⟩ := List.cons.inj hbehind
      exact absurd hbody (beyond_host hcomma)

/-! ## The daemon's replies -/

theorem length_sanitize (text : Bytes) : (sanitize text).length = text.length := List.length_map ..

/-- What `_sanitize_inplace` leaves is printable, and it writes neither quotes
nor backslashes. -/
theorem mem_sanitize {text : Bytes} {c : UInt8} (h : c ∈ sanitize text) :
    32 ≤ c ∧ (c = 63 ∨ c ∈ text) := by
  obtain ⟨b, hb, rfl⟩ := List.mem_map.mp h
  by_cases hbad : b < 32 ∨ 127 ≤ b
  · rw [if_pos hbad]
    exact ⟨by decide, Or.inl rfl⟩
  · rw [if_neg hbad]
    exact ⟨UInt8.not_lt.mp fun hlt => hbad (Or.inl hlt), Or.inr hb⟩

theorem mem_sanitize_of_keep {text : Bytes} {c : UInt8} (h : c ∈ text) (hlow : 32 ≤ c)
    (hhigh : c < 127) : c ∈ sanitize text := by
  refine List.mem_map.mpr ⟨c, h, if_neg ?_⟩
  rintro (hlt | hge)
  · exact absurd hlt (UInt8.not_lt.mpr hlow)
  · exact absurd hhigh (UInt8.not_lt.mpr hge)

/-- Sanitising does not make a text plain, nor does it spoil a plain one. -/
theorem plain_sanitize (text : Bytes) : Plain (sanitize text) ↔ Plain text := by
  constructor
  · intro h c hc
    constructor
    · rintro rfl
      exact (h _ (mem_sanitize_of_keep hc (by decide) (by decide))).1 rfl
    · rintro rfl
      exact (h _ (mem_sanitize_of_keep hc (by decide) (by decide))).2 rfl
  · intro h c hc
    rcases (mem_sanitize hc).2 with rfl | hmem
    · exact ⟨by decide, by decide⟩
    · exact h c hmem

theorem hostOf_printable {hostname : Option Bytes} {c : UInt8} (h : c ∈ hostOf hostname) :
    32 ≤ c := by
  cases hostname with
  | none =>
    have hall : ∀ c ∈ ascii "amiga", (32 : UInt8) ≤ c := List.all_iff_forall_prop.mp rfl
    exact hall c h
  | some name => exact (mem_sanitize h).1

theorem length_hostOf (hostname : Option Bytes) : (hostOf hostname).length ≤ 63 := by
  cases hostname with
  | none => decide
  | some name =>
    show (sanitize _).length ≤ 63
    rw [length_sanitize]
    exact ((List.takeWhile_prefix _).length_le).trans (List.length_take_le 63 name)

/-- The host name has no quote and no backslash. -/
def PlainHost (hostname : Option Bytes) : Prop :=
  ∀ name, hostname = some name → Plain (cText (name.take 63))

theorem plain_hostOf (hostname : Option Bytes) : Plain (hostOf hostname) ↔ PlainHost hostname := by
  cases hostname with
  | none =>
    have hall : ∀ c ∈ ascii "amiga", c ≠ CJson.quote ∧ c ≠ JsonText.backslash :=
      List.all_iff_forall_prop.mp rfl
    exact ⟨fun _ _ h => (nomatch h), fun _ => hall⟩
  | some name =>
    refine (plain_sanitize _).trans ⟨?_, fun h => h name rfl⟩
    intro h name' heq
    cases heq
    exact h

/-- What a daemon announces does not change. -/
theorem after_announces (d : Daemon) (gs : List Datagram) :
    (d.after gs).host = d.host ∧ (d.after gs).tcpPort = d.tcpPort ∧
      (d.after gs).methods = d.methods := by
  induction gs generalizing d with
  | nil => exact ⟨rfl, rfl, rfl⟩
  | cons g gs ih =>
    have hone : (d.serve g).1.host = d.host ∧ (d.serve g).1.tcpPort = d.tcpPort ∧
        (d.serve g).1.methods = d.methods := by
      unfold Daemon.serve
      dsimp only
      cases g.isProbe with
      | false => exact ⟨rfl, rfl, rfl⟩
      | true =>
        rcases rlAllow d.limiter g.ip (d.clock + UInt32.ofNat g.wait) with ⟨l, _ | _⟩ <;>
          exact ⟨rfl, rfl, rfl⟩
    obtain ⟨hhost, hport, hmethods⟩ := ih (d.serve g).1
    exact ⟨hhost.trans hone.1, hport.trans hone.2.1, hmethods.trans hone.2.2⟩

theorem quote_not_mem_tag (g : Datagram) : CJson.quote ∉ g.tag := by
  rcases tag_cases g with ⟨raw, ⟨_, _, _, _, _, _, hraw⟩, htag⟩ | ⟨-, htag⟩
  · rw [htag]
    intro hc
    rcases (mem_sanitize hc).2 with h | h
    · cases h
    · exact hraw (List.mem_of_mem_take h)
  · rw [htag]
    exact List.not_mem_nil

theorem length_tag_le (g : Datagram) : g.tag.length ≤ 63 := by
  rcases tag_cases g with ⟨raw, -, htag⟩ | ⟨-, htag⟩
  · rw [htag, length_sanitize]
    exact List.length_take_le 63 raw
  · rw [htag]
    exact Nat.zero_le _

theorem length_reply (d : Daemon) (tag : Bytes) :
    (d.reply tag).length = 104 + (decimal d.tcpPort.toNat).length + d.host.length +
      (decimal d.methods.toInt).length + tag.length := by
  have hhead : (ascii
      "\x7b\"mcp_discovery\":1,\"v\":1,\"server\":\"mcpd/2.2\",\"protocol\":\"1.0\",\"tcp_port\":").length =
        73 := rfl
  have hname : (ascii ",\"host\":\"").length = 9 := rfl
  have hmethods : (ascii "\",\"methods\":").length = 12 := rfl
  have htag : (ascii ",\"tag\":\"").length = 8 := rfl
  have hend : (ascii "\"\x7d").length = 2 := rfl
  simp only [Daemon.reply, List.length_append, hhead, hname, hmethods, htag, hend]
  omega

theorem length_decimal_port (port : UInt16) : (decimal port.toNat).length ≤ 5 :=
  length_decimal_lt (by decide) (by have := port.toNat_lt; omega)

theorem length_decimal_methods (n : Int32) : (decimal n.toInt).length ≤ 11 := by
  have hlow := n.le_toInt
  have hhigh := n.toInt_lt
  cases hn : n.toInt with
  | ofNat m =>
    exact (length_decimal_lt (k := 10) (by decide)
      (by rw [hn] at hhigh; simp at hhigh; omega)).trans (by decide)
  | negSucc m =>
    rw [decimal_negSucc, List.length_cons]
    exact Nat.succ_le_succ (length_decimal_lt (k := 10) (by decide) (by rw [hn] at hlow; omega))

/-- A probe that the limiter allows is answered. -/
theorem serve_answers {d : Daemon} {g : Datagram} (hprobe : g.isProbe = true)
    (hallow : (rlAllow d.limiter g.ip (d.clock + UInt32.ofNat g.wait)).2 = true)
    (hhost : d.host.length ≤ 63) : (d.serve g).2 = some (d.reply g.tag) := by
  have hshort : ¬ (d.reply g.tag).length ≥ 512 := by
    have hlen := length_reply d g.tag
    have hport := length_decimal_port d.tcpPort
    have hmethods := length_decimal_methods d.methods
    have htag := length_tag_le g
    omega
  have hsame : ∀ (l : Limiter) (now : UInt32),
      Daemon.reply { d with limiter := l, clock := now } g.tag = d.reply g.tag := by
    intro l now
    simp only [Daemon.reply]
  unfold Daemon.serve
  dsimp only
  rw [if_pos hprobe]
  rcases hrl : rlAllow d.limiter g.ip (d.clock + UInt32.ofNat g.wait) with ⟨l, _ | _⟩
  · rw [hrl] at hallow
    cases hallow
  · dsimp only
    rw [hsame, if_neg hshort]

/-! ### Well-formed replies -/

/-- The text is a JSON object whose tag is `t`, in printable ASCII. -/
def IsTag (text t : Bytes) : Prop :=
  (∃ members, JsonText.parse text = some (.obj members) ∧
      Host.member "tag" members = some (.str (glyphs t))) ∧
    ∀ c ∈ t, 32 ≤ c ∧ c < 127

theorem cText_of_isTag {text t : Bytes} (h : IsTag text t) : cText text = text := by
  obtain ⟨⟨members, hparse, -⟩, -⟩ := h
  refine List.takeWhile_eq_self_iff.mpr fun c hc => ?_
  have hzero := JsonText.zero_not_mem_of_parse hparse
  simpa using fun h0 : c = 0 => hzero (h0 ▸ hc)

/-- The host takes an announcement whose tag is the one it expects. -/
theorem parseResponse_announcement {data p t : Bytes} {d : Daemon}
    (h : JsonText.parse data = some (.obj (d.announcement (glyphs p)))) :
    Host.parseResponse data t = some (d.announcement (glyphs p)) ↔ p = t := by
  have hone : (Host.member "mcp_discovery" (d.announcement (glyphs p))).any Host.equalsOne = true :=
    rfl
  have htag : Host.member "tag" (d.announcement (glyphs p)) = some (.str (glyphs p)) := rfl
  unfold Host.parseResponse
  rw [h]
  dsimp only
  rw [if_pos hone, htag]
  dsimp only
  rw [Option.ite_none_right_eq_some, and_iff_left rfl]
  exact (List.map_injective_iff.mpr fun x y hxy => JsonText.Glyph.byte.inj hxy).eq_iff

theorem announcement_inj {d : Daemon} {a b : List JsonText.Glyph}
    (h : d.announcement a = d.announcement b) : a = b := by
  have htail := List.append_cancel_left h
  simp only [List.cons.injEq, Prod.mk.injEq, Value.str.injEq, true_and, and_true] at htail
  exact htail

/-- What the daemon cuts out of a probe spells the tag.  It cuts out nothing where no text follows
a `"tag"`. -/
structure CutsTag (buf : Bytes) (t : Bytes) : Prop where
  spelled : ∀ raw, TagText buf raw → JsonText.spell (sanitize (raw.take 63)) = some (glyphs t)
  absent : (∀ raw, ¬ TagText buf raw) → t = []

theorem spell_tag_iff {g : Datagram} {t : Bytes} (htag : IsTag g.buf t) (p : Bytes) :
    JsonText.spell g.tag = some (glyphs p) ↔ CutsTag g.buf p := by
  have hcut := tag_cases g
  rw [cText_of_isTag htag] at hcut
  rcases hcut with ⟨raw, hraw, heq⟩ | ⟨hnone, hnil⟩
  · rw [heq]
    constructor
    · intro h
      exact ⟨fun raw' hraw' => TagText.unique hraw' hraw ▸ h, fun hnot => absurd hraw (hnot raw)⟩
    · exact fun h => h.spelled raw hraw
  · rw [hnil]
    constructor
    · intro h
      refine ⟨fun raw hraw => absurd hraw (hnone raw), fun _ => ?_⟩
      exact List.map_eq_nil_iff.mp (Option.some.inj h).symm
    · intro h
      rw [h.absent hnone]
      rfl

/-- A probe is answered by a JSON object with the host name and the tag `p`
exactly when the host name is plain and what is cut out of the probe spells `p`. -/
theorem reply_json_iff (hostname : Option Bytes) (tcpPort : UInt16) (methods : Int32)
    (now : UInt32) (before : List Datagram) {g : Datagram} {t : Bytes} (p : Bytes)
    (hprobe : g.isProbe = true)
    (hallow : (rlAllow ((Daemon.init hostname tcpPort methods now).after before).limiter g.ip
      (((Daemon.init hostname tcpPort methods now).after before).clock + UInt32.ofNat g.wait)).2 =
        true)
    (htag : IsTag g.buf t) :
    (∃ resp, (((Daemon.init hostname tcpPort methods now).after before).serve g).2 = some resp ∧
      JsonText.parse resp =
        some (.obj ((Daemon.init hostname tcpPort methods now).announcement (glyphs p)))) ↔
      PlainHost hostname ∧ CutsTag g.buf p := by
  generalize hstart : Daemon.init hostname tcpPort methods now = start at hallow ⊢
  generalize hd : start.after before = d at hallow ⊢
  obtain ⟨hhost, hport, hmethods⟩ := after_announces start before
  rw [hd] at hhost hport hmethods
  have hann : ∀ text, d.announcement text = start.announcement text := by
    intro text
    simp only [Daemon.announcement, Daemon.preamble, hhost, hport, hmethods]
  have hname : d.host = hostOf hostname := by
    rw [hhost, ← hstart]
    rfl
  have hserve : (d.serve g).2 = some (d.reply g.tag) :=
    serve_answers hprobe hallow (by rw [hname]; exact length_hostOf hostname)
  have hparse : PlainHost hostname → JsonText.parse (d.reply g.tag) =
      (JsonText.spell g.tag).map fun text => .obj (d.announcement text) := by
    intro hplain
    refine parse_reply ?_ ?_ (quote_not_mem_tag g)
    · rw [hname]
      exact (plain_hostOf hostname).mpr hplain
    · rw [hname]
      exact fun c hc => hostOf_printable hc
  rw [← spell_tag_iff htag p]
  simp only [← hann]
  constructor
  · rintro ⟨resp, hresp, hjson⟩
    rw [hserve] at hresp
    cases hresp
    have hplain : PlainHost hostname := by
      rw [← plain_hostOf, ← hname]
      exact plain_of_parse_reply hjson
    refine ⟨hplain, ?_⟩
    rw [hparse hplain] at hjson
    obtain ⟨text, htext, hobj⟩ := Option.map_eq_some_iff.mp hjson
    rw [announcement_inj (Value.obj.inj hobj)] at htext
    exact htext
  · rintro ⟨hplain, htext⟩
    refine ⟨d.reply g.tag, hserve, ?_⟩
    rw [hparse hplain, htext]
    rfl

/-- A probe is answered by a JSON object with the host name and the start of
its tag that the host takes for the answer to its probe, exactly when the host
name is plain and what is cut out of the probe spells the tag. -/
theorem reply_wellFormed_iff (hostname : Option Bytes) (tcpPort : UInt16) (methods : Int32)
    (now : UInt32) (before : List Datagram) (g : Datagram) (t : Bytes) :
    let start := Daemon.init hostname tcpPort methods now
    let d := start.after before
    g.isProbe = true → (rlAllow d.limiter g.ip (d.clock + UInt32.ofNat g.wait)).2 = true →
    IsTag g.buf t →
    ((∃ resp p, (d.serve g).2 = some resp ∧ p <+: t ∧
        JsonText.parse resp = some (.obj (start.announcement (glyphs p))) ∧
        Host.parseResponse resp t = some (start.announcement (glyphs p))) ↔
      PlainHost hostname ∧ CutsTag g.buf t) := by
  intro start d hprobe hallow htag
  have hjson := reply_json_iff hostname tcpPort methods now before t hprobe hallow htag
  constructor
  · rintro ⟨resp, p, hresp, -, hparse, haccepted⟩
    obtain rfl := (parseResponse_announcement hparse).mp haccepted
    exact hjson.mp ⟨resp, hresp, hparse⟩
  · intro hcut
    obtain ⟨resp, hresp, hparse⟩ := hjson.mpr hcut
    exact ⟨resp, t, hresp, List.prefix_refl t, hparse, (parseResponse_announcement hparse).mpr rfl⟩

/-- A tag with a backslash in it, which the probe escapes. -/
theorem reply_wellFormed_iff_sample :
    let start := Daemon.init (some (ascii "amiga")) 4322 183 0
    let g : Datagram := ⟨0, 1, Host.makeProbe (ascii "a\\b")⟩
    (∃ resp p, (start.serve g).2 = some resp ∧ p <+: ascii "a\\b" ∧
        JsonText.parse resp = some (.obj (start.announcement (glyphs p))) ∧
        Host.parseResponse resp (ascii "a\\b") = some (start.announcement (glyphs p))) ∧
      PlainHost (some (ascii "amiga")) ∧ CutsTag g.buf (ascii "a\\b") := by
  intro start g
  have htag : g.tag = ascii "a\\\\b" := by decide +kernel
  have hresp : (start.serve g).2 = some (start.reply (ascii "a\\\\b")) := by
    rw [← htag]
    exact serve_answers (by decide +kernel) (by decide +kernel) (by decide)
  have hplain : ∀ c ∈ start.host, c ≠ CJson.quote ∧ c ≠ JsonText.backslash := by decide +kernel
  have hspell : JsonText.spell (ascii "a\\\\b") = some (glyphs (ascii "a\\b")) := rfl
  have hparse : JsonText.parse (start.reply (ascii "a\\\\b")) =
      some (.obj (start.announcement (glyphs (ascii "a\\b")))) := by
    rw [parse_reply hplain (by decide +kernel) (by decide +kernel), hspell]
    rfl
  have hreply : ∃ resp p, (start.serve g).2 = some resp ∧ p <+: ascii "a\\b" ∧
      JsonText.parse resp = some (.obj (start.announcement (glyphs p))) ∧
      Host.parseResponse resp (ascii "a\\b") = some (start.announcement (glyphs p)) :=
    ⟨_, _, hresp, List.prefix_refl _, hparse, (parseResponse_announcement hparse).mpr rfl⟩
  exact ⟨hreply, (reply_wellFormed_iff (some (ascii "amiga")) 4322 183 0 [] g (ascii "a\\b")
    (by decide +kernel) (by decide +kernel) ⟨⟨_, rfl, rfl⟩, by decide +kernel⟩).mp hreply⟩

/-- A tag with a quote in it, and a host name with one, spoil the reply. -/
theorem unreadable_replies :
    (let d := Daemon.init (some (ascii "amiga")) 4322 183 0
      let g : Datagram := ⟨0, 1, Host.makeProbe (ascii "a\"b")⟩
      g.isProbe = true ∧ (rlAllow d.limiter g.ip (d.clock + UInt32.ofNat g.wait)).2 = true ∧
        IsTag g.buf (ascii "a\"b") ∧
        (d.serve g).2.any (fun resp => (JsonText.parse resp).isNone) = true) ∧
      (let d := Daemon.init (some (ascii "my\"amiga")) 4322 183 0
        let g : Datagram := ⟨0, 1, Host.makeProbe (ascii "0123456789abcdef")⟩
        g.isProbe = true ∧ (rlAllow d.limiter g.ip (d.clock + UInt32.ofNat g.wait)).2 = true ∧
          IsTag g.buf (ascii "0123456789abcdef") ∧
          (d.serve g).2.any (fun resp => (JsonText.parse resp).isNone) = true) :=
  ⟨⟨by decide +kernel, by decide +kernel, ⟨⟨_, rfl, rfl⟩, by decide +kernel⟩, by decide +kernel⟩,
    ⟨by decide +kernel, by decide +kernel, ⟨⟨_, rfl, rfl⟩, by decide +kernel⟩, by decide +kernel⟩⟩

/-! ### The size of a reply -/

/-- How many bytes of the text behind the first `"tag"` fit into the tag. -/
def TagSize (text : Bytes) (size : Nat) : Prop :=
  (∃ raw, TagText text raw ∧ size = min 63 raw.length) ∨ (∀ raw, ¬ TagText text raw) ∧ size = 0

/-- A reply is no longer than its probe exactly when the probe has room for the
fixed text, the host name, the numbers and the tag. -/
theorem reply_fits_iff (hostname : Option Bytes) (tcpPort : UInt16) (methods : Int32)
    (now : UInt32) (before : List Datagram) (g : Datagram) :
    let d := (Daemon.init hostname tcpPort methods now).after before
    (∀ resp, (d.serve g).2 = some resp → resp.length ≤ g.bytes.length) ↔
      (g.isProbe = true → (rlAllow d.limiter g.ip (d.clock + UInt32.ofNat g.wait)).2 = true →
        ∀ size, TagSize (cText g.buf) size →
          104 + (decimal tcpPort.toNat).length + (hostOf hostname).length +
            (decimal methods.toInt).length + size ≤ g.bytes.length) := by
  intro d
  obtain ⟨hhost, hport, hmethods⟩ := after_announces (Daemon.init hostname tcpPort methods now) before
  have hlen : (d.reply g.tag).length = 104 + (decimal tcpPort.toNat).length +
      (hostOf hostname).length + (decimal methods.toInt).length + g.tag.length := by
    rw [length_reply, hhost, hport, hmethods]
    rfl
  have hsize : TagSize (cText g.buf) g.tag.length := by
    rcases tag_cases g with ⟨raw, hraw, htag⟩ | ⟨hnone, htag⟩
    · refine Or.inl ⟨raw, hraw, ?_⟩
      rw [htag, length_sanitize, List.length_take]
    · exact Or.inr ⟨hnone, by rw [htag]; rfl⟩
  have hunique : ∀ size, TagSize (cText g.buf) size → size = g.tag.length := by
    intro size h
    rcases h with ⟨raw, hraw, rfl⟩ | ⟨hnone, rfl⟩
    · rcases hsize with ⟨raw', hraw', hlen'⟩ | ⟨hnone, -⟩
      · rw [hlen', hraw.unique hraw']
      · exact absurd hraw (hnone raw)
    · rcases hsize with ⟨raw', hraw', -⟩ | ⟨-, hzero⟩
      · exact absurd hraw' (hnone raw')
      · exact hzero.symm
  constructor
  · intro h hprobe hallow size htag
    have hserve : (d.serve g).2 = some (d.reply g.tag) :=
      serve_answers hprobe hallow (by rw [hhost]; exact length_hostOf hostname)
    have hle := h _ hserve
    have heq := hunique size htag
    omega
  · intro h resp hresp
    obtain ⟨-, ⟨-, hnone⟩ | ⟨hprobe, -, hallow⟩⟩ := serve_cases d g
    · rw [hnone] at hresp
      cases hresp
    · have hok := hallow (by rw [hresp]; rfl)
      have hserve : (d.serve g).2 = some (d.reply g.tag) :=
        serve_answers hprobe hok (by rw [hhost]; exact length_hostOf hostname)
      rw [hserve] at hresp
      cases hresp
      have hle := h hprobe hok _ hsize
      omega

/-- A probe of 64 bytes, answered with 116. -/
theorem amplified :
    let d := Daemon.init (some (ascii "amiga")) 4322 183 0
    let g : Datagram := ⟨0, 1, ascii "\x7b\"mcp_discovery\":1,\"v\":1\x7d" ++ List.replicate 39 32⟩
    g.bytes.length = 64 ∧ (d.serve g).2.any (fun resp => resp.length = 116) = true :=
  ⟨by decide +kernel, by decide +kernel⟩

end AmigaFleet.Mcpd.Discovery
