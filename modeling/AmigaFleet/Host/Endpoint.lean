import AmigaFleet.Host.DebugRing

/-!
# The endpoints of the channels

`QmpChannel`, `McpdChannel` and `GdbChannel` of `host/src/amiga_fleet_mcp/config.py`
check their endpoint with `str.isdigit`, and read the port of it with `int`.

* `Usable` is an endpoint with a host and a port that one can connect to.
* `usable_iff`: an accepted endpoint is usable when `int` reads its port and finds
  it in range, and neither is checked.
* `accepted_of_usable`: no usable endpoint is refused.
* `superscript_accepted` has ports that no consumer of the channel can use.
-/

namespace AmigaFleet.Host.Endpoint

open DebugRing (digitValue isDecimal isDecimal_of_isDigit digitsValue_toDigits)
open SandboxCommand (isDigit_toDigits)

/-! ## Python -/

/-- What Unicode says of the characters outside ASCII: the values of the decimal
digits, and which characters are digits of any kind. -/
structure DigitTables where
  decimal : Char → Option Nat
  digit : Char → Bool
  digit_of_decimal : ∀ c, (decimal c).isSome = true → digit c = true

variable (tables : DigitTables)

/-- `str.isdigit` of one character. -/
def isDigitChar (c : Char) : Bool := if c.toNat < 128 then c.isDigit else tables.digit c

/-- `str.isdigit` -/
def isDigit (text : List Char) : Bool := !text.isEmpty && text.all (isDigitChar tables)

/-- `sys.int_info.default_max_str_digits` -/
def maxStrDigits : Nat := 4300

/-- `int` of a text that `str.isdigit` holds of; `none` is its `ValueError`. -/
def intOfDigits (text : List Char) : Option Nat :=
  if text.all (isDecimal tables.decimal) ∧ text.length ≤ maxStrDigits then
    some (DebugRing.digitsValue tables.decimal text)
  else none

/-- `str.rpartition` with one character. -/
def rpartition (sep : Char) (s : List Char) : List Char × List Char × List Char :=
  if sep ∈ s then
    ((s.rdropWhile (· ≠ sep)).dropLast, [sep], s.rtakeWhile (· ≠ sep))
  else ([], [], s)

theorem rpartition_join {sep : Char} {s : List Char} (hsep : sep ∈ s) :
    (rpartition sep s).1 ++ sep :: (rpartition sep s).2.2 = s := by
  rw [rpartition, if_pos hsep]
  have hne : s.rdropWhile (· ≠ sep) ≠ [] := by
    intro hnil
    have hall := List.rdropWhile_eq_nil_iff.mp hnil sep hsep
    simp at hall
  have hlast : (s.rdropWhile (· ≠ sep)).getLast hne = sep := by
    have hnot := List.rdropWhile_last_not (· ≠ sep) s hne
    simpa using hnot
  have hfront := List.dropLast_append_getLast hne
  rw [hlast] at hfront
  have hwhole : s.rdropWhile (· ≠ sep) ++ s.rtakeWhile (· ≠ sep) = s :=
    List.rdropWhile_append_rtakeWhile
  rw [← hfront, List.append_assoc] at hwhole
  exact hwhole

theorem rpartition_append {sep : Char} {back : List Char} (hback : sep ∉ back)
    (front : List Char) : rpartition sep (front ++ sep :: back) = (front, [sep], back) := by
  have hmem : sep ∈ front ++ sep :: back := by simp
  have hrest : ∀ c ∈ back.reverse, (decide (c ≠ sep)) = true := by
    intro c hc
    rw [decide_eq_true_iff]
    exact ne_of_mem_of_not_mem (List.mem_reverse.mp hc) hback
  have hreverse : (front ++ sep :: back).reverse = back.reverse ++ sep :: front.reverse := by simp
  rw [rpartition, if_pos hmem, List.rdropWhile, List.rtakeWhile, hreverse,
    List.dropWhile_append_of_pos hrest, List.takeWhile_append_of_pos hrest,
    List.dropWhile_cons_of_neg (by simp), List.takeWhile_cons_of_neg (by simp)]
  simp

/-! ## The channels -/

/-- `_check_endpoint`, the same in the three channels. -/
def checkEndpoint (v : List Char) : Except String (List Char) :=
  if ':' ∉ v then .error "endpoint must be host:port"
  else
    let (host, _, port) := rpartition ':' v
    if host = [] ∨ isDigit tables port = false then
      .error "endpoint must be host:port (numeric port)"
    else .ok v

/-- The property `host` of a channel. -/
def hostOf (endpoint : List Char) : List Char := (rpartition ':' endpoint).1

/-- What the property `port` of a channel gives to `int`. -/
def portText (endpoint : List Char) : List Char := (rpartition ':' endpoint).2.2

/-- The property `port` of a channel. -/
def portOf (endpoint : List Char) : Option Nat := intOfDigits tables (portText endpoint)

/-- The channels with an endpoint. -/
inductive ChannelKind where
  | qmp
  | mcpd
  | gdb
deriving DecidableEq, Repr

/-- The endpoint of a channel that is not given one. -/
def ChannelKind.endpoint : ChannelKind → List Char
  | .qmp => "127.0.0.1:14422".toList
  | .mcpd => "127.0.0.1:4322".toList
  | .gdb => "127.0.0.1:1234".toList

/-! ## Endpoints that can be used -/

/-- The endpoint is a host and a port. -/
structure Usable (v : List Char) : Prop where
  host : hostOf v ≠ []
  port : ∃ n, portOf tables v = some n ∧ 1 ≤ n ∧ n ≤ 65535
  join : hostOf v ++ ':' :: portText v = v

variable {tables}

theorem checkEndpoint_ok {v : List Char} (h : checkEndpoint tables v = .ok v) :
    ':' ∈ v ∧ hostOf v ≠ [] ∧ isDigit tables (portText v) = true := by
  unfold checkEndpoint at h
  split at h
  · cases h
  · rename_i hcolon
    dsimp only at h
    split at h
    · cases h
    · rename_i hparts
      rw [not_or, Bool.not_eq_false] at hparts
      exact ⟨not_not.mp hcolon, hparts⟩

/-- An accepted endpoint is usable when `int` takes the characters of its port and
gives a number that is a port. -/
theorem usable_iff {v : List Char} (haccepted : checkEndpoint tables v = .ok v) :
    Usable tables v ↔
      (∀ c ∈ portText v, isDecimal tables.decimal c = true) ∧ (portText v).length ≤ maxStrDigits ∧
        1 ≤ DebugRing.digitsValue tables.decimal (portText v) ∧
        DebugRing.digitsValue tables.decimal (portText v) ≤ 65535 := by
  obtain ⟨hcolon, hhost, -⟩ := checkEndpoint_ok haccepted
  apply Iff.intro
  · intro h
    obtain ⟨n, hn, hrange⟩ := h.port
    unfold portOf intOfDigits at hn
    split at hn
    · rename_i htaken
      rw [List.all_eq_true] at htaken
      rw [Option.some.inj hn]
      exact ⟨htaken.1, htaken.2, hrange⟩
    · cases hn
  · intro h
    refine ⟨hhost, ⟨_, ?_, h.2.2⟩, rpartition_join hcolon⟩
    rw [portOf, intOfDigits, if_pos ⟨List.all_eq_true.mpr h.1, h.2.1⟩]

theorem isDigitChar_of_isDecimal {c : Char} (hc : isDecimal tables.decimal c = true) :
    isDigitChar tables c = true := by
  unfold isDecimal digitValue at hc
  unfold isDigitChar
  split at hc
  · rename_i hascii
    rw [if_pos hascii]
    split at hc
    · assumption
    · cases hc
  · rename_i hwide
    rw [if_neg hwide]
    exact tables.digit_of_decimal c hc

/-- The validator refuses no endpoint that could be used. -/
theorem accepted_of_usable {v : List Char} (h : Usable tables v) :
    checkEndpoint tables v = .ok v := by
  have hcolon : ':' ∈ v := by
    rw [← h.join]
    simp
  obtain ⟨n, hn, hrange⟩ := h.port
  unfold portOf intOfDigits at hn
  split at hn
  · rename_i htaken
    have hne : portText v ≠ [] := by
      intro hnil
      rw [hnil] at hn
      have hzero : n = 0 := (Option.some.inj hn).symm
      omega
    have hdigits : isDigit tables (portText v) = true := by
      rw [isDigit, Bool.and_eq_true, Bool.not_eq_true', List.isEmpty_eq_false_iff,
        List.all_eq_true]
      refine ⟨hne, fun c hc => ?_⟩
      apply isDigitChar_of_isDecimal
      exact List.all_eq_true.mp htaken.1 c hc
    rw [checkEndpoint, if_neg (not_not.mpr hcolon)]
    dsimp only
    rw [if_neg]
    rw [not_or, Bool.not_eq_false]
    exact ⟨h.host, hdigits⟩
  · cases hn

/-- A host with the number of a port behind it. -/
theorem usable_number {host : List Char} (hhost : host ≠ []) {n : Nat} (hlow : 1 ≤ n)
    (hhigh : n ≤ 65535) : Usable tables (host ++ ':' :: Nat.toDigits 10 n) := by
  have hcolon : ':' ∉ Nat.toDigits 10 n := by
    intro hmem
    exact absurd (isDigit_toDigits hmem) (by decide)
  have hparts := rpartition_append hcolon host
  have hlength : (Nat.toDigits 10 n).length ≤ 5 :=
    (Nat.length_toDigits_le_iff (by omega) (by omega)).mpr (by omega)
  refine ⟨?_, ⟨n, ?_, hlow, hhigh⟩, rpartition_join (by simp)⟩
  · rw [hostOf, hparts]
    exact hhost
  · rw [portOf, portText, hparts]
    show intOfDigits tables (Nat.toDigits 10 n) = some n
    rw [intOfDigits, if_pos, digitsValue_toDigits]
    refine ⟨List.all_eq_true.mpr fun c hc => isDecimal_of_isDigit (isDigit_toDigits hc), ?_⟩
    rw [maxStrDigits]
    omega

/-- A channel that is not given an endpoint has a usable one. -/
theorem default_usable (kind : ChannelKind) : Usable tables kind.endpoint := by
  cases kind with
  | qmp => exact @usable_number tables "127.0.0.1".toList (by decide) 14422 (by omega) (by omega)
  | mcpd => exact @usable_number tables "127.0.0.1".toList (by decide) 4322 (by omega) (by omega)
  | gdb => exact @usable_number tables "127.0.0.1".toList (by decide) 1234 (by omega) (by omega)

/-! ## Ports that are none -/

/-- The digits of Latin-1 outside ASCII, which are the superscripts. -/
def latinDigits : DigitTables where
  decimal _ := none
  digit c := c = '²' ∨ c = '³' ∨ c = '¹'
  digit_of_decimal _ h := nomatch h

theorem usable_sample : Usable latinDigits "[::1]:4322".toList := by
  have hvalue : DebugRing.digitsValue latinDigits.decimal (portText "[::1]:4322".toList) = 4322 := rfl
  have hlength : (portText "[::1]:4322".toList).length = 4 := rfl
  refine (@usable_iff latinDigits "[::1]:4322".toList rfl).mpr
    ⟨List.all_eq_true.mp rfl, ?_, ?_, ?_⟩
  · rw [hlength, maxStrDigits]
    omega
  · rw [hvalue]
    omega
  · rw [hvalue]
    omega

/-- A superscript is a digit that `int` does not take, and zero and a number with too
many bits are no ports. -/
theorem superscript_accepted :
    (checkEndpoint latinDigits "h:²".toList = .ok "h:²".toList ∧
      portOf latinDigits "h:²".toList = none) ∧
    (checkEndpoint latinDigits "h:0".toList = .ok "h:0".toList ∧
      portOf latinDigits "h:0".toList = some 0) ∧
    (checkEndpoint latinDigits "h:70000".toList = .ok "h:70000".toList ∧
      portOf latinDigits "h:70000".toList = some 70000) ∧
    ¬ Usable latinDigits "h:²".toList ∧ ¬ Usable latinDigits "h:0".toList ∧
    ¬ Usable latinDigits "h:70000".toList := by
  refine ⟨⟨rfl, rfl⟩, ⟨rfl, rfl⟩, ⟨rfl, rfl⟩, ?_, ?_, ?_⟩
  · intro h
    obtain ⟨n, hn, -⟩ := h.port
    cases hn
  · intro h
    obtain ⟨n, hn, hrange⟩ := h.port
    have hzero : n = 0 := (Option.some.inj hn).symm
    omega
  · intro h
    obtain ⟨n, hn, hrange⟩ := h.port
    have hlarge : n = 70000 := (Option.some.inj hn).symm
    omega

end AmigaFleet.Host.Endpoint
