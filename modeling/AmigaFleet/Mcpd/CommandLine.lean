import AmigaFleet.Lib.Quoting
import AmigaFleet.Lib.Region
import AmigaFleet.Mcpd.Exec
import AmigaFleet.Mcpd.Frame

/-!
# The command line of exec.cmd

`_quote_arg` and the loop that puts the arguments behind the command, in
`mcpd/src/methods/exec.c`.  `amigaDos` are the rules by which the shell splits a
line.

* `arguments_round_trip`: the shell reads the command and the arguments back,
  and no write leaves its block.
* `noneExposed_iff`: which arguments stand in quotes as far as the shell takes
  their characters for its own.  `_quote_arg` looks for blanks, newlines, quotes
  and stars; `_shell_safe` of the host also looks for `< > | ;`.
-/

namespace AmigaFleet.Mcpd.Exec

open AmigaFleet.Lib AmigaFleet.Mcpd.Jobs

def amigaDos : Quoting Char where
  quote := '"'
  escape := '*'
  blank c := c = ' ' || c = '\t'
  quote_ne_escape := by decide
  blank_quote := by decide

/-- `*p == '"' || *p == '*'` -/
def isEscaped (c : Char) : Bool := c = '"' || c = '*'

theorem isEscaped_iff (c : Char) :
    isEscaped c = true ↔ c = amigaDos.quote ∨ c = amigaDos.escape := by
  simp [isEscaped, amigaDos]

/-- `needs_quote` -/
def isQuoted (a : CString) : Bool := a.isEmpty || a.any needsQuote

/-- An argument without quotes is a bare word. -/
theorem bare_of_not_quoted {a : CString} (h : isQuoted a = false) :
    amigaDos.Bare a ∧ ∀ c ∈ a, needsQuote c = false := by
  simp only [isQuoted, Bool.or_eq_false_iff, List.any_eq_false, Bool.not_eq_true] at h
  refine ⟨⟨by simpa using h.1, fun c hc => ?_⟩, h.2⟩
  have hneeds := h.2 c hc
  simp only [needsQuote, Bool.or_eq_false_iff, decide_eq_false_iff_not] at hneeds
  simp [amigaDos, hneeds]

theorem plain_of_not_quoted {a : CString} (h : isQuoted a = false) :
    ∀ c ∈ a, c ≠ amigaDos.quote ∧ c ≠ amigaDos.escape := by
  intro c hc
  have hneeds := (bare_of_not_quoted h).2 c hc
  simp only [needsQuote, Bool.or_eq_false_iff, decide_eq_false_iff_not] at hneeds
  simp [amigaDos, hneeds]

/-- An argument stands on the line in quotes, or as it is. -/
theorem quoteArg_eq (a : CString) :
    quoteArg a = if isQuoted a then amigaDos.wrap isEscaped a else a := by
  show (if isQuoted a = true then '"' :: amigaDos.escapeBy isEscaped a ++ ['"']
    else amigaDos.escapeBy isEscaped a) = _
  cases hquoted : isQuoted a with
  | true => rfl
  | false =>
    have hplain := plain_of_not_quoted hquoted
    have hbody : ∀ c ∈ a, (if isEscaped c = true then ['*', c] else [c]) = [c] := fun c hc =>
      if_neg fun hesc => ((isEscaped_iff c).mp hesc).elim (hplain c hc).1 (hplain c hc).2
    show a.flatMap (fun c => if isEscaped c = true then ['*', c] else [c]) = a
    rw [List.flatMap_congr hbody]
    simp

/-! ## The line -/

/-- The assembled line. -/
def line (command : CString) (args : List CString) : CString :=
  command ++ args.flatMap fun a => ' ' :: quoteArg a

theorem fullCommand_eq (command : CString) (args : List CString) :
    fullCommand command (args.map some) = some (line command args) := by
  induction args generalizing command with
  | nil => simp [fullCommand, line]
  | cons a args ih => simp [fullCommand, line, ih]

theorem tokensFrom_quoteArg (a rest : CString) :
    amigaDos.tokensFrom .outside none (quoteArg a ++ rest) =
      amigaDos.tokensFrom .outside (some a) rest := by
  rw [quoteArg_eq]
  cases hquoted : isQuoted a with
  | true =>
    rw [if_pos rfl]
    exact amigaDos.tokensFrom_wrap isEscaped_iff a rest
  | false =>
    rw [if_neg (by decide)]
    exact amigaDos.tokensFrom_bare (bare_of_not_quoted hquoted).1 rest

/-- The shell reads the command and the arguments back. -/
theorem tokens_line {command : CString} (h : amigaDos.Bare command) (args : List CString) :
    amigaDos.tokens (line command args) = command :: args := by
  have hargs : ∀ (args : List CString) (t : CString),
      amigaDos.tokensFrom .outside (some t) (args.flatMap fun a => ' ' :: quoteArg a) =
        t :: args := by
    intro args
    induction args with
    | nil => intro t; simp [Quoting.tokensFrom, Quoting.pending]
    | cons a args ih =>
      intro t
      rw [List.flatMap_cons, List.cons_append, amigaDos.tokensFrom_blank rfl,
        tokensFrom_quoteArg, ih]
  rw [line, Quoting.tokens, amigaDos.tokensFrom_bare h, hargs]

/-! ## The writes -/

/-- The second loop of `_quote_arg`. -/
def quoteBody : CString → Region Char → Option (Region Char)
  | [], o => some o
  | c :: a, o => do
    let o ← if isEscaped c then o.put '*' else some o
    let o ← o.put c
    quoteBody a o

/-- `outlen`; sizes are 32 bits wide. -/
def outlen (a : CString) : Nat :=
  let extra := a.countP isEscaped
  (a.length + extra + (if isQuoted a then 2 else 0) + 1) % 2 ^ 32

/-- `_quote_arg` with its buffer. -/
def quoteArgInto (a : CString) : Option (Region Char) := do
  let q := Region.alloc (outlen a)
  let o ← if isQuoted a then q.put '"' else some q
  let o ← quoteBody a o
  let o ← if isQuoted a then o.put '"' else some o
  o.put '\x00'

/-- The loop of `exec_cmd` over `args`, with `full` and `full_len`. -/
def assembleInto : List CString → Region Char → Nat → Option (Region Char)
  | [], full, _ => some full
  | a :: args, full, fullLen => do
    let q ← quoteArgInto a
    let qlen := (q.data.takeWhile (· ≠ '\x00')).length
    let full ← (full.realloc ((fullLen + 1 + qlen + 1) % 2 ^ 32)).seek fullLen
    let full ← full.put ' '
    let full ← full.puts (q.data.take (qlen + 1))
    assembleInto args full (fullLen + 1 + qlen)

/-- The command line with the blocks that it is built in. -/
def commandInto (command : CString) (args : List CString) : Option (Region Char) := do
  let full ← (Region.alloc ((command.length + 1) % 2 ^ 32)).puts (command ++ ['\x00'])
  assembleInto args full command.length

theorem quoteBody_eq (a : CString) (o : Region Char) :
    quoteBody a o = o.puts (amigaDos.escapeBy isEscaped a) := by
  induction a generalizing o with
  | nil => rfl
  | cons c a ih =>
    rw [quoteBody, Quoting.escapeBy_cons, Region.puts_append, ← funext ih]
    by_cases hc : isEscaped c = true
    · rw [if_pos hc, if_pos hc]
      show (o.put '*').bind (fun o => (o.put c).bind (quoteBody a)) = _
      rw [Region.puts, Option.bind_assoc]
      simp [Region.puts_singleton, amigaDos]
    · rw [if_neg hc, if_neg hc, Region.puts_singleton]
      rfl

theorem length_escapeBy (a : CString) :
    (amigaDos.escapeBy isEscaped a).length = a.length + a.countP isEscaped := by
  induction a with
  | nil => rfl
  | cons c a ih =>
    rw [Quoting.escapeBy_cons, List.length_append, ih, List.countP_cons, List.length_cons]
    split <;> simp <;> omega

theorem length_quoteArg (a : CString) :
    (quoteArg a).length = a.length + a.countP isEscaped + if isQuoted a then 2 else 0 := by
  show (if isQuoted a = true then '"' :: amigaDos.escapeBy isEscaped a ++ ['"']
    else amigaDos.escapeBy isEscaped a).length = _
  split <;> simp [length_escapeBy]

/-- `_quote_arg` fills its buffer to the last cell. -/
theorem quoteArgInto_eq {a : CString} (h : 2 * a.length + 3 < 2 ^ 32) :
    ∃ o, quoteArgInto a = some o ∧ o.data = quoteArg a ++ ['\x00'] := by
  have hcount : a.countP isEscaped ≤ a.length := List.countP_le_length
  have hsize : outlen a = (quoteArg a ++ ['\x00']).length := by
    rw [List.length_append, length_quoteArg, List.length_singleton]
    unfold outlen
    split <;> exact Nat.mod_eq_of_lt (by omega)
  refine ⟨_, Eq.trans ?_ (Region.alloc_puts (Nat.le_of_eq hsize.symm)), rfl⟩
  rw [Region.puts_append, Region.puts_singleton_fun]
  unfold quoteArgInto
  show _ = Option.bind ((Region.alloc (outlen a)).puts (if isQuoted a = true then
    ['"'] ++ amigaDos.escapeBy isEscaped a ++ ['"'] else amigaDos.escapeBy isEscaped a)) _
  cases isQuoted a with
  | true =>
    simp only [if_true, Region.puts_append, Region.puts_singleton_fun, Option.bind_assoc,
      ← funext (quoteBody_eq a)]
    rfl
  | false =>
    simp only [Bool.false_eq_true, if_false, ← quoteBody_eq]
    rfl

theorem nul_notMem_quoteArg {a : CString} (h : '\x00' ∉ a) : '\x00' ∉ quoteArg a := by
  have hbody : '\x00' ∉ amigaDos.escapeBy isEscaped a := by
    intro hmem
    obtain ⟨c, hc, hin⟩ := List.mem_flatMap.mp hmem
    split at hin <;> simp [amigaDos] at hin <;> exact h (hin ▸ hc)
  show '\x00' ∉ (if isQuoted a = true then '"' :: amigaDos.escapeBy isEscaped a ++ ['"']
    else amigaDos.escapeBy isEscaped a)
  split <;> simp [hbody]

/-- One turn of the loop. -/
theorem assembleInto_cons {a : CString} (hnul : '\x00' ∉ a) (args : List CString)
    {full : Region Char} {text : CString} (hfull : full.data = text ++ ['\x00'])
    (hsize : text.length + 2 * a.length + 4 < 2 ^ 32) :
    ∃ full', assembleInto (a :: args) full text.length =
        assembleInto args full' (text ++ ' ' :: quoteArg a).length ∧
      full'.data = text ++ ' ' :: quoteArg a ++ ['\x00'] := by
  obtain ⟨q, hq, hdata⟩ := quoteArgInto_eq (a := a) (by omega)
  have hqlen : (q.data.takeWhile (· ≠ '\x00')).length = (quoteArg a).length := by
    have hwhile : ∀ c ∈ quoteArg a, decide (c ≠ '\x00') = true := fun c hc =>
      decide_eq_true fun heq => nul_notMem_quoteArg hnul (heq ▸ hc)
    rw [hdata, List.takeWhile_append_of_pos hwhile]
    simp
  have htake : q.data.take ((quoteArg a).length + 1) = quoteArg a ++ ['\x00'] := by
    rw [hdata]
    exact List.take_of_length_le (by simp)
  have hlen : (quoteArg a).length ≤ 2 * a.length + 2 := by
    have hcount : a.countP isEscaped ≤ a.length := List.countP_le_length
    rw [length_quoteArg]
    split <;> omega
  have hgrown : (text.length + 1 + (quoteArg a).length + 1) % 2 ^ 32 =
      text.length + 1 + (quoteArg a).length + 1 := Nat.mod_eq_of_lt (by omega)
  have hkept : full.data.take (text.length + 1 + (quoteArg a).length + 1) = text ++ ['\x00'] := by
    rw [hfull, List.take_of_length_le]
    simp
    omega
  have hwrites : ∀ r : Region Char, r.data = text → r.size = text.length + 1 + (quoteArg a).length + 1 →
      ∃ full', (r.put ' ').bind (Region.puts (quoteArg a ++ ['\x00'])) = some full' ∧
        full'.data = text ++ ' ' :: quoteArg a ++ ['\x00'] := by
    intro r hr hroom
    have hfits : (r.data ++ ' ' :: (quoteArg a ++ ['\x00'])).length ≤ r.size := by
      simp [hr, hroom]
      omega
    exact ⟨_, Region.puts_eq hfits, by simp [hr]⟩
  obtain ⟨full', hwritten, hfull'⟩ := hwrites
    ⟨text.length + 1 + (quoteArg a).length + 1, text, by omega⟩ rfl rfl
  refine ⟨full', ?_, hfull'⟩
  have hseek : (full.realloc (text.length + 1 + (quoteArg a).length + 1)).seek text.length =
      some ⟨text.length + 1 + (quoteArg a).length + 1, text, by omega⟩ := by
    rw [Region.seek_eq (by simp [hkept])]
    simp [hkept]
  rw [assembleInto]
  simp only [hq, hqlen, hgrown, htake, hseek, Option.bind_eq_bind, Option.bind_some]
  rw [← Option.bind_assoc, hwritten, Option.bind_some]
  congr 1
  simp [Nat.add_assoc, Nat.add_comm 1]

theorem assembleInto_eq {args : List CString} (hnul : ∀ a ∈ args, '\x00' ∉ a)
    {full : Region Char} {text : CString} (hfull : full.data = text ++ ['\x00'])
    (hsize : text.length + 4 * (args.map fun a => a.length + 1).sum < 2 ^ 32) :
    ∃ full', assembleInto args full text.length = some full' ∧
      full'.data = line text args ++ ['\x00'] := by
  induction args generalizing full text with
  | nil => exact ⟨full, rfl, by simpa [line] using hfull⟩
  | cons a args ih =>
    rw [List.forall_mem_cons] at hnul
    rw [List.map_cons, List.sum_cons] at hsize
    obtain ⟨full', hturn, hfull'⟩ := assembleInto_cons hnul.1 args hfull (by omega)
    have hlen : (text ++ ' ' :: quoteArg a).length ≤ text.length + 2 * a.length + 3 := by
      have hcount : a.countP isEscaped ≤ a.length := List.countP_le_length
      rw [List.length_append, List.length_cons, length_quoteArg]
      split <;> omega
    obtain ⟨full'', hrest, hfull''⟩ := ih hnul.2 hfull' (by omega)
    refine ⟨full'', hturn.trans hrest, ?_⟩
    simpa [line] using hfull''

/-- For a command and arguments that fit into one frame, the assembled line is
read back as they are, and every write on the way lies in its block. -/
theorem arguments_round_trip {command : CString} {args : List CString}
    (hword : amigaDos.Bare command) (hnul : ∀ a ∈ command :: args, '\x00' ∉ a)
    (hsize : command.length + (args.map fun a => a.length + 1).sum ≤ mcpdFrameMaxPayload) :
    ∃ full, fullCommand command (args.map some) = some full ∧
      amigaDos.tokens full = command :: args ∧
      ∃ block, commandInto command args = some block ∧ block.data = full ++ ['\x00'] := by
  refine ⟨line command args, fullCommand_eq command args, tokens_line hword args, ?_⟩
  have hcap : mcpdFrameMaxPayload = 33554432 := rfl
  rw [hcap] at hsize
  have hfits : (command ++ ['\x00']).length ≤ (command.length + 1) % 2 ^ 32 := by
    rw [Nat.mod_eq_of_lt (by omega)]
    simp
  rw [commandInto, Region.alloc_puts hfits]
  exact assembleInto_eq (List.forall_mem_cons.mp hnul).2 rfl (by omega)

theorem arguments_round_trip_echo :
    ∃ full, fullCommand ['e', 'c', 'h', 'o'] ([['a', ' ', '"', '*'], []].map some) = some full ∧
      amigaDos.tokens full = [['e', 'c', 'h', 'o'], ['a', ' ', '"', '*'], []] ∧
      ∃ block, commandInto ['e', 'c', 'h', 'o'] [['a', ' ', '"', '*'], []] = some block ∧
        block.data = full ++ ['\x00'] :=
  arguments_round_trip (by simp [Quoting.Bare, amigaDos]) (by decide) (by decide)

/-! ## Characters of the shell -/

/-- The redirections, the pipe, the comment and the blanks of the shell. -/
def shellChar (c : Char) : Bool :=
  c = '<' || c = '>' || c = '|' || c = ';' || c = ' ' || c = '\t' || c = '\n'

/-- No character of the shell in an argument stands outside quotes. -/
def NoneExposed (command : CString) (args : List CString) : Prop :=
  ∀ done a todo pre c post, args = done ++ a :: todo → quoteArg a = pre ++ c :: post →
    shellChar c = true →
    amigaDos.modeAfter .outside (line command done ++ ' ' :: pre) ≠ .outside

/-- What keeps the arguments covered.  The flag says that the line up to here
leaves quotes open: then the quotes of an argument close them. -/
def Covered : Bool → List CString → Prop
  | _, [] => True
  | false, a :: args => (isQuoted a = false → ∀ c ∈ a, shellChar c = false) ∧ Covered false args
  | true, a :: args =>
    if isQuoted a then
      (∀ c ∈ a.takeWhile (· ≠ '"'), shellChar c = false) ∧ Covered (!a.contains '"') args
    else Covered true args

instance decidableCovered : ∀ (opened : Bool) (args : List CString), Decidable (Covered opened args)
  | _, [] => inferInstanceAs (Decidable True)
  | false, a :: args =>
    have := decidableCovered false args
    inferInstanceAs (Decidable ((isQuoted a = false → _) ∧ Covered false args))
  | true, a :: args =>
    have := decidableCovered true args
    have := decidableCovered (!a.contains '"') args
    inferInstanceAs (Decidable (if isQuoted a then _ ∧ Covered (!a.contains '"') args else _))

/-- The command leaves quotes open. -/
def leavesOpen (command : CString) : Bool :=
  amigaDos.modeAfter .outside (command ++ [' ']) ≠ .outside

theorem shellChar_plain {c : Char} (h : shellChar c = true) :
    c ≠ amigaDos.quote ∧ c ≠ amigaDos.escape := by
  constructor <;> rintro rfl <;> exact absurd h (by decide)

theorem noShellChar_iff (text : CString) :
    (∀ c ∈ text, shellChar c = false) ↔ ∀ c, shellChar c = true → c ∉ text := by
  refine forall_congr' fun c => ?_
  rw [← Bool.not_eq_true]
  exact imp_not_comm

/-- Behind a blank the line is inside or outside quotes. -/
theorem modeAfter_blank (text : CString) :
    amigaDos.modeAfter .outside (text ++ [' ']) = if leavesOpen text then .inside else .outside := by
  rw [leavesOpen, Quoting.modeAfter_append]
  cases amigaDos.modeAfter .outside text <;> rfl

theorem noneExposed_cons (command a : CString) (args : List CString) :
    NoneExposed command (a :: args) ↔
      (∀ c ∈ amigaDos.outsideOf (amigaDos.modeAfter .outside (command ++ [' '])) (quoteArg a),
        shellChar c = false) ∧ NoneExposed (command ++ ' ' :: quoteArg a) args := by
  have hplace : ∀ pre, amigaDos.modeAfter .outside (command ++ ' ' :: pre) =
      amigaDos.modeAfter (amigaDos.modeAfter .outside (command ++ [' '])) pre := by
    intro pre
    rw [← Quoting.modeAfter_append]
    simp
  have hline : ∀ done, line command (a :: done) = line (command ++ ' ' :: quoteArg a) done := by
    intro done
    simp [line]
  constructor
  · intro h
    refine ⟨fun c hc => ?_, fun done b todo pre c post hargs hb hchar => ?_⟩
    · obtain ⟨pre, post, heq, hmode⟩ := amigaDos.mem_outsideOf_iff.mp hc
      by_contra hchar
      refine h [] a args pre c post rfl heq (by simpa using hchar) ?_
      simpa [line] using (hplace pre).trans hmode
    · rw [← hline]
      exact h (a :: done) b todo pre c post (by rw [hargs]; rfl) hb hchar
  · rintro ⟨hfirst, hrest⟩ done b todo pre c post hargs hb hchar hmode
    cases done with
    | nil =>
      obtain ⟨rfl, -⟩ := List.cons.inj hargs
      have hout : c ∈ amigaDos.outsideOf (amigaDos.modeAfter .outside (command ++ [' '])) (quoteArg a) :=
        amigaDos.mem_outsideOf_iff.mpr ⟨pre, post, hb, by rw [← hplace]; simpa [line] using hmode⟩
      rw [hfirst c hout] at hchar
      cases hchar
    | cons d done =>
      obtain ⟨rfl, htail⟩ := List.cons.inj hargs
      rw [hline] at hmode
      exact hrest done b todo pre c post htail hb hchar hmode

/-- An argument on a line that is inside or outside quotes: whether it leaves
quotes open, and which characters of the shell it shows. -/
theorem outsideOf_quoteArg (a : CString) (opened : Bool) :
    amigaDos.modeAfter (if opened then .inside else .outside) (quoteArg a) =
        (if (if isQuoted a then opened && !a.contains '"' else opened) then .inside else .outside) ∧
      ∀ c, shellChar c = true →
        (c ∈ amigaDos.outsideOf (if opened then .inside else .outside) (quoteArg a) ↔
          if isQuoted a then opened = true ∧ c ∈ a.takeWhile (· ≠ '"')
          else opened = false ∧ c ∈ a) := by
  rw [quoteArg_eq]
  cases hquoted : isQuoted a with
  | false =>
    have hplain := plain_of_not_quoted hquoted
    obtain ⟨hmode, hout⟩ := amigaDos.outsideOf_plain
      (m := if opened then .inside else .outside) (by cases opened <;> decide) hplain
    simp only [Bool.false_eq_true, if_false]
    rw [hmode, hout]
    cases opened <;> simp
  | true =>
    simp only [if_true]
    cases opened with
    | false =>
      obtain ⟨hmode, hout⟩ := amigaDos.outsideOf_wrap isEscaped_iff a
      simp only [Bool.false_eq_true, if_false, Bool.false_and, false_and, iff_false]
      refine ⟨hmode, fun c hc => ?_⟩
      rw [hout, List.mem_singleton]
      exact (shellChar_plain hc).1
    | true =>
      obtain ⟨hmode, hout⟩ := amigaDos.outsideOf_wrap_inside isEscaped_iff a
      simp only [if_true, Bool.true_and, true_and]
      refine ⟨?_, fun c hc => hout c (shellChar_plain hc).1 (shellChar_plain hc).2⟩
      rw [hmode]
      show (if '"' ∈ a then _ else _) = _
      by_cases hmem : '"' ∈ a <;> simp [hmem]

/-- Behind an argument. -/
theorem leavesOpen_append (command a : CString) :
    leavesOpen (command ++ ' ' :: quoteArg a) =
      if isQuoted a then leavesOpen command && !a.contains '"' else leavesOpen command := by
  have hmode := (outsideOf_quoteArg a (leavesOpen command)).1
  rw [← modeAfter_blank, ← Quoting.modeAfter_append] at hmode
  have hline : command ++ ' ' :: quoteArg a ++ [' '] = command ++ [' '] ++ quoteArg a ++ [' '] := by
    simp
  rw [leavesOpen, hline, Quoting.modeAfter_append, hmode]
  generalize (if isQuoted a = true then leavesOpen command && !a.contains '"'
    else leavesOpen command) = opened
  cases opened <;> rfl

/-- For every command and all arguments, exactly the covered ones show no
character of the shell. -/
theorem noneExposed_iff (command : CString) (args : List CString) :
    NoneExposed command args ↔ Covered (leavesOpen command) args := by
  induction args generalizing command with
  | nil => simp [NoneExposed, Covered]
  | cons a args ih =>
    have hout := (outsideOf_quoteArg a (leavesOpen command)).2
    have hfirst : (∀ c ∈ amigaDos.outsideOf
          (if leavesOpen command then .inside else .outside) (quoteArg a), shellChar c = false) ↔
        if isQuoted a then leavesOpen command = true → ∀ c ∈ a.takeWhile (· ≠ '"'), shellChar c = false
        else leavesOpen command = false → ∀ c ∈ a, shellChar c = false := by
      simp only [noShellChar_iff]
      rw [forall₂_congr fun c hc => not_congr (hout c hc)]
      cases isQuoted a <;> cases leavesOpen command <;> simp
    rw [noneExposed_cons, ih, leavesOpen_append, modeAfter_blank, hfirst]
    cases leavesOpen command <;> cases hquoted : isQuoted a <;> simp [Covered, hquoted]

/-- `echo` with the argument `>RAM:x` writes a file. -/
theorem redirection_exposed : ¬NoneExposed ['e', 'c', 'h', 'o'] [['>', 'R', 'A', 'M', ':', 'x']] := by
  intro h
  exact h [] ['>', 'R', 'A', 'M', ':', 'x'] [] [] '>' ['R', 'A', 'M', ':', 'x'] rfl rfl rfl (by decide)

end AmigaFleet.Mcpd.Exec
