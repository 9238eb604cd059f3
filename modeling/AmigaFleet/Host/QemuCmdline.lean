import Mathlib.Data.Bool.AllAny
import Mathlib.Data.List.Nodup
import AmigaFleet.Host.PyWords

/-!
# The command line of QEMU

`host/src/amiga_fleet_mcp/qemu/cmdline.py`: the argument vector that
`build_cmdline` makes of a machine description, and the ports that it reports.

QEMU reads the vector from left to right, and the table of its options says which
of them take the next word for their value (`takesValue`).  `forwards` are the
`hostfwd` parts of its user-mode network options, with the protocol and the port
on the host.

* `injectHostfwd_injectHostfwd`: a second injection changes nothing.
* `splitArgString_append`: a clause becomes part of the last word, or a word of its
  own.  `optionParts_append` and `optionParts_odd` say what the value has of it.
* `forwarded_iff`: when each reported port is forwarded exactly once.
-/

namespace AmigaFleet.Host.QemuCmdline

open AmigaFleet.Host.PyStr

abbrev Word := List Char

/-! ## The code -/

/-- The variables of the loop in `_split_arg_string`; the text is in quotes if
there is a quote character. -/
structure Splitter where
  result : List Word := []
  current : Word := []
  quoteChar : Option Char := none
deriving DecidableEq, Repr

/-- One character. -/
def Splitter.step (s : Splitter) (ch : Char) : Splitter :=
  match s.quoteChar with
  | none =>
    if ch = '\x22' ∨ ch = '\x27' then { s with quoteChar := some ch }
    else if ch = ' ' then
      if s.current = [] then s else { s with result := s.result ++ [s.current], current := [] }
    else { s with current := s.current ++ [ch] }
  | some quote =>
    if ch = quote then { s with quoteChar := none } else { s with current := s.current ++ [ch] }

/-- The loop of `_split_arg_string`. -/
def splitLoop (text : Word) : Splitter := text.foldl Splitter.step {}

/-- `_split_arg_string` -/
def splitArgString (text : Word) : List Word :=
  let s := splitLoop text
  if s.current = [] then s.result else s.result ++ [s.current]

def hostfwdKey : Word := "hostfwd=".toList

/-- The `extra` of `_inject_hostfwd`. -/
def extraFwds (netdevArg : Word) (fwds : List Word) : List Word :=
  let existing := (split ',' netdevArg).filter fun p => hostfwdKey.isPrefixOf p
  fwds.filter fun f => f ∉ existing

/-- `_inject_hostfwd` -/
def injectHostfwd (netdevArg : Word) (fwds : List Word) : Word :=
  if fwds = [] then netdevArg
  else if extraFwds netdevArg fwds = [] then netdevArg
  else [','].intercalate (split ',' netdevArg ++ extraFwds netdevArg fwds)

structure McpdChannel where
  enabled : Bool := true
  port : Nat
  discoveryPort : Option Nat := none

structure QmpChannel where
  enabled : Bool := true
  host : Word
  port : Nat

structure GdbChannel where
  enabled : Bool := true
  port : Nat

/-- What `build_cmdline` is told: the `args` of the kyvos config, and the channels
of the target. -/
structure Machine where
  qemuBinary : Word
  args : List (Word × Word)
  mcpd : Option McpdChannel := none
  qmp : Option QmpChannel := none
  gdb : Option GdbChannel := none
  /-- `use_headless` -/
  headless : Bool := false
  keys_nodup : (args.map Prod.fst).Nodup

/-- The `ports` of `build_cmdline`. -/
structure Ports where
  mcpd : Option Nat := none
  qmp : Option Nat := none
  gdb : Option Nat := none
  discovery : Option Nat := none
deriving DecidableEq, Repr

/-- `GUEST_PORT_MCPD` -/
def guestPortMcpd : Nat := 4322

/-- `GUEST_PORT_DISCOVERY` -/
def guestPortDiscovery : Nat := 4323

/-- `_DROPPED_ARG_KEYS` -/
def droppedArgKeys : List Word := ["pidfile".toList]

def networkKey : Word := "network".toList

/-- The text of a number. -/
def decimal (n : Nat) : Word := Nat.toDigits 10 n

/-- `disc_host` -/
def McpdChannel.discHost (c : McpdChannel) : Nat := c.discoveryPort.getD c.port

def McpdChannel.tcpClause (c : McpdChannel) : Word :=
  "hostfwd=tcp::".toList ++ (decimal c.port ++ ("-:".toList ++ decimal guestPortMcpd))

def McpdChannel.udpClause (c : McpdChannel) : Word :=
  "hostfwd=udp::".toList ++ (decimal c.discHost ++ ("-:".toList ++ decimal guestPortDiscovery))

namespace Machine

/-- The mcpd channel, if it is enabled. -/
def mcpdOn (m : Machine) : Option McpdChannel := m.mcpd.filter (·.enabled)

/-- `fwds` -/
def fwds (m : Machine) : List Word :=
  m.mcpdOn.elim [] fun c => [c.tcpClause, c.udpClause]

/-- `qmp_arg` -/
def qmpArg (m : Machine) : Option Word :=
  (m.qmp.filter (·.enabled)).map fun c =>
    "-qmp tcp:".toList ++
      (c.host ++ (":".toList ++ (decimal c.port ++ ",server=on,wait=off".toList)))

/-- `gdb_arg` -/
def gdbArg (m : Machine) : Option Word :=
  (m.gdb.filter (·.enabled)).map fun c => "-gdb tcp::".toList ++ decimal c.port

/-- `ports` -/
def ports (m : Machine) : Ports where
  mcpd := m.mcpdOn.map fun c => c.port
  qmp := (m.qmp.filter (·.enabled)).map fun c => c.port
  gdb := (m.gdb.filter (·.enabled)).map fun c => c.port
  discovery := m.mcpdOn.map fun c => c.discHost

/-- A value that the loop passes over. -/
def skips (key value : Word) : Bool := strip value = [] || droppedArgKeys.contains key

/-- One round of the loop over `args`. -/
def argWords (m : Machine) (arg : Word × Word) : List Word :=
  if skips arg.1 arg.2 then []
  else
    let value := if arg.1 = networkKey then injectHostfwd arg.2 m.fwds else arg.2
    let value :=
      if arg.1 = "display".toList ∧ m.headless = true then "-display none".toList else value
    splitArgString value

/-- What follows the words of `args`. -/
def tail (m : Machine) : List Word :=
  m.qmpArg.elim [] splitArgString ++ m.gdbArg.elim [] splitArgString

/-- `build_cmdline` -/
def buildCmdline (m : Machine) : List Word × Ports :=
  (m.qemuBinary :: (m.args.flatMap m.argWords ++ m.tail), m.ports)

end Machine

/-! ## Reading a command line -/

inductive Protocol where
  | tcp
  | udp
deriving DecidableEq, Repr

/-- The parts of a value.  A comma in a part is written twice. -/
def partsGo (part : Word) : Word → List Word
  | [] => [part]
  | ',' :: ',' :: rest => partsGo (part ++ [',']) rest
  | ',' :: rest => part :: partsGo [] rest
  | c :: rest => partsGo (part ++ [c]) rest

def optionParts (value : Word) : List Word := partsGo [] value

/-- The text behind the first `c`. -/
def behind (c : Char) (text : Word) : Option Word :=
  match text.dropWhile (· ≠ c) with
  | [] => none
  | _ :: rest => some rest

/-- The protocol of a rule. -/
def protocolOf (text : Word) : Option Protocol :=
  if text = [] ∨ text = "tcp".toList then some .tcp
  else if text = "udp".toList then some .udp
  else none

/-- What a part `hostfwd=[tcp|udp]:[hostaddr]:hostport-[guestaddr]:guestport`
forwards: the protocol and the text of the port on the host. -/
def hostfwdOf (part : Word) : Option (Protocol × Word) :=
  if hostfwdKey.isPrefixOf part then
    let rule := part.drop hostfwdKey.length
    (protocolOf (rule.takeWhile (· ≠ ':'))).bind fun protocol =>
      (behind ':' rule).bind fun addresses => (behind ':' addresses).bind fun ports =>
        if '-' ∈ ports then some (protocol, ports.takeWhile (· ≠ '-')) else none
  else none

/-- `-netdev`, `-net` and `-nic` -/
def isNetwork (w : Word) : Bool :=
  ["-netdev".toList, "-net".toList, "-nic".toList, "--netdev".toList, "--net".toList,
    "--nic".toList].contains w

/-- The value of a network option is for the user-mode network. -/
def isUser (value : Word) : Bool :=
  (optionParts value).head? = some "user".toList || (optionParts value).contains "type=user".toList

/-- What the next word is for. -/
inductive Expect where
  | option
  | networkValue
  | otherValue
deriving DecidableEq, Repr

section Reading

variable (takesValue : Word → Bool)

def Expect.next : Expect → Word → Expect
  | .option, w =>
    if isNetwork w then .networkValue else if takesValue w then .otherValue else .option
  | _, _ => .option

/-- What the word behind some words is for. -/
def expectAfter (e : Expect) (ws : List Word) : Expect := ws.foldl (Expect.next takesValue) e

/-- What a word forwards. -/
def forwardsOf (e : Expect) (w : Word) : List (Protocol × Word) :=
  if e = .networkValue ∧ isUser w = true then (optionParts w).filterMap hostfwdOf else []

/-- What the user-mode network options forward. -/
def forwards : Expect → List Word → List (Protocol × Word)
  | _, [] => []
  | e, w :: ws => forwardsOf e w ++ forwards (e.next takesValue w) ws

/-- The words are the same, but for `hostfwd` parts behind the others in the values
of user-mode network options. -/
inductive Extends : Expect → List Word → List Word → Prop where
  | nil (e : Expect) : Extends e [] []
  | same {e : Expect} {w : Word} {ws ws' : List Word} (h : Extends (e.next takesValue w) ws ws') :
      Extends e (w :: ws) (w :: ws')
  | user {w w' : Word} {fs ws ws' : List Word} (huser : isUser w = true)
      (hparts : optionParts w' = optionParts w ++ fs) (hfs : ∀ f ∈ fs, hostfwdKey <+: f)
      (h : Extends .option ws ws') : Extends .networkValue (w :: ws) (w' :: ws')

end Reading

/-! ## Injecting -/

theorem split_append_clauses (arg : Word) {clauses : List Word} (h : ∀ f ∈ clauses, ',' ∉ f) :
    split ',' (arg ++ clauses.flatMap (',' :: ·)) = split ',' arg ++ clauses := by
  rw [split_eq_splitOn, split_eq_splitOn]
  induction clauses generalizing arg with
  | nil => simp
  | cons f clauses ih =>
    obtain ⟨hf, hrest⟩ := List.forall_mem_cons.mp h
    rw [List.flatMap_cons, List.cons_append, List.splitOn_append_cons_self, ih f hrest,
      List.splitOn_eq_singleton hf]
    rfl

/-- A clause as the code makes it. -/
structure Clause (f : Word) : Prop where
  key : hostfwdKey.isPrefixOf f = true
  noComma : ',' ∉ f
  plain : ∀ c ∈ f, c ≠ ' ' ∧ c ≠ '\x22' ∧ c ≠ '\x27'

theorem mem_extraFwds {arg f : Word} {fwds : List Word} (h : Clause f) :
    f ∈ extraFwds arg fwds ↔ f ∈ fwds ∧ f ∉ split ',' arg := by
  rw [extraFwds, List.mem_filter, decide_eq_true_eq, List.mem_filter, and_iff_left h.key]

theorem extraFwds_noComma {fwds : List Word} (h : ∀ f ∈ fwds, Clause f) (arg : Word) :
    ∀ f ∈ extraFwds arg fwds, ',' ∉ f := fun f hf => (h f (List.mem_of_mem_filter hf)).noComma

/-- The clauses go behind the text, with commas in front of them. -/
theorem injectHostfwd_eq {fwds : List Word} (h : ∀ f ∈ fwds, Clause f) (arg : Word) :
    injectHostfwd arg fwds = arg ++ (extraFwds arg fwds).flatMap (',' :: ·) := by
  unfold injectHostfwd
  split
  · rename_i hnil
    simp [hnil, extraFwds]
  · split
    · rename_i hextra
      rw [hextra, List.flatMap_nil, List.append_nil]
    · rw [← split_append_clauses arg (extraFwds_noComma h arg), split_eq_splitOn,
        List.intercalate_splitOn]

/-- A second injection changes nothing. -/
theorem injectHostfwd_injectHostfwd {fwds : List Word} (h : ∀ f ∈ fwds, Clause f) (arg : Word) :
    injectHostfwd (injectHostfwd arg fwds) fwds = injectHostfwd arg fwds := by
  have hnone : extraFwds (injectHostfwd arg fwds) fwds = [] := by
    rw [List.eq_nil_iff_forall_not_mem]
    intro f hf
    have hclause := h f (List.mem_of_mem_filter hf)
    obtain ⟨hmem, hnew⟩ := (mem_extraFwds hclause).mp hf
    rw [injectHostfwd_eq h, split_append_clauses arg (extraFwds_noComma h arg), List.mem_append,
      mem_extraFwds hclause] at hnew
    tauto
  rw [injectHostfwd_eq h (injectHostfwd arg fwds), hnone, List.flatMap_nil, List.append_nil]

/-! ## Splitting -/

theorem foldl_step_plain {text : Word} (h : ∀ c ∈ text, c ≠ ' ' ∧ c ≠ '\x22' ∧ c ≠ '\x27')
    (s : Splitter) (hquote : s.quoteChar = none ∨ s.quoteChar = some '\x22' ∨
      s.quoteChar = some '\x27') :
    text.foldl Splitter.step s = { s with current := s.current ++ text } := by
  induction text generalizing s with
  | nil => simp
  | cons c text ih =>
    obtain ⟨⟨hblank, hdouble, hsingle⟩, hrest⟩ := List.forall_mem_cons.mp h
    have hstep : s.step c = { s with current := s.current ++ [c] } := by
      unfold Splitter.step
      rcases hquote with hq | hq | hq <;> rw [hq] <;> simp [hblank, hdouble, hsingle]
    rw [List.foldl_cons, hstep, ih hrest { s with current := s.current ++ [c] } hquote]
    simp

/-- The quote character is a quote. -/
theorem splitLoop_quote (text : Word) : (splitLoop text).quoteChar = none ∨
    (splitLoop text).quoteChar = some '\x22' ∨ (splitLoop text).quoteChar = some '\x27' := by
  unfold splitLoop
  induction text using List.reverseRecOn with
  | nil => exact .inl rfl
  | append_singleton text c ih =>
    rw [List.foldl_append, List.foldl_cons, List.foldl_nil, Splitter.step]
    split
    · split
      · rename_i hc
        rcases hc with rfl | rfl
        · exact .inr (.inl rfl)
        · exact .inr (.inr rfl)
      · split
        · split
          · exact ih
          · exact .inl (by assumption)
        · exact .inl (by assumption)
    · rename_i quote hquote
      split
      · exact .inl rfl
      · rw [hquote] at ih
        rcases ih with hnone | hsome
        · cases hnone
        · exact .inr (by simpa [hquote] using hsome)

/-- A plain text behind another is part of the last word, or a word of its own. -/
theorem splitArgString_append {text more : Word}
    (hmore : ∀ c ∈ more, c ≠ ' ' ∧ c ≠ '\x22' ∧ c ≠ '\x27') (hne : more ≠ []) :
    splitArgString (text ++ more) =
      (splitLoop text).result ++ [(splitLoop text).current ++ more] := by
  have hloop : splitLoop (text ++ more) =
      { splitLoop text with current := (splitLoop text).current ++ more } := by
    unfold splitLoop
    rw [List.foldl_append]
    exact foldl_step_plain hmore _ (splitLoop_quote text)
  unfold splitArgString
  dsimp only
  rw [hloop, if_neg (by simp [hne])]

/-! ## Parts -/

/-- The text does not end in an odd number of commas. -/
def pairedCommas : Word → Bool
  | [] => true
  | ',' :: ',' :: rest => pairedCommas rest
  | [','] => false
  | _ :: rest => pairedCommas rest

theorem partsGo_comma {rest : Word} (h : rest.head? ≠ some ',') (part : Word) :
    partsGo part (',' :: rest) = part :: partsGo [] rest := by
  rw [partsGo]
  rintro rest' rfl
  exact h rfl

theorem partsGo_char {c : Char} (hc : c ≠ ',') (part rest : Word) :
    partsGo part (c :: rest) = partsGo (part ++ [c]) rest := by
  rw [partsGo]
  · exact fun _ heq _ => hc heq
  · exact hc

theorem pairedCommas_char {c : Char} (hc : c ≠ ',') (rest : Word) :
    pairedCommas (c :: rest) = pairedCommas rest := by
  rw [pairedCommas]
  · exact fun _ heq _ => hc heq
  · exact fun heq _ => hc heq

/-- Behind a comma that is none of a pair. -/
theorem pairedCommas_comma {c : Char} (hc : c ≠ ',') (rest : Word) :
    pairedCommas (',' :: c :: rest) = pairedCommas rest := by
  rw [pairedCommas, pairedCommas_char hc]
  · intro rest' _ heq
    exact hc (List.cons.inj heq).1
  · intro _ heq
    cases heq

theorem partsGo_append {value more : Word} (h : pairedCommas value = true)
    (hmore : more.head? ≠ some ',') (part : Word) :
    partsGo part (value ++ ',' :: more) = partsGo part value ++ partsGo [] more := by
  fun_induction partsGo part value with
  | case1 part => exact partsGo_comma hmore part
  | case2 part rest ih => exact ih h
  | case3 part rest hrest ih =>
    cases rest with
    | nil => cases h
    | cons c rest =>
      have hc : c ≠ ',' := fun heq => hrest rest (by rw [heq])
      rw [pairedCommas_comma hc, ← pairedCommas_char hc] at h
      rw [List.cons_append, partsGo_comma (by simpa using hc), ih h, List.cons_append]
  | case4 part c rest hrest hc ih =>
    rw [pairedCommas_char hc] at h
    rw [List.cons_append, partsGo_char hc, ih h]

theorem partsGo_noComma {value : Word} (h : ',' ∉ value) (part : Word) :
    partsGo part value = [part ++ value] := by
  induction value generalizing part with
  | nil => simp [partsGo]
  | cons c value ih =>
    rw [List.mem_cons, not_or] at h
    rw [partsGo_char (Ne.symm h.1), ih h.2, List.append_assoc]
    rfl

theorem pairedCommas_noComma {value : Word} (h : ',' ∉ value) : pairedCommas value = true := by
  induction value with
  | nil => rfl
  | cons c value ih =>
    rw [List.mem_cons, not_or] at h
    rw [pairedCommas_char (Ne.symm h.1), ih h.2]

/-- Clauses behind a value are parts of it. -/
theorem optionParts_append {value : Word} (h : pairedCommas value = true) {clauses : List Word}
    (hclauses : ∀ f ∈ clauses, Clause f) :
    optionParts (value ++ clauses.flatMap (',' :: ·)) = optionParts value ++ clauses := by
  induction clauses generalizing value with
  | nil => simp
  | cons f clauses ih =>
    obtain ⟨hf, hrest⟩ := List.forall_mem_cons.mp hclauses
    have hhead : (f ++ clauses.flatMap (',' :: ·)).head? ≠ some ',' := by
      obtain ⟨rule, rfl⟩ := List.isPrefixOf_iff_prefix.mp hf.key
      intro heq
      cases heq
    have hmore : partsGo [] (f ++ clauses.flatMap (',' :: ·)) = optionParts f ++ clauses :=
      ih (pairedCommas_noComma hf.noComma) hrest
    rw [List.flatMap_cons, List.cons_append, optionParts, partsGo_append h hhead, hmore,
      optionParts, partsGo_noComma hf.noComma]
    rfl

/-! ### An odd comma -/

/-- The part that is being read is the beginning of the first part. -/
theorem partsGo_head (part value : Word) : ∃ b more, partsGo part value = (part ++ b) :: more := by
  fun_induction partsGo part value with
  | case1 part => exact ⟨[], [], by rw [List.append_nil]⟩
  | case2 part rest ih =>
    obtain ⟨b, more, heq⟩ := ih
    exact ⟨',' :: b, more, by rw [heq, List.append_assoc]; rfl⟩
  | case3 part rest _ _ => exact ⟨[], partsGo [] rest, by rw [List.append_nil]⟩
  | case4 part c rest _ _ ih =>
    obtain ⟨b, more, heq⟩ := ih
    exact ⟨c :: b, more, by rw [heq, List.append_assoc]; rfl⟩

/-- Two commas behind a text make its last part longer. -/
theorem partsGo_pair {value : Word} (h : pairedCommas value = true) (more part : Word) :
    ∃ front a b parts, partsGo part value = front ++ [a] ∧
      partsGo part (value ++ ',' :: ',' :: more) = front ++ (a ++ ',' :: b) :: parts := by
  fun_induction partsGo part value with
  | case1 part =>
    obtain ⟨b, parts, heq⟩ := partsGo_head (part ++ [',']) more
    refine ⟨[], part, b, parts, rfl, ?_⟩
    show partsGo (part ++ [',']) more = _
    rw [heq, List.append_assoc]
    rfl
  | case2 part rest ih => exact ih h
  | case3 part rest hrest ih =>
    cases rest with
    | nil => cases h
    | cons c rest =>
      have hc : c ≠ ',' := fun heq => hrest rest (by rw [heq])
      rw [pairedCommas_comma hc, ← pairedCommas_char hc] at h
      obtain ⟨front, a, b, parts, hvalue, hpair⟩ := ih h
      refine ⟨part :: front, a, b, parts, by rw [hvalue]; rfl, ?_⟩
      rw [List.cons_append, partsGo_comma (by simpa using hc), hpair]
      rfl
  | case4 part c rest hrest hc ih =>
    rw [pairedCommas_char hc] at h
    obtain ⟨front, a, b, parts, hvalue, hpair⟩ := ih h
    exact ⟨front, a, b, parts, hvalue, by rw [List.cons_append, partsGo_char hc, hpair]⟩

/-- A text with an odd comma at its end. -/
theorem exists_oddComma {value : Word} (h : pairedCommas value = false) :
    ∃ front, value = front ++ [','] ∧ pairedCommas front = true := by
  fun_induction pairedCommas value with
  | case1 => cases h
  | case2 rest ih =>
    obtain ⟨front, rfl, hfront⟩ := ih h
    exact ⟨',' :: ',' :: front, rfl, hfront⟩
  | case3 => exact ⟨[], rfl, rfl⟩
  | case4 c rest hpair hsingle ih =>
    obtain ⟨front, rfl, hfront⟩ := ih h
    refine ⟨c :: front, rfl, ?_⟩
    by_cases hc : c = ','
    · subst hc
      cases front with
      | nil => exact absurd rfl (hpair [] rfl)
      | cons d front =>
        have hd : d ≠ ',' := fun heq => hpair (front ++ [',']) rfl (by rw [heq]; rfl)
        rwa [pairedCommas_comma hd, ← pairedCommas_char hd]
    · rwa [pairedCommas_char hc]

/-- What follows an odd comma changes the parts in front of it. -/
theorem optionParts_odd {value : Word} (h : pairedCommas value = false) (more : Word)
    (fs : List Word) : optionParts (value ++ ',' :: more) ≠ optionParts value ++ fs := by
  obtain ⟨front, rfl, hfront⟩ := exists_oddComma h
  obtain ⟨init, a, b, parts, hvalue, hpair⟩ := partsGo_pair hfront more []
  have hold : optionParts (front ++ [',']) = init ++ [a] ++ [[]] := by
    rw [optionParts, partsGo_append hfront (by simp), hvalue]
    rfl
  intro heq
  rw [hold, List.append_assoc front, List.singleton_append, optionParts, hpair, List.append_assoc,
    List.append_assoc] at heq
  have hcons := List.append_cancel_left heq
  rw [List.singleton_append] at hcons
  have hlength := congrArg List.length (List.cons.inj hcons).1
  rw [List.length_append, List.length_cons] at hlength
  omega

/-! ## The clauses of the code -/

theorem decimal_digit {n : Nat} {c : Char} (h : c ∈ decimal n) : c.isDigit = true :=
  Nat.isDigit_of_mem_toDigits (by decide) (by decide) h

theorem ne_of_isDigit {c d : Char} (hc : c.isDigit = true) (hd : d.isDigit = false) : c ≠ d := by
  rintro rfl
  rw [hc] at hd
  cases hd

/-- The clause for a port. -/
def clauseText (protocol : String) (hostPort guestPort : Nat) : Word :=
  hostfwdKey ++ (protocol.toList ++ ("::".toList ++ (decimal hostPort ++
    ("-:".toList ++ decimal guestPort))))

/-- A character that means nothing to the code or to QEMU. -/
def isInert (c : Char) : Bool := c ≠ ',' && (c ≠ ' ' && (c ≠ '\x22' && c ≠ '\x27'))

theorem isInert_iff (c : Char) :
    isInert c = true ↔ c ≠ ',' ∧ c ≠ ' ' ∧ c ≠ '\x22' ∧ c ≠ '\x27' := by
  simp [isInert]

theorem isInert_decimal (n : Nat) : (decimal n).all isInert = true := by
  rw [List.all_eq_true]
  intro c hc
  have hdigit := decimal_digit hc
  rw [isInert_iff]
  exact ⟨ne_of_isDigit hdigit rfl, ne_of_isDigit hdigit rfl, ne_of_isDigit hdigit rfl,
    ne_of_isDigit hdigit rfl⟩

theorem clause_clauseText {protocol : String} (h : protocol.toList.all isInert = true)
    (hostPort guestPort : Nat) : Clause (clauseText protocol hostPort guestPort) := by
  have hkey : hostfwdKey.all isInert = true := rfl
  have hcolons : "::".toList.all isInert = true := rfl
  have hminus : "-:".toList.all isInert = true := rfl
  have hall : (clauseText protocol hostPort guestPort).all isInert = true := by
    rw [clauseText, List.all_append, List.all_append, List.all_append, List.all_append,
      List.all_append, hkey, h, hcolons, hminus, isInert_decimal, isInert_decimal]
    rfl
  have hchars : ∀ c ∈ clauseText protocol hostPort guestPort,
      c ≠ ',' ∧ c ≠ ' ' ∧ c ≠ '\x22' ∧ c ≠ '\x27' := fun c hc =>
    (isInert_iff c).mp (List.all_eq_true.mp hall c hc)
  have hprefix : hostfwdKey <+: clauseText protocol hostPort guestPort := by
    rw [clauseText]
    exact List.prefix_append _ _
  exact ⟨List.isPrefixOf_iff_prefix.mpr hprefix, fun hcomma => (hchars _ hcomma).1 rfl,
    fun c hc => (hchars c hc).2⟩

/-- A rule without an address on the host. -/
theorem hostfwdOf_rule {protocol : Word} {p : Protocol} (hprotocol : protocolOf protocol = some p)
    (hcolon : ':' ∉ protocol) {hostPort : Word} (hminus : '-' ∉ hostPort) (rest : Word) :
    hostfwdOf (hostfwdKey ++ (protocol ++ (':' :: ':' :: (hostPort ++ '-' :: rest)))) =
      some (p, hostPort) := by
  have hother : ∀ c ∈ protocol, decide (c ≠ ':') = true := fun c hc =>
    decide_eq_true fun heq => hcolon (heq ▸ hc)
  have hdigits : ∀ c ∈ hostPort, decide (c ≠ '-') = true := fun c hc =>
    decide_eq_true fun heq => hminus (heq ▸ hc)
  have hprefix : hostfwdKey.isPrefixOf
      (hostfwdKey ++ (protocol ++ (':' :: ':' :: (hostPort ++ '-' :: rest)))) = true :=
    List.isPrefixOf_iff_prefix.mpr (List.prefix_append _ _)
  have hfirst : behind ':' (protocol ++ (':' :: ':' :: (hostPort ++ '-' :: rest))) =
      some (':' :: (hostPort ++ '-' :: rest)) := by
    rw [behind, List.dropWhile_append_of_pos hother]
    rfl
  have hsecond : behind ':' (':' :: (hostPort ++ '-' :: rest)) =
      some (hostPort ++ '-' :: rest) := rfl
  have hname : (protocol ++ (':' :: ':' :: (hostPort ++ '-' :: rest))).takeWhile (· ≠ ':') =
      protocol := by
    rw [List.takeWhile_append_of_pos hother]
    exact List.append_nil protocol
  have hport : (hostPort ++ '-' :: rest).takeWhile (· ≠ '-') = hostPort := by
    rw [List.takeWhile_append_of_pos hdigits]
    exact List.append_nil hostPort
  unfold hostfwdOf
  dsimp only
  rw [if_pos hprefix, List.drop_left, hname, hprotocol, Option.bind_some, hfirst, Option.bind_some,
    hsecond, Option.bind_some, if_pos (by simp), hport]

theorem hostfwdOf_clauseText {protocol : String} {p : Protocol}
    (hprotocol : protocolOf protocol.toList = some p) (hcolon : ':' ∉ protocol.toList)
    (hostPort guestPort : Nat) :
    hostfwdOf (clauseText protocol hostPort guestPort) = some (p, decimal hostPort) := by
  have hminus : '-' ∉ decimal hostPort := fun hmem =>
    ne_of_isDigit (decimal_digit hmem) rfl rfl
  exact hostfwdOf_rule hprotocol hcolon hminus (':' :: decimal guestPort)

theorem McpdChannel.clauses (c : McpdChannel) :
    c.tcpClause = clauseText "tcp" c.port guestPortMcpd ∧
      c.udpClause = clauseText "udp" c.discHost guestPortDiscovery := ⟨rfl, rfl⟩

theorem Machine.fwds_clause (m : Machine) : ∀ f ∈ m.fwds, Clause f := by
  unfold Machine.fwds
  cases m.mcpdOn with
  | none => exact fun f hf => nomatch hf
  | some c =>
    obtain ⟨htcp, hudp⟩ := c.clauses
    intro f hf
    rw [Option.elim_some, List.mem_cons, List.mem_singleton] at hf
    rcases hf with rfl | rfl
    · rw [htcp]
      exact clause_clauseText rfl _ _
    · rw [hudp]
      exact clause_clauseText rfl _ _

/-! ## Reading words -/

section Reading

variable {takesValue : Word → Bool}

theorem forwards_cons (e : Expect) (w : Word) (ws : List Word) :
    forwards takesValue e (w :: ws) =
      forwardsOf e w ++ forwards takesValue (e.next takesValue w) ws := rfl

theorem forwards_append (e : Expect) (ws ws' : List Word) :
    forwards takesValue e (ws ++ ws') =
      forwards takesValue e ws ++ forwards takesValue (expectAfter takesValue e ws) ws' := by
  induction ws generalizing e with
  | nil => rfl
  | cons w ws ih =>
    rw [List.cons_append, forwards_cons, ih, forwards_cons, List.append_assoc]
    rfl

theorem Extends.refl (e : Expect) (ws : List Word) : Extends takesValue e ws ws := by
  induction ws generalizing e with
  | nil => exact .nil e
  | cons w ws ih => exact .same (ih _)

theorem Extends.length_eq {e : Expect} {ws ws' : List Word} (h : Extends takesValue e ws ws') :
    ws.length = ws'.length := by
  induction h with
  | nil => rfl
  | same _ ih => rw [List.length_cons, List.length_cons, ih]
  | user _ _ _ _ ih => rw [List.length_cons, List.length_cons, ih]

/-- The first word is the same, or it is extended. -/
theorem Extends.tail {e : Expect} {w w' : Word} {ws ws' : List Word}
    (h : Extends takesValue e (w :: ws) (w' :: ws')) :
    Extends takesValue (e.next takesValue w) ws ws' ∧
      (w' = w ∨ e = .networkValue ∧ isUser w = true ∧
        ∃ fs, optionParts w' = optionParts w ++ fs) := by
  cases h with
  | same h => exact ⟨h, .inl rfl⟩
  | user huser hparts _ h => exact ⟨h, .inr ⟨rfl, huser, _, hparts⟩⟩

theorem extends_append_iff (e : Expect) (front ws ws' : List Word) :
    Extends takesValue e (front ++ ws) (front ++ ws') ↔
      Extends takesValue (expectAfter takesValue e front) ws ws' := by
  induction front generalizing e with
  | nil => rfl
  | cons w front ih =>
    show _ ↔ Extends takesValue (expectAfter takesValue (e.next takesValue w) front) ws ws'
    rw [← ih]
    exact ⟨fun h => h.tail.1, .same⟩

end Reading

/-! ## The words of a machine -/

namespace Machine

/-- What QEMU reads of the vector. -/
def argv (m : Machine) : List Word := m.buildCmdline.1.tail

/-- The words of one of the strings, as it is given. -/
def givenOf (m : Machine) (arg : Word × Word) : List Word :=
  if skips arg.1 arg.2 then []
  else if arg.1 = "display".toList ∧ m.headless = true then splitArgString "-display none".toList
  else splitArgString arg.2

/-- All words that are given. -/
def given (m : Machine) : List Word := m.args.flatMap m.givenOf ++ m.tail

/-- The network string, if the loop does not pass over it. -/
def network (m : Machine) : Option Word :=
  (m.args.find? fun arg => arg.1 = networkKey && !skips arg.1 arg.2).map Prod.snd

/-- The clauses that the network string does not have yet. -/
def added (m : Machine) : List Word := m.network.elim [] fun n => extraFwds n m.fwds

/-- The words in front of those of the network string. -/
def before (m : Machine) : List Word :=
  (m.args.takeWhile fun arg => arg.1 ≠ networkKey).flatMap m.givenOf

theorem argWords_of_ne (m : Machine) {arg : Word × Word}
    (h : arg.1 ≠ networkKey ∨ skips arg.1 arg.2 = true) : m.argWords arg = m.givenOf arg := by
  unfold argWords givenOf
  split
  · rfl
  · rename_i hskips
    rw [if_neg (h.resolve_right hskips)]
    dsimp only
    split <;> rfl

theorem flatMap_argWords (m : Machine) {args : List (Word × Word)}
    (h : ∀ arg ∈ args, arg.1 ≠ networkKey) : args.flatMap m.argWords = args.flatMap m.givenOf :=
  List.flatMap_congr fun arg harg => m.argWords_of_ne (.inl (h arg harg))

/-- Only the words of the network string are not as they are given. -/
theorem argv_cases (m : Machine) :
    m.network = none ∧ m.argv = m.given ∨
      ∃ n rest, m.network = some n ∧ m.given = m.before ++ (splitArgString n ++ rest) ∧
        m.argv = m.before ++ (splitArgString (injectHostfwd n m.fwds) ++ rest) := by
  have hargv : m.argv = m.args.flatMap m.argWords ++ m.tail := rfl
  cases hfind : m.args.find? fun arg => arg.1 = networkKey && !skips arg.1 arg.2 with
  | none =>
    refine .inl ⟨by rw [network, hfind]; rfl, ?_⟩
    rw [hargv, given]
    congr 1
    refine List.flatMap_congr fun arg harg => m.argWords_of_ne ?_
    have hnot := List.find?_eq_none.mp hfind arg harg
    simp only [Bool.and_eq_true, decide_eq_true_eq, Bool.not_eq_true'] at hnot
    by_cases hkey : arg.1 = networkKey
    · exact .inr (by simpa [hkey] using hnot)
    · exact .inl hkey
  | some arg =>
    obtain ⟨harg, front, back, hargs, -⟩ := List.find?_eq_some_iff_append.mp hfind
    obtain ⟨key, n⟩ := arg
    simp only [Bool.and_eq_true, decide_eq_true_eq, Bool.not_eq_true'] at harg
    obtain ⟨rfl, hskips⟩ := harg
    have hnodup := m.keys_nodup
    rw [hargs, List.map_append, List.map_cons, List.nodup_middle, List.nodup_cons] at hnodup
    have hother : ∀ arg ∈ front ++ back, arg.1 ≠ networkKey := by
      intro arg harg heq
      refine hnodup.1 ?_
      have hmem : arg.1 ∈ (front ++ back).map Prod.fst := List.mem_map_of_mem harg
      rwa [heq, List.map_append] at hmem
    rw [List.forall_mem_append] at hother
    have hbefore : m.before = front.flatMap m.givenOf := by
      rw [before, hargs, List.takeWhile_append_of_pos fun arg harg =>
        decide_eq_true (hother.1 arg harg)]
      simp
    have hdisplay : networkKey ≠ "display".toList := by decide
    refine .inr ⟨n, back.flatMap m.givenOf ++ m.tail, by rw [network, hfind]; rfl, ?_, ?_⟩
    · have hgiven : m.givenOf (networkKey, n) = splitArgString n := by
        rw [givenOf, if_neg (by simp [hskips]), if_neg fun h => hdisplay h.1]
      rw [given, hargs, List.flatMap_append, List.flatMap_cons, hgiven, hbefore]
      simp only [List.append_assoc]
    · have hwords : m.argWords (networkKey, n) = splitArgString (injectHostfwd n m.fwds) := by
        rw [argWords, if_neg (by simp [hskips])]
        dsimp only
        rw [if_pos rfl, if_neg fun h => hdisplay h.1]
      rw [hargv, hargs, List.flatMap_append, List.flatMap_cons, hwords, hbefore,
        m.flatMap_argWords hother.1, m.flatMap_argWords hother.2]
      simp only [List.append_assoc]

end Machine

/-! ## Where the clauses go -/

section Places

variable {takesValue : Word → Bool} {m : Machine}

variable (takesValue m) in
/-- The network string ends within the value of a user-mode network option, and not
in an odd comma. -/
def Machine.EndsInUser : Prop :=
  ∃ n, m.network = some n ∧ (splitLoop n).current ≠ [] ∧
    expectAfter takesValue .option (m.before ++ (splitLoop n).result) = .networkValue ∧
    isUser (splitLoop n).current = true ∧ pairedCommas (splitLoop n).current = true

/-- The clauses that are added, as the text that is put behind the string. -/
def Machine.appendix (m : Machine) : Word := m.added.flatMap (',' :: ·)

theorem Machine.added_clause (m : Machine) : ∀ f ∈ m.added, Clause f := by
  unfold Machine.added
  cases m.network with
  | none => exact fun f hf => nomatch hf
  | some n => exact fun f hf => m.fwds_clause f (List.mem_of_mem_filter hf)

theorem Machine.appendix_plain (m : Machine) :
    ∀ c ∈ m.appendix, c ≠ ' ' ∧ c ≠ '\x22' ∧ c ≠ '\x27' := by
  intro c hc
  obtain ⟨f, hf, hmem⟩ := List.mem_flatMap.mp hc
  rcases List.mem_cons.mp hmem with rfl | hmem
  · decide
  · exact (m.added_clause f hf).plain c hmem

theorem Machine.appendix_cons (h : m.added ≠ []) : ∃ more, m.appendix = ',' :: more := by
  obtain ⟨f, fs, hadded⟩ := List.exists_cons_of_ne_nil h
  exact ⟨f ++ fs.flatMap (',' :: ·), by rw [Machine.appendix, hadded]; rfl⟩

/-- The words, when there is a string to put clauses behind. -/
theorem words_injected (h : m.added ≠ []) :
    ∃ n rest, m.network = some n ∧ m.given = m.before ++ (splitArgString n ++ rest) ∧
      m.argv = m.before ++ (splitLoop n).result ++
        ((splitLoop n).current ++ m.appendix) :: rest := by
  rcases m.argv_cases with ⟨hnone, -⟩ | ⟨n, rest, hn, hgiven, hargv⟩
  · exact absurd (by rw [Machine.added, hnone]; rfl) h
  · have hinject : injectHostfwd n m.fwds = n ++ m.appendix := by
      rw [injectHostfwd_eq m.fwds_clause, Machine.appendix, Machine.added, hn]
      rfl
    obtain ⟨more, hmore⟩ := Machine.appendix_cons h
    refine ⟨n, rest, hn, hgiven, ?_⟩
    rw [hargv, hinject,
      splitArgString_append m.appendix_plain (by rw [hmore]; exact List.cons_ne_nil _ _)]
    simp

theorem argv_of_added_nil (h : m.added = []) : m.argv = m.given := by
  rcases m.argv_cases with ⟨-, hargv⟩ | ⟨n, rest, hn, hgiven, hargv⟩
  · exact hargv
  · have hextra : extraFwds n m.fwds = [] := by
      rw [Machine.added, hn] at h
      exact h
    rw [hargv, hgiven, injectHostfwd_eq m.fwds_clause, hextra, List.flatMap_nil, List.append_nil]

/-- The words, when the string ends in a word. -/
theorem given_of_current {n : Word} {rest : List Word} (hcurrent : (splitLoop n).current ≠ [])
    (hgiven : m.given = m.before ++ (splitArgString n ++ rest)) :
    m.given = m.before ++ (splitLoop n).result ++ (splitLoop n).current :: rest := by
  rw [hgiven, splitArgString, if_neg hcurrent]
  simp

theorem optionParts_appendix {value : Word} (h : pairedCommas value = true) :
    optionParts (value ++ m.appendix) = optionParts value ++ m.added :=
  optionParts_append h m.added_clause

theorem isUser_appendix {value : Word} (h : pairedCommas value = true)
    (huser : isUser value = true) : isUser (value ++ m.appendix) = true := by
  unfold isUser at huser ⊢
  rw [optionParts_appendix h]
  rw [Bool.or_eq_true, decide_eq_true_eq, List.contains_iff_mem] at huser ⊢
  rcases huser with hhead | htype
  · refine .inl ?_
    rw [List.head?_append, hhead]
    rfl
  · exact .inr (List.mem_append_left _ htype)

/-- An extension shows that the clauses are in their place. -/
theorem endsInUser_of_extends (hadded : m.added ≠ [])
    (h : Extends takesValue .option m.given m.argv) : m.EndsInUser takesValue := by
  obtain ⟨n, rest, hn, hgiven, hargv⟩ := words_injected hadded
  obtain ⟨more, hmore⟩ := Machine.appendix_cons hadded
  have hcurrent : (splitLoop n).current ≠ [] := by
    intro hnil
    -- the clauses would be a word of their own
    have hlength := h.length_eq
    rw [hgiven, hargv, splitArgString, if_pos hnil] at hlength
    simp only [List.length_append, List.length_cons] at hlength
    omega
  rw [given_of_current hcurrent hgiven, hargv, extends_append_iff] at h
  rcases h.tail.2 with hsame | ⟨hexpect, huser, fs, hparts⟩
  · have hlength := congrArg List.length hsame
    rw [hmore, List.length_append, List.length_cons] at hlength
    omega
  · refine ⟨n, hn, hcurrent, hexpect, huser, ?_⟩
    by_contra hodd
    rw [hmore] at hparts
    exact optionParts_odd (Bool.eq_false_iff.mpr hodd) more fs hparts

theorem extends_of_endsInUser (hadded : m.added ≠ []) (h : m.EndsInUser takesValue) :
    Extends takesValue .option m.given m.argv := by
  obtain ⟨n, hn, hcurrent, hexpect, huser, hpaired⟩ := h
  obtain ⟨n', rest, hn', hgiven, hargv⟩ := words_injected hadded
  obtain rfl : n = n' := Option.some.inj (hn.symm.trans hn')
  rw [given_of_current hcurrent hgiven, hargv, extends_append_iff, hexpect]
  refine .user huser (optionParts_appendix hpaired) (fun f hf => ?_) (.refl _ rest)
  exact List.isPrefixOf_iff_prefix.mp (m.added_clause f hf).key

/-- What the clauses in their place forward. -/
theorem count_forwards (hplace : m.added = [] ∨ m.EndsInUser takesValue) (x : Protocol × Word) :
    (forwards takesValue .option m.argv).count x =
      (forwards takesValue .option m.given).count x + (m.added.filterMap hostfwdOf).count x := by
  by_cases hadded : m.added = []
  · rw [argv_of_added_nil hadded, hadded]
    rfl
  · obtain ⟨n, hn, hcurrent, hexpect, huser, hpaired⟩ := hplace.resolve_left hadded
    obtain ⟨n', rest, hn', hgiven, hargv⟩ := words_injected hadded
    obtain rfl : n = n' := Option.some.inj (hn.symm.trans hn')
    have hold : forwardsOf .networkValue (splitLoop n).current =
        (optionParts (splitLoop n).current).filterMap hostfwdOf := if_pos ⟨rfl, huser⟩
    have hnew : forwardsOf .networkValue ((splitLoop n).current ++ m.appendix) =
        (optionParts (splitLoop n).current).filterMap hostfwdOf ++
          m.added.filterMap hostfwdOf := by
      rw [forwardsOf, if_pos ⟨rfl, isUser_appendix hpaired huser⟩, optionParts_appendix hpaired,
        List.filterMap_append]
    have hfront : ∀ ws, forwards takesValue .option (m.before ++ (splitLoop n).result ++ ws) =
        forwards takesValue .option (m.before ++ (splitLoop n).result) ++ forwards takesValue
          (expectAfter takesValue .option (m.before ++ (splitLoop n).result)) ws :=
      forwards_append .option _
    rw [given_of_current hcurrent hgiven, hargv, hfront, hfront, hexpect, forwards_cons,
      forwards_cons, hold, hnew]
    simp only [List.count_append, Expect.next]
    omega

theorem count_added {c : McpdChannel} (hc : m.mcpdOn = some c) :
    (m.added.filterMap hostfwdOf).count (.tcp, decimal c.port) =
        (if c.tcpClause ∈ m.added then 1 else 0) ∧
      (m.added.filterMap hostfwdOf).count (.udp, decimal c.discHost) =
        (if c.udpClause ∈ m.added then 1 else 0) := by
  obtain ⟨htcp, hudp⟩ := c.clauses
  have hreadtcp : hostfwdOf c.tcpClause = some (.tcp, decimal c.port) := by
    rw [htcp]
    exact hostfwdOf_clauseText rfl (by decide) _ _
  have hreadudp : hostfwdOf c.udpClause = some (.udp, decimal c.discHost) := by
    rw [hudp]
    exact hostfwdOf_clauseText rfl (by decide) _ _
  have hne : c.tcpClause ≠ c.udpClause := by
    intro heq
    rw [heq, hreadudp] at hreadtcp
    cases hreadtcp
  have hadded : ∃ p : Word → Bool, m.added = [c.tcpClause, c.udpClause].filter p := by
    unfold Machine.added
    cases m.network with
    | none => exact ⟨fun _ => false, rfl⟩
    | some n =>
      have hfwds : m.fwds = [c.tcpClause, c.udpClause] := by rw [Machine.fwds, hc]; rfl
      exact ⟨_, by rw [Option.elim_some, extraFwds, hfwds]⟩
  obtain ⟨p, hp⟩ := hadded
  rw [hp]
  cases htcp : p c.tcpClause <;> cases hudp : p c.udpClause <;>
    simp [List.filter, htcp, hudp, hreadtcp, hreadudp, hne, hne.symm]

end Places

/-! ## Whether the ports are forwarded -/

section Main

variable (takesValue : Word → Bool) (m : Machine)

/-- Each reported port is forwarded exactly once, nothing else is changed by that,
and a second injection changes nothing. -/
structure Forwarded : Prop where
  mcpd : ∀ port, m.buildCmdline.2.mcpd = some port →
    (forwards takesValue .option m.argv).count (.tcp, decimal port) = 1
  discovery : ∀ port, m.buildCmdline.2.discovery = some port →
    (forwards takesValue .option m.argv).count (.udp, decimal port) = 1
  others : Extends takesValue .option m.given m.argv
  idempotent : ∀ arg, injectHostfwd (injectHostfwd arg m.fwds) m.fwds = injectHostfwd arg m.fwds

/-- The clauses that are missing have a place to go to, and of the ports exactly
those are forwarded already whose clauses are not missing. -/
structure Fits : Prop where
  place : m.added = [] ∨ m.EndsInUser takesValue
  mcpd : ∀ c, m.mcpdOn = some c →
    (forwards takesValue .option m.given).count (.tcp, decimal c.port) =
      if c.tcpClause ∈ m.added then 0 else 1
  discovery : ∀ c, m.mcpdOn = some c →
    (forwards takesValue .option m.given).count (.udp, decimal c.discHost) =
      if c.udpClause ∈ m.added then 0 else 1

/-- The reported ports are forwarded if and only if the description fits. -/
theorem forwarded_iff : Forwarded takesValue m ↔ Fits takesValue m := by
  have hports : ∀ c, m.mcpdOn = some c → m.buildCmdline.2.mcpd = some c.port ∧
      m.buildCmdline.2.discovery = some c.discHost := by
    intro c hc
    exact ⟨by rw [Machine.buildCmdline, Machine.ports, hc]; rfl,
      by rw [Machine.buildCmdline, Machine.ports, hc]; rfl⟩
  constructor
  · intro h
    have hplace : m.added = [] ∨ m.EndsInUser takesValue :=
      or_iff_not_imp_left.mpr fun hadded => endsInUser_of_extends hadded h.others
    refine ⟨hplace, fun c hc => ?_, fun c hc => ?_⟩
    · have hone := h.mcpd c.port (hports c hc).1
      rw [count_forwards hplace, (count_added hc).1] at hone
      by_cases hmem : c.tcpClause ∈ m.added
      · rw [if_pos hmem] at hone ⊢
        omega
      · rw [if_neg hmem] at hone ⊢
        omega
    · have hone := h.discovery c.discHost (hports c hc).2
      rw [count_forwards hplace, (count_added hc).2] at hone
      by_cases hmem : c.udpClause ∈ m.added
      · rw [if_pos hmem] at hone ⊢
        omega
      · rw [if_neg hmem] at hone ⊢
        omega
  · intro h
    refine ⟨fun port hport => ?_, fun port hport => ?_, ?_,
      injectHostfwd_injectHostfwd m.fwds_clause⟩
    · obtain ⟨c, hc, rfl⟩ := Option.map_eq_some_iff.mp hport
      have hgiven := h.mcpd c hc
      rw [count_forwards h.place, (count_added hc).1, hgiven]
      split <;> rfl
    · obtain ⟨c, hc, rfl⟩ := Option.map_eq_some_iff.mp hport
      have hgiven := h.discovery c hc
      rw [count_forwards h.place, (count_added hc).2, hgiven]
      split <;> rfl
    · by_cases hadded : m.added = []
      · rw [argv_of_added_nil hadded]
        exact .refl _ _
      · exact extends_of_endsInUser hadded (h.place.resolve_left hadded)

end Main

/-- The options in the other order: the clauses are put behind the device. -/
theorem device_last : ¬ ∀ (takesValue : Word → Bool) (m : Machine), Forwarded takesValue m := by
  intro h
  let m : Machine :=
    { qemuBinary := "qemu".toList
      args := [(networkKey, "-netdev user,id=n0 -device rtl8139,netdev=n0".toList)]
      mcpd := some { port := 4322 }, keys_nodup := by decide }
  have hone := (h (fun w => w = "-device".toList) m).mcpd 4322 rfl
  revert hone
  decide +kernel

end AmigaFleet.Host.QemuCmdline
