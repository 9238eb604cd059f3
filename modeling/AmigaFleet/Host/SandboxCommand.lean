import AmigaFleet.Mcpd.CommandLine

/-!
# Command lines for SandboxVM

`_shell_safe`, `_build_command` and `_build_batch_command` of
`tools/sandbox.py`.  The host puts paths into quotes as they are, and other
words into quotes with their double quotes escaped.  Nothing escapes a star,
and a newline asks for no quotes, as it does in `_quote_arg` of the daemon.

`commands_buildCommand_iff` says which lines the rules of the shell read as one
command with its words; a line is a list of the library's pieces.
-/

namespace AmigaFleet.Host.SandboxCommand

open AmigaFleet.Lib
open AmigaFleet.Mcpd.Exec (amigaDos)

/-! ## The words of a line -/

/-- A path in double quotes. -/
def quotedPath (path : List Char) : List Char := '"' :: (path ++ ['"'])

/-- `needs_quoting`, for a token that is not empty -/
def needsQuoting (token : List Char) : Bool := token.any fun c => c ∈ [' ', '\t', '"', '<', '>', '|', ';']

/-- `_shell_safe` -/
def shellSafe (token : List Char) : List Char :=
  if token = [] then ['"', '"']
  else if needsQuoting token then
    '"' :: (token.flatMap (fun c => if c = '"' then ['*', '"'] else [c]) ++ ['"'])
  else token

/-- `str` of an integer. -/
def intStr (n : Int) : List Char := (toString n).toList

/-- The text of an integer: its digits, with a minus sign in front of them or not. -/
theorem intStr_cases (n : Int) :
    (∃ m : Nat, n = m ∧ intStr n = Nat.toDigits 10 m) ∨
      ∃ m : Nat, n = -(m : Int) ∧ intStr n = '-' :: Nat.toDigits 10 m := by
  cases n with
  | ofNat m => exact Or.inl ⟨m, rfl, Nat.toList_repr⟩
  | negSucc m =>
    refine Or.inr ⟨m + 1, rfl, ?_⟩
    show ("-" ++ (m + 1).repr).toList = _
    rw [String.toList_append, Nat.toList_repr]
    rfl

theorem isDigit_toDigits {m : Nat} {c : Char} (hc : c ∈ Nat.toDigits 10 m) : c.isDigit = true :=
  Nat.isDigit_of_mem_toDigits (by decide) (by decide) hc

/-! ## The lines -/

/-- The parameters of `_build_command`. -/
structure GuestRun where
  sandboxvmPath : List Char
  guest : List Char
  args : Option (List (List Char))
  extmemMb : Int
  windowMb : Int
  denyLibs : List (List Char)
  name : List Char
  residentDriver : Bool := false
  testElf : Option (List Char) := none
  timeLimitS : Option Int := none
deriving DecidableEq, Repr

/-- The parameters of `_build_batch_command`. -/
structure BatchRun where
  sandboxvmPath : List Char
  guests : List (List Char)
  extmemMb : Int
  windowMb : Int
  denyLibs : List (List Char)
  name : List Char
deriving DecidableEq, Repr

/-- What both lines begin with. -/
def headParts (sandboxvmPath : List Char) (extmemMb windowMb : Int) (name : List Char)
    (denyLibs : List (List Char)) : List (List Char) :=
  [quotedPath sandboxvmPath] ++ [['-', 'm'], intStr extmemMb] ++ [['-', 'w'], intStr windowMb] ++
    [['-', 'n'], shellSafe name] ++ denyLibs.flatMap fun lib => [['-', 'x'], shellSafe lib]

/-- `_build_command` -/
def buildCommand (r : GuestRun) : List Char :=
  let parts := headParts r.sandboxvmPath r.extmemMb r.windowMb r.name r.denyLibs
  let parts := parts ++ match r.timeLimitS with
    | none => []
    | some t => if t = 0 then [] else [['-', 'T'], intStr t]
  let parts := if r.residentDriver then parts ++ [['-', 'r']] else parts
  let parts := parts ++ match r.testElf with
    | none => []
    | some elf => if elf = [] then [] else [['-', 't'], quotedPath elf]
  let parts := parts ++ [quotedPath r.guest]
  let parts := parts ++ match r.args with
    | none => []
    | some args => if args = [] then [] else ['-', '-'] :: args.map shellSafe
  Quoting.joined ' ' parts

/-- `_build_batch_command` -/
def buildBatchCommand (r : BatchRun) : List Char :=
  let parts := headParts r.sandboxvmPath r.extmemMb r.windowMb r.name r.denyLibs
  Quoting.joined ' ' (parts ++ r.guests.map quotedPath)

/-! ## What the lines should say -/

def headWords (sandboxvmPath : List Char) (extmemMb windowMb : Int) (name : List Char)
    (denyLibs : List (List Char)) : List (List Char) :=
  [sandboxvmPath, ['-', 'm'], intStr extmemMb, ['-', 'w'], intStr windowMb, ['-', 'n'], name] ++
    denyLibs.flatMap fun lib => [['-', 'x'], lib]

/-- The time limit that `_build_command` writes. -/
def GuestRun.limit (r : GuestRun) : List Int := r.timeLimitS.toList.filter (· ≠ 0)

/-- The test that `_build_command` writes. -/
def GuestRun.tests (r : GuestRun) : List (List Char) := r.testElf.toList.filter (· ≠ [])

def GuestRun.argv (r : GuestRun) : List (List Char) := r.args.getD []

/-- The program and its arguments. -/
def GuestRun.words (r : GuestRun) : List (List Char) :=
  headWords r.sandboxvmPath r.extmemMb r.windowMb r.name r.denyLibs ++
    r.limit.flatMap (fun t => [['-', 'T'], intStr t]) ++
    (if r.residentDriver then [['-', 'r']] else []) ++
    r.tests.flatMap (fun elf => [['-', 't'], elf]) ++ [r.guest] ++
    if r.argv = [] then [] else ['-', '-'] :: r.argv

def BatchRun.words (r : BatchRun) : List (List Char) :=
  headWords r.sandboxvmPath r.extmemMb r.windowMb r.name r.denyLibs ++ r.guests

/-- Outside quotes a newline ends the command. -/
def endsCommand (c : Char) : Bool := c = '\n'

/-- In quotes a path stays as it is: it has no double quote, no `**` and no
star at its end. -/
def PathKept (path : List Char) : Prop := '"' ∉ path ∧ amigaDos.Inert path

/-- `_shell_safe` keeps a token: it goes without quotes and has no newline, or
none of its stars stands in front of a star or a double quote or at its end. -/
def TokenKept (token : List Char) : Prop :=
  if needsQuoting token then amigaDos.Inert token else '\n' ∉ token

def HeadKept (sandboxvmPath name : List Char) (denyLibs : List (List Char)) : Prop :=
  PathKept sandboxvmPath ∧ TokenKept name ∧ ∀ lib ∈ denyLibs, TokenKept lib

def GuestRun.Kept (r : GuestRun) : Prop :=
  HeadKept r.sandboxvmPath r.name r.denyLibs ∧ (∀ elf ∈ r.tests, PathKept elf) ∧
    PathKept r.guest ∧ ∀ arg ∈ r.argv, TokenKept arg

def BatchRun.Kept (r : BatchRun) : Prop :=
  HeadKept r.sandboxvmPath r.name r.denyLibs ∧ ∀ guest ∈ r.guests, PathKept guest

/-! ## The words as pieces -/

theorem plain_intStr (n : Int) : ∀ c ∈ intStr n, c = '-' ∨ c.isDigit = true := by
  rcases intStr_cases n with ⟨m, -, htext⟩ | ⟨m, -, htext⟩
  · rw [htext]
    exact fun c hc => Or.inr (isDigit_toDigits hc)
  · rw [htext]
    exact List.forall_mem_cons.mpr ⟨Or.inl rfl, fun c hc => Or.inr (isDigit_toDigits hc)⟩

theorem bare_intStr (n : Int) : amigaDos.Bare (intStr n) := by
  constructor
  · rcases intStr_cases n with ⟨m, -, htext⟩ | ⟨m, -, htext⟩
    · rw [htext]
      exact Nat.toDigits_ne_nil
    · rw [htext]
      exact List.cons_ne_nil _ _
  · intro c hc
    have hne : c ≠ '"' ∧ c ≠ ' ' ∧ c ≠ '\t' := by
      refine ⟨?_, ?_, ?_⟩ <;> rintro rfl <;> exact absurd (plain_intStr n _ hc) (by decide)
    simp [amigaDos, hne]

def barePiece (word : List Char) (h : amigaDos.Bare word) : amigaDos.Piece := ⟨.bare, word, fun _ => h⟩

def pathPiece (path : List Char) : amigaDos.Piece := ⟨.raw, path, nofun⟩

theorem bare_of_not_needsQuoting {token : List Char} (hne : token ≠ [])
    (h : needsQuoting token = false) : amigaDos.Bare token := by
  refine ⟨hne, fun c hc => ?_⟩
  have hplain := List.any_eq_false.mp h c hc
  simp only [List.mem_cons, List.not_mem_nil, or_false, decide_eq_true_eq, not_or] at hplain
  simp [amigaDos, hplain]

/-- `_shell_safe` as a piece. -/
def tokenPiece (token : List Char) : amigaDos.Piece :=
  if h : token ≠ [] ∧ needsQuoting token = false then
    barePiece token (bare_of_not_needsQuoting h.1 h.2)
  else ⟨.safe, token, nofun⟩

@[simp] theorem barePiece_text (word : List Char) (h : amigaDos.Bare word) :
    (barePiece word h).text = word := rfl

@[simp] theorem barePiece_word (word : List Char) (h : amigaDos.Bare word) :
    (barePiece word h).word = word := rfl

@[simp] theorem pathPiece_word (path : List Char) : (pathPiece path).word = path := rfl

@[simp] theorem tokenPiece_word (token : List Char) : (tokenPiece token).word = token := by
  unfold tokenPiece
  split <;> rfl

@[simp] theorem pathPiece_text (path : List Char) : (pathPiece path).text = quotedPath path := by
  show '"' :: (amigaDos.escapeBy (fun _ => false) path ++ ['"']) = _
  simp [Quoting.escapeBy, quotedPath]

@[simp] theorem tokenPiece_text (token : List Char) : (tokenPiece token).text = shellSafe token := by
  by_cases h : token ≠ [] ∧ needsQuoting token = false
  · rw [tokenPiece, dif_pos h, barePiece_text, shellSafe, if_neg h.1, if_neg (by simp [h.2])]
  · rw [tokenPiece, dif_neg h]
    show '"' :: (amigaDos.escapeBy (fun c => c = '"') token ++ ['"']) = _
    by_cases hne : token = []
    · subst hne
      rfl
    · have hneeds : needsQuoting token = true := by simpa [hne] using h
      rw [shellSafe, if_neg hne, if_pos hneeds]
      refine congrArg _ (congrArg (· ++ ['"']) (List.flatMap_congr fun c _ => ?_))
      by_cases hc : c = '"' <;> simp [hc, amigaDos]

/-- The shell reads a piece as the word that it stands for, and goes on. -/
def Safe (p : amigaDos.Piece) : Prop := p.Reads ∧ p.OneLine endsCommand

theorem safe_barePiece (word : List Char) (h : amigaDos.Bare word) :
    Safe (barePiece word h) ↔ '\n' ∉ word := by
  have hline : (barePiece word h).OneLine endsCommand ↔ '\n' ∉ word := by
    show (_ → ∀ c ∈ word, decide (c = '\n') = false) ↔ _
    simp [List.forall_mem_ne', barePiece]
  exact (and_iff_right trivial).trans hline

theorem safe_pathPiece (path : List Char) : Safe (pathPiece path) ↔ PathKept path :=
  and_iff_left nofun

theorem safe_intStr (n : Int) : Safe (barePiece (intStr n) (bare_intStr n)) := by
  refine (safe_barePiece _ _).mpr fun hmem => ?_
  exact absurd (plain_intStr n _ hmem) (by decide)

theorem safe_tokenPiece (token : List Char) : Safe (tokenPiece token) ↔ TokenKept token := by
  unfold tokenPiece TokenKept
  split
  · rename_i h
    rw [h.2]
    exact safe_barePiece token _
  · rename_i h
    show amigaDos.Inert token ∧ (_ → _) ↔ _
    rw [and_iff_left fun hplain => by cases hplain]
    by_cases hne : token = []
    · subst hne
      simp [Quoting.Inert, needsQuoting]
    · have hneeds : needsQuoting token = true := by simpa [hne] using h
      rw [if_pos hneeds]

/-- A letter that an option may have. -/
def Letter (c : Char) : Prop := c ≠ '"' ∧ amigaDos.blank c = false ∧ c ≠ '\n'

instance (c : Char) : Decidable (Letter c) := inferInstanceAs (Decidable (_ ∧ _ ∧ _))

def option (letter : Char) (h : Letter letter) : amigaDos.Piece :=
  barePiece ['-', letter] ⟨List.cons_ne_nil _ _,
    List.forall_mem_cons.mpr ⟨by decide, List.forall_mem_singleton.mpr ⟨h.1, h.2.1⟩⟩⟩

def headPieces (sandboxvmPath : List Char) (extmemMb windowMb : Int) (name : List Char)
    (denyLibs : List (List Char)) : List amigaDos.Piece :=
  [pathPiece sandboxvmPath, option 'm' (by decide), barePiece _ (bare_intStr extmemMb),
    option 'w' (by decide), barePiece _ (bare_intStr windowMb), option 'n' (by decide),
    tokenPiece name] ++
    denyLibs.flatMap fun lib => [option 'x' (by decide), tokenPiece lib]

def residentPieces (resident : Bool) : List amigaDos.Piece :=
  if resident then [option 'r' (by decide)] else []

def argvPieces (argv : List (List Char)) : List amigaDos.Piece :=
  if argv = [] then [] else option '-' (by decide) :: argv.map tokenPiece

def GuestRun.pieces (r : GuestRun) : List amigaDos.Piece :=
  headPieces r.sandboxvmPath r.extmemMb r.windowMb r.name r.denyLibs ++
    r.limit.flatMap (fun t => [option 'T' (by decide), barePiece _ (bare_intStr t)]) ++
    residentPieces r.residentDriver ++
    r.tests.flatMap (fun elf => [option 't' (by decide), pathPiece elf]) ++ [pathPiece r.guest] ++
    argvPieces r.argv

def BatchRun.pieces (r : BatchRun) : List amigaDos.Piece :=
  headPieces r.sandboxvmPath r.extmemMb r.windowMb r.name r.denyLibs ++ r.guests.map pathPiece

@[simp] theorem option_text (letter : Char) (h) : (option letter h).text = ['-', letter] := rfl

@[simp] theorem option_word (letter : Char) (h) : (option letter h).word = ['-', letter] := rfl

theorem safe_option (letter : Char) (h) : Safe (option letter h) := by
  refine (safe_barePiece _ _).mpr ?_
  simpa using Ne.symm h.2.2

/-! ### What the pieces say -/

theorem headPieces_word (path name : List Char) (extmem window : Int) (libs : List (List Char)) :
    (headPieces path extmem window name libs).map Quoting.Piece.word =
      headWords path extmem window name libs := by
  simp [headPieces, headWords, List.map_flatMap]

theorem residentPieces_word (resident : Bool) :
    (residentPieces resident).map Quoting.Piece.word = if resident then [['-', 'r']] else [] := by
  cases resident <;> rfl

theorem argvPieces_word (argv : List (List Char)) :
    (argvPieces argv).map Quoting.Piece.word = if argv = [] then [] else ['-', '-'] :: argv := by
  unfold argvPieces
  split <;> simp [Function.comp_def]

theorem GuestRun.pieces_word (r : GuestRun) : r.pieces.map Quoting.Piece.word = r.words := by
  simp [pieces, words, headPieces_word, residentPieces_word, argvPieces_word, List.map_flatMap]

theorem BatchRun.pieces_word (r : BatchRun) : r.pieces.map Quoting.Piece.word = r.words := by
  simp [pieces, words, headPieces_word, Function.comp_def]

/-! ### How the pieces stand on the line -/

theorem headPieces_text (path name : List Char) (extmem window : Int) (libs : List (List Char)) :
    (headPieces path extmem window name libs).map Quoting.Piece.text =
      headParts path extmem window name libs := by
  simp [headPieces, headParts, List.map_flatMap]

theorem residentPieces_text (resident : Bool) (parts : List (List Char)) :
    parts ++ (residentPieces resident).map Quoting.Piece.text =
      if resident then parts ++ [['-', 'r']] else parts := by
  cases resident <;> simp [residentPieces]

theorem argvPieces_text (args : Option (List (List Char))) :
    (argvPieces (args.getD [])).map Quoting.Piece.text = match args with
      | none => []
      | some args => if args = [] then [] else ['-', '-'] :: args.map shellSafe := by
  unfold argvPieces
  cases args with
  | none => rfl
  | some args =>
    show List.map _ (if args = [] then _ else _) = if args = [] then _ else _
    split <;> simp

theorem limit_text (limit : Option Int) :
    ((limit.toList.filter (· ≠ 0)).flatMap fun t => [['-', 'T'], intStr t]) = match limit with
      | none => []
      | some t => if t = 0 then [] else [['-', 'T'], intStr t] := by
  cases limit with
  | none => rfl
  | some t => by_cases ht : t = 0 <;> simp [ht]

theorem tests_text (testElf : Option (List Char)) :
    ((testElf.toList.filter (· ≠ [])).flatMap fun elf => [['-', 't'], quotedPath elf]) =
      match testElf with
      | none => []
      | some elf => if elf = [] then [] else [['-', 't'], quotedPath elf] := by
  cases testElf with
  | none => rfl
  | some elf => by_cases helf : elf = [] <;> simp [helf]

theorem GuestRun.pieces_text (r : GuestRun) :
    Quoting.joined ' ' (r.pieces.map Quoting.Piece.text) = buildCommand r := by
  unfold buildCommand
  simp only [← limit_text, ← tests_text, ← argvPieces_text, ← residentPieces_text, ← headPieces_text]
  simp [pieces, GuestRun.limit, tests, argv, List.map_flatMap]

theorem BatchRun.pieces_text (r : BatchRun) :
    Quoting.joined ' ' (r.pieces.map Quoting.Piece.text) = buildBatchCommand r := by
  simp [pieces, buildBatchCommand, headPieces_text, Function.comp_def]

/-! ### Which pieces are read back -/

theorem safe_headPieces (path name : List Char) (extmem window : Int) (libs : List (List Char)) :
    (∀ p ∈ headPieces path extmem window name libs, Safe p) ↔ HeadKept path name libs := by
  simp only [headPieces, HeadKept, List.forall_mem_append, List.forall_mem_cons,
    List.forall_mem_flatMap, safe_option, safe_intStr, safe_pathPiece, safe_tokenPiece]
  simp [and_assoc]

theorem safe_residentPieces (resident : Bool) : ∀ p ∈ residentPieces resident, Safe p := by
  cases resident <;> simp [residentPieces, safe_option]

theorem safe_argvPieces (argv : List (List Char)) :
    (∀ p ∈ argvPieces argv, Safe p) ↔ ∀ arg ∈ argv, TokenKept arg := by
  unfold argvPieces
  split
  · simp_all
  · simp only [List.forall_mem_cons, List.forall_mem_map, safe_option, safe_tokenPiece, true_and]

theorem GuestRun.safe_pieces (r : GuestRun) : (∀ p ∈ r.pieces, Safe p) ↔ r.Kept := by
  have hresident := iff_true_intro (safe_residentPieces r.residentDriver)
  simp only [pieces, Kept, List.forall_mem_append, List.forall_mem_flatMap, List.forall_mem_cons,
    safe_headPieces, safe_argvPieces, safe_option, safe_intStr, safe_pathPiece, hresident]
  simp [and_assoc]

theorem BatchRun.safe_pieces (r : BatchRun) : (∀ p ∈ r.pieces, Safe p) ↔ r.Kept := by
  simp only [pieces, Kept, List.forall_mem_append, safe_headPieces, List.forall_mem_map,
    safe_pathPiece]

/-- The shell reads a line as one command with the program and all arguments
exactly if the quoting of the host keeps each of them. -/
theorem commands_buildCommand_iff (r : GuestRun) (b : BatchRun) :
    (amigaDos.commands endsCommand (buildCommand r) = [r.words] ↔ r.Kept) ∧
      (amigaDos.commands endsCommand (buildBatchCommand b) = [b.words] ↔ b.Kept) := by
  constructor
  · rw [← r.pieces_text, ← r.pieces_word, ← r.safe_pieces]
    exact Quoting.commands_joined_iff rfl rfl rfl r.pieces
  · rw [← b.pieces_text, ← b.pieces_word, ← b.safe_pieces]
    exact Quoting.commands_joined_iff rfl rfl rfl b.pieces

/-- An argument with two stars and a blank loses a star; one with a newline
makes two commands. -/
theorem arguments_misread :
    ¬(∀ r : GuestRun, amigaDos.commands endsCommand (buildCommand r) = [r.words]) ∧
      ¬∀ r : GuestRun, r.args = some [['a', '\n', 'b']] →
        amigaDos.commands endsCommand (buildCommand r) = [r.words] := by
  constructor
  · intro h
    have hlost := h ⟨['v'], ['g'], some [['*', '*', ' ']], 1, 1, [], ['n'], false, none, none⟩
    exact absurd hlost (by decide)
  · intro h
    have hcut := h ⟨['v'], ['g'], some [['a', '\n', 'b']], 1, 1, [], ['n'], false, none, none⟩ rfl
    exact absurd hcut (by decide)

end AmigaFleet.Host.SandboxCommand
