import AmigaFleet.Mcpd.CommandLine
import AmigaFleet.Mcpd.Fs

/-!
# fs.delete and fs.copy

Both hand a command line to the shell: `fs_delete` to delete a directory with all
that is in it, `fs_copy` always.  The paths are pasted between double quotes, where
`_quote_arg` of exec.cmd would put a star in front of each star and quote.

* `fsDelete` and `fsCopy` return the lines they run, in front of the outcome.
* `words_iff`: the shell reads the command, its keywords and the paths exactly if
  each path is `Kept`.
* `delete_second_path` is a path that has `Delete` delete another one too.
* `quoteArg_words`: with `_quote_arg` every path would be read back.
-/

namespace AmigaFleet.Mcpd.Fs

open AmigaFleet.Lib
open Exec (amigaDos line)
open Jobs (CString)

/-! ## The code -/

/-- What the machine answers: how `Delete` of `dos.library` fails, and the exit
code and the output of a command line; `none` if nothing could be captured. -/
structure ShellDos where
  delete : Bytes → Option IoErr
  run : CString → Nat → Option (Int × Bytes)

/-- The characters of a C string. -/
def cChars (text : Bytes) : CString := text.map fun c => Char.ofNat c.toNat

/-- `sizeof(cmd)` -/
def cmdSize : Nat := 1024

/-- `Delete "%s" ALL QUIET` -/
def deleteLine (path : Bytes) : CString :=
  "Delete \"".toList ++ cChars path ++ "\" ALL QUIET".toList

/-- `Copy "%s" TO "%s" CLONE` -/
def copyLine (src dst : Bytes) : CString :=
  "Copy \"".toList ++ cChars src ++ "\" TO \"".toList ++ cChars dst ++ "\" CLONE".toList

/-- The `recursive` flag of `fs_delete`. -/
def isRecursive (params : Option CJson) : Bool :=
  match params.bind (CJson.getItem (ascii "recursive")) with
  | some (.bool b) => b
  | _ => false

/-- What `fs_delete` and `fs_copy` do with a line: `tooLong`, `lost` and `failed`
are their error texts, `named` the members that name the paths. -/
def shellOut (dos : ShellDos) (cmd : CString) (timeout : Nat) (tooLong lost failed : String)
    (named : List (Bytes × CJson)) (reply : Bytes → CJson) : List CString × Outcome :=
  if cmd.length ≥ cmdSize then ([], .error (rpcMakeError mcpdErrInvparams tooLong none))
  else
    match dos.run cmd timeout with
    | none => ([cmd], .error (rpcMakeError mcpdErrInternal lost none))
    | some (rc, out) =>
      if rc ≠ 0 then
        ([cmd], .error (rpcMakeError mcpdErrTarget failed
          (some (.object (named ++ [(ascii "rc", cNumber rc), (ascii "output", .string out)])))))
      else ([cmd], .ok (reply out))

/-- The result of `fs_delete`. -/
def deleted (path : Bytes) (recursive : Bool) : CJson :=
  .object [(ascii "path", .string path), (ascii "ok", .bool true),
    (ascii "recursive", .bool recursive)]

/-- `fs_delete` -/
def fsDelete (dos : ShellDos) (params : Option CJson) : List CString × Outcome :=
  match pStr params "path" with
  | .error err => ([], .error err)
  | .ok path =>
    if isRecursive params then
      shellOut dos (deleteLine path) 60 "fs.delete: path too long" "fs.delete: capture failed"
        "fs.delete recursive failed" [(ascii "path", .string path)] fun _ => deleted path true
    else
      match dos.delete path with
      | some ioErr => ([], .error (fsErrorFor ioErr path))
      | none => ([], .ok (deleted path false))

/-- `fs_copy` -/
def fsCopy (dos : ShellDos) (params : Option CJson) : List CString × Outcome :=
  match pStr params "src", pStr params "dst" with
  | .error err, _ => ([], .error err)
  | .ok _, .error err => ([], .error err)
  | .ok src, .ok dst =>
    shellOut dos (copyLine src dst) 30 "fs.copy: paths too long" "fs.copy: capture failed"
      "fs.copy: AmigaDOS Copy failed" [(ascii "src", .string src), (ascii "dst", .string dst)]
      fun out => .object [(ascii "src", .string src), (ascii "dst", .string dst),
        (ascii "output", .string out), (ascii "ok", .bool true)]

/-! ## The words of the lines -/

/-- Between quotes the path stands for itself: it has no quote, no two stars in a
row and no star at its end. -/
def Kept (path : Bytes) : Prop := '"' ∉ cChars path ∧ amigaDos.Inert (cChars path)

instance (path : Bytes) : Decidable (Kept path) := inferInstanceAs (Decidable (_ ∧ _))

/-- A word of letters is bare. -/
theorem bare_of_letters {word : CString} (hne : word ≠ []) (h : word.all Char.isAlpha = true) :
    amigaDos.Bare word := by
  refine ⟨hne, fun c hc => ?_⟩
  have halpha := List.all_eq_true.mp h c hc
  have hother : c ≠ '"' ∧ c ≠ ' ' ∧ c ≠ '\t' := by
    refine ⟨?_, ?_, ?_⟩ <;> intro heq <;> subst heq <;> exact absurd halpha (by decide)
  simp [amigaDos, hother]

/-- The command or a keyword. -/
def keyword (word : String) (hne : word.toList ≠ []) (h : word.toList.all Char.isAlpha = true) :
    amigaDos.Piece :=
  ⟨.bare, word.toList, fun _ => bare_of_letters hne h⟩

theorem keyword_reads (word : String) (hne : word.toList ≠ [])
    (h : word.toList.all Char.isAlpha = true) : (keyword word hne h).Reads := trivial

/-- A path as it is pasted. -/
def pasted (path : Bytes) : amigaDos.Piece := ⟨.raw, cChars path, nofun⟩

theorem pasted_reads (path : Bytes) : (pasted path).Reads ↔ Kept path := Iff.rfl

theorem pasted_text (path : Bytes) : (pasted path).text = '"' :: (cChars path ++ ['"']) := by
  have hbody : amigaDos.escapeBy (fun _ => false) (cChars path) = cChars path := by
    simp [Quoting.escapeBy]
  show '"' :: (amigaDos.escapeBy (fun _ => false) (cChars path) ++ ['"']) = _
  rw [hbody]

def deletePieces (path : Bytes) : List amigaDos.Piece :=
  [keyword "Delete" (by decide) (by decide), pasted path, keyword "ALL" (by decide) (by decide),
    keyword "QUIET" (by decide) (by decide)]

def copyPieces (src dst : Bytes) : List amigaDos.Piece :=
  [keyword "Copy" (by decide) (by decide), pasted src, keyword "TO" (by decide) (by decide),
    pasted dst, keyword "CLONE" (by decide) (by decide)]

theorem deletePieces_text (path : Bytes) :
    Quoting.joined ' ' ((deletePieces path).map Quoting.Piece.text) = deleteLine path := by
  have htexts : (deletePieces path).map Quoting.Piece.text =
      ["Delete".toList, '"' :: (cChars path ++ ['"']), "ALL".toList, "QUIET".toList] :=
    congrArg (fun text => ["Delete".toList, text, "ALL".toList, "QUIET".toList]) (pasted_text path)
  rw [htexts]
  unfold deleteLine
  simp [Quoting.joined]

theorem copyPieces_text (src dst : Bytes) :
    Quoting.joined ' ' ((copyPieces src dst).map Quoting.Piece.text) = copyLine src dst := by
  have htexts : (copyPieces src dst).map Quoting.Piece.text =
      ["Copy".toList, '"' :: (cChars src ++ ['"']), "TO".toList, '"' :: (cChars dst ++ ['"']),
        "CLONE".toList] :=
    congrArg₂ (fun s d => ["Copy".toList, s, "TO".toList, d, "CLONE".toList])
      (pasted_text src) (pasted_text dst)
  rw [htexts]
  unfold copyLine
  simp [Quoting.joined]

/-- The words that `fs_delete` means. -/
def deleteWords (path : Bytes) : List CString :=
  ["Delete".toList, cChars path, "ALL".toList, "QUIET".toList]

/-- The words that `fs_copy` means. -/
def copyWords (src dst : Bytes) : List CString :=
  ["Copy".toList, cChars src, "TO".toList, cChars dst, "CLONE".toList]

theorem deleteLine_words_iff (path : Bytes) :
    amigaDos.tokens (deleteLine path) = deleteWords path ↔ Kept path := by
  have hpieces := @Quoting.tokens_joined_iff _ _ amigaDos ' ' rfl (deletePieces path)
  rw [deletePieces_text] at hpieces
  refine hpieces.trans ?_
  simp only [deletePieces, List.forall_mem_cons, keyword_reads, pasted_reads, List.not_mem_nil,
    false_implies, implies_true, true_and, and_true]

theorem copyLine_words_iff (src dst : Bytes) :
    amigaDos.tokens (copyLine src dst) = copyWords src dst ↔ Kept src ∧ Kept dst := by
  have hpieces := @Quoting.tokens_joined_iff _ _ amigaDos ' ' rfl (copyPieces src dst)
  rw [copyPieces_text] at hpieces
  refine hpieces.trans ?_
  simp only [copyPieces, List.forall_mem_cons, keyword_reads, pasted_reads, List.not_mem_nil,
    false_implies, implies_true, true_and, and_true]

/-! ## The lines that are run -/

/-- A line that fits is run, once. -/
theorem shellOut_fits (dos : ShellDos) {line : CString} (hfits : line.length < cmdSize)
    (timeout : Nat) (tooLong lost failed : String) (named : List (Bytes × CJson))
    (reply : Bytes → CJson) :
    (shellOut dos line timeout tooLong lost failed named reply).1 = [line] := by
  unfold shellOut
  rw [if_neg (Nat.not_le_of_lt hfits)]
  split
  · rfl
  · split
    · rfl
    · rfl

theorem fsDelete_runs (dos : ShellDos) {params : Option CJson} {path : Bytes}
    (hpath : pStr params "path" = .ok path) (hrecursive : isRecursive params = true)
    (hfits : (deleteLine path).length < cmdSize) :
    (fsDelete dos params).1 = [deleteLine path] := by
  unfold fsDelete
  rw [hpath]
  dsimp only
  rw [if_pos hrecursive]
  exact shellOut_fits dos hfits _ _ _ _ _ _

theorem fsCopy_runs (dos : ShellDos) {params : Option CJson} {src dst : Bytes}
    (hsrc : pStr params "src" = .ok src) (hdst : pStr params "dst" = .ok dst)
    (hfits : (copyLine src dst).length < cmdSize) :
    (fsCopy dos params).1 = [copyLine src dst] := by
  unfold fsCopy
  rw [hsrc, hdst]
  exact shellOut_fits dos hfits _ _ _ _ _ _

/-- Both handlers run one line for the paths they accept, and the shell reads the
words that are meant exactly if the paths are kept between the quotes. -/
theorem words_iff (dos : ShellDos) (params : Option CJson) :
    (∀ path, pStr params "path" = .ok path → isRecursive params = true →
      (deleteLine path).length < cmdSize →
      ∃ cmd, (fsDelete dos params).1 = [cmd] ∧
        (amigaDos.tokens cmd = deleteWords path ↔ Kept path)) ∧
    (∀ src dst, pStr params "src" = .ok src → pStr params "dst" = .ok dst →
      (copyLine src dst).length < cmdSize →
      ∃ cmd, (fsCopy dos params).1 = [cmd] ∧
        (amigaDos.tokens cmd = copyWords src dst ↔ Kept src ∧ Kept dst)) := by
  apply And.intro
  · intro path hpath hrecursive hfits
    exact ⟨_, fsDelete_runs dos hpath hrecursive hfits, deleteLine_words_iff path⟩
  · intro src dst hsrc hdst hfits
    exact ⟨_, fsCopy_runs dos hsrc hdst hfits, copyLine_words_iff src dst⟩

/-- A machine on which every command succeeds. -/
def quietDos : ShellDos where
  delete _ := none
  run _ _ := some (0, [])

/-- The parameters of a recursive `fs_delete`. -/
def deleteParams (path : String) : CJson :=
  .object [(ascii "path", cString path), (ascii "recursive", .bool true)]

def copyParams (src dst : String) : CJson :=
  .object [(ascii "src", cString src), (ascii "dst", cString dst)]

theorem words_sample :
    (∃ cmd, (fsDelete quietDos (some (deleteParams "RAM:my files"))).1 = [cmd] ∧
      (amigaDos.tokens cmd = deleteWords (ascii "RAM:my files") ↔ Kept (ascii "RAM:my files"))) ∧
    (∃ cmd, (fsCopy quietDos (some (copyParams "S:a b" "T:"))).1 = [cmd] ∧
      (amigaDos.tokens cmd = copyWords (ascii "S:a b") (ascii "T:") ↔
        Kept (ascii "S:a b") ∧ Kept (ascii "T:"))) :=
  ⟨(words_iff quietDos (some (deleteParams "RAM:my files"))).1 _ rfl rfl (by decide),
    (words_iff quietDos (some (copyParams "S:a b" "T:"))).2 _ _ rfl rfl (by decide)⟩

/-- A quote in the path ends the word, and `Delete` is given a second path. -/
theorem delete_second_path :
    (fsDelete quietDos (some (deleteParams "RAM:x\" \"SYS:"))).1 =
      [deleteLine (ascii "RAM:x\" \"SYS:")] ∧
    amigaDos.tokens (deleteLine (ascii "RAM:x\" \"SYS:")) =
      ["Delete".toList, "RAM:x".toList, "SYS:".toList, "ALL".toList, "QUIET".toList] ∧
    amigaDos.tokens (deleteLine (ascii "RAM:x\" \"SYS:")) ≠
      deleteWords (ascii "RAM:x\" \"SYS:") :=
  ⟨rfl, by decide, by decide⟩

/-- Quoted as the arguments of exec.cmd are, every path is read back. -/
theorem quoteArg_words (path src dst : Bytes) :
    amigaDos.tokens (line "Delete".toList [cChars path, "ALL".toList, "QUIET".toList]) =
      deleteWords path ∧
    amigaDos.tokens (line "Copy".toList [cChars src, "TO".toList, cChars dst, "CLONE".toList]) =
      copyWords src dst :=
  ⟨Exec.tokens_line (bare_of_letters (by decide) (by decide)) _,
    Exec.tokens_line (bare_of_letters (by decide) (by decide)) _⟩

end AmigaFleet.Mcpd.Fs
