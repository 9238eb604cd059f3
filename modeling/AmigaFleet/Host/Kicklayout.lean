import AmigaFleet.Host.PyStr

/-!
# The kicklayout text engine

`installer/kicklayout.py`: blocks of lines, separated by blank lines, into
which `MODULE` lines are put.  A pattern of the `re` module is written out as
the search that it stands for.  `alnum` tells which characters outside ASCII
are letters or digits.
-/

namespace AmigaFleet.Host.Kicklayout

open AmigaFleet.Host.PyStr

variable (alnum : Char → Bool)

/-! ## Blocks -/

/-- `_block_is_config` -/
def blockIsConfig (blockLines : List (List Char)) : Bool :=
  blockLines.any fun ln =>
    let s := ln.dropWhile isSpace
    let up := upper s
    !(s.head? = some ';' || s = []) &&
      ("LABEL".toList.isPrefixOf up || "EXEC".toList.isPrefixOf up)

/-- A character of a word, `\w`. -/
def isWord (c : Char) : Bool := c = '_' || if c.toNat < 128 then c.isAlphanum else alnum c

/-- `\b` between a character and what follows it. -/
def wordBoundary (prev : Char) (rest : List Char) : Bool :=
  isWord alnum prev != rest.head?.any (isWord alnum)

/-- `.*` and `tail` and `\b`, behind the character `prev`. -/
def searchTail (tail : List Char) (prev : Char) : List Char → Bool
  | [] => tail = [] && wordBoundary alnum prev []
  | c :: rest =>
    (tail.isPrefixOf (c :: rest) &&
        wordBoundary alnum (tail.getLast?.getD prev) ((c :: rest).drop tail.length)) ||
      (c ≠ '\n' && searchTail tail c rest)

/-- `^\s*MODULE\b.*tail\b` -/
def moduleLine (tail ln : List Char) : Bool :=
  let s := ln.dropWhile isSpace
  "MODULE".toList.isPrefixOf s &&
    (wordBoundary alnum 'E' (s.drop 6) && searchTail alnum tail 'E' (s.drop 6))

/-- `_block_has_module` -/
def blockHasModule (blockLines : List (List Char)) (moduleName : List Char) : Bool :=
  let tail := (split '/' moduleName).getLast?.getD []
  blockLines.any (moduleLine alnum tail)

/-- `flush_block` -/
def flushBlock (modules : List (List Char)) (label : List Char) (block : List (List Char)) :
    List (List Char) :=
  if blockIsConfig block then
    let missing := modules.filter fun m => !blockHasModule alnum block m
    if missing = [] then block
    else block ++ ";\n".toList :: ("; ".toList ++ label ++ "\n".toList) ::
      missing.map fun m => "MODULE ".toList ++ m ++ "\n".toList
  else block

/-- The loop of `add_modules`; `block` holds the lines since `block_start`. -/
def addModulesLoop (modules : List (List Char)) (label : List Char) (block : List (List Char)) :
    List (List Char) → List (List Char)
  | [] => if block = [] then [] else flushBlock alnum modules label block
  | ln :: lines =>
    if strip ln = [] then
      (if block = [] then [] else flushBlock alnum modules label block) ++
        ln :: addModulesLoop modules label [] lines
    else addModulesLoop modules label (block ++ [ln]) lines

/-- `add_modules` -/
def addModules (text : List Char) (modules : List (List Char)) (label : List Char) : List Char :=
  if modules = [] then text
  else (addModulesLoop alnum modules label [] (splitLines text)).flatten

/-! ## Patches -/

structure ModulesPatch where
  modules : List (List Char)
  label : List Char
deriving DecidableEq, Repr

structure TextPatch where
  old : List Char
  new : List Char
deriving DecidableEq, Repr

structure Replacement where
  old : List Char
  new : List Char
  count : Nat
deriving DecidableEq, Repr

/-- `summary` -/
structure Summary where
  modulesAdded : Int := 0
  labelsApplied : List (List Char) := []
  replacementsDone : Nat := 0
  replacements : List Replacement := []
  changed : Bool := false
deriving DecidableEq, Repr

def applyModulesPatch (acc : List Char × Summary) (p : ModulesPatch) : List Char × Summary :=
  let before := acc.1
  let newText := addModules alnum before p.modules p.label
  if newText ≠ before then
    (newText, { acc.2 with
      labelsApplied := acc.2.labelsApplied ++ [p.label]
      modulesAdded := acc.2.modulesAdded +
        (count "\nMODULE ".toList newText - count "\nMODULE ".toList before : Int) })
  else (newText, acc.2)

def applyTextPatch (acc : List Char × Summary) (p : TextPatch) : List Char × Summary :=
  let before := acc.1
  let newText := replace p.old p.new before
  if newText ≠ before then
    let n := count p.old before
    (newText, { acc.2 with
      replacementsDone := acc.2.replacementsDone + n
      replacements := acc.2.replacements ++ [⟨p.old, p.new, n⟩] })
  else (newText, acc.2)

/-- `apply_patches` -/
def applyPatches (text : List Char) (addModulesPatches : List ModulesPatch)
    (replaceTextPatches : List TextPatch) : List Char × Summary :=
  let added := addModulesPatches.foldl (applyModulesPatch alnum) (text, {})
  let replaced := replaceTextPatches.foldl applyTextPatch added
  (replaced.1, { replaced.2 with changed := replaced.1 ≠ text })

end AmigaFleet.Host.Kicklayout
