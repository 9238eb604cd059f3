import AmigaFleet.Host.KicklayoutPatch
import AmigaFleet.Host.StartupSteps
import AmigaFleet.Mcpd.B64

/-!
# What the startup files hold after a step

Every request of a step may fail.  A request that is answered has done what it
asks for; a write that fails has left the file as it was or has stored the
first bytes of what was to be written, for `fs_write` of the daemon opens the
file anew before it writes.

* `contentAfter` follows the content of a file through a run; a file that is
  not there has no content.
* `appends_step`: a step makes one write to its file at most, of the old
  content with the lines behind it if it knows the old content.
* `keepsContent_iff`: when the old content survives.
-/

namespace AmigaFleet.Host.Installer

open AmigaFleet.Lib
open AmigaFleet.Mcpd (ascii)
open AmigaFleet.Host.PyStr

/-! ## Files -/

/-- What a request writes to the file at `path`. -/
def storedBytes (path : List Char) (r : Request) : Option Bytes :=
  if r.method = "fs.write" ∧ r.params.head? = some ("path", .str path) then
    match r.params.tail with
    | [(_, .str text)] => Mcpd.B64.b64Decode (asciiBytes text)
    | _ => none
  else none

/-- The content of the file after a request; `cut` is how many bytes a write that
failed has stored, and `none` if it has not opened the file. -/
def afterEvent (cut : Request → Raised → Option Nat) (path : List Char) (content : Bytes)
    (ev : Event) : Bytes :=
  match storedBytes path ev.1, ev.2 with
  | none, _ => content
  | some w, .ok _ => w
  | some w, .error e => (cut ev.1 e).elim content w.take

def contentAfter (cut : Request → Raised → Option Nat) (path : List Char) (content : Bytes)
    (events : List Event) : Bytes :=
  events.foldl (afterEvent cut path) content

/-- A read that is answered gives what the file holds. -/
def ReadsTruly (world : World) (cut : Request → Raised → Option Nat) (t : Mcpd) (path : List Char)
    (old : Bytes) : Prop :=
  ∀ h raw, world h (readRequest t path) = .ok raw → (∃ members, raw = .dict members) ∧
    raw.get "content_b64" = some (.str (Base64.encode (contentAfter cut path old h)))

/-! ## The two steps -/

inductive StartupStep where
  | serialShell
  | mcpd
deriving DecidableEq, Repr

def StartupStep.step (py : PyText) : StartupStep → Step
  | .serialShell => installSerialShell py
  | .mcpd => installMcpd py

/-- The startup file that the step edits. -/
def StartupStep.file (dest : List Char) : StartupStep → List Char
  | .serialShell => dest ++ "S/User-Startup".toList
  | .mcpd => dest ++ "S/Network-Startup".toList

/-- The lines that the step appends. -/
def StartupStep.block : StartupStep → List Char
  | .serialShell => serialShellBlock
  | .mcpd => mcpdBlock

/-- The old content with the lines behind it. -/
def StartupStep.appended (k : StartupStep) (old : Bytes) : Bytes :=
  old ++ (if old ≠ [] ∧ old.getLast? ≠ some 10 then [10] else []) ++ asciiBytes k.block

/-- The copy of the file that `install_mcpd` makes. -/
def backupRequest (t : Mcpd) (path : List Char) : Request :=
  ⟨t, "fs.copy", [("src", .str path), ("dst", .str (path ++ ".before-mcpd".toList))], none⟩

/-- The step has the old content: the read was answered and, for `install_mcpd`, the
backup did not fail. -/
def StartupStep.Knows (k : StartupStep) (t : Mcpd) (path : List Char)
    (events : List Event) : Prop :=
  (∃ raw, (readRequest t path, .ok raw) ∈ events) ∧
    (k = .mcpd → ∀ e, (backupRequest t path, .error e) ∉ events)

/-- After the step the file holds its old content, or that with the lines behind it. -/
def KeepsContent (py : PyText) (world : World) (cut : Request → Raised → Option Nat) (ctx : Ctx)
    (dest : List Char) (k : StartupStep) (old : Bytes) : Prop :=
  let content := contentAfter cut (k.file dest) old (Prog.exec world ((k.step py).fn ctx) []).2
  content = old ∨ content = k.appended old

/-- The condition on the answers of the run. -/
def Survives (py : PyText) (world : World) (cut : Request → Raised → Option Nat) (ctx : Ctx)
    (t : Mcpd) (dest : List Char) (k : StartupStep) (old : Bytes) : Prop :=
  let events := (Prog.exec world ((k.step py).fn ctx) []).2
  ∀ ev ∈ events, (storedBytes (k.file dest) ev.1).isSome →
    match ev.2 with
    | .ok _ => k.Knows t (k.file dest) events ∨ old = [] ∨ old = asciiBytes k.block
    | .error e => ∀ n, cut ev.1 e = some n →
      (k.Knows t (k.file dest) events ∧ (n = old.length ∨ (k.appended old).length ≤ n)) ∨
        (¬ k.Knows t (k.file dest) events ∧
          (old = (asciiBytes k.block).take n ∨ old = [] ∧ (asciiBytes k.block).length ≤ n))

/-! ## Requests that leave the file -/

/-- A request that neither reads a file, nor writes to the one at `path` or to its backup. -/
def Quiet (path : List Char) (r : Request) : Prop :=
  r.method ≠ "fs.read" ∧ storedBytes path r = none ∧
    ∀ t, r ≠ backupRequest t path

def AllQuiet (path : List Char) (events : List Event) : Prop := ∀ ev ∈ events, Quiet path ev.1

theorem quiet_of_method {path : List Char} {r : Request}
    (h : r.method ≠ "fs.read" ∧ r.method ≠ "fs.write" ∧ r.method ≠ "fs.copy") : Quiet path r := by
  refine ⟨h.1, if_neg fun hwrite => h.2.1 hwrite.1, fun t heq => h.2.2 ?_⟩
  rw [heq]
  rfl

theorem quiet_copy {path src dst : List Char} {t : Mcpd}
    (hdst : dst ≠ path ++ ".before-mcpd".toList) :
    Quiet path ⟨t, "fs.copy", [("src", .str src), ("dst", .str dst)], none⟩ := by
  refine ⟨by simp, if_neg (by simp), fun t' heq => hdst ?_⟩
  cases heq
  rfl

theorem quiet_write {path other : List Char} {t : Mcpd} {content : Param} {timeoutS : Option Nat}
    (hother : other ≠ path) :
    Quiet path ⟨t, "fs.write", [("path", .str other), ("content_b64", content)], timeoutS⟩ := by
  refine ⟨by simp, if_neg ?_, fun t' heq => ?_⟩
  · rintro ⟨-, hhead⟩
    cases hhead
    exact hother rfl
  · have hmethod := congrArg Request.method heq
    simp [backupRequest] at hmethod

section

variable {py : PyText} {world : World} {path : List Char} {t : Mcpd} {β : Type}

theorem quiet_pathRequest {method : String} (hmethod : method ≠ "fs.read" ∧ method ≠ "fs.write" ∧
    method ≠ "fs.copy") (p : List Char) (timeoutS : Option Nat) :
    (pathRequest t method p timeoutS).Makes (Quiet path) := makes_send (quiet_of_method hmethod)

theorem quiet_stat (p : List Char) (timeoutS : Option Nat) :
    (pathRequest t "fs.stat" p timeoutS).Makes (Quiet path) :=
      quiet_pathRequest (by simp) p timeoutS

theorem quiet_execCmd (command : List Char) (timeoutMs : Int) (timeoutS : Nat) :
    (execCmd t command timeoutMs timeoutS).Makes (Quiet path) :=
  makes_send (quiet_of_method (by simp [execRequest]))

theorem quiet_isStaged (p : List Char) : (isStaged t p).Makes (Quiet path) :=
  makes_tryExcept ((quiet_stat p none).bind fun _ => Prog.makes_return true) fun _ _ =>
    Prog.makes_return false

theorem quiet_amigaMakedir (p : List Char) : (amigaMakedir py t p).Makes (Quiet path) := by
  unfold amigaMakedir
  dsimp only
  split
  · exact Prog.makes_return ()
  · refine (quiet_stat _ none).attempt.bind ?_
    rintro ((⟨cls, message⟩ | _) | b)
    · refine (quiet_pathRequest (by simp) _ none).attempt.bind ?_
      rintro ((⟨cls, message⟩ | _) | b)
      · refine (quiet_execCmd _ _ _).bind fun raw => makes_tryExcept
          ((quiet_stat _ none).bind fun _ => Prog.makes_return ()) fun _ _ => ?_
        exact (makes_getItem _ _ _).bind fun rc => (makes_getItem _ _ _).bind fun out =>
          Prog.makes_raise _
      · exact Prog.makes_raise _
      · exact Prog.makes_return ()
    · exact Prog.makes_raise _
    · exact Prog.makes_return ()

theorem quiet_copyOrClone {src dst : List Char} (hdst : dst ≠ path ++ ".before-mcpd".toList)
    (timeoutMs : Int) (timeoutS : Nat) :
    (copyOrClone t src dst timeoutMs timeoutS).Makes (Quiet path) :=
  makes_tryExcept (Prog.Makes.bind (makes_send (quiet_copy hdst)) fun _ => Prog.makes_return ())
    fun _ _ => (quiet_execCmd _ _ _).bind fun _ => Prog.makes_return ()

theorem quiet_protectFile (p : List Char) : (protectFile t p).Makes (Quiet path) :=
  (quiet_execCmd _ _ _).bind fun _ => Prog.makes_return ()

theorem quiet_writeText {other : List Char} (hother : other ≠ path) (text : List Char)
    (timeoutS : Nat) : (writeText py t other text timeoutS).Makes (Quiet path) :=
  (makes_encodeAscii text).bind fun _ => Prog.Makes.bind (makes_send (quiet_write hother)) fun _ =>
    Prog.makes_return ()

theorem quiet_captureMtime (p : List Char) : (captureMtime t p).Makes (Quiet path) :=
  makes_tryExcept ((quiet_stat p _).bind fun _ => Prog.makes_return _) fun _ _ =>
    Prog.makes_return _

theorem quiet_restoreMtime (p : List Char) (original : Json) :
    (restoreMtime py t p original).Makes (Quiet path) := by
  unfold restoreMtime restoreDate
  split
  · split
    · split
      · exact makes_guarded (quiet_execCmd _ _ _)
      · exact Prog.makes_return ()
    · exact makes_raisePy _ _
  · exact Prog.makes_return ()

theorem quiet_installHelper {dest helper : List Char}
    (hdst : dest ++ "System/MCPd/".toList ++ helper ≠ path ++ ".before-mcpd".toList) :
    (installHelper t dest helper).Makes (Quiet path) := by
  refine (quiet_isStaged _).bind fun staged => ?_
  split
  · exact (quiet_copyOrClone hdst _ _).bind fun _ => (quiet_protectFile _).bind fun _ =>
      Prog.makes_return _
  · exact Prog.makes_return []

/-! ## One write -/

/-- A run that writes to the file once at most, and then of the old content with the
lines behind it if it knows that, and of the lines alone if not. -/
def Appends (k : StartupStep) (t : Mcpd) (path : List Char) (old : Bytes) (events : List Event) :
    Prop :=
  (∀ ev ∈ events, storedBytes path ev.1 = none) ∨
    ∃ front r ans back w, events = front ++ (r, ans) :: back ∧ storedBytes path r = some w ∧
      (∀ ev ∈ front ++ back, storedBytes path ev.1 = none) ∧
      (k.Knows t path events ∧ w = k.appended old ∨
        ¬ k.Knows t path events ∧ w = asciiBytes k.block)

theorem contentAfter_none (cut : Request → Raised → Option Nat) {events : List Event}
    (h : ∀ ev ∈ events, storedBytes path ev.1 = none) (content : Bytes) :
    contentAfter cut path content events = content := by
  induction events with
  | nil => rfl
  | cons ev events ih =>
    obtain ⟨hev, hrest⟩ := List.forall_mem_cons.mp h
    have hsame : afterEvent cut path content ev = content := by
      unfold afterEvent
      rw [hev]
    rw [contentAfter, List.foldl_cons, hsame]
    exact ih hrest

theorem AllQuiet.none {events : List Event} (h : AllQuiet path events) :
    ∀ ev ∈ events, storedBytes path ev.1 = none := fun ev hev => (h ev hev).2.1

theorem knows_append {k : StartupStep} {front events : List Event} (h : AllQuiet path front) :
    k.Knows t path (front ++ events) ↔ k.Knows t path events := by
  have hread : ∀ raw, (readRequest t path, .ok raw) ∉ front := fun raw hmem => (h _ hmem).1 rfl
  have hcopy : ∀ e, (backupRequest t path, .error e) ∉ front := fun e hmem => (h _ hmem).2.2 t rfl
  simp only [StartupStep.Knows, List.mem_append, hread, hcopy, false_or]

theorem knows_append_right {k : StartupStep} {events back : List Event} (h : AllQuiet path back) :
    k.Knows t path (events ++ back) ↔ k.Knows t path events := by
  have hread : ∀ raw, (readRequest t path, .ok raw) ∉ back := fun raw hmem => (h _ hmem).1 rfl
  have hcopy : ∀ e, (backupRequest t path, .error e) ∉ back := fun e hmem => (h _ hmem).2.2 t rfl
  simp only [StartupStep.Knows, List.mem_append, hread, hcopy, or_false]

theorem AllQuiet.appends {k : StartupStep} {old : Bytes} {events : List Event}
    (h : AllQuiet path events) : Appends k t path old events := Or.inl h.none

theorem Appends.append {k : StartupStep} {old : Bytes} {front events : List Event}
    (hfront : AllQuiet path front) (h : Appends k t path old events) :
    Appends k t path old (front ++ events) := by
  rcases h with hnone | ⟨before, r, ans, back, w, rfl, hw, hnone, hknows⟩
  · exact Or.inl (List.forall_mem_append.mpr ⟨hfront.none, hnone⟩)
  · refine Or.inr ⟨front ++ before, r, ans, back, w, by simp, hw, ?_, ?_⟩
    · rw [List.append_assoc]
      exact List.forall_mem_append.mpr ⟨hfront.none, hnone⟩
    · rwa [knows_append hfront]

/-- What comes in front of the edit leaves the file. -/
theorem appends_bind {γ : Type} {k : StartupStep} {old : Bytes} {p : Install γ} {f : γ → Install β}
    {h : List Event} (hp : p.Makes (Quiet path)) (hh : AllQuiet path h)
    (hf : ∀ b h', AllQuiet path h' → Appends k t path old (Prog.exec world (f b) h').2) :
    Appends k t path old (Prog.exec world (p >>= f) h).2 := by
  have hquiet : AllQuiet path (Prog.exec world p h).2 := hp.events h
  rcases hrun : Prog.exec world p h with ⟨e | b, es⟩
  · rw [Prog.exec_bind_error hrun]
    rw [hrun] at hquiet
    exact hquiet.appends
  · rw [Prog.exec_bind_ok hrun]
    rw [hrun] at hquiet
    exact Appends.append hquiet (hf b (h ++ es) (List.forall_mem_append.mpr ⟨hh, hquiet⟩))

/-- The read of the file: what it gives, and what is asked. -/
theorem exec_readExisting (py : PyText) {cut : Request → Raised → Option Nat} {old : Bytes}
    (htruth : ReadsTruly world cut t path old) {h : List Event} (hh : AllQuiet path h) :
    (∃ raw, Prog.exec world (readExisting py t path) h =
        (.ok (decodeAscii old), [(readRequest t path, .ok raw)])) ∨
      (∃ e, Prog.exec world (readExisting py t path) h =
        (.ok [], [(readRequest t path, .error e)])) ∨
        ∃ e, Prog.exec world (readExisting py t path) h =
          (.error e, [(readRequest t path, .error e)]) := by
  have hrun : ∀ ans, world h (readRequest t path) = ans →
      Prog.exec world (readExisting py t path) h = _ := fun ans hans => by
    simp only [readExisting, tryExcept, pathRequest, request, send, Prog.call_bind, Prog.attempt,
      Prog.exec]
    rw [show world h ⟨t, "fs.read", [("path", .str path)], none⟩ = ans from hans]
  cases hans : world h (readRequest t path) with
  | ok raw =>
    obtain ⟨⟨members, rfl⟩, hcontent⟩ := htruth h raw hans
    rw [contentAfter_none cut hh.none] at hcontent
    refine Or.inl ⟨.dict members, ?_⟩
    rw [hrun _ hans]
    simp only [Prog.pure_bind, getItem, hcontent, Option.getD_some, decodeB64_encode]
    rfl
  | error e =>
    rw [hrun _ hans]
    cases e with
    | exception cls message => exact Or.inr (Or.inl ⟨_, rfl⟩)
    | cancelled => exact Or.inr (Or.inr ⟨_, rfl⟩)

theorem storedBytes_writeText (w : Bytes) (timeoutS : Nat) :
    storedBytes path ⟨t, "fs.write", [("path", .str path),
      ("content_b64", .str ((Base64.encode w).map fun c => Char.ofNat c.toNat))], some timeoutS⟩ =
        some w := by
  have hplain : ∀ c ∈ Base64.encode w, c < 128 := by
    intro c hc
    rw [UInt8.lt_iff_toNat_lt]
    exact Nat.lt_trans (Base64.encode_text w c hc).plain.2.1 (by decide)
  have htext : ((Base64.encode w).map fun c => Char.ofNat c.toNat) =
    decodeAscii (Base64.encode w) :=
    List.map_congr_left fun c hc => by rw [if_pos (hplain c hc)]
  rw [storedBytes, if_pos ⟨rfl, rfl⟩, htext]
  show Mcpd.B64.b64Decode (asciiBytes (decodeAscii (Base64.encode w))) = some w
  rw [asciiBytes_decodeAscii hplain, Mcpd.B64.b64Decode_encode]

/-- What the step does once it has its text. -/
theorem exec_write (py : PyText) {text : List Char} {timeoutS : Nat} {f : Install β}
    (hf : f.Makes (Quiet path)) (h : List Event) :
    (Prog.exec world (writeText py t path text timeoutS >>= fun _ => f) h).2 = [] ∨
      ∃ r ans back, (Prog.exec world (writeText py t path text timeoutS >>= fun _ => f) h).2 =
          (r, ans) :: back ∧ storedBytes path r = some (asciiBytes text) ∧ AllQuiet path back ∧
        ∀ c ∈ text, c.toNat < 128 := by
  cases hall : text.all (·.toNat < 128) with
  | false =>
    left
    have hwrite : writeText py t path text timeoutS = raisePy py "UnicodeEncodeError" .null := by
      rw [writeText, encodeAscii, hall]
      rfl
    rw [hwrite]
    rfl
  | true =>
    right
    have hascii : ∀ c ∈ text, c.toNat < 128 :=
      fun c hc => of_decide_eq_true (List.all_eq_true.mp hall c hc)
    simp only [writeText, encodeAscii, hall, if_true, Prog.return_bind, request, send,
      Prog.call_bind, Prog.exec]
    refine ⟨_, _, _, rfl, storedBytes_writeText (asciiBytes text) timeoutS, ?_, hascii⟩
    cases world h _ with
    | ok raw => exact hf.events _
    | error e => exact fun ev hev => absurd hev List.not_mem_nil

/-- The new text as bytes. -/
theorem asciiBytes_withBlock {k : StartupStep} {old : Bytes}
    (h : ∀ c ∈ withBlock (decodeAscii old) k.block, c.toNat < 128) :
    asciiBytes (withBlock (decodeAscii old) k.block) = k.appended old := by
  have hold : ∀ b ∈ old, b < 128 := by
    refine ascii_decodeAscii.mp fun c hc => h c (List.mem_append_left _ ?_)
    split
    · exact List.mem_append_left _ hc
    · exact hc
  have hempty : decodeAscii old = [] ↔ old = [] := List.map_eq_nil_iff
  have hlast : (decodeAscii old).getLast? = some '\n' ↔ old.getLast? = some 10 := by
    rw [decodeAscii, List.getLast?_map]
    cases hend : old.getLast? with
    | none => simp
    | some b =>
      have hlt : b.toNat < 128 := UInt8.lt_iff_toNat_lt.mp (hold b (List.mem_of_getLast? hend))
      rw [Option.map_some, if_pos (hold b (List.mem_of_getLast? hend)), Option.some_inj,
        Option.some_inj, ← UInt8.toNat_inj]
      constructor
      · intro heq
        have hnat := congrArg Char.toNat heq
        rwa [toNat_ofNat_ascii hlt] at hnat
      · intro heq
        rw [heq]
        rfl
  have hbytes := asciiBytes_decodeAscii hold
  unfold withBlock StartupStep.appended
  rw [asciiBytes, List.map_append, ← asciiBytes, ← asciiBytes]
  simp only [ne_eq, hempty, hlast]
  split
  · rw [asciiBytes, List.map_append, ← asciiBytes, hbytes]
    rfl
  · rw [hbytes, List.append_nil]

/-- The write of the text that is the right one for what is known in front of it. -/
theorem appends_write {k : StartupStep} {old : Bytes} {front : List Event} {text : List Char}
    {timeoutS : Nat} {f : Install β} (hfront : ∀ ev ∈ front, storedBytes path ev.1 = none)
    (htext : k.Knows t path front ∧ text = withBlock (decodeAscii old) k.block ∨
      ¬ k.Knows t path front ∧ text = k.block)
    (hf : f.Makes (Quiet path)) (h : List Event) :
    Appends k t path old
      (front ++ (Prog.exec world (writeText py t path text timeoutS >>= fun _ => f) h).2) := by
  rcases exec_write py (t := t) hf h with
    hnil | ⟨r, ans, back, hevents, hstored, hback, hascii⟩
  · rw [hnil, List.append_nil]
    exact Or.inl hfront
  · rw [hevents]
    have hread : ∀ a : Except Raised Json, (readRequest t path, a) ≠ (r, ans) := by
      intro a heq
      obtain ⟨rfl, -⟩ := Prod.mk.inj heq
      cases hstored
    have hcopy : ∀ a : Except Raised Json, (backupRequest t path, a) ≠ (r, ans) := by
      intro a heq
      obtain ⟨rfl, -⟩ := Prod.mk.inj heq
      cases hstored
    have hknows : k.Knows t path (front ++ (r, ans) :: back) ↔ k.Knows t path front := by
      rw [List.append_cons, knows_append_right hback]
      simp [StartupStep.Knows, hread, hcopy]
    refine Or.inr ⟨front, r, ans, back, _, rfl, hstored,
      List.forall_mem_append.mpr ⟨hfront, hback.none⟩, ?_⟩
    rw [hknows]
    refine htext.imp (fun hright => ⟨hright.1, ?_⟩) fun halone => ⟨halone.1, by rw [halone.2]⟩
    rw [hright.2] at hascii ⊢
    exact asciiBytes_withBlock hascii

theorem storedBytes_read : storedBytes path (readRequest t path) = none := rfl

theorem withBlock_nil (block : List Char) : withBlock [] block = block := rfl

/-- The edit of `S:User-Startup`. -/
theorem appends_serialShell {cut : Request → Raised → Option Nat} {dest : List Char} {old : Bytes}
    (htruth : ReadsTruly world cut t (dest ++ "S/User-Startup".toList) old) {h : List Event}
    (hh : AllQuiet (dest ++ "S/User-Startup".toList) h) :
    Appends .serialShell t (dest ++ "S/User-Startup".toList) old
      (Prog.exec world (appendSerialShell py t dest) h).2 := by
  refine appends_bind (quiet_captureMtime _) hh fun orig h hh => ?_
  rcases exec_readExisting py htruth hh with ⟨raw, hrun⟩ | ⟨e, hrun⟩ | ⟨e, hrun⟩
  · rw [Prog.exec_bind_ok hrun]
    split
    · exact Or.inl (List.forall_mem_append.mpr ⟨by simp [storedBytes_read], by simp⟩)
    · refine appends_write (by simp [storedBytes_read]) (Or.inl ⟨⟨⟨raw, by simp⟩, ?_⟩, rfl⟩)
        ((quiet_restoreMtime _ _).bind fun _ => Prog.makes_return _) _
      exact fun hk => by cases hk
  · rw [Prog.exec_bind_ok hrun]
    split
    · exact Or.inl (List.forall_mem_append.mpr ⟨by simp [storedBytes_read], by simp⟩)
    · refine appends_write (by simp [storedBytes_read]) (Or.inr ⟨?_, withBlock_nil _⟩)
        ((quiet_restoreMtime _ _).bind fun _ => Prog.makes_return _) _
      rintro ⟨⟨raw, hmem⟩, -⟩
      simp at hmem
  · rw [Prog.exec_bind_error hrun]
    exact Or.inl (by simp [storedBytes_read])

/-- The copy of the file, in its `try`. -/
theorem exec_copyStartup (world : World) (t : Mcpd) (path existing : List Char) (h : List Event) :
    Prog.exec world (tryExcept (do
        let _ ← request t "fs.copy"
          [("src", .str path), ("dst", .str (path ++ ".before-mcpd".toList))]
        pure (existing, true)) fun _ _ => pure ([], false)) h =
      (match world h (backupRequest t path) with
        | .ok _ => .ok (existing, true)
        | .error (.exception ..) => .ok ([], false)
        | .error .cancelled => .error .cancelled,
        [(backupRequest t path, world h (backupRequest t path))]) := by
  simp only [tryExcept, request, send, Prog.call_bind, Prog.attempt, Prog.exec]
  generalize hans : world h ⟨t, "fs.copy",
    [("src", .str path), ("dst", .str (path ++ ".before-mcpd".toList))], none⟩ = ans
  rw [show world h (backupRequest t path) = ans from hans]
  rcases ans with (⟨cls, message⟩ | _) | raw
  · rfl
  · rfl
  · rfl

/-- The backup: the text stays as it is unless the copy fails. -/
theorem exec_backUpStartup (world : World) (t : Mcpd) (path existing : List Char) (h : List Event) :
    ∃ es, (∀ ev ∈ es, ev.1.method ≠ "fs.read" ∧ storedBytes path ev.1 = none) ∧
      ((∃ backedUp, Prog.exec world (backUpStartup t path existing) h =
        (.ok (existing, backedUp), es) ∧
          ∀ e, (backupRequest t path, .error e) ∉ es) ∨
        (Prog.exec world (backUpStartup t path existing) h = (.ok ([], false), es) ∧
          ∃ e, (backupRequest t path, .error e) ∈ es) ∨
        ∃ e, Prog.exec world (backUpStartup t path existing) h = (.error e, es)) := by
  have hstat : AllQuiet path
      (Prog.exec world (isStaged t (path ++ ".before-mcpd".toList)) h).2 :=
        (quiet_isStaged _).events h
  rcases hrun : Prog.exec world (isStaged t (path ++ ".before-mcpd".toList)) h with ⟨e | staged, es⟩
  · rw [hrun] at hstat
    exact ⟨es, fun ev hev => ⟨(hstat ev hev).1, (hstat ev hev).2.1⟩,
      Or.inr (Or.inr ⟨e, Prog.exec_bind_error hrun⟩)⟩
  rw [hrun] at hstat
  have hnone : ∀ e, (backupRequest t path, .error e) ∉ es := fun e hmem => (hstat _ hmem).2.2 t rfl
  have hrest : Prog.exec world (backUpStartup t path existing) h = _ := Prog.exec_bind_ok hrun
  cases staged with
  | true =>
    refine ⟨es, fun ev hev => ⟨(hstat ev hev).1, (hstat ev hev).2.1⟩, Or.inl ⟨false, ?_, hnone⟩⟩
    rw [hrest]
    simp
  | false =>
    have hcopy := exec_copyStartup world t path existing (h ++ es)
    refine ⟨es ++ [(backupRequest t path, world (h ++ es) (backupRequest t path))], ?_, ?_⟩
    · refine List.forall_mem_append.mpr
        ⟨fun ev hev => ⟨(hstat ev hev).1, (hstat ev hev).2.1⟩, ?_⟩
      rw [List.forall_mem_singleton]
      exact ⟨by simp [backupRequest], by simp [storedBytes, backupRequest]⟩
    · rw [hrest, if_neg Bool.false_ne_true, hcopy]
      rcases hans : world (h ++ es) (backupRequest t path) with (⟨cls, message⟩ | _) | raw
      · exact Or.inr (Or.inl ⟨rfl, _, List.mem_append_right _ List.mem_cons_self⟩)
      · exact Or.inr (Or.inr ⟨_, rfl⟩)
      · refine Or.inl ⟨true, rfl, fun e hmem => ?_⟩
        rcases List.mem_append.mp hmem with hmem | hmem
        · exact hnone e hmem
        · simp at hmem

/-- The backup and the write behind the read. -/
theorem appends_backedUp {ans : Except Raised Json} {existing : List Char} {old : Bytes}
    (hread : (∃ raw, ans = .ok raw) ∧ existing = decodeAscii old ∨
      (∃ e, ans = .error e) ∧ existing = [])
    {f : List Char × Bool → Install β} (hf : ∀ x, (f x).Makes (Quiet path)) (h : List Event) :
    Appends .mcpd t path old ((readRequest t path, ans) ::
      (Prog.exec world (backUpStartup t path existing >>= fun x =>
        writeText py t path (withBlock x.1 mcpdBlock) 60 >>= fun _ => f x) h).2) := by
  obtain ⟨es, hes, hcases⟩ := exec_backUpStartup world t path existing h
  have hfront : ∀ ev ∈ (readRequest t path, ans) :: es, storedBytes path ev.1 = none :=
    List.forall_mem_cons.mpr ⟨storedBytes_read, fun ev hev => (hes ev hev).2⟩
  have hanswered : (∃ raw, (readRequest t path, .ok raw) ∈ (readRequest t path, ans) :: es) ↔
      ∃ raw, ans = .ok raw := by
    refine exists_congr fun raw => ?_
    have habsent : (readRequest t path, .ok raw) ∉ es := fun hmem => (hes _ hmem).1 rfl
    simp [habsent, eq_comm]
  have hcopy : ∀ e, (backupRequest t path, .error e) ∈ (readRequest t path, ans) :: es ↔
      (backupRequest t path, .error e) ∈ es := by
    intro e
    have hne : (backupRequest t path, Except.error e) ≠ (readRequest t path, ans) := by
      simp [backupRequest, readRequest]
    simp [hne]
  rcases hcases with ⟨backedUp, hrun, hcopied⟩ | ⟨hrun, e, hfailed⟩ | ⟨e, hrun⟩
  · rw [Prog.exec_bind_ok hrun, ← List.cons_append]
    refine appends_write hfront ?_ (hf (existing, backedUp)) _
    rcases hread with ⟨hok, rfl⟩ | ⟨⟨e, rfl⟩, rfl⟩
    · exact Or.inl ⟨⟨hanswered.mpr hok, fun _ e hmem => hcopied e ((hcopy e).mp hmem)⟩, rfl⟩
    · refine Or.inr ⟨fun hknows => ?_, withBlock_nil _⟩
      obtain ⟨raw, hraw⟩ := hanswered.mp hknows.1
      cases hraw
  · rw [Prog.exec_bind_ok hrun, ← List.cons_append]
    refine appends_write hfront (Or.inr ⟨fun hknows => ?_, withBlock_nil _⟩) (hf ([], false)) _
    exact hknows.2 rfl e ((hcopy e).mpr hfailed)
  · rw [Prog.exec_bind_error hrun]
    exact Or.inl hfront

/-- The edit of `S:Network-Startup`. -/
theorem appends_mcpd {cut : Request → Raised → Option Nat} {dest : List Char} {old : Bytes}
    {helpers : List (List Char)}
    (htruth : ReadsTruly world cut t (dest ++ "S/Network-Startup".toList) old) {h : List Event}
    (hh : AllQuiet (dest ++ "S/Network-Startup".toList) h) :
    Appends .mcpd t (dest ++ "S/Network-Startup".toList) old
      (Prog.exec world (appendMcpd py t dest helpers) h).2 := by
  refine appends_bind (quiet_captureMtime _) hh fun orig h hh => ?_
  rcases exec_readExisting py htruth hh with ⟨raw, hrun⟩ | ⟨e, hrun⟩ | ⟨e, hrun⟩
  · rw [Prog.exec_bind_ok hrun]
    dsimp only [List.singleton_append]
    split
    · exact Or.inl (by simp [storedBytes_read])
    · apply appends_backedUp (Or.inl ⟨⟨raw, rfl⟩, rfl⟩)
      exact fun _ => (quiet_restoreMtime _ _).bind fun _ => Prog.makes_return _
  · rw [Prog.exec_bind_ok hrun]
    dsimp only [List.singleton_append]
    split
    · exact Or.inl (by simp [storedBytes_read])
    · apply appends_backedUp (Or.inr ⟨⟨e, rfl⟩, rfl⟩)
      exact fun _ => (quiet_restoreMtime _ _).bind fun _ => Prog.makes_return _
  · rw [Prog.exec_bind_error hrun]
    exact Or.inl (by simp [storedBytes_read])

/-! ## The steps -/

theorem exec_item {β : Type} {value : Option β} {key : String} {b : β} (hvalue : value = some b)
    {γ : Type} (f : β → Install γ) : (Ctx.item value key >>= f) = f b := by
  rw [hvalue]
  rfl

theorem events_bind_return {γ : Type} (p : Install β) (g : β → γ) (h : List Event) :
    (Prog.exec world (p >>= fun b => pure (g b)) h).2 = (Prog.exec world p h).2 := by
  rcases hrun : Prog.exec world p h with ⟨e | b, es⟩
  · rw [Prog.exec_bind_error hrun]
  · rw [Prog.exec_bind_ok hrun, Prog.exec_return, List.append_nil]

/-- A step writes to its file once at most, and then what is right for what it knows. -/
theorem appends_step (py : PyText) {cut : Request → Raised → Option Nat} {ctx : Ctx}
    {dest : List Char}
    {k : StartupStep} {old : Bytes} (ht : ctx.mcpd = some t) (hdest : ctx.destVolume = some dest)
    (htruth : ReadsTruly world cut t (k.file dest) old) :
    Appends k t (k.file dest) old (Prog.exec world ((k.step py).fn ctx) []).2 := by
  have hstart : AllQuiet (k.file dest) [] := fun ev hev => absurd hev List.not_mem_nil
  have hother : ∀ {a b : List Char}, a ≠ b → dest ++ a ≠ dest ++ b :=
    fun hne heq => hne (List.append_cancel_left heq)
  cases k with
  | serialShell =>
    have hbackup : ∀ {a : List Char}, a.head? ≠ some 'S' →
        dest ++ a ≠ dest ++ "S/User-Startup".toList ++ ".before-mcpd".toList := by
      intro a ha heq
      rw [List.append_assoc] at heq
      rw [List.append_cancel_left heq] at ha
      exact ha rfl
    show Appends _ _ _ _ (Prog.exec world ((installSerialShell py).fn ctx) []).2
    unfold installSerialShell
    dsimp only
    rw [exec_item ht, exec_item hdest]
    refine appends_bind (quiet_isStaged _) hstart fun staged h hh => ?_
    split
    · refine appends_bind (quiet_amigaMakedir _) hh fun _ h hh => ?_
      refine appends_bind (quiet_copyOrClone (hbackup (by decide)) _ _) hh fun _ h hh => ?_
      refine appends_bind (quiet_protectFile _) hh fun _ h hh => ?_
      refine appends_bind (quiet_amigaMakedir _) hh fun _ h hh => ?_
      refine appends_bind (quiet_writeText (hother (by decide)) _ _) hh fun _ h hh => ?_
      rw [events_bind_return]
      exact appends_serialShell htruth hh
    · exact hstart.appends
  | mcpd =>
    have hbackup : ∀ {a : List Char}, a.tail.head? ≠ some '/' →
        dest ++ a ≠ dest ++ "S/Network-Startup".toList ++ ".before-mcpd".toList := by
      intro a ha heq
      rw [List.append_assoc] at heq
      rw [List.append_cancel_left heq] at ha
      exact ha rfl
    show Appends _ _ _ _ (Prog.exec world ((installMcpd py).fn ctx) []).2
    unfold installMcpd
    dsimp only
    rw [exec_item ht, exec_item hdest]
    refine appends_bind (quiet_isStaged _) hstart fun staged h hh => ?_
    split
    · refine appends_bind (quiet_amigaMakedir _) hh fun _ h hh => ?_
      refine appends_bind (quiet_copyOrClone (hbackup (by decide)) _ _) hh fun _ h hh => ?_
      refine appends_bind (quiet_protectFile _) hh fun _ h hh => ?_
      refine appends_bind (quiet_installHelper (by
        rw [List.append_assoc]
        exact hbackup (by decide))) hh fun _ h hh => ?_
      refine appends_bind (quiet_installHelper (by
        rw [List.append_assoc]
        exact hbackup (by decide))) hh fun _ h hh => ?_
      rw [events_bind_return]
      exact appends_mcpd htruth hh
    · exact hstart.appends

/-! ## When the content survives -/

theorem length_appended (k : StartupStep) (old : Bytes) :
    old.length + (asciiBytes k.block).length ≤ (k.appended old).length := by
  simp only [StartupStep.appended, List.length_append]
  omega

theorem appended_nil (k : StartupStep) : k.appended [] = asciiBytes k.block := rfl

theorem block_ne_nil (k : StartupStep) : asciiBytes k.block ≠ [] := by
  rw [asciiBytes, Ne, List.map_eq_nil_iff]
  cases k with
  | serialShell => decide +kernel
  | mcpd => decide +kernel

/-- A part of the old content with the lines behind it. -/
theorem take_appended_iff (k : StartupStep) (old : Bytes) (n : Nat) :
    (k.appended old).take n = old ∨ (k.appended old).take n = k.appended old ↔
      n = old.length ∨ (k.appended old).length ≤ n := by
  have hlen := length_appended k old
  have hpos := List.length_pos_iff.mpr (block_ne_nil k)
  constructor
  · rintro (heq | heq)
    · have htake := congrArg List.length heq
      rw [List.length_take] at htake
      omega
    · have htake := congrArg List.length heq
      rw [List.length_take] at htake
      omega
  · rintro (rfl | hle)
    · left
      rw [StartupStep.appended, List.append_assoc, List.take_left]
    · exact Or.inr (List.take_of_length_le hle)

/-- A part of the lines alone. -/
theorem take_block_iff (k : StartupStep) (old : Bytes) (n : Nat) :
    (asciiBytes k.block).take n = old ∨ (asciiBytes k.block).take n = k.appended old ↔
      old = (asciiBytes k.block).take n ∨ old = [] ∧ (asciiBytes k.block).length ≤ n := by
  rw [eq_comm]
  refine or_congr_right ?_
  constructor
  · intro heq
    have hlen := length_appended k old
    have htake := congrArg List.length heq
    rw [List.length_take] at htake
    have hempty : old.length = 0 := by omega
    exact ⟨List.length_eq_zero_iff.mp hempty, by omega⟩
  · rintro ⟨rfl, hle⟩
    rw [appended_nil, List.take_of_length_le hle]

/-- The old content survives a step exactly if what the step does not know it does
not overwrite, and the write is not cut short. -/
theorem keepsContent_iff (py : PyText) (world : World) (cut : Request → Raised → Option Nat)
    (ctx : Ctx) (t : Mcpd) (dest : List Char) (k : StartupStep) (old : Bytes)
    (ht : ctx.mcpd = some t) (hdest : ctx.destVolume = some dest)
    (htruth : ReadsTruly world cut t (k.file dest) old) :
    KeepsContent py world cut ctx dest k old ↔ Survives py world cut ctx t dest k old := by
  have happends := appends_step py ht hdest htruth
  unfold KeepsContent Survives
  dsimp only
  generalize (Prog.exec world ((k.step py).fn ctx) []).2 = events at happends
  rcases happends with hnone | ⟨front, r, ans, back, w, rfl, hw, hnone, hknows⟩
  · rw [contentAfter_none cut hnone]
    refine iff_of_true (Or.inl rfl) fun ev hev hsome => ?_
    rw [hnone ev hev] at hsome
    cases hsome
  · obtain ⟨hfront, hback⟩ := List.forall_mem_append.mp hnone
    have hcontent : contentAfter cut (k.file dest) old (front ++ (r, ans) :: back) =
        afterEvent cut (k.file dest) old (r, ans) := by
      have hsame := contentAfter_none cut hfront old
      rw [contentAfter] at hsame
      rw [contentAfter, List.foldl_append, hsame, List.foldl_cons]
      exact contentAfter_none cut hback _
    -- the condition is about the one write
    have hone : ∀ {P : Event → Prop}, (∀ ev ∈ front ++ (r, ans) :: back,
        (storedBytes (k.file dest) ev.1).isSome → P ev) ↔ P (r, ans) := by
      intro P
      constructor
      · exact fun hall => hall (r, ans) (by simp) (by simp [hw])
      · intro hP ev hev hsome
        rcases List.mem_append.mp hev with hev | hev
        · simp [hfront ev hev] at hsome
        · rcases List.mem_cons.mp hev with rfl | hev
          · exact hP
          · simp [hback ev hev] at hsome
    rw [hone, hcontent, afterEvent, hw]
    generalize k.Knows t (k.file dest) (front ++ (r, ans) :: back) = knows at hknows
    cases ans with
    | ok raw =>
      dsimp only
      rcases hknows with ⟨hknown, rfl⟩ | ⟨hunknown, rfl⟩
      · exact iff_of_true (Or.inr rfl) (Or.inl hknown)
      · have htake := take_block_iff k old (asciiBytes k.block).length
        rw [List.take_length] at htake
        rw [htake]
        simp only [hunknown, false_or, le_refl, and_true]
        exact or_comm
    | error e =>
      dsimp only
      cases cut r e with
      | none => exact iff_of_true (Or.inl rfl) (by simp)
      | some n =>
        simp only [Option.elim_some, Option.some.injEq, forall_eq']
        rcases hknows with ⟨hknown, rfl⟩ | ⟨hunknown, rfl⟩
        · simpa [hknown] using take_appended_iff k old n
        · simpa [hunknown] using take_block_iff k old n

end

/-- Every request is answered, a read with what the file holds. -/
def fileWorld (path : List Char) (old : Bytes) : World := fun h r =>
  .ok (if r.method = "fs.read" then
      .dict [(ascii "content_b64", .str (Base64.encode (contentAfter (fun _ _ => none) path old h)))]
    else .null)

/-- Every request is answered but the reads. -/
def noReads : World := fun _ r =>
  if r.method = "fs.read" then .error (.exception "TransportError" []) else .ok .null

/-- `Echo` and a newline. -/
def sampleStartup : Bytes := [69, 99, 104, 111, 10]

theorem echo_survives : Survives samplePy
    (fileWorld ("DH0:".toList ++ "S/User-Startup".toList) sampleStartup) (fun _ _ => none)
    { sampleCtx with destVolume := some "DH0:".toList } 0 "DH0:".toList .serialShell
      sampleStartup := by
  refine (keepsContent_iff samplePy
    (fileWorld ("DH0:".toList ++ "S/User-Startup".toList) sampleStartup) (fun _ _ => none)
    { sampleCtx with destVolume := some "DH0:".toList } 0 "DH0:".toList .serialShell sampleStartup
    rfl rfl ?_).mp (Or.inr ?_)
  · rintro h raw heq
    cases heq
    exact ⟨⟨_, rfl⟩, rfl⟩
  · decide +kernel

/-- The read fails, and the file is overwritten with the new lines alone. -/
theorem read_failed_overwritten : ¬ KeepsContent samplePy noReads (fun _ _ => none)
    { sampleCtx with destVolume := some "DH0:".toList } "DH0:".toList .serialShell
      sampleStartup := by
  have hcontent : contentAfter (fun _ _ => none) (StartupStep.serialShell.file "DH0:".toList)
      sampleStartup (Prog.exec noReads ((StartupStep.serialShell.step samplePy).fn
        { sampleCtx with destVolume := some "DH0:".toList }) []).2 =
          asciiBytes serialShellBlock := by
    decide +kernel
  unfold KeepsContent
  dsimp only
  rw [hcontent]
  decide +kernel

end AmigaFleet.Host.Installer
