import AmigaFleet.Mcpd.TaskSnapshot

/-!
# The two walkers of a stack

`debug_backtrace` of `host/src/amiga_fleet_mcp/tools/debug.py` walks the frames of the
stopped processor through the GDB stub of QEMU, `debug.task_snapshot` of the daemon
those of a task in its own memory.  The host computes addresses without a bound.

* `walkLoop_eq` is the loop of the host as a walk along a chain.
* `hostAbove_eq`: the host finds the same caller as the daemon when the words that it
  reads lie inside the memory.
* `walkers_agree`: then both return the same frames; and `truncated` says that
  `max_frames` was reached.
* `end_at_limit` is a chain that ends there, and one at the top of the memory.
-/

namespace AmigaFleet.Host.Backtrace

open AmigaFleet.Lib
open AmigaFleet.Mcpd (CJson ascii pStr pInt cNumber)
open AmigaFleet.Mcpd.Debug

/-! ## The code -/

/-- `DebugBacktraceResult` -/
structure DebugBacktraceResult where
  frames : List Frame
  truncated : Bool
  rawPc : Nat
  rawSp : Nat
  rawLr : Nat
deriving DecidableEq, Repr

/-- `gdb.read_memory(addr, 4)` and the unpacking; `none` ends the loop. -/
def readWord (read : Nat → Option Bytes) (addr : Nat) : Option Nat :=
  match read addr with
  | none => none
  | some bytes => if bytes.length ≠ 4 then none else some (be32 bytes)

/-- The loop of `debug_backtrace`: the frames that it appends, and whether it comes to
its `else`. -/
def walkLoop (read : Nat → Option Bytes) : Nat → Nat → Nat → List Frame × Bool
  | 0, _, _ => ([], true)
  | left + 1, i, curSp =>
    if curSp = 0 ∨ curSp = 0xffffffff then ([], false)
    else
      match readWord read curSp with
      | none => ([], false)
      | some backSp =>
        if backSp = 0 ∨ backSp = 0xffffffff then ([], false)
        else if backSp ≤ curSp then ([], false)
        else
          match readWord read (backSp + 4) with
          | none => ([], false)
          | some savedLr =>
            let rest := walkLoop read left (i + 1) backSp
            (⟨i, savedLr, backSp⟩ :: rest.1, rest.2)

/-- `debug_backtrace`, once the registers are read. -/
def debugBacktrace (read : Nat → Option Bytes) (pc sp lr : Nat) (maxFrames : Int) :
    DebugBacktraceResult :=
  let walked := walkLoop read (maxFrames - 1).toNat 1 sp
  { frames := ⟨0, pc, sp⟩ :: walked.1
    truncated := walked.2
    rawPc := pc
    rawSp := sp
    rawLr := lr }

/-! ## The loop -/

/-- The caller's stack pointer, and the address at which the caller goes on. -/
def hostAbove (read : Nat → Option Bytes) (curSp : Nat) : Option (Nat × Nat) :=
  if curSp = 0 ∨ curSp = 0xffffffff then none
  else
    (readWord read curSp).bind fun backSp =>
      if backSp = 0 ∨ backSp = 0xffffffff ∨ backSp ≤ curSp then none
      else (readWord read (backSp + 4)).map fun savedLr => (backSp, savedLr)

/-- The frames of a walk. -/
def framesFrom (i : Nat) (links : List (Nat × Nat)) : List Frame :=
  (links.zipIdx i).map fun f => ⟨f.2, f.1.2, f.1.1⟩

theorem walkLoop_eq (read : Nat → Option Bytes) (left i curSp : Nat) :
    walkLoop read left i curSp =
      (framesFrom i (Chain.walk (hostAbove read) left curSp),
        decide ((Chain.walk (hostAbove read) left curSp).length = left)) := by
  induction left generalizing i curSp with
  | zero => rfl
  | succ left ih =>
    have hstop : hostAbove read curSp = none → (([], false) : List Frame × Bool) =
        (framesFrom i (Chain.walk (hostAbove read) (left + 1) curSp),
          decide ((Chain.walk (hostAbove read) (left + 1) curSp).length = left + 1)) := by
      intro hend
      rw [Chain.walk_end _ hend]
      rfl
    rw [walkLoop]
    by_cases hcur : curSp = 0 ∨ curSp = 0xffffffff
    · rw [if_pos hcur]
      exact hstop (by rw [hostAbove, if_pos hcur])
    · rw [if_neg hcur]
      cases hback : readWord read curSp with
      | none => exact hstop (by rw [hostAbove, if_neg hcur, hback]; rfl)
      | some backSp =>
        dsimp only
        by_cases hbad : backSp = 0 ∨ backSp = 0xffffffff ∨ backSp ≤ curSp
        · have hnone : hostAbove read curSp = none := by
            rw [hostAbove, if_neg hcur, hback, Option.bind_some, if_pos hbad]
          rw [← hstop hnone]
          split
          · rfl
          · rw [if_pos (by tauto)]
        · rw [if_neg (by tauto), if_neg (by tauto)]
          cases hlr : readWord read (backSp + 4) with
          | none =>
            exact hstop (by rw [hostAbove, if_neg hcur, hback, Option.bind_some, if_neg hbad, hlr]; rfl)
          | some savedLr =>
            have hlink : hostAbove read curSp = some (backSp, savedLr) := by
              rw [hostAbove, if_neg hcur, hback, Option.bind_some, if_neg hbad, hlr]
              rfl
            dsimp only
            rw [Chain.walk_step _ hlink, ih]
            simp [framesFrom]

theorem hostAbove_lt {read : Nat → Option Bytes} {curSp : Nat} {l : Nat × Nat}
    (h : hostAbove read curSp = some l) : curSp < l.1 := by
  unfold hostAbove at h
  split at h
  · cases h
  · obtain ⟨backSp, -, hback⟩ := Option.bind_eq_some_iff.mp h
    split at hback
    · cases hback
    · rename_i hgood
      obtain ⟨savedLr, -, heq⟩ := Option.map_eq_some_iff.mp hback
      rw [← heq]
      show curSp < backSp
      omega

/-! ## The same memory -/

/-- The stub answers with the bytes of the memory; what it says to an address outside
is not known. -/
def Serves (mem : Memory) (read : Nat → Option Bytes) : Prop :=
  ∀ a : UInt32, a.toNat + 4 ≤ 2 ^ 32 → read a.toNat = some (wordBytes mem a)

/-- The addresses of the words that a step along the chain reads. -/
def wordsRead (mem : Memory) (cur : UInt32) : List Nat :=
  if cur = 0 ∨ cur = 0xffffffff then []
  else
    let backSp := word mem cur
    cur.toNat :: if backSp = 0 ∨ backSp = 0xffffffff ∨ backSp ≤ cur then [] else [backSp.toNat + 4]

/-- Every word that a walk of at most `n` steps reads lies inside the memory. -/
def InSpace (mem : Memory) (n : Nat) (sp : UInt32) : Prop :=
  ∀ cur ∈ Chain.sources (frameAbove mem) n sp, ∀ a ∈ wordsRead mem cur, a + 4 ≤ 2 ^ 32

theorem toNat_eq_iff {a b : UInt32} : a = b ↔ a.toNat = b.toNat := UInt32.toNat_inj.symm

theorem toNat_word (mem : Memory) (a : UInt32) : (word mem a).toNat = be32 (wordBytes mem a) := by
  have hlt : be32 (wordBytes mem a) < 2 ^ 32 := by
    have h0 := (mem a).toNat_lt
    have h1 := (mem (a + 1)).toNat_lt
    have h2 := (mem (a + 2)).toNat_lt
    have h3 := (mem (a + 3)).toNat_lt
    simp only [wordBytes, be32]
    omega
  exact UInt32.toNat_ofNat_of_lt' hlt

theorem readWord_word {mem : Memory} {read : Nat → Option Bytes} (hread : Serves mem read)
    {a : UInt32} (ha : a.toNat + 4 ≤ 2 ^ 32) : readWord read a.toNat = some (word mem a).toNat := by
  rw [readWord, hread a ha, toNat_word]
  rfl

/-- The host finds the caller that the daemon finds. -/
theorem hostAbove_eq {mem : Memory} {read : Nat → Option Bytes} (hread : Serves mem read)
    {cur : UInt32} (hwords : ∀ a ∈ wordsRead mem cur, a + 4 ≤ 2 ^ 32) :
    hostAbove read cur.toNat = (frameAbove mem cur).map (Prod.map UInt32.toNat UInt32.toNat) := by
  have hsentinel : ∀ a : UInt32, (a = 0 ∨ a = 0xffffffff) ↔ (a.toNat = 0 ∨ a.toNat = 0xffffffff) :=
    fun a => or_congr toNat_eq_iff toNat_eq_iff
  have hback : ∀ a : UInt32, (a = 0 ∨ a = 0xffffffff ∨ a ≤ cur) ↔
      (a.toNat = 0 ∨ a.toNat = 0xffffffff ∨ a.toNat ≤ cur.toNat) :=
    fun a => or_congr toNat_eq_iff (or_congr toNat_eq_iff UInt32.le_iff_toNat_le)
  unfold wordsRead at hwords
  rw [hostAbove, frameAbove]
  by_cases hcur : cur = 0 ∨ cur = 0xffffffff
  · rw [if_pos hcur, if_pos ((hsentinel cur).mp hcur)]
    rfl
  · rw [if_neg hcur] at hwords
    rw [if_neg hcur, if_neg (mt (hsentinel cur).mpr hcur)]
    dsimp only at hwords ⊢
    rw [List.forall_mem_cons] at hwords
    rw [readWord_word hread hwords.1, Option.bind_some]
    by_cases hbad : word mem cur = 0 ∨ word mem cur = 0xffffffff ∨ word mem cur ≤ cur
    · rw [if_pos hbad, if_pos ((hback _).mp hbad)]
      rfl
    · rw [if_neg hbad] at hwords
      rw [if_neg hbad, if_neg (mt (hback _).mpr hbad)]
      have hlr : (word mem cur).toNat + 4 + 4 ≤ 2 ^ 32 :=
        hwords.2 _ (List.mem_singleton_self _)
      have haddr : (word mem cur + 4).toNat = (word mem cur).toNat + 4 := by
        have hfour : (4 : UInt32).toNat = 4 := rfl
        rw [UInt32.toNat_add, hfour]
        exact Nat.mod_eq_of_lt (by omega)
      have hread' := readWord_word hread (a := word mem cur + 4) (by omega)
      rw [haddr] at hread'
      rw [hread']
      rfl

/-- The frames of a walk that stays in the memory. -/
theorem frames_eq {mem : Memory} {read : Nat → Option Bytes} (hread : Serves mem read)
    {pc sp : UInt32} (lr : Nat) {maxFrames : Nat} (hspace : InSpace mem (maxFrames - 1) sp) :
    (debugBacktrace read pc.toNat sp.toNat lr maxFrames).frames = backtrace mem pc sp maxFrames := by
  have hleft : ((maxFrames : Int) - 1).toNat = maxFrames - 1 := by omega
  have hwalk : Chain.walk (hostAbove read) (maxFrames - 1) sp.toNat =
      (Chain.walk (frameAbove mem) (maxFrames - 1) sp).map (Prod.map UInt32.toNat UInt32.toNat) :=
    Chain.walk_sim _ _ fun cur hcur => hostAbove_eq hread (hspace cur hcur)
  simp only [debugBacktrace, hleft, walkLoop_eq, hwalk, backtrace, walkChain_eq, framesFrom,
    List.zipIdx_map, List.map_map]
  rfl

/-! ## What both return -/

theorem framesFrom_sps (i : Nat) (links : List (Nat × Nat)) :
    (framesFrom i links).map Frame.sp = links.map Prod.fst := by
  rw [framesFrom, List.map_map]
  show (links.zipIdx i).map (Prod.fst ∘ Prod.fst) = _
  rw [← List.map_map, List.zipIdx_map_fst]

/-- The stack pointers of the host's frames. -/
theorem increasing_host (read : Nat → Option Bytes) (pc sp lr : Nat) (maxFrames : Int) :
    ((debugBacktrace read pc sp lr maxFrames).frames.map Frame.sp).Pairwise (· < ·) := by
  simp only [debugBacktrace, walkLoop_eq, List.map_cons, framesFrom_sps]
  exact Chain.walk_increasing _ id (fun _ _ h => hostAbove_lt h) _ sp

/-- The stack pointers of the daemon's frames. -/
theorem increasing_daemon (mem : Memory) (pc sp : UInt32) (maxFrames : Nat) :
    ((backtrace mem pc sp maxFrames).map Frame.sp).Pairwise (· < ·) := by
  have hsps : ∀ links : List (UInt32 × UInt32),
      ((links.map Prod.swap).zipIdx 1).map (fun f : (UInt32 × UInt32) × Nat => f.1.2.toNat) =
        links.map fun l => l.1.toNat := by
    intro links
    show ((links.map Prod.swap).zipIdx 1).map ((fun l : UInt32 × UInt32 => l.2.toNat) ∘ Prod.fst) = _
    rw [← List.map_map, List.zipIdx_map_fst, List.map_map]
    rfl
  rw [backtrace, List.map_cons, List.map_map, walkChain_eq]
  show (sp.toNat :: List.map (fun f : (UInt32 × UInt32) × Nat => f.1.2.toNat) _).Pairwise (· < ·)
  rw [hsps]
  exact Chain.walk_increasing _ UInt32.toNat
    (fun _ _ h => UInt32.lt_iff_toNat_lt.mp (frameAbove_lt h)) _ sp

theorem truncated_iff (read : Nat → Option Bytes) (pc sp lr : Nat) {maxFrames : Nat}
    (hmax : 1 ≤ maxFrames) :
    (debugBacktrace read pc sp lr maxFrames).truncated = true ↔
      (debugBacktrace read pc sp lr maxFrames).frames.length = maxFrames := by
  have hleft : ((maxFrames : Int) - 1).toNat = maxFrames - 1 := by omega
  simp only [debugBacktrace, hleft, walkLoop_eq, decide_eq_true_eq, List.length_cons, framesFrom,
    List.length_map, List.length_zipIdx]
  omega

/-- Without `truncated` there is no caller above the last frame. -/
theorem complete_of_not_truncated (read : Nat → Option Bytes) (pc sp lr : Nat) (maxFrames : Int)
    (hnot : (debugBacktrace read pc sp lr maxFrames).truncated = false) :
    ∀ f ∈ (debugBacktrace read pc sp lr maxFrames).frames.getLast?, hostAbove read f.sp = none := by
  simp only [debugBacktrace, walkLoop_eq, decide_eq_false_iff_not] at hnot ⊢
  have hstop := Chain.walk_stops (hostAbove read)
    (lt_of_le_of_ne (Chain.length_walk_le (hostAbove read) _ sp) hnot)
  rw [← List.getLast?_map, ← framesFrom_sps 1, List.getLast?_map] at hstop
  intro f hf
  rw [List.getLast?_cons] at hf
  rw [← Option.some.inj hf, ← Option.getD_map Frame.sp]
  exact hstop

/-! ## Both on one memory -/

/-- `hname`, `htask` and `hmax` are what the daemon is asked.  The frames are the same when
the walk stays in the memory; the rest holds of every memory. -/
theorem walkers_agree {mem : Memory} {read : Nat → Option Bytes} (hread : Serves mem read)
    {findTask : Bytes → Option DebugTask} {params : Option CJson} {name : Bytes} {t : DebugTask}
    {maxFrames : Nat} (hname : pStr params "name" = .ok name) (htask : findTask name = some t)
    (hmax : pInt params "max_frames" 16 = maxFrames) (hone : 1 ≤ maxFrames)
    (hlimit : maxFrames ≤ 64) :
    let sp := t.context.gpr 1
    let r := debugBacktrace read t.context.ip.toNat sp.toNat t.context.lr.toNat maxFrames
    ∃ o frames, debugTaskSnapshot findTask mem params = .ok o ∧
      o.getItem (ascii "backtrace") = some (.array (frames.map Frame.object)) ∧
      (InSpace mem (maxFrames - 1) sp → r.frames = frames) ∧
      (r.frames.map Frame.sp).Pairwise (· < ·) ∧ (frames.map Frame.sp).Pairwise (· < ·) ∧
      (r.truncated = true ↔ r.frames.length = maxFrames) ∧
      (r.truncated = false → ∀ f ∈ r.frames.getLast?, hostAbove read f.sp = none) := by
  intro sp r
  obtain ⟨o, ho, hitem⟩ := debugTaskSnapshot_ok mem hname htask
  rw [maxFramesOf_eq hmax hone hlimit] at hitem
  refine ⟨o, backtrace mem t.context.ip sp maxFrames, ho, hitem, ?_, ?_, ?_, ?_, ?_⟩
  · exact fun hspace => frames_eq hread _ hspace
  · exact increasing_host read _ _ _ _
  · exact increasing_daemon mem _ _ _
  · exact truncated_iff read _ _ _ hone
  · exact complete_of_not_truncated read _ _ _ _

/-- A stub that reads zeros behind the memory. -/
def zeroStub (mem : Memory) (addr : Nat) : Option Bytes :=
  if addr + 4 ≤ 2 ^ 32 then some (wordBytes mem (UInt32.ofNat addr)) else some [0, 0, 0, 0]

theorem zeroStub_serves (mem : Memory) : Serves mem (zeroStub mem) := by
  intro a ha
  rw [zeroStub, if_pos ha, UInt32.ofNat_toNat]

/-- One caller above `0x100`. -/
def shortChain (a : UInt32) : UInt8 := if a = 0x102 then 2 else 0

/-- The caller of `0x100` has its frame in the last word of the memory. -/
def highChain (a : UInt32) : UInt8 :=
  if a = 0x100 ∨ a = 0x101 ∨ a = 0x102 then 0xff else if a = 0x103 then 0xfc else if a = 3 then 7 else 0

/-- A task whose stack pointer is `0x100`. -/
def sampleTask : DebugTask :=
  { name := some (ascii "x"), state := .wait, pri := 0, rtcf := 1
    context :=
      { ip := 5, gpr := fun _ => 0x100, lr := 9, msr := 0, ctr := 0, xer := 0, cr := 0
        traptype := 0, dar := 0, dsisr := 0 } }

def sampleParams : Option CJson :=
  some (.object [(ascii "name", .string (ascii "x")), (ascii "max_frames", cNumber 3)])

theorem walkers_agree_sample :
    let r := debugBacktrace (zeroStub shortChain) 5 0x100 9 3
    ∃ o frames, debugTaskSnapshot (fun _ => some sampleTask) shortChain sampleParams = .ok o ∧
      o.getItem (ascii "backtrace") = some (.array (frames.map Frame.object)) ∧
      r.frames = frames ∧ frames = [⟨0, 5, 0x100⟩, ⟨1, 0, 0x200⟩] ∧ r.truncated = false := by
  intro r
  obtain ⟨o, frames, ho, hitem, hframes, _⟩ := @walkers_agree shortChain (zeroStub shortChain)
    (zeroStub_serves shortChain) (fun _ => some sampleTask) sampleParams (ascii "x") sampleTask 3
    rfl rfl (by decide) (by decide) (by decide)
  have hreads : ((Chain.sources (frameAbove shortChain) 2 0x100).all fun cur =>
      (wordsRead shortChain cur).all fun a => decide (a + 4 ≤ 2 ^ 32)) = true := by decide +kernel
  have hspace : InSpace shortChain 2 0x100 := by
    simp only [List.all_eq_true, decide_eq_true_eq] at hreads
    exact hreads
  have heq : r.frames = frames := hframes hspace
  have hrun : r.frames = [⟨0, 5, 0x100⟩, ⟨1, 0, 0x200⟩] := by decide +kernel
  exact ⟨o, frames, ho, hitem, heq, heq.symm.trans hrun, by decide +kernel⟩

/-- The chain that ends at the limit is called truncated, and the host finds another
address than the daemon behind the top of the memory. -/
theorem end_at_limit :
    ((debugBacktrace (zeroStub shortChain) 5 0x100 9 2).truncated = true ∧
      (debugBacktrace (zeroStub shortChain) 5 0x100 9 3).frames =
        (debugBacktrace (zeroStub shortChain) 5 0x100 9 2).frames) ∧
    (debugBacktrace (zeroStub highChain) 5 0x100 9 2).frames = [⟨0, 5, 0x100⟩, ⟨1, 0, 0xfffffffc⟩] ∧
      backtrace highChain 5 0x100 2 = [⟨0, 5, 0x100⟩, ⟨1, 7, 0xfffffffc⟩] := by
  decide +kernel

end AmigaFleet.Host.Backtrace
