import AmigaFleet.Mcpd.Sys
import Mathlib.Data.List.Induction

/-!
# What the board is told

The bytes that `sys_mcu_cmd` writes, and what the supervisor of the board makes
of them.  It waits for a `#`; what follows, up to a line end, is the name of a
command.  Whether a `#` within a name begins the command anew is left open.

* `mem_mcuCommands_iff`: the commands of a stream are in its lines.
* `mcu_gate_iff`: when a call does not switch the board off.
-/

namespace AmigaFleet.Mcpd.Sys

open AmigaFleet.Lib

/-! ## The code -/

/-- `MCU_TX_MAX` -/
def mcuTxMax : Nat := 32

/-- `snprintf(tx, sizeof(tx), "#%s\n", cmd)` -/
def mcuTx (cmd : Bytes) : Bytes := (ascii "#" ++ cmd ++ [0x0A]).take (mcuTxMax - 1)

/-- The call gets as far as `CMD_WRITE`. -/
def McuDos.comesToWrite (dos : McuDos) : Bool :=
  dos.allocatesPorts && dos.allocatesRequests && dos.opensSerial && dos.opensTimer && dos.setsParams

/-- The bytes that `sys_mcu_cmd` hands to the serial device. -/
def mcuWritten (dos : McuDos) (params : Option CJson) : Bytes :=
  match mcuParams params with
  | .error _ => []
  | .ok (cmd, _) => if dos.comesToWrite then mcuTx cmd else []

/-! ## The supervisor -/

/-- `#` -/
def hash : UInt8 := 35

/-- One byte that ends no line: outside of a command, or with the name so far. -/
def mcuTake (restarts : Bool) : Option Bytes → UInt8 → Option Bytes
  | none, c => if c = hash then some [] else none
  | some name, c => if restarts ∧ c = hash then some [] else some (name ++ [c])

/-- The names of the commands in a stream. -/
def mcuCommands (restarts : Bool) : Option Bytes → Bytes → List Bytes
  | _, [] => []
  | s, c :: stream =>
    if c = 0x0A then s.toList ++ mcuCommands restarts none stream
    else mcuCommands restarts (mcuTake restarts s c) stream

/-- A line ends in the command with this name. -/
def LineNames (restarts : Bool) (name line : Bytes) : Prop :=
  ∃ before, line = before ++ hash :: name ∧ if restarts then hash ∉ name else hash ∉ before

theorem lineNames_append (restarts : Bool) (name line : Bytes) (c : UInt8) :
    LineNames restarts name (line ++ [c]) ↔
      (c = hash ∧ name = [] ∧ (restarts = true ∨ hash ∉ line)) ∨
        ∃ shorter, name = shorter ++ [c] ∧ LineNames restarts shorter line ∧
          (restarts = true → c ≠ hash) := by
  constructor
  · rintro ⟨before, hline, hhash⟩
    rcases List.eq_nil_or_concat name with rfl | ⟨shorter, c', rfl⟩
    · obtain ⟨rfl, hc⟩ := List.append_inj' hline rfl
      rw [List.cons.injEq] at hc
      refine .inl ⟨hc.1, rfl, ?_⟩
      cases restarts with
      | true => exact .inl rfl
      | false => exact .inr (by simpa using hhash)
    · rw [List.concat_eq_append, ← List.cons_append, ← List.append_assoc] at hline
      obtain ⟨rfl, hc⟩ := List.append_inj' hline rfl
      rw [List.cons.injEq] at hc
      obtain rfl := hc.1
      refine .inr ⟨shorter, by simp, ⟨before, rfl, ?_⟩, ?_⟩
      · cases restarts <;> simp_all
      · rintro rfl
        simp only [List.concat_eq_append, List.mem_append, List.mem_singleton, if_true] at hhash
        exact fun h => hhash (.inr h.symm)
  · rintro (⟨rfl, rfl, hline⟩ | ⟨shorter, rfl, ⟨before, rfl, hhash⟩, hc⟩)
    · refine ⟨line, rfl, ?_⟩
      cases restarts <;> simp_all
    · refine ⟨before, by simp, ?_⟩
      cases restarts with
      | true =>
        simp only [if_true, List.mem_append, List.mem_singleton, not_or] at hhash ⊢
        exact ⟨hhash, fun h => hc rfl h.symm⟩
      | false => exact hhash

theorem foldl_mcuTake_eq_none (restarts : Bool) (line : Bytes) :
    line.foldl (mcuTake restarts) none = none ↔ hash ∉ line := by
  induction line using List.reverseRecOn with
  | nil => simp
  | append_singleton line c ih =>
    rw [List.foldl_append, List.foldl_cons, List.foldl_nil]
    cases hstate : line.foldl (mcuTake restarts) none with
    | none =>
      have hline := ih.mp hstate
      rw [mcuTake, List.mem_append, List.mem_singleton, eq_comm (a := hash), not_or]
      by_cases hc : c = hash <;> simp [hc, hline]
    | some name =>
      have hline : hash ∈ line := by
        by_contra h
        simp [ih.mpr h] at hstate
      rw [mcuTake]
      split <;> simp [hline]

theorem foldl_mcuTake (restarts : Bool) (line name : Bytes) :
    line.foldl (mcuTake restarts) none = some name ↔ LineNames restarts name line := by
  induction line using List.reverseRecOn generalizing name with
  | nil => simp [LineNames]
  | append_singleton line c ih =>
    rw [List.foldl_append, List.foldl_cons, List.foldl_nil, lineNames_append]
    cases hstate : line.foldl (mcuTake restarts) none with
    | none =>
      have hline := (foldl_mcuTake_eq_none restarts line).mp hstate
      have hnone : ∀ shorter, ¬ LineNames restarts shorter line := fun shorter h => by
        simp [(ih shorter).mpr h] at hstate
      simp only [mcuTake, hnone, hline, not_false_eq_true, or_true, and_true, false_and, and_false,
        exists_false, or_false]
      by_cases hc : c = hash
      · rw [if_pos hc, Option.some_inj]
        exact ⟨fun h => ⟨hc, h.symm⟩, fun h => h.2.symm⟩
      · rw [if_neg hc]
        exact ⟨nofun, fun h => absurd h.1 hc⟩
    | some sofar =>
      have hline : hash ∈ line := by
        by_contra h
        simp [(foldl_mcuTake_eq_none restarts line).mpr h] at hstate
      have hsome : ∀ shorter, LineNames restarts shorter line ↔ sofar = shorter := fun shorter => by
        rw [← ih shorter, hstate, Option.some_inj]
      simp only [mcuTake, hsome, hline, not_true_eq_false, or_false]
      by_cases hc : restarts = true ∧ c = hash
      · rw [if_pos hc, Option.some_inj]
        constructor
        · rintro rfl
          exact .inl ⟨hc.2, rfl, hc.1⟩
        · rintro (⟨-, rfl, -⟩ | ⟨_, -, -, hne⟩)
          · rfl
          · exact absurd hc.2 (hne hc.1)
      · rw [if_neg hc, Option.some_inj]
        constructor
        · rintro rfl
          exact .inr ⟨sofar, rfl, rfl, fun hr h => hc ⟨hr, h⟩⟩
        · rintro (⟨rfl, -, hr⟩ | ⟨_, rfl, rfl, -⟩)
          · exact absurd ⟨hr, rfl⟩ hc
          · rfl

/-- Line by line, beginning in any state. -/
theorem mem_mcuCommands (restarts : Bool) (name stream : Bytes) (s : Option Bytes)
    {first : Bytes} {more : List Bytes} (hlines : stream.splitOn 0x0A = first :: more) :
    name ∈ mcuCommands restarts s (stream ++ [0x0A]) ↔
      first.foldl (mcuTake restarts) s = some name ∨
        ∃ line ∈ more, line.foldl (mcuTake restarts) none = some name := by
  induction stream generalizing s first more with
  | nil =>
    obtain ⟨rfl, rfl⟩ := List.cons.inj hlines
    simp [mcuCommands]
  | cons c stream ih =>
    obtain ⟨first', more', hrest⟩ := List.exists_cons_of_ne_nil (List.splitOn_ne_nil 0x0A stream)
    rw [List.splitOn_cons_eq_if_modifyHead, hrest] at hlines
    rw [List.cons_append, mcuCommands]
    by_cases hc : c = 0x0A
    · rw [if_pos hc, List.mem_append, ih none hrest]
      rw [if_pos (beq_iff_eq.mpr hc)] at hlines
      obtain ⟨rfl, rfl⟩ := List.cons.inj hlines
      simp
    · rw [if_neg hc, ih _ hrest]
      rw [if_neg (by simpa using hc)] at hlines
      obtain ⟨rfl, rfl⟩ := List.cons.inj hlines
      rfl

/-- The commands of a stream that ends with a line end are those of its lines. -/
theorem mem_mcuCommands_iff (restarts : Bool) (name stream : Bytes) :
    name ∈ mcuCommands restarts none (stream ++ [0x0A]) ↔
      ∃ line ∈ stream.splitOn 0x0A, LineNames restarts name line := by
  obtain ⟨first, more, hlines⟩ := List.exists_cons_of_ne_nil (List.splitOn_ne_nil 0x0A stream)
  simp only [mem_mcuCommands restarts name stream none hlines, hlines, foldl_mcuTake,
    List.mem_cons, exists_eq_or_imp]

/-! ## The gate -/

theorem mcuParams_length {params : Option CJson} {cmd : Bytes} {unit : Int}
    (h : mcuParams params = .ok (cmd, unit)) : cmd.length ≤ 16 := by
  unfold mcuParams at h
  cases hcmd : pStr params "cmd" with
  | error e => simp [hcmd, bind, Except.bind] at h
  | ok cmd' =>
    simp only [hcmd, bind, Except.bind] at h
    split_ifs at h with hlength hs hunit
    obtain ⟨rfl, -⟩ := Prod.mk.inj (Except.ok.inj h)
    omega

/-- The frame is sent whole. -/
theorem mcuTx_eq {cmd : Bytes} (h : cmd.length ≤ 16) : mcuTx cmd = hash :: cmd ++ [0x0A] := by
  have hhash : ascii "#" = [hash] := rfl
  rw [mcuTx, hhash, List.take_of_length_le]
  · rfl
  · simp only [List.length_append, List.length_cons, List.length_nil, mcuTxMax]
    omega

/-- A call leaves the board on when no line of the frame ends in a command `s`,
and only then.  The gate makes no difference to this. -/
theorem mcu_gate_iff (restarts : Bool) (dos : McuDos) {params : Option CJson} {cmd : Bytes}
    {unit : Int} (hparams : mcuParams params = .ok (cmd, unit)) :
    ascii "s" ∉ mcuCommands restarts none (mcuWritten dos params) ↔
      dos.comesToWrite = true → ∀ line ∈ (hash :: cmd).splitOn 0x0A,
        ¬ LineNames restarts (ascii "s") line := by
  rw [mcuWritten, hparams]
  dsimp only
  cases hwrite : dos.comesToWrite with
  | false => simp [mcuCommands]
  | true =>
    rw [if_pos rfl, mcuTx_eq (mcuParams_length hparams), mem_mcuCommands_iff]
    simp

/-- A second command behind a line end. -/
theorem mcu_gate_passes_second_line :
    ¬ ∀ (restarts : Bool) (dos : McuDos) (params : Option CJson) (cmd : Bytes) (unit : Int),
      mcuParams params = .ok (cmd, unit) → confirmed params = false →
        ascii "s" ∉ mcuCommands restarts none (mcuWritten dos params) := by
  intro h
  refine h true { answers := [] } (some (.object [(ascii "cmd", .string (ascii "t\n#s"))]))
    (ascii "t\n#s") 1 rfl rfl ?_
  decide

theorem mcu_gate_keeps_t :
    mcuParams (some (.object [(ascii "cmd", .string (ascii "t"))])) = .ok (ascii "t", 1) ∧
      ascii "s" ∉ mcuCommands false none
        (mcuWritten { answers := [] } (some (.object [(ascii "cmd", .string (ascii "t"))]))) := by
  have hparams : mcuParams (some (.object [(ascii "cmd", .string (ascii "t"))])) =
    .ok (ascii "t", 1) := rfl
  refine ⟨hparams, (mcu_gate_iff false { answers := [] } hparams).mpr ?_⟩
  rintro - line hline ⟨before, rfl, -⟩
  have hlines : (hash :: ascii "t").splitOn 0x0A = [[hash, 116]] := by decide
  rw [hlines, List.mem_singleton] at hline
  have hlast := congrArg List.getLast? hline
  rw [List.getLast?_append, show (hash :: ascii "s").getLast? = some 115 from by decide] at hlast
  cases hlast

end AmigaFleet.Mcpd.Sys
