import AmigaFleet.Lib.Chain
import AmigaFleet.Mcpd.Sys

/-!
# debug.task_snapshot

`_walk_chain` and `debug_task_snapshot` of `mcpd/src/methods/debug.c`.  The memory
has 2^32 bytes, and the addresses wrap around.

`walkChain_eq` is the walk as one along a chain, which leads upwards
(`frameAbove_lt`).
-/

namespace AmigaFleet.Mcpd.Debug

open AmigaFleet.Lib
open Sys (TaskState sanitize)

/-! ## The walk -/

abbrev Memory := UInt32 → UInt8

/-- The four bytes at an address. -/
def wordBytes (mem : Memory) (a : UInt32) : Bytes := [mem a, mem (a + 1), mem (a + 2), mem (a + 3)]

/-- `*(volatile uint32_t *)a` -/
def word (mem : Memory) (a : UInt32) : UInt32 := UInt32.ofNat (be32 (wordBytes mem a))

/-- `_walk_chain`: the pairs of `out_pc` and `out_sp`. -/
def walkChain (mem : Memory) : Nat → UInt32 → List (UInt32 × UInt32)
  | 0, _ => []
  | left + 1, cur =>
    if cur = 0 ∨ cur = 0xffffffff then []
    else
      let backSp := word mem cur
      if backSp = 0 ∨ backSp = 0xffffffff then []
      else if backSp ≤ cur then []
      else (word mem (backSp + 4), backSp) :: walkChain mem left backSp

/-! ## The handler -/

/-- `struct ExceptionContext`, as far as the handler reads it. -/
structure ExceptionContext where
  ip : UInt32
  gpr : Fin 32 → UInt32
  lr : UInt32
  msr : UInt32
  ctr : UInt32
  xer : UInt32
  cr : UInt32
  traptype : UInt32
  dar : UInt32
  dsisr : UInt32

/-- A task, with what `ReadTaskContext` says of it. -/
structure DebugTask where
  name : Option Bytes
  state : TaskState
  pri : Int
  context : ExceptionContext
  rtcf : UInt32

/-- A frame of a backtrace. -/
structure Frame where
  index : Nat
  pc : Nat
  sp : Nat
deriving DecidableEq, Repr

/-- A frame in the result. -/
def Frame.object (f : Frame) : CJson :=
  .object [(ascii "index", cNumber f.index), (ascii "pc", cNumber f.pc), (ascii "sp", cNumber f.sp)]

def cUnsigned (n : UInt32) : CJson := cNumber n.toNat

/-- The `registers` of the result. -/
def ExceptionContext.object (ctx : ExceptionContext) : CJson :=
  .object [(ascii "pc", cUnsigned ctx.ip), (ascii "sp", cUnsigned (ctx.gpr 1)),
    (ascii "lr", cUnsigned ctx.lr), (ascii "msr", cUnsigned ctx.msr),
    (ascii "ctr", cUnsigned ctx.ctr), (ascii "xer", cUnsigned ctx.xer),
    (ascii "cr", cUnsigned ctx.cr), (ascii "traptype", cUnsigned ctx.traptype),
    (ascii "dar", cUnsigned ctx.dar), (ascii "dsisr", cUnsigned ctx.dsisr),
    (ascii "gpr", .array ((List.finRange 32).map fun i => cUnsigned (ctx.gpr i)))]

/-- The frames of the result. -/
def backtrace (mem : Memory) (pc sp : UInt32) (maxFrames : Nat) : List Frame :=
  ⟨0, pc.toNat, sp.toNat⟩ ::
    ((walkChain mem (maxFrames - 1) sp).zipIdx 1).map fun f => ⟨f.2, f.1.1.toNat, f.1.2.toNat⟩

/-- The parameter `max_frames`. -/
def maxFramesOf (params : Option CJson) : Nat :=
  let maxFrames := (pInt params "max_frames" 16).bmod (2 ^ 32)
  let maxFrames := if maxFrames < 1 then 1 else maxFrames
  (if maxFrames > 64 then 64 else maxFrames).toNat

/-- `debug_task_snapshot` -/
def debugTaskSnapshot (findTask : Bytes → Option DebugTask) (mem : Memory) (params : Option CJson) :
    Outcome :=
  match pStr params "name" with
  | .error err => .error err
  | .ok name =>
    match findTask name with
    | none =>
      .error (rpcMakeError mcpdErrTarget "Task not found"
        (some (.object [(ascii "name", .string name)])))
    | some t =>
      .ok (.object [(ascii "name", .string (sanitize t.name 128)), (ascii "priority", cNumber t.pri),
        (ascii "state", cString t.state.name), (ascii "rtcf_filled", cUnsigned t.rtcf),
        (ascii "registers", t.context.object),
        (ascii "backtrace", .array ((backtrace mem t.context.ip (t.context.gpr 1)
          (maxFramesOf params)).map Frame.object))])

theorem debugTaskSnapshot_ok {findTask : Bytes → Option DebugTask} (mem : Memory)
    {params : Option CJson} {name : Bytes} {t : DebugTask}
    (hname : pStr params "name" = .ok name) (htask : findTask name = some t) :
    ∃ o, debugTaskSnapshot findTask mem params = .ok o ∧
      o.getItem (ascii "backtrace") = some (.array
        ((backtrace mem t.context.ip (t.context.gpr 1) (maxFramesOf params)).map Frame.object)) := by
  unfold debugTaskSnapshot
  rw [hname]
  dsimp only
  rw [htask]
  exact ⟨_, rfl, rfl⟩

/-- The parameter `max_frames` in its range. -/
theorem maxFramesOf_eq {params : Option CJson} {maxFrames : Nat}
    (hmax : pInt params "max_frames" 16 = maxFrames) (hone : 1 ≤ maxFrames) (hlimit : maxFrames ≤ 64) :
    maxFramesOf params = maxFrames := by
  have hint : (maxFrames : Int).bmod (2 ^ 32) = maxFrames :=
    Int.bmod_eq_of_le (by omega) (by omega)
  rw [maxFramesOf, hmax, hint, if_neg (show ¬ (maxFrames : Int) < 1 by omega),
    if_neg (show ¬ (maxFrames : Int) > 64 by omega)]
  exact Int.toNat_natCast maxFrames

/-! ## The chain of the frames -/

/-- The caller's stack pointer, and the address at which the caller goes on. -/
def frameAbove (mem : Memory) (cur : UInt32) : Option (UInt32 × UInt32) :=
  if cur = 0 ∨ cur = 0xffffffff then none
  else
    let backSp := word mem cur
    if backSp = 0 ∨ backSp = 0xffffffff ∨ backSp ≤ cur then none
    else some (backSp, word mem (backSp + 4))

theorem walkChain_eq (mem : Memory) (left : Nat) (cur : UInt32) :
    walkChain mem left cur = (Chain.walk (frameAbove mem) left cur).map Prod.swap := by
  induction left generalizing cur with
  | zero => rfl
  | succ left ih =>
    rw [walkChain, Chain.walk, frameAbove]
    dsimp only
    by_cases hcur : cur = 0 ∨ cur = 0xffffffff
    · rw [if_pos hcur, if_pos hcur]
      rfl
    · rw [if_neg hcur, if_neg hcur]
      by_cases hback : word mem cur = 0 ∨ word mem cur = 0xffffffff
      · rw [if_pos hback, if_pos (hback.imp_right Or.inl)]
        rfl
      · rw [if_neg hback]
        rw [not_or] at hback
        by_cases hup : word mem cur ≤ cur
        · rw [if_pos hup, if_pos (Or.inr (Or.inr hup))]
          rfl
        · rw [if_neg hup, if_neg (by simp [hback, hup]), ih]
          rfl

/-- The caller's frame lies higher. -/
theorem frameAbove_lt {mem : Memory} {cur : UInt32} {l : UInt32 × UInt32}
    (h : frameAbove mem cur = some l) : cur < l.1 := by
  unfold frameAbove at h
  split at h
  · cases h
  · dsimp only at h
    split at h
    · cases h
    · rename_i hback
      rw [← Option.some.inj h]
      rw [not_or, not_or] at hback
      exact UInt32.not_le.mp hback.2.2

end AmigaFleet.Mcpd.Debug
