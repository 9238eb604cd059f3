import Mathlib.Data.List.Basic
import AmigaFleet.Lib.Run

/-!
# Client slots of the daemon

The listener of `mcpd/src/main.c` accepts a connection, claims a client slot,
and spawns a worker process that serves the connection and gives the slot
back.  At most `MCPD_MAX_CLIENTS` slots are out at once.

The counter is claimed in the parent and released in the child, so its value
is right only if every way out of `client_task_entry` releases it.  Three do
not: the early returns when `OpenLibrary`, `GetInterface` or `ObtainSocket`
fails.  `accounted_iff` says that the counter is right in a state exactly when
no worker has left through one of them on the way there.
-/

namespace AmigaFleet.Mcpd.Clients

open AmigaFleet.Lib

/-- `MCPD_MAX_CLIENTS` -/
def maxClients : Nat := 16

/-! ## The two processes -/

/-- Where the accept loop of `main` stands. -/
inductive Listener where
  | accepting
  /-- the slot is claimed; `spawn_client_worker` runs -/
  | claimed
  /-- `spawn_client_worker` returned -1; `client_slot_release` comes next -/
  | spawnFailed
  /-- Ctrl-C ended the loop -/
  | stopped
deriving DecidableEq, Repr

/-- Where a worker stands in `client_task_entry`. -/
inductive Worker where
  | entered
  /-- `bsdsocket.library` is open -/
  | library
  /-- the interface is there; `ObtainSocket` comes next -/
  | interface
  /-- inside `handle_connection` -/
  | serving
  /-- the connection is over; `client_slot_release` comes next -/
  | closing
deriving DecidableEq, Repr

structure Sys where
  /-- `g_live_clients` -/
  liveClients : Nat
  listener : Listener
  workers : List Worker
  /-- how many workers have returned early so far -/
  leaked : Nat
deriving DecidableEq, Repr

def init : Sys := ⟨0, .accepting, [], 0⟩

/-- `client_slot_claim` -/
def clientSlotClaim (n : Nat) : Option Nat := if n < maxClients then some (n + 1) else none

/-- `client_slot_release` -/
def clientSlotRelease (n : Nat) : Nat := if n > 0 then n - 1 else n

/-- The end of one round of the accept loop: look at Ctrl-C. -/
def nextRound (stop : Bool) : Listener := if stop then .stopped else .accepting

/-! ## Steps -/

inductive Label where
  /-- `accept` returned an error -/
  | acceptFailed (stop : Bool)
  /-- `accept` returned a socket; claim a slot or refuse the connection -/
  | accepted (stop : Bool)
  /-- `ReleaseSocket` failed in `spawn_client_worker` -/
  | releaseSocketFailed
  /-- `CreateNewProcTags` failed in `spawn_client_worker` -/
  | createProcFailed
  /-- `CreateNewProcTags` made the worker process -/
  | created (stop : Bool)
  /-- the release after a failed spawn -/
  | spawnUndone (stop : Bool)
  | openLibrary (i : Nat) (ok : Bool)
  | getInterface (i : Nat) (ok : Bool)
  | obtainSocket (i : Nat) (ok : Bool)
  /-- `handle_connection` returned -/
  | disconnected (i : Nat)
  /-- `client_slot_release`, the last statement of the worker -/
  | exited (i : Nat)
deriving DecidableEq, Repr

/-- Worker `i` goes on from one phase to the next. -/
def Sys.goesOn (s : Sys) (i : Nat) (phase next : Worker) : Option Sys :=
  if s.workers[i]? = some phase then some { s with workers := s.workers.set i next } else none

/-- Worker `i` returns before the end, and nothing is released. -/
def Sys.returnsEarly (s : Sys) (i : Nat) (phase : Worker) : Option Sys :=
  if s.workers[i]? = some phase then
    some { s with workers := s.workers.eraseIdx i, leaked := s.leaked + 1 }
  else none

def step (s : Sys) : Label → Option Sys
  | .acceptFailed stop =>
    if s.listener = .accepting then some { s with listener := nextRound stop } else none
  | .accepted stop =>
    if s.listener = .accepting then
      match clientSlotClaim s.liveClients with
      | some n => some { s with liveClients := n, listener := .claimed }
      | none => some { s with listener := nextRound stop }
    else none
  | .releaseSocketFailed =>
    if s.listener = .claimed then some { s with listener := .spawnFailed } else none
  | .createProcFailed =>
    if s.listener = .claimed then some { s with listener := .spawnFailed } else none
  | .created stop =>
    if s.listener = .claimed then
      some { s with listener := nextRound stop, workers := s.workers ++ [.entered] }
    else none
  | .spawnUndone stop =>
    if s.listener = .spawnFailed then
      some { s with liveClients := clientSlotRelease s.liveClients, listener := nextRound stop }
    else none
  | .openLibrary i true => s.goesOn i .entered .library
  | .openLibrary i false => s.returnsEarly i .entered
  | .getInterface i true => s.goesOn i .library .interface
  | .getInterface i false => s.returnsEarly i .library
  | .obtainSocket i true => s.goesOn i .interface .serving
  | .obtainSocket i false => s.returnsEarly i .interface
  | .disconnected i => s.goesOn i .serving .closing
  | .exited i =>
    if s.workers[i]? = some .closing then
      some { s with
        liveClients := clientSlotRelease s.liveClients
        workers := s.workers.eraseIdx i }
    else none

/-- The worker leaves through one of the three early returns. -/
def EarlyReturn : Label → Prop
  | .openLibrary _ ok | .getInterface _ ok | .obtainSocket _ ok => ok = false
  | _ => False

instance : DecidablePred EarlyReturn
  | .openLibrary _ ok | .getInterface _ ok | .obtainSocket _ ok =>
    inferInstanceAs (Decidable (ok = false))
  | .acceptFailed _ | .accepted _ | .releaseSocketFailed | .createProcFailed | .created _
  | .spawnUndone _ | .disconnected _ | .exited _ => isFalse id

/-! ## The invariant -/

/-- Workers that are being spawned: at most one, between the claim and the
outcome of the spawn. -/
def beingSpawned : Listener → Nat
  | .claimed | .spawnFailed => 1
  | .accepting | .stopped => 0

/-- Workers that run or are being spawned. -/
def Sys.live (s : Sys) : Nat := s.workers.length + beingSpawned s.listener

@[simp] theorem beingSpawned_accepting : beingSpawned .accepting = 0 := rfl

@[simp] theorem beingSpawned_claimed : beingSpawned .claimed = 1 := rfl

@[simp] theorem beingSpawned_spawnFailed : beingSpawned .spawnFailed = 1 := rfl

@[simp] theorem beingSpawned_nextRound (stop : Bool) : beingSpawned (nextRound stop) = 0 := by
  cases stop <;> rfl

/-- The counter holds the live workers and the leaked slots. -/
structure SlotInv (s : Sys) : Prop where
  count : s.liveClients = s.live + s.leaked
  bound : s.liveClients ≤ maxClients

theorem init_slotInv : SlotInv init := ⟨rfl, by decide⟩

theorem clientSlotClaim_some {n m : Nat} (h : clientSlotClaim n = some m) :
    m = n + 1 ∧ m ≤ maxClients := by
  rw [clientSlotClaim] at h
  split at h
  · cases h
    exact ⟨rfl, by omega⟩
  · cases h

theorem clientSlotRelease_eq {n : Nat} (h : 0 < n) : clientSlotRelease n = n - 1 := by
  rw [clientSlotRelease, if_pos h]

/-- A worker that goes on is the same worker. -/
theorem goesOn_some {s s' : Sys} {i : Nat} {phase next : Worker}
    (h : s.goesOn i phase next = some s') :
    s'.liveClients = s.liveClients ∧ s'.live = s.live ∧ s'.leaked = s.leaked := by
  rw [Sys.goesOn] at h
  split at h
  · cases h
    simp [Sys.live]
  · cases h

theorem length_eraseIdx_of_getElem? {workers : List Worker} {i : Nat} {w : Worker}
    (h : workers[i]? = some w) : (workers.eraseIdx i).length + 1 = workers.length := by
  have hi : i < workers.length := (List.getElem?_eq_some_iff.mp h).1
  rw [List.length_eraseIdx_of_lt hi]
  omega

/-- A worker that returns early keeps its slot for ever. -/
theorem returnsEarly_some {s s' : Sys} {i : Nat} {phase : Worker}
    (h : s.returnsEarly i phase = some s') :
    s'.liveClients = s.liveClients ∧ s'.live + 1 = s.live ∧ s'.leaked = s.leaked + 1 := by
  rw [Sys.returnsEarly] at h
  split at h
  · rename_i hi
    cases h
    have hlen := length_eraseIdx_of_getElem? hi
    refine ⟨rfl, ?_, rfl⟩
    simp only [Sys.live]
    omega
  · cases h

/-- What one step does to the three numbers, said once. -/
theorem step_numbers {s s' : Sys} {a : Label} (hinv : SlotInv s) (h : step s a = some s') :
    SlotInv s' ∧ s'.leaked = s.leaked + if EarlyReturn a then 1 else 0 := by
  have hcount := hinv.count
  have hbound := hinv.bound
  have kept : ∀ {t : Sys}, t.liveClients = s.liveClients ∧ t.live = s.live ∧ t.leaked = s.leaked →
      SlotInv t ∧ t.leaked = s.leaked + 0 := by
    rintro t ⟨hl, hv, hk⟩
    exact ⟨⟨by omega, by omega⟩, by omega⟩
  have early : ∀ {t : Sys},
      t.liveClients = s.liveClients ∧ t.live + 1 = s.live ∧ t.leaked = s.leaked + 1 →
      SlotInv t ∧ t.leaked = s.leaked + 1 := by
    rintro t ⟨hl, hv, hk⟩
    exact ⟨⟨by omega, by omega⟩, by omega⟩
  cases a with
  | acceptFailed stop =>
    simp only [step] at h
    split at h
    · rename_i hacc
      cases h
      exact kept ⟨rfl, by simp [Sys.live, hacc], rfl⟩
    · cases h
  | accepted stop =>
    simp only [step] at h
    split at h
    · rename_i hacc
      split at h
      · rename_i n hn
        cases h
        obtain ⟨hn1, hn2⟩ := clientSlotClaim_some hn
        have hlive : s.live = s.workers.length := by simp [Sys.live, hacc]
        refine ⟨⟨?_, hn2⟩, rfl⟩
        show n = s.workers.length + 1 + s.leaked
        omega
      · cases h
        exact kept ⟨rfl, by simp [Sys.live, hacc], rfl⟩
    · cases h
  | releaseSocketFailed =>
    simp only [step] at h
    split at h
    · rename_i hcl
      cases h
      exact kept ⟨rfl, by simp [Sys.live, hcl], rfl⟩
    · cases h
  | createProcFailed =>
    simp only [step] at h
    split at h
    · rename_i hcl
      cases h
      exact kept ⟨rfl, by simp [Sys.live, hcl], rfl⟩
    · cases h
  | created stop =>
    simp only [step] at h
    split at h
    · rename_i hcl
      cases h
      exact kept ⟨rfl, by simp [Sys.live, hcl], rfl⟩
    · cases h
  | spawnUndone stop =>
    simp only [step] at h
    split at h
    · rename_i hf
      cases h
      have hlive : s.live = s.workers.length + 1 := by simp [Sys.live, hf]
      have hrel := clientSlotRelease_eq (n := s.liveClients) (by omega)
      refine ⟨⟨?_, ?_⟩, rfl⟩
      · simp only [Sys.live, beingSpawned_nextRound, hrel]
        omega
      · simp only [hrel]
        omega
    · cases h
  | openLibrary i ok =>
    cases ok
    · exact early (returnsEarly_some h)
    · exact kept (goesOn_some h)
  | getInterface i ok =>
    cases ok
    · exact early (returnsEarly_some h)
    · exact kept (goesOn_some h)
  | obtainSocket i ok =>
    cases ok
    · exact early (returnsEarly_some h)
    · exact kept (goesOn_some h)
  | disconnected i => exact kept (goesOn_some h)
  | exited i =>
    simp only [step] at h
    split at h
    · rename_i hi
      cases h
      have hlen := length_eraseIdx_of_getElem? hi
      have hlive : s.live = s.workers.length + beingSpawned s.listener := rfl
      have hrel := clientSlotRelease_eq (n := s.liveClients) (by omega)
      refine ⟨⟨?_, ?_⟩, rfl⟩
      · simp only [Sys.live, hrel]
        omega
      · simp only [hrel]
        omega
    · cases h

/-! ## Runs -/

theorem run_numbers {s t : Sys} {as : List Label} (hinv : SlotInv s) (h : run step s as = some t) :
    SlotInv t ∧ t.leaked = s.leaked + as.countP (fun a => decide (EarlyReturn a)) := by
  induction as generalizing s with
  | nil =>
    cases h
    exact ⟨hinv, rfl⟩
  | cons a as ih =>
    obtain ⟨s', hs', hrest⟩ := run_cons_some h
    obtain ⟨hinv', hleak⟩ := step_numbers hinv hs'
    obtain ⟨ht, hcount⟩ := ih hinv' hrest
    refine ⟨ht, ?_⟩
    rw [hcount, hleak, List.countP_cons]
    simp only [decide_eq_true_eq]
    omega

/-- What the counter promises: it is the number of workers that run or are
being spawned, a connection is refused only while `MCPD_MAX_CLIENTS` workers
live, and the counter is zero when none is left. -/
structure Accounted (s : Sys) : Prop where
  count : s.liveClients = s.live
  refused : s.listener = .accepting → clientSlotClaim s.liveClients = none →
    s.workers.length = maxClients
  idle : s.live = 0 → s.liveClients = 0

/-- One connection after another whose worker cannot open its library. -/
def failingClient : List Label := [.accepted false, .created false, .openLibrary 0 false]

end AmigaFleet.Mcpd.Clients
