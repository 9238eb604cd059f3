import Mathlib.Data.Fintype.Card
import Mathlib.Tactic.Ring
import AmigaFleet.Lib.Budget
import AmigaFleet.Mcpd.Discovery

/-!
# The reply budgets of discovery

A bucket is worth what it would hold if it were refilled now.  Time raises that
by the rate, up to the burst, and a reply lowers it by one token, which is what
the budget rule of `AmigaFleet.Lib.Budget` asks for.

* `global_budget` bounds the replies to everybody in a window.
* `source_budget` bounds the replies to one address, as long as no address
  loses its slot.  The loop of `_rl_src_for` takes the address 0 for the mark
  of a free slot, so a probe from 0.0.0.0 finds no slot of its own, and when no
  slot is free it takes over the slot of a live address: `zero_source` is a
  run in which an address gets a second burst that way.
-/

namespace AmigaFleet.Mcpd.Discovery

open AmigaFleet.Lib

/-! ## One bucket -/

/-- The tokens stay between zero and the burst. -/
structure Bucket.Sound (burst : Nat) (b : Bucket) : Prop where
  nonneg : 0 ≤ b.tokens
  le : b.tokens ≤ burst * rlScale

/-- What the bucket holds when it is refilled at `now`. -/
def Bucket.worth (rate burst : Nat) (now : UInt32) (b : Bucket) : Nat :=
  min (burst * 1000) (b.tokens.toNat + rate * 20 * (now - b.lastTick).toNat)

theorem elapsed_add (a b : UInt32) (wait : Nat) :
    (a + UInt32.ofNat wait - b).toNat ≤ (a - b).toNat + wait := by
  have hcomm : a + UInt32.ofNat wait - b = a - b + UInt32.ofNat wait := by grind
  rw [hcomm, UInt32.toNat_add, UInt32.toNat_ofNat']
  have hmod := Nat.mod_le wait (2 ^ 32)
  have hsum := Nat.mod_le ((a - b).toNat + wait % 2 ^ 32) (2 ^ 32)
  omega

/-- Time raises the worth by the rate. -/
theorem Bucket.worth_wait (rate burst : Nat) (now : UInt32) (wait : Nat) (b : Bucket) :
    b.worth rate burst (now + UInt32.ofNat wait) ≤ b.worth rate burst now + rate * 20 * wait := by
  have helapsed := Nat.mul_le_mul_left (rate * 20) (elapsed_add now b.lastTick wait)
  rw [Nat.mul_add] at helapsed
  unfold Bucket.worth
  omega

theorem Bucket.worth_le (rate burst : Nat) (now : UInt32) (b : Bucket) :
    b.worth rate burst now ≤ burst * 1000 := Nat.min_le_left _ _

theorem Bucket.worth_now (rate burst n : Nat) (now : UInt32) (h : n ≤ burst * 1000) :
    Bucket.worth rate burst now ⟨n, now⟩ = n := by
  have hzero : (now - now).toNat = 0 := by simp
  unfold Bucket.worth
  dsimp only
  rw [hzero]
  omega

/-- Refilling turns the worth into tokens. -/
theorem rlRefill_eq {rate burst : Nat} {b : Bucket} (h : b.Sound burst) (now : UInt32) :
    rlRefill b now rate burst = ⟨b.worth rate burst now, now⟩ := by
  have hnonneg := h.nonneg
  have hle := h.le
  obtain ⟨tokens, last⟩ := b
  simp only [rlScale] at hnonneg hle
  unfold rlRefill Bucket.worth
  dsimp only
  by_cases hzero : now - last = 0
  · have hnow : now = last := by grind
    subst hnow
    rw [if_pos hzero, hzero]
    simp only [Bucket.mk.injEq, and_true, UInt32.toNat_zero, Nat.mul_zero, Nat.add_zero]
    omega
  · rw [if_neg hzero]
    have hrate : (((now - last).toNat : Int) * rate * rlScale).tdiv ticksPerSec =
        ((rate * 20 * (now - last).toNat : Nat) : Int) := by
      have hfactor : ((now - last).toNat : Int) * rate * rlScale =
          ((rate * 20 * (now - last).toNat : Nat) : Int) * ticksPerSec := by
        simp only [rlScale, ticksPerSec]
        push_cast
        ring
      rw [hfactor, Int.mul_tdiv_cancel _ (by decide)]
    rw [hrate]
    generalize rate * 20 * (now - last).toNat = gain
    have hscale : rlScale = 1000 := rfl
    by_cases hfull : tokens + (gain : Int) > burst * rlScale
    · rw [if_pos hfull]
      simp only [Bucket.mk.injEq, and_true]
      rw [hscale] at hfull ⊢
      omega
    · rw [if_neg hfull]
      simp only [Bucket.mk.injEq, and_true]
      rw [hscale] at hfull
      omega

/-- What becomes of a bucket when a probe is allowed or refused. -/
def Bucket.charge (allowed : Bool) (b : Bucket) : Bucket := if allowed then b.spend else b

/-- A bucket that allows a reply has the token for it, and a refusal takes
none. -/
theorem charge_worth {rate burst : Nat} {b : Bucket} (h : b.Sound burst) (now : UInt32)
    {allowed : Bool} (hallowed : allowed = true → rlScale ≤ (rlRefill b now rate burst).tokens) :
    ((rlRefill b now rate burst).charge allowed).Sound burst ∧
      ((rlRefill b now rate burst).charge allowed).worth rate burst now +
        (if allowed then 1000 else 0) = b.worth rate burst now := by
  have hle := b.worth_le rate burst now
  rw [rlRefill_eq h] at hallowed ⊢
  generalize b.worth rate burst now = n at hallowed hle ⊢
  cases allowed with
  | false =>
    have hsound : Bucket.Sound burst ⟨n, now⟩ := by
      refine ⟨Int.natCast_nonneg n, ?_⟩
      simp only [rlScale]
      omega
    exact ⟨hsound, Bucket.worth_now rate burst n now hle⟩
  | true =>
    have htoken := hallowed rfl
    simp only [rlScale] at htoken
    obtain ⟨m, rfl⟩ : ∃ m, n = m + 1000 := ⟨n - 1000, by omega⟩
    have hspend : (Bucket.mk ((m + 1000 : Nat) : Int) now).charge true = ⟨(m : Nat), now⟩ := by
      unfold Bucket.charge Bucket.spend rlScale
      rw [if_pos rfl, Int.natCast_add]
      exact congrArg (Bucket.mk · now) (Int.add_sub_cancel (m : Int) 1000)
    rw [hspend]
    refine ⟨⟨Int.natCast_nonneg m, ?_⟩, ?_⟩
    · simp only [rlScale]
      omega
    · rw [Bucket.worth_now rate burst m now (by omega)]
      rfl

/-! ## The table of sources -/

theorem rlScan_own {src : Fin srcSlots → Src} {ip now : UInt32} {is : List (Fin srcSlots)}
    {freeSlot : Option (Fin srcSlots)} {oldest i : Fin srcSlots}
    (h : rlScan src ip now is freeSlot oldest = .own i) : (src i).ip ≠ 0 ∧ (src i).ip = ip := by
  induction is generalizing freeSlot oldest with
  | nil => cases h
  | cons j is ih =>
    rw [rlScan] at h
    split at h
    · rename_i hown
      cases h
      exact hown
    · exact ih h

/-- A slot is taken over when the address has none, and a free one goes
first. -/
theorem rlScan_taken {src : Fin srcSlots → Src} {ip now : UInt32} {is : List (Fin srcSlots)}
    {freeSlot : Option (Fin srcSlots)} {oldest i : Fin srcSlots}
    (hfree : ∀ j, freeSlot = some j → (src j).ip = 0)
    (h : rlScan src ip now is freeSlot oldest = .taken i) :
    (∀ j ∈ is, (src j).ip = 0 ∨ (src j).ip ≠ ip) ∧
      (freeSlot.isSome ∨ (∃ j ∈ is, (src j).ip = 0) → (src i).ip = 0) := by
  induction is generalizing freeSlot oldest with
  | nil =>
    refine ⟨fun j hj => absurd hj List.not_mem_nil, ?_⟩
    rintro (hsome | ⟨j, hj, _⟩)
    · obtain ⟨j, rfl⟩ := Option.isSome_iff_exists.mp hsome
      cases h
      exact hfree j rfl
    · exact absurd hj List.not_mem_nil
  | cons j is ih =>
    rw [rlScan] at h
    split at h
    · cases h
    · rename_i hother
      have hfree' : ∀ k, (if (src j).ip = 0 ∧ freeSlot = none then some j else freeSlot) =
          some k → (src k).ip = 0 := by
        intro k hk
        split at hk
        · rename_i hj
          cases hk
          exact hj.1
        · exact hfree k hk
      obtain ⟨hnone, hzero⟩ := ih hfree' h
      refine ⟨?_, ?_⟩
      · intro k hk
        rcases List.mem_cons.mp hk with rfl | hk
        · by_cases hip : (src k).ip = 0
          · exact Or.inl hip
          · exact Or.inr fun heq => hother ⟨hip, heq⟩
        · exact hnone k hk
      · intro hsome
        apply hzero
        rcases hsome with hsome | ⟨k, hk, hk0⟩
        · refine Or.inl ?_
          split
          · rfl
          · exact hsome
        · rcases List.mem_cons.mp hk with rfl | hk
          · refine Or.inl ?_
            split
            · rfl
            · rename_i hsplit
              cases hfs : freeSlot with
              | none => exact absurd ⟨hk0, hfs⟩ hsplit
              | some _ => rfl
          · exact Or.inr ⟨k, hk, hk0⟩

/-- `_rl_src_for` finds the slot of the address, or takes one over and starts
it with a full burst. -/
theorem rlSrcFor_cases (src : Fin srcSlots → Src) (ip now : UInt32) {i : Fin srcSlots} {s : Src}
    (h : rlSrcFor src ip now = (i, s)) :
    (ip ≠ 0 ∧ (src i).ip = ip ∧ s = { src i with lastSeen := now }) ∨
      ((∀ j, (src j).ip = 0 ∨ (src j).ip ≠ ip) ∧ ((∃ j, (src j).ip = 0) → (src i).ip = 0) ∧
        s = ⟨ip, now, rlInit srcBurst now⟩) := by
  unfold rlSrcFor at h
  cases hscan : rlScan src ip now (List.finRange srcSlots) none 0 with
  | own j =>
    rw [hscan] at h
    cases h
    obtain ⟨hne, heq⟩ := rlScan_own hscan
    exact Or.inl ⟨heq ▸ hne, heq, rfl⟩
  | taken j =>
    rw [hscan] at h
    cases h
    obtain ⟨hnone, hzero⟩ := rlScan_taken (by simp) hscan
    refine Or.inr ⟨fun k => hnone k (List.mem_finRange k), ?_, rfl⟩
    rintro ⟨k, hk⟩
    exact hzero (Or.inr ⟨k, List.mem_finRange k, hk⟩)

/-- Both buckets are refilled, and both are charged or none. -/
theorem rlAllow_cases (l : Limiter) (ip now : UInt32) : ∃ i s allowed,
    rlSrcFor l.src ip now = (i, s) ∧
    rlAllow l ip now =
      (⟨Function.update l.src i
          { s with bucket := (rlRefill s.bucket now srcRate srcBurst).charge allowed },
        (rlRefill l.global now globalRate globalBurst).charge allowed⟩, allowed) ∧
    (allowed = true → rlScale ≤ (rlRefill s.bucket now srcRate srcBurst).tokens ∧
      rlScale ≤ (rlRefill l.global now globalRate globalBurst).tokens) := by
  rcases hfor : rlSrcFor l.src ip now with ⟨i, s⟩
  unfold rlAllow
  rw [hfor]
  dsimp only
  by_cases hlow : (rlRefill s.bucket now srcRate srcBurst).tokens < rlScale ∨
      (rlRefill l.global now globalRate globalBurst).tokens < rlScale
  · refine ⟨i, s, false, rfl, ?_, fun h => nomatch h⟩
    rw [if_pos hlow]
    rfl
  · refine ⟨i, s, true, rfl, ?_, fun _ => ⟨?_, ?_⟩⟩
    · rw [if_neg hlow]
      rfl
    · omega
    · omega

/-! ## Bounds on the tokens -/

/-- The bounds on the tokens of every bucket in use. -/
structure Limiter.Sound (l : Limiter) : Prop where
  global : l.global.Sound 24
  src : ∀ i, (l.src i).ip ≠ 0 → (l.src i).bucket.Sound 4

theorem rlInit_sound (burst : Nat) (now : UInt32) : (rlInit burst now).Sound burst := by
  unfold rlInit rlScale
  refine ⟨?_, Int.le_refl _⟩
  dsimp only
  omega

/-- What `_rl_src_for` returns is sound. -/
theorem Limiter.Sound.srcFor {l : Limiter} (h : l.Sound) {ip now : UInt32} {i : Fin srcSlots}
    {s : Src} (hfor : rlSrcFor l.src ip now = (i, s)) : s.bucket.Sound 4 := by
  rcases rlSrcFor_cases l.src ip now hfor with ⟨hne, heq, rfl⟩ | ⟨_, _, rfl⟩
  · exact h.src i (heq ▸ hne)
  · exact rlInit_sound 4 now

theorem Limiter.Sound.allow {l : Limiter} (h : l.Sound) (ip now : UInt32) :
    (rlAllow l ip now).1.Sound := by
  obtain ⟨i, s, allowed, hfor, heq, htokens⟩ := rlAllow_cases l ip now
  have hs := h.srcFor hfor
  rw [heq]
  refine ⟨(charge_worth h.global now fun ha => (htokens ha).2).1, fun j hj => ?_⟩
  dsimp only at hj ⊢
  by_cases hij : j = i
  · subst hij
    rw [Function.update_self]
    exact (charge_worth hs now fun ha => (htokens ha).1).1
  · rw [Function.update_of_ne hij] at hj ⊢
    exact h.src j hj

theorem sound_init (hostname : Option Bytes) (tcpPort : UInt16) (methods : Int32) (now : UInt32) :
    (Daemon.init hostname tcpPort methods now).limiter.Sound :=
  ⟨rlInit_sound 24 now, fun _ h => absurd rfl h⟩

theorem Limiter.Sound.serve {d : Daemon} (h : d.limiter.Sound) (g : Datagram) :
    (d.serve g).1.limiter.Sound := by
  rcases (serve_cases d g).2 with ⟨heq, _⟩ | ⟨_, heq, _⟩
  · rwa [heq]
  · rw [heq]
    exact h.allow _ _

/-! ## The global budget -/

/-- A reply costs a token, if it is one that counts. -/
def replyCost (counts : UInt32 → Bool) (d : Daemon) (g : Datagram) : Nat :=
  if (d.serve g).2.isSome ∧ counts g.ip = true then 1000 else 0

/-- A thousand for every reply that counts. -/
theorem spent_replies (counts : UInt32 → Bool) (d : Daemon) (gs : List Datagram) :
    spent step (replyCost counts) d gs =
      1000 * ((replies d gs).filter fun r => counts r.1).length := by
  induction gs generalizing d with
  | nil => rfl
  | cons g gs ih =>
    have hstep : step d g = some (d.serve g).1 := rfl
    rw [spent_cons hstep, ih, replies, List.filter_append, List.length_append, Nat.mul_add]
    congr 1
    unfold replyCost
    cases (d.serve g).2 with
    | none => simp
    | some resp => cases hcounts : counts g.ip <;> simp [hcounts]

theorem step_serve {d d' : Daemon} {g : Datagram} (h : step d g = some d') : d' = (d.serve g).1 := by
  cases h
  rfl

/-- The worth of the global bucket. -/
def Daemon.globalWorth (d : Daemon) : Nat := d.limiter.global.worth 8 24 d.clock

theorem globalWorth_serve {d : Daemon} (h : d.limiter.Sound) (counts : UInt32 → Bool)
    (g : Datagram) :
    (d.serve g).1.globalWorth + replyCost counts d g ≤
      d.limiter.global.worth 8 24 (d.clock + UInt32.ofNat g.wait) := by
  obtain ⟨hclock, hcases⟩ := serve_cases d g
  unfold Daemon.globalWorth replyCost
  rw [hclock]
  rcases hcases with ⟨heq, hnone⟩ | ⟨_, heq, hsome⟩
  · rw [heq, hnone]
    simp
  · obtain ⟨i, s, allowed, _, hallow, htokens⟩ :=
      rlAllow_cases d.limiter g.ip (d.clock + UInt32.ofNat g.wait)
    have hcharge := (charge_worth h.global (d.clock + UInt32.ofNat g.wait)
      fun ha => (htokens ha).2).2
    rw [hallow] at heq hsome
    rw [heq, ← hcharge]
    apply Nat.add_le_add_left
    cases allowed with
    | false =>
      rw [if_neg fun hreply => Bool.false_ne_true (hsome hreply.1)]
      exact Nat.zero_le _
    | true =>
      rw [if_pos rfl]
      split <;> omega

/-- The bounds on the tokens hold in every state. -/
theorem sound_after {d : Daemon} (h : d.limiter.Sound) (gs : List Datagram) :
    (d.after gs).limiter.Sound := by
  induction gs generalizing d with
  | nil => exact h
  | cons g gs ih => exact ih (h.serve g)

/-- In every run the replies of a window of `span` ticks number at most the
burst and what the rate adds in that time, and the tokens stay in bounds. -/
theorem global_budget (hostname : Option Bytes) (tcpPort : UInt16) (methods : Int32) (now : UInt32)
    (before : List Datagram) (first : Datagram) (rest : List Datagram) (span : Nat)
    (hspan : (rest.map Datagram.wait).sum ≤ span) :
    (replies ((Daemon.init hostname tcpPort methods now).after before) (first :: rest)).length ≤
        24 + 8 * span / 50 ∧
      ((Daemon.init hostname tcpPort methods now).after before).limiter.Sound := by
  have hsound := sound_after (sound_init hostname tcpPort methods now) before
  refine ⟨?_, hsound⟩
  generalize (Daemon.init hostname tcpPort methods now).after before = d at hsound ⊢
  have hwindow : spent step (replyCost fun _ => true) d (first :: rest) ≤
      24 * 1000 + 160 * (rest.map Datagram.wait).sum := by
    refine window_le (fun _ _ => True) (fun d => d.limiter.Sound) Daemon.globalWorth ?_ ?_ ?_ hsound
      (along_true ..)
    · intro d g d' hd _ h
      rw [step_serve h]
      exact hd.serve g
    · intro d g d' hd _ h
      rw [step_serve h]
      have hworth := globalWorth_serve hd (fun _ => true) g
      have hwait := d.limiter.global.worth_wait 8 24 d.clock g.wait
      unfold Daemon.globalWorth at hworth ⊢
      omega
    · intro d g d' hd _ h
      rw [step_serve h]
      exact Nat.le_trans (globalWorth_serve hd (fun _ => true) g) (Bucket.worth_le ..)
  rw [spent_replies, List.filter_true] at hwindow
  omega

/-- The probe that the host sends. -/
def probeFrom (ip : UInt32) : Datagram where
  wait := 0
  ip := ip
  bytes := ascii "\x7b\"mcp_discovery\":1,\"v\":1,\"client\":\"amiga-fleet-mcp\",\"tag\":\"00ff00ff\"\x7d"

/-- Thirty probes from thirty addresses at once get twenty-four replies. -/
theorem global_budget_sample :
    (replies ((Daemon.init none 4322 100 7).after [])
        ((List.range' 1 30).map fun k => probeFrom (UInt32.ofNat k))).length = 24 := by
  have hbound := (global_budget none 4322 100 7 [] (probeFrom 1)
    ((List.range' 2 29).map fun k => probeFrom (UInt32.ofNat k)) 0 (by decide +kernel)).1
  exact Nat.le_antisymm hbound (by decide +kernel)

/-! ## The budget of one address -/

/-- Occupied slots hold pairwise different addresses. -/
def Limiter.Distinct (l : Limiter) : Prop :=
  ∀ i j, (l.src i).ip ≠ 0 → (l.src i).ip = (l.src j).ip → i = j

/-- The slot of an address. -/
def Limiter.slotOf (l : Limiter) (x : UInt32) : Option (Fin srcSlots) :=
  (List.finRange srcSlots).find? fun i => (l.src i).ip = x

/-- What the bucket of an address is worth; an address without a slot would
start with a full burst. -/
def Limiter.sourceWorth (l : Limiter) (x now : UInt32) : Nat :=
  match l.slotOf x with
  | some i => (l.src i).bucket.worth 1 4 now
  | none => 4000

theorem Limiter.Distinct.sourceWorth {l : Limiter} (h : l.Distinct) {x : UInt32} (hx : x ≠ 0)
    {i : Fin srcSlots} (hi : (l.src i).ip = x) (now : UInt32) :
    l.sourceWorth x now = (l.src i).bucket.worth 1 4 now := by
  unfold Limiter.sourceWorth
  cases hslot : l.slotOf x with
  | none =>
    have hnone := List.find?_eq_none.mp hslot i (List.mem_finRange i)
    exact absurd (decide_eq_true hi) hnone
  | some j =>
    have hj : (l.src j).ip = x := by simpa using List.find?_some hslot
    have hij : i = j := h i j (hi ▸ hx) (hi.trans hj.symm)
    rw [hij]

theorem Limiter.sourceWorth_absent {l : Limiter} {x : UInt32} (h : ∀ i, (l.src i).ip ≠ x)
    (now : UInt32) : l.sourceWorth x now = 4000 := by
  have hnone : l.slotOf x = none := by
    apply List.find?_eq_none.mpr
    intro i _
    simpa using h i
  unfold Limiter.sourceWorth
  rw [hnone]

theorem Limiter.sourceWorth_le (l : Limiter) (x now : UInt32) : l.sourceWorth x now ≤ 4000 := by
  unfold Limiter.sourceWorth
  split
  · exact Bucket.worth_le ..
  · exact Nat.le_refl _

/-- The slot that is written is the one of its address. -/
theorem Limiter.Distinct.sourceWorth_self {src : Fin srcSlots → Src} {i : Fin srcSlots} {s : Src}
    {g : Bucket} (h : Limiter.Distinct ⟨Function.update src i s, g⟩) {x : UInt32} (hx : x ≠ 0)
    (hs : s.ip = x) (now : UInt32) :
    Limiter.sourceWorth ⟨Function.update src i s, g⟩ x now = s.bucket.worth 1 4 now := by
  have hi : ((⟨Function.update src i s, g⟩ : Limiter).src i).ip = x := by
    dsimp only
    rw [Function.update_self, hs]
  rw [h.sourceWorth hx hi]
  dsimp only
  rw [Function.update_self]

/-- An address that the written slot did not have gains nothing. -/
theorem Limiter.Distinct.sourceWorth_other {l : Limiter} (h : l.Distinct) {i : Fin srcSlots}
    {s : Src} {g : Bucket} (h' : Limiter.Distinct ⟨Function.update l.src i s, g⟩) {x : UInt32}
    (hx : x ≠ 0) (hi : (l.src i).ip ≠ x) (now : UInt32) :
    Limiter.sourceWorth ⟨Function.update l.src i s, g⟩ x now ≤ l.sourceWorth x now := by
  by_cases hsome : ∃ j, (l.src j).ip = x
  · obtain ⟨j, hj⟩ := hsome
    have hji : j ≠ i := by
      rintro rfl
      exact hi hj
    have hafter : ((⟨Function.update l.src i s, g⟩ : Limiter).src j).ip = x := by
      dsimp only
      rw [Function.update_of_ne hji, hj]
    rw [h'.sourceWorth hx hafter, h.sourceWorth hx hj]
    dsimp only
    rw [Function.update_of_ne hji]
  · rw [not_exists] at hsome
    rw [Limiter.sourceWorth_absent hsome]
    exact Limiter.sourceWorth_le ..

theorem Limiter.sourceWorth_wait (l : Limiter) (x now : UInt32) (wait : Nat) :
    l.sourceWorth x (now + UInt32.ofNat wait) ≤ l.sourceWorth x now + 20 * wait := by
  unfold Limiter.sourceWorth
  split
  · exact Bucket.worth_wait 1 4 now wait _
  · omega

/-- The addresses of the table are among `addresses`. -/
structure Limiter.Within (addresses : Finset UInt32) (l : Limiter) : Prop where
  sound : l.Sound
  distinct : l.Distinct
  within : ∀ i, (l.src i).ip ≠ 0 → (l.src i).ip ∈ addresses

/-- A probe does not cost an address its slot. -/
def KeepsSlots (d : Daemon) (g : Datagram) : Prop :=
  g.isProbe = true → g.ip = 0 → ∃ i, (d.limiter.src i).ip = 0

/-- With sixteen addresses at most, an address that has no slot finds a free
one. -/
theorem Limiter.Within.exists_free {addresses : Finset UInt32} {l : Limiter}
    (h : l.Within addresses) (hcard : addresses.card ≤ srcSlots) {ip : UInt32}
    (hip : ip ∈ addresses) (habsent : ∀ i, (l.src i).ip = 0 ∨ (l.src i).ip ≠ ip) :
    ∃ i, (l.src i).ip = 0 := by
  by_contra hfull
  rw [not_exists] at hfull
  have hmap : ∀ i ∈ (Finset.univ : Finset (Fin srcSlots)),
      (l.src i).ip ∈ addresses.erase ip := by
    intro i _
    exact Finset.mem_erase.mpr ⟨(habsent i).resolve_left (hfull i), h.within i (hfull i)⟩
  have hinj : Set.InjOn (fun i => (l.src i).ip) (Finset.univ : Finset (Fin srcSlots)) := by
    intro i _ j _ hij
    exact h.distinct i j (hfull i) hij
  have hle := Finset.card_le_card_of_injOn _ hmap hinj
  rw [Finset.card_univ, Fintype.card_fin, Finset.card_erase_of_mem hip] at hle
  have hpos := Finset.card_pos.mpr ⟨ip, hip⟩
  omega

/-- A slot gets an address that no other slot has. -/
theorem Limiter.Distinct.update {l : Limiter} (h : l.Distinct) {i : Fin srcSlots} {s : Src}
    (hother : ∀ j, j ≠ i → (l.src j).ip = 0 ∨ (l.src j).ip ≠ s.ip) (g : Bucket) :
    Limiter.Distinct ⟨Function.update l.src i s, g⟩ := by
  intro j k hj hjk
  dsimp only at hj hjk
  by_cases hji : j = i
  · by_cases hki : k = i
    · rw [hji, hki]
    · subst hji
      rw [Function.update_self, Function.update_of_ne hki] at hjk
      rw [Function.update_self] at hj
      rcases hother k hki with hk | hk
      · exact absurd (hjk.trans hk) hj
      · exact absurd hjk.symm hk
  · rw [Function.update_of_ne hji] at hj hjk
    by_cases hki : k = i
    · subst hki
      rw [Function.update_self] at hjk
      exact absurd hjk ((hother j hji).resolve_left hj)
    · rw [Function.update_of_ne hki] at hjk
      exact h j k hj hjk

/-- Occupied slots stay distinct whatever the addresses are. -/
theorem Limiter.Distinct.allow {l : Limiter} (h : l.Distinct) (ip now : UInt32) :
    (rlAllow l ip now).1.Distinct := by
  obtain ⟨i, s, allowed, hfor, heq, _⟩ := rlAllow_cases l ip now
  rw [heq]
  apply h.update
  intro j hji
  rcases rlSrcFor_cases l.src ip now hfor with ⟨hne, hi, rfl⟩ | ⟨habsent, _, rfl⟩
  · refine Or.inr fun hj => hji (h i j (hi ▸ hne) hj.symm).symm
  · exact habsent j

theorem Limiter.Distinct.serve {d : Daemon} (h : d.limiter.Distinct) (g : Datagram) :
    (d.serve g).1.limiter.Distinct := by
  rcases (serve_cases d g).2 with ⟨heq, _⟩ | ⟨_, heq, _⟩
  · rwa [heq]
  · rw [heq]
    exact h.allow _ _

/-- The slot that a probe gets is its own, or a free one when one is free. -/
theorem slot_cases {l : Limiter} {ip now : UInt32}
    (hfree : (∃ i, (l.src i).ip = ip ∧ ip ≠ 0) ∨ ∃ i, (l.src i).ip = 0) {i : Fin srcSlots}
    {s : Src} (hfor : rlSrcFor l.src ip now = (i, s)) :
    s.ip = ip ∧ ((ip ≠ 0 ∧ (l.src i).ip = ip ∧ s.bucket = (l.src i).bucket) ∨
      ((∀ j, (l.src j).ip = 0 ∨ (l.src j).ip ≠ ip) ∧ (l.src i).ip = 0)) := by
  rcases rlSrcFor_cases l.src ip now hfor with ⟨hne, heq, rfl⟩ | ⟨habsent, hzero, rfl⟩
  · exact ⟨heq, Or.inl ⟨hne, heq, rfl⟩⟩
  · refine ⟨rfl, Or.inr ⟨habsent, hzero ?_⟩⟩
    rcases hfree with ⟨j, hj, hne⟩ | hfree
    · rcases habsent j with h0 | hother
      · exact absurd (hj.symm.trans h0) hne
      · exact absurd hj hother
    · exact hfree

/-- What one probe does to the worth of every address, when the slot it gets is
its own or free. -/
theorem sourceWorth_allow {l : Limiter} (hs : l.Sound) (hd : l.Distinct) (ip now : UInt32)
    (hfree : (∃ i, (l.src i).ip = ip ∧ ip ≠ 0) ∨ ∃ i, (l.src i).ip = 0) {x : UInt32}
    (hx : x ≠ 0) :
    (rlAllow l ip now).1.sourceWorth x now +
        (if (rlAllow l ip now).2 = true ∧ ip = x then 1000 else 0) ≤ l.sourceWorth x now := by
  obtain ⟨i, s, allowed, hfor, heq, htokens⟩ := rlAllow_cases l ip now
  obtain ⟨hip, hslot⟩ := slot_cases hfree hfor
  have hd' := hd.allow ip now
  have hcharge := (charge_worth (hs.srcFor hfor) now fun ha => (htokens ha).1).2
  rw [heq] at hd' ⊢
  dsimp only at hd' ⊢
  by_cases hipx : ip = x
  · subst hipx
    have hcost : (if allowed = true ∧ ip = ip then 1000 else 0) =
        if allowed = true then 1000 else 0 := by simp
    rw [hd'.sourceWorth_self hx (s := { s with bucket := _ }) hip, hcost]
    refine Nat.le_trans (Nat.le_of_eq hcharge) ?_
    rcases hslot with ⟨_, hi, hbucket⟩ | ⟨habsent, _⟩
    · rw [hd.sourceWorth hx hi, hbucket]
    · have hnone : ∀ j, (l.src j).ip ≠ ip := by
        intro j hj
        rcases habsent j with h0 | hother
        · exact hx (hj.symm.trans h0)
        · exact hother hj
      rw [Limiter.sourceWorth_absent hnone]
      exact Bucket.worth_le ..
  · have hi : (l.src i).ip ≠ x := by
      rcases hslot with ⟨_, hi, _⟩ | ⟨_, hi⟩
      · rw [hi]
        exact hipx
      · rw [hi]
        exact hx.symm
    rw [if_neg fun h => hipx h.2, Nat.add_zero]
    exact hd.sourceWorth_other hd' hx hi now

/-- The invariant of a run whose probes come from `addresses`. -/
theorem Limiter.Within.allow {addresses : Finset UInt32} {l : Limiter}
    (h : l.Within addresses) {ip : UInt32} (hip : ip ≠ 0 → ip ∈ addresses) (now : UInt32) :
    (rlAllow l ip now).1.Within addresses := by
  refine ⟨h.sound.allow ip now, h.distinct.allow ip now, ?_⟩
  obtain ⟨i, s, allowed, hfor, heq, _⟩ := rlAllow_cases l ip now
  rw [heq]
  intro j hj
  dsimp only at hj ⊢
  by_cases hji : j = i
  · subst hji
    rw [Function.update_self] at hj ⊢
    have hs : s.ip = ip := by
      rcases rlSrcFor_cases l.src ip now hfor with ⟨_, hown, rfl⟩ | ⟨_, _, rfl⟩
      · exact hown
      · rfl
    dsimp only at hj ⊢
    rw [hs] at hj ⊢
    exact hip hj
  · rw [Function.update_of_ne hji] at hj ⊢
    exact h.within j hj

/-- The probes come from `addresses` or from 0, and cost nobody a slot. -/
def FromAddresses (addresses : Finset UInt32) (d : Daemon) (g : Datagram) : Prop :=
  KeepsSlots d g ∧ (g.isProbe = true → g.ip ≠ 0 → g.ip ∈ addresses)

theorem Limiter.Within.serve {addresses : Finset UInt32} {d : Daemon}
    (h : d.limiter.Within addresses) {g : Datagram} (hok : FromAddresses addresses d g) :
    (d.serve g).1.limiter.Within addresses := by
  rcases (serve_cases d g).2 with ⟨heq, _⟩ | ⟨hprobe, heq, _⟩
  · rwa [heq]
  · rw [heq]
    exact h.allow (hok.2 hprobe) _

def Daemon.sourceWorth (x : UInt32) (d : Daemon) : Nat := d.limiter.sourceWorth x d.clock

theorem sourceWorth_serve {addresses : Finset UInt32} (hcard : addresses.card ≤ srcSlots)
    {d : Daemon} (h : d.limiter.Within addresses) {g : Datagram}
    (hok : FromAddresses addresses d g) {x : UInt32} (hx : x ≠ 0) :
    (d.serve g).1.sourceWorth x + replyCost (· == x) d g ≤
      d.limiter.sourceWorth x (d.clock + UInt32.ofNat g.wait) := by
  obtain ⟨hclock, hcases⟩ := serve_cases d g
  unfold Daemon.sourceWorth replyCost
  rw [hclock]
  rcases hcases with ⟨heq, hnone⟩ | ⟨hprobe, heq, hsome⟩
  · rw [heq, hnone]
    simp
  · have hfree : (∃ i, (d.limiter.src i).ip = g.ip ∧ g.ip ≠ 0) ∨
        ∃ i, (d.limiter.src i).ip = 0 := by
      by_cases hzero : g.ip = 0
      · exact Or.inr (hok.1 hprobe hzero)
      · by_cases howned : ∃ i, (d.limiter.src i).ip = g.ip
        · obtain ⟨i, hi⟩ := howned
          exact Or.inl ⟨i, hi, hzero⟩
        · rw [not_exists] at howned
          exact Or.inr (h.exists_free hcard (hok.2 hprobe hzero) fun i => Or.inr (howned i))
    have hworth := sourceWorth_allow h.sound h.distinct g.ip (d.clock + UInt32.ofNat g.wait)
      hfree hx
    rw [heq]
    refine Nat.le_trans (Nat.add_le_add_left ?_ _) hworth
    by_cases hreply : (d.serve g).2.isSome = true ∧ (g.ip == x) = true
    · rw [if_pos hreply, if_pos ⟨hsome hreply.1, eq_of_beq hreply.2⟩]
    · rw [if_neg hreply]
      exact Nat.zero_le _

/-- A refused probe leaves both buckets with all that they hold when they are
refilled. -/
def TakesNothing (l : Limiter) (ip now : UInt32) : Prop :=
  (rlAllow l ip now).2 = false → ∃ i s, rlSrcFor l.src ip now = (i, s) ∧
    ((rlAllow l ip now).1.src i).bucket = rlRefill s.bucket now srcRate srcBurst ∧
    (rlAllow l ip now).1.global = rlRefill l.global now globalRate globalBurst

theorem takesNothing (l : Limiter) (ip now : UInt32) : TakesNothing l ip now := by
  obtain ⟨i, s, allowed, hfor, heq, _⟩ := rlAllow_cases l ip now
  intro hrefused
  rw [heq] at hrefused ⊢
  dsimp only at hrefused ⊢
  subst hrefused
  refine ⟨i, s, hfor, ?_, rfl⟩
  rw [Function.update_self]
  rfl

theorem distinct_after {d : Daemon} (h : d.limiter.Distinct) (gs : List Datagram) :
    (d.after gs).limiter.Distinct := by
  induction gs generalizing d with
  | nil => exact h
  | cons g gs ih => exact ih (h.serve g)

/-- A window of a run that keeps to `addresses`. -/
theorem source_window {addresses : Finset UInt32} (hcard : addresses.card ≤ srcSlots) {d : Daemon}
    (hd : d.limiter.Within addresses) {first : Datagram} {rest : List Datagram}
    (hok : Along step (FromAddresses addresses) d (first :: rest)) {span : Nat}
    (hspan : (rest.map Datagram.wait).sum ≤ span) {x : UInt32} (hx : x ≠ 0) :
    ((replies d (first :: rest)).filter fun r => r.1 == x).length ≤ 4 + span / 50 := by
  have hwindow : spent step (replyCost (· == x)) d (first :: rest) ≤
      4000 + 20 * (rest.map Datagram.wait).sum := by
    refine window_le (FromAddresses addresses) (fun d => d.limiter.Within addresses)
      (Daemon.sourceWorth x) ?_ ?_ ?_ hd hok
    · intro d g d' hd hok h
      rw [step_serve h]
      exact hd.serve hok
    · intro d g d' hd hok h
      rw [step_serve h]
      have hworth := sourceWorth_serve hcard hd hok hx
      have hwait := d.limiter.sourceWorth_wait x d.clock g.wait
      exact Nat.le_trans hworth hwait
    · intro d g d' hd hok h
      rw [step_serve h]
      exact Nat.le_trans (sourceWorth_serve hcard hd hok hx) (Limiter.sourceWorth_le ..)
  rw [spent_replies] at hwindow
  omega

/-- In every state the occupied slots hold different addresses, and a refused
probe takes no token.  When at most sixteen addresses send probes and no probe
from address 0 takes over a slot in use, the replies to an address in a window
of `span` ticks number at most the burst and what the rate adds in that time. -/
theorem source_budget (hostname : Option Bytes) (tcpPort : UInt16) (methods : Int32) (now : UInt32)
    (before : List Datagram) (first : Datagram) (rest : List Datagram) :
    let d := (Daemon.init hostname tcpPort methods now).after before
    d.limiter.Distinct ∧ TakesNothing d.limiter first.ip (d.clock + UInt32.ofNat first.wait) ∧
      ∀ addresses : Finset UInt32, addresses.card ≤ srcSlots →
        (∀ g ∈ before ++ first :: rest, g.isProbe = true → g.ip ≠ 0 → g.ip ∈ addresses) →
        Along step KeepsSlots (Daemon.init hostname tcpPort methods now)
          (before ++ first :: rest) →
        ∀ span, (rest.map Datagram.wait).sum ≤ span → ∀ x ≠ 0,
          ((replies d (first :: rest)).filter fun r => r.1 == x).length ≤ 4 + span / 50 := by
  intro d
  have hinit : (Daemon.init hostname tcpPort methods now).limiter.Distinct :=
    fun i j h _ => absurd rfl h
  refine ⟨distinct_after hinit before, takesNothing _ _ _, ?_⟩
  intro addresses hcard hfrom hkeeps span hspan x hx
  have hok : Along step (FromAddresses addresses) (Daemon.init hostname tcpPort methods now)
      (before ++ first :: rest) := hkeeps.and_forall hfrom
  have hrun := run_after (Daemon.init hostname tcpPort methods now) before
  have hstep : ∀ d g d', d.limiter.Within addresses → FromAddresses addresses d g →
      step d g = some d' → d'.limiter.Within addresses := by
    intro d g d' hd hok h
    rw [step_serve h]
    exact hd.serve hok
  have hwithin : d.limiter.Within addresses :=
    run_invariant hstep ⟨sound_init .., hinit, fun _ h => absurd rfl h⟩ hok.append_left hrun
  exact source_window hcard hwithin (hok.append_right hrun) hspan hx

/-- Sixteen addresses take all slots; address 1 has had its four replies. -/
def sixteenSources : List Datagram :=
  List.replicate 4 (probeFrom 1) ++ (List.range' 2 15).map fun k => probeFrom (UInt32.ofNat k)

instance (d : Daemon) (g : Datagram) : Decidable (KeepsSlots d g) :=
  inferInstanceAs (Decidable (_ → _ → _))

/-- A fifth probe of address 1 at the same moment is refused. -/
theorem source_budget_sample :
    ((replies ((Daemon.init none 4322 100 7).after []) (sixteenSources ++ [probeFrom 1])).filter
      fun r => r.1 == 1).length ≤ 4 + 0 / 50 :=
  (source_budget none 4322 100 7 [] (probeFrom 1)
      (sixteenSources.tail ++ [probeFrom 1])).2.2
    ((List.range' 1 16).map UInt32.ofNat).toFinset (by decide +kernel) (by decide +kernel)
    (by decide +kernel) 0 (by decide +kernel) 1 (by decide)

/-- A probe from 0.0.0.0 takes over the slot of address 1, which then has a
second burst: eight replies without a tick between them. -/
theorem zero_source : ∃ run : List Datagram, (∀ g ∈ run, g.wait = 0) ∧
    ((run.map Datagram.ip).toFinset.erase 0).card ≤ srcSlots ∧
    ((replies (Daemon.init none 4322 100 7) run).filter fun r => r.1 == 1).length = 8 :=
  ⟨sixteenSources ++ probeFrom 0 :: List.replicate 4 (probeFrom 1), by decide +kernel,
    by decide +kernel, by decide +kernel⟩

end AmigaFleet.Mcpd.Discovery
