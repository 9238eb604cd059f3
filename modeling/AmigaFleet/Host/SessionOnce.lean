import Mathlib.Algebra.Order.BigOperators.Group.Finset
import AmigaFleet.Host.Delivery
import AmigaFleet.Host.Session

/-!
# A call is executed at most once

`Delivery` counts the request frames of a call that get to the daemon whole.
What the daemon executes is in the workers, also in those whose connection the
host has given up: they go on with what they have.  `Counted` ties the two
counts together over all connections of the host.

`executed_at_most_once` is what `IDEMPOTENT_METHODS` and `may_have_run` are for.
-/

namespace AmigaFleet.Host.Session

open AmigaFleet.Lib
open AmigaFleet.Mcpd (ascii CJson)
open AmigaFleet.Host.Transport

/-! ## Counts -/

/-- The requests of the current call that worker `k` has got. -/
def Link.arrivals (l : Link) (k : Nat) : Nat :=
  ((l.workers k).received.filter fun ask => ask.rid ∈ l.host.used).length

/-- Its executions of the current call. -/
def Link.runs (l : Link) (k : Nat) : Nat :=
  ((l.workers k).served.filter fun served => served.request.rid ∈ l.host.used).length

/-- The executions of the current call. -/
def Link.executions (l : Link) : Nat := ∑ k ∈ Finset.range (l.current + 1), l.runs k

def Link.total (l : Link) : Nat := ∑ k ∈ Finset.range (l.current + 1), l.arrivals k

theorem sum_bump {f g : Nat → Nat} {n k d : Nat} (hk : k < n) (hat : g k = f k + d)
    (hother : ∀ j, j ≠ k → g j = f j) :
    ∑ j ∈ Finset.range n, g j = ∑ j ∈ Finset.range n, f j + d := by
  induction n with
  | zero => exact absurd hk (Nat.not_lt_zero k)
  | succ n ih =>
    rw [Finset.sum_range_succ, Finset.sum_range_succ]
    by_cases hlast : k = n
    · subst hlast
      have hsame : ∑ j ∈ Finset.range k, g j = ∑ j ∈ Finset.range k, f j :=
        Finset.sum_congr rfl fun j hj => hother j (Nat.ne_of_lt (Finset.mem_range.mp hj))
      rw [hsame, hat, Nat.add_assoc]
    · rw [ih (by omega), hother n (Ne.symm hlast)]
      omega

/-! ## What a step of the host counts -/

/-- The ids and the deliveries of the call, before and after. -/
inductive Uses (py : Python) (s : Transport.Sys) (a : Transport.Label) (s' : Transport.Sys) :
    Prop where
  | kept (hnext : s'.nextId = s.nextId) (hused : s'.used = s.used)
      (hdelivered : s'.delivered = s.delivered)
  | next (hnext : s'.nextId = s.nextId + 1) (hused : s'.used = s.used ++ [s.nextId])
      (hdelivered : s'.delivered = s.delivered)
  /-- a new call -/
  | start (hused : (s'.nextId = s.nextId ∧ s'.used = []) ∨
        (s'.nextId = s.nextId + 1 ∧ s'.used = [s.nextId]))
      (hdelivered : s'.delivered = 0)
  | sent (how : Drained) (handed : Nat) (ha : a = .drained how handed) (hphase : s.phase = .drain)
      (hnext : s'.nextId = s.nextId) (hused : s'.used = s.used)
      (hdelivered : s'.delivered = s.delivered + if s.frameLength py ≤ handed then 1 else 0)

theorem uses_ioFailed (py : Python) (s : Transport.Sys) (a : Transport.Label) (description : Bytes) :
    Uses py s a (s.ioFailed description) := by
  unfold Sys.ioFailed
  split
  · exact .kept rfl rfl rfl
  · exact .kept rfl rfl rfl

theorem uses_takeFrame (py : Python) (now : Rat) (s : Transport.Sys) (a : Transport.Label)
    (payload : Bytes) : Uses py s a (s.takeFrame py now payload) := by
  unfold Sys.takeFrame
  dsimp only
  split
  · exact .kept rfl rfl rfl
  · split
    all_goals exact .kept rfl rfl rfl

/-- The connection does not matter. -/
theorem Uses.of_conn {py : Python} {s s' : Transport.Sys} {a : Transport.Label} {conn : Option Conn}
    (h : Uses py { s with conn } a s') : Uses py s a s' := by
  cases h with
  | kept hnext hused hdelivered => exact .kept hnext hused hdelivered
  | next hnext hused hdelivered => exact .next hnext hused hdelivered
  | start hused hdelivered => exact .start hused hdelivered
  | sent how handed ha hphase hnext hused hdelivered =>
    exact .sent how handed ha hphase hnext hused hdelivered

theorem drainEnds_counts (py : Python) (s : Transport.Sys) (how : Drained) (handed : Nat) :
    (s.drainEnds py how handed).used = s.used ∧ (s.drainEnds py how handed).delivered =
      s.delivered + if s.frameLength py ≤ handed then 1 else 0 := by
  cases how with
  | broken description =>
    unfold Sys.drainEnds Sys.ioFailed
    dsimp only
    split
    · exact ⟨rfl, rfl⟩
    · exact ⟨rfl, rfl⟩
  | ok => exact ⟨rfl, rfl⟩
  | timeout => exact ⟨rfl, rfl⟩
  | cancelled => exact ⟨rfl, rfl⟩

theorem step_uses {py : Python} {s s' : Transport.Sys} {a : Transport.Label}
    (hstep : Transport.step py s a = some s') : Uses py s a s' := by
  cases Transport.step_cases hstep with
  | start method params timeoutText atEof now _ =>
    have hopens := opens_beginAttempt py atEof now (newCall s method params timeoutText)
    exact .start hopens.ids hopens.delivered
  | opens _ _ _ _ hopens =>
    rcases hopens.ids with ⟨hnext, hused⟩ | ⟨hnext, hused⟩
    · exact .kept hnext hused hopens.delivered
    · exact .next hnext hused hopens.delivered
  | warmHeader i _ _ => exact .kept rfl rfl rfl
  | warmReadHeader i c event now _ _ =>
    unfold Sys.warmReadHeader
    dsimp only
    split
    · split
      · exact .kept rfl rfl rfl
      · exact .kept rfl rfl rfl
    · exact .kept rfl rfl rfl
  | warmReadBody i n c event now _ _ => exact .kept rfl rfl rfl
  | drained how handed hphase =>
    have hcounts := drainEnds_counts py s how handed
    exact .sent how handed rfl hphase (drainEnds_ask py s how handed).1 hcounts.1 hcounts.2
  | readHeader c event now _ _ =>
    unfold Sys.readHeader
    dsimp only
    split
    · split
      · exact .kept rfl rfl rfl
      · exact .kept rfl rfl rfl
    · exact .kept rfl rfl rfl
    · exact (uses_ioFailed py _ _ _).of_conn
  | readBody n c event now _ _ =>
    unfold Sys.readBody
    dsimp only
    split
    · exact (uses_takeFrame py now _ _ _).of_conn
    · exact .kept rfl rfl rfl
    · exact (uses_ioFailed py _ _ _).of_conn
  | handled _ => exact .kept rfl rfl rfl
  | failed e now _ => exact .kept rfl rfl rfl
  | cancel _ _ _ => exact .kept rfl rfl rfl

/-- A request that goes out is one of the call. -/
theorem step_drain_used {py : Python} {s s' : Transport.Sys} {a : Transport.Label}
    (hstep : Transport.step py s a = some s') (hrid : s'.call.rid < s'.nextId)
    (hdrain : s'.phase = .drain) : s'.call.rid ∈ s'.used := by
  have hnew := step_drain hstep hdrain
  cases step_uses hstep with
  | kept hnext _ _ => omega
  | next _ hused _ =>
    rw [hused, hnew]
    exact List.mem_append_right _ (List.mem_singleton_self _)
  | start hused _ =>
    rcases hused with ⟨hnext, _⟩ | ⟨_, hused⟩
    · omega
    · rw [hused, hnew]
      exact List.mem_singleton_self _
  | sent how handed _ _ hnext _ _ => omega

section Counted

variable {py : Python} {p : CJson.Printer} {parse : Bytes → Option CJson} {l l' : Link}

/-- All that the daemon has got of the call has been counted. -/
structure Counted (l : Link) : Prop where
  total : l.total = l.host.delivered
  sending : l.host.phase = .drain → l.host.call.rid ∈ l.host.used
  positive : ∀ rid ∈ l.host.used, 0 < rid

theorem init_counted : Counted {} := ⟨rfl, fun h => (nomatch h), fun _ h => (nomatch h)⟩

/-- The total when nothing comes in and no id of a request joins or leaves the call. -/
theorem total_same (hcurrent : l'.current = l.current)
    (hreceived : ∀ k, (l'.workers k).received = (l.workers k).received)
    (hused : ∀ k, ∀ ask ∈ (l.workers k).received,
      (ask.rid ∈ l'.host.used ↔ ask.rid ∈ l.host.used)) : l'.total = l.total := by
  unfold Link.total Link.arrivals
  rw [hcurrent]
  refine Finset.sum_congr rfl fun k _ => ?_
  rw [hreceived]
  refine congrArg List.length (List.filter_congr fun ask hask => ?_)
  exact decide_eq_decide.mpr (hused k ask hask)

/-- The total when no id of a request is one of the call. -/
theorem total_zero (hused : ∀ k, ∀ ask ∈ (l.workers k).received, ask.rid ∉ l.host.used) :
    l.total = 0 := by
  refine Finset.sum_eq_zero fun k _ => ?_
  refine List.length_eq_zero_iff.mpr (List.filter_eq_nil_iff.mpr fun ask hask => ?_)
  exact fun h => hused k ask hask (of_decide_eq_true h)

/-- A step of the host that hands nothing over. -/
theorem Counted.moves (hjoined : Joined py p parse l) (h : Counted l) {host : Transport.Sys}
    {a : Transport.Label} (hstep : Transport.step py l.host a = some host)
    (hnothing : ∀ how handed, a = .drained how handed → l.host.phase = .drain →
      ¬ l.host.frameLength py ≤ handed) (cut : Bool) : Counted { l with host, cut } := by
  have hrid := (hjoined.asks (step_asks hstep)).2.1.2
  have hnextId := hjoined.nextId
  refine ⟨?_, fun hdrain => step_drain_used hstep hrid hdrain, ?_⟩
  · show _ = host.delivered
    cases step_uses hstep with
    | kept hnext hused hdelivered =>
      rw [hdelivered, ← h.total]
      refine total_same rfl (fun _ => rfl) fun k ask _ => ?_
      show ask.rid ∈ host.used ↔ _
      rw [hused]
    | next hnext hused hdelivered =>
      rw [hdelivered, ← h.total]
      refine total_same rfl (fun _ => rfl) fun k ask hask => ?_
      show ask.rid ∈ host.used ↔ _
      have hlt := (hjoined.asked k ask hask).1
      rw [hused, List.mem_append, List.mem_singleton]
      exact or_iff_left (by omega)
    | start hused hdelivered =>
      rw [hdelivered]
      refine total_zero fun k ask hask => ?_
      show ask.rid ∉ host.used
      have hlt := (hjoined.asked k ask hask).1
      rcases hused with ⟨_, hused⟩ | ⟨_, hused⟩
      · rw [hused]
        exact List.not_mem_nil
      · rw [hused, List.mem_singleton]
        omega
    | sent how handed ha hphase hnext hused hdelivered =>
      rw [hdelivered, if_neg (hnothing how handed ha hphase), Nat.add_zero, ← h.total]
      refine total_same rfl (fun _ => rfl) fun k ask _ => ?_
      show ask.rid ∈ host.used ↔ _
      rw [hused]
  · show ∀ rid ∈ host.used, 0 < rid
    intro rid hmem
    cases step_uses hstep with
    | kept hnext hused hdelivered => exact h.positive rid (hused ▸ hmem)
    | next hnext hused hdelivered =>
      rw [hused] at hmem
      rcases List.mem_append.mp hmem with hold | hnew
      · exact h.positive rid hold
      · rw [List.mem_singleton.mp hnew]
        exact hnextId
    | start hused hdelivered =>
      rcases hused with ⟨_, hused⟩ | ⟨_, hused⟩
      · rw [hused] at hmem
        cases hmem
      · rw [hused] at hmem
        rw [List.mem_singleton.mp hmem]
        exact hnextId
    | sent how handed ha hphase hnext hused hdelivered => exact h.positive rid (hused ▸ hmem)

/-- A request that comes in counts if it is one of the call. -/
theorem total_receive (l : Link) (ask : Ask) :
    (l.setWorker l.current ((l.workers l.current).receive ask)).total =
      l.total + if ask.rid ∈ l.host.used then 1 else 0 := by
  refine sum_bump (k := l.current) (Nat.lt_succ_self _) ?_ fun j hj => ?_
  · unfold Link.arrivals
    rw [workers_setWorker, if_pos rfl]
    show (((l.workers l.current).received ++ [ask]).filter
      fun ask => ask.rid ∈ l.host.used).length = _
    rw [List.filter_append, List.length_append]
    by_cases hmem : ask.rid ∈ l.host.used
    · simp [hmem]
    · simp [hmem]
  · unfold Link.arrivals
    rw [workers_setWorker, if_neg hj]
    rfl

theorem Counted.warmup (hjoined : Joined py p parse l) (h : Counted l) {host : Transport.Sys}
    {how : Drained} {handed i : Nat}
    (hstep : Transport.step py l.host (.drained how handed) = some host)
    (hphase : l.host.phase = .warmDrain i)
    (hmoved : l.handOver py host (warmupAsk i) handed = some l') : Counted l' := by
  have hnothing : ∀ how' handed', Transport.Label.drained how handed = .drained how' handed' →
      l.host.phase = .drain → ¬ l.host.frameLength py ≤ handed' := by
    intro _ _ _ hdrain
    rw [hphase] at hdrain
    cases hdrain
  unfold Link.handOver at hmoved
  split at hmoved
  · split at hmoved
    · cases hmoved
    · cases hmoved
      have hmoves := h.moves hjoined hstep hnothing l.cut
      have hother : (warmupAsk i).rid ∉ host.used := by
        intro hmem
        have hpos : 0 < (warmupAsk i).rid := hmoves.positive _ hmem
        have hrid : (warmupAsk i).rid = warmupIdBase - i := rfl
        have hbase : warmupIdBase = -100 := rfl
        omega
      refine ⟨?_, hmoves.sending, hmoves.positive⟩
      have hreceive := total_receive { l with host } (warmupAsk i)
      rw [if_neg hother, Nat.add_zero] at hreceive
      exact hreceive.trans hmoves.total
  · cases hmoved
    exact h.moves hjoined hstep hnothing true

theorem Counted.request (hjoined : Joined py p parse l) (h : Counted l) {host : Transport.Sys}
    {how : Drained} {handed : Nat}
    (hstep : Transport.step py l.host (.drained how handed) = some host)
    (hphase : l.host.phase = .drain)
    (hmoved : l.handOver py host (currentAsk l.host.call) handed = some l') : Counted l' := by
  have hends : host = l.host.drainEnds py how handed := by
    simp only [Transport.step, hphase] at hstep
    exact (Option.some.inj hstep).symm
  have hcounts := drainEnds_counts py l.host how handed
  rw [← hends] at hcounts
  obtain ⟨hused, hdelivered⟩ := hcounts
  have hlength : l.host.frameLength py = 4 + ((currentAsk l.host.call).payload py).length := rfl
  unfold Link.handOver at hmoved
  split at hmoved
  · rename_i hwhole
    split at hmoved
    · cases hmoved
    · cases hmoved
      have hrid := (hjoined.asks (step_asks hstep)).2.1.2
      refine ⟨?_, fun hdrain => step_drain_used hstep hrid hdrain, fun rid hmem => ?_⟩
      · have hreceive := total_receive { l with host } (currentAsk l.host.call)
        have hin : (currentAsk l.host.call).rid ∈ host.used := by
          rw [hused]
          exact h.sending hphase
        have hsame : ({ l with host } : Link).total = l.total := by
          refine total_same rfl (fun _ => rfl) fun k ask _ => ?_
          show ask.rid ∈ host.used ↔ _
          rw [hused]
        rw [if_pos hin, hsame, h.total] at hreceive
        rw [hlength, if_pos hwhole] at hdelivered
        exact hreceive.trans hdelivered.symm
      · exact h.positive rid (hused ▸ hmem)
  · rename_i hpart
    cases hmoved
    refine h.moves hjoined hstep (fun _ _ heq _ => ?_) true
    cases heq
    rw [hlength]
    exact hpart

/-- A new connection has got nothing. -/
theorem total_connected (hjoined : Joined py p parse l) (host : Transport.Sys) :
    ({ l with host, current := l.current + 1, cut := false } : Link).total =
      ({ l with host, cut := false } : Link).total := by
  unfold Link.total
  rw [Finset.sum_range_succ]
  have hnone : ({ l with host, current := l.current + 1, cut := false } : Link).arrivals
      (l.current + 1) = 0 := by
    unfold Link.arrivals
    show ((l.workers (l.current + 1)).received.filter _).length = 0
    rw [hjoined.later _ (Nat.lt_succ_self _)]
    rfl
  rw [hnone]
  rfl

def isDrained : Transport.Label → Bool
  | .drained .. => true
  | _ => false

theorem Counted.step {a : Label} (hjoined : Joined py p parse l) (h : Counted l)
    (hstep : step py p parse l a = some l') : Counted l' := by
  cases step_cases hstep with
  | daemon k a w ha hpos hk hw =>
    refine ⟨?_, h.sending, h.positive⟩
    have hsame : (l.setWorker k w).total = l.total :=
      total_same rfl (received_daemon ha hw) fun _ _ _ => Iff.rfl
    exact hsame.trans h.total
  | host a host l' hhost hmoved =>
    have hother : isDrained a = false → ∀ cut, Counted { l with host, cut } := by
      intro ha cut
      refine h.moves hjoined hhost (fun how handed heq => ?_) cut
      rw [heq] at ha
      cases ha
    cases a with
    | connected stream now =>
      cases hmoved
      have hmoves := hother rfl false
      exact ⟨(total_connected hjoined host).trans hmoves.total, hmoves.sending, hmoves.positive⟩
    | drained how handed =>
      cases hphase : l.host.phase with
      | warmDrain i =>
        simp only [Link.moved, hphase] at hmoved
        exact h.warmup hjoined hhost hphase hmoved
      | drain =>
        simp only [Link.moved, hphase] at hmoved
        exact h.request hjoined hhost hphase hmoved
      | idle => simp [Transport.step, hphase] at hhost
      | closing after => simp [Transport.step, hphase] at hhost
      | connecting after => simp [Transport.step, hphase] at hhost
      | warmHeader i => simp [Transport.step, hphase] at hhost
      | warmBody i n => simp [Transport.step, hphase] at hhost
      | warmSleep i => simp [Transport.step, hphase] at hhost
      | header => simp [Transport.step, hphase] at hhost
      | body n => simp [Transport.step, hphase] at hhost
      | handlers => simp [Transport.step, hphase] at hhost
      | done out => simp [Transport.step, hphase] at hhost
    | read event now =>
      simp only [Link.moved] at hmoved
      split at hmoved
      · cases hmoved
        exact hother rfl l.cut
      · cases hmoved
    | start method params timeoutText atEof now =>
      cases hmoved
      exact hother rfl l.cut
    | closed now =>
      cases hmoved
      exact hother rfl l.cut
    | refused error now =>
      cases hmoved
      exact hother rfl l.cut
    | notOpened e =>
      cases hmoved
      exact hother rfl l.cut
    | slept now =>
      cases hmoved
      exact hother rfl l.cut
    | handled =>
      cases hmoved
      exact hother rfl l.cut
    | cancel =>
      cases hmoved
      exact hother rfl l.cut

theorem run_counted {as : List Label} (hrun : run (Session.step py p parse) {} as = some l) :
    Counted l := by
  have hkeep : ∀ (l : Link) (a : Label) (l' : Link), Joined py p parse l ∧ Counted l →
      Session.step py p parse l a = some l' → Joined py p parse l' ∧ Counted l' :=
    fun _ _ _ h hstep => ⟨h.1.step hstep, h.2.step h.1 hstep⟩
  exact (run_invariant_all hkeep ⟨init_joined, init_counted⟩ hrun).2

/-- The daemon executes nothing that it has not got. -/
theorem executions_le (h : Joined py p parse l) : l.executions ≤ l.total := by
  refine Finset.sum_le_sum fun k _ => ?_
  unfold Link.runs Link.arrivals
  rw [(h.workers k).received, List.filter_append, List.length_append, List.filter_map,
    List.length_map]
  exact Nat.le_add_right ..

/-- In every candid run: the daemon executes a call that is not idempotent at
most once, on all its connections together, and when a call fails that it has
executed, the error says so. -/
theorem executed_at_most_once {as : List Label}
    (hrun : run (Session.step py p parse) {} as = some l)
    (hok : Along (Session.step py p parse) (OnHost (Candid py)) {} as)
    (hmethod : isIdempotent l.host.call.method = false) :
    l.executions ≤ 1 ∧
      ∀ e, l.host.phase = .done (.jsonRpc e) → 0 < l.executions → Reports l.host e := by
  have hsafe : Safe l.host :=
    run_invariant (fun _ _ _ h hok hstep => h.step hok hstep) init_safe (along_host hok hrun)
      (run_host hrun)
  have honce := (hsafe hmethod).atMostOnce
  have hle := executions_le (run_joined hrun)
  rw [(run_counted hrun).total] at hle
  exact ⟨Nat.le_trans hle honce.once, fun e he hpos => honce.reported e he (Nat.lt_of_lt_of_le hpos hle)⟩

end Counted

/-! ## A call that nobody answers -/

def silentPrinter : CJson.Printer := ⟨fun _ => [], fun _ => []⟩

def rebootParse (_ : Bytes) : Option CJson := some (requestEnv (ascii "sys.reboot") none 1).toCJson

/-- `sys.reboot` is executed, and the connection ends without a response. -/
def rebootRun : List Label :=
  [.host (.start (ascii "sys.reboot") none (ascii "30.0") false 0), .host (.connected [] 0),
    .host (.drained .ok 100), .daemon 1 (.dispatch fun _ => some fun _ => .ok .null), .daemon 1 .leave,
    .host (.read (.broken (ascii "Connection reset by peer")) 0), .host (.closed 0)]

theorem executed_at_most_once_sample :
    ∃ l e, run (Session.step (pythonFor .null) silentPrinter rebootParse) {} rebootRun = some l ∧
      l.host.phase = .done (.jsonRpc e) ∧ l.executions = 1 ∧ Reports l.host e := by
  have hok : Along (Session.step (pythonFor .null) silentPrinter rebootParse)
      (OnHost (Candid (pythonFor .null))) {} rebootRun := by decide +kernel
  obtain ⟨l, e, hrun, hdone, hmethod, hone⟩ : ∃ l e,
      run (Session.step (pythonFor .null) silentPrinter rebootParse) {} rebootRun = some l ∧
        l.host.phase = .done (.jsonRpc e) ∧ isIdempotent l.host.call.method = false ∧
        l.executions = 1 := ⟨_, _, rfl, rfl, by decide +kernel, by decide +kernel⟩
  have honce := executed_at_most_once hrun hok hmethod
  exact ⟨l, e, hrun, hdone, hone, honce.2 e hdone (by omega)⟩


end AmigaFleet.Host.Session
