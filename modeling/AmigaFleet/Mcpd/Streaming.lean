import AmigaFleet.Mcpd.ExecAnswer

/-!
# The chunks of a streaming exec.cmd

While `exec_cmd` waits it sends what its job has written as `proc.stdout`
notifications, at most 8192 bytes at each look at the job, and after the look
that sees the job ended it reads once more.

`streamStep` are the steps of `AmigaFleet.Mcpd.Exec` with a read of the output
file that falls short.  `Streamed` is what the chunks of a call have sent at
each place of its loop: the beginning of the output up to `streamed_to`.
`streams_whole` says when that has become all of it: if the read behind the end
of the job takes what is left.  `burst_lost` is a run where it does not.
-/

namespace AmigaFleet.Mcpd.Exec

open AmigaFleet.Lib AmigaFleet.Mcpd.Jobs

variable {n : Nat}

/-! ## Steps -/

/-- The streaming read, if `Read` gives at most `k` bytes; none if it fails. -/
def Call.streamedUpTo (k : Nat) (c : Call) (ji : JobInfo) (files : Files) : Call :=
  let out := amigaReadOutput files ji.outPath c.streamedTo (min k 8192)
  let sent := if out.raw = 0 then [] else [⟨c.id, cText out.text, out.raw⟩]
  { c with chunks := c.chunks ++ sent, streamedTo := c.streamedTo + out.raw }.decide ji

theorem streamed_eq (c : Call) (ji : JobInfo) (files : Files) :
    c.streamed ji files = c.streamedUpTo 8192 ji files := rfl

inductive StreamLabel (n : Nat) where
  | exec (a : Label n)
  /-- the streaming read of worker `w` gives at most `k` bytes -/
  | short (w : Fin n) (k : Nat)

def streamStep (s : Sys n) : StreamLabel n → Option (Sys n)
  | .exec a => step s a
  | .short w k =>
    match (s.calls w).phase with
    | .streaming ji => some (s.setCall w ((s.calls w).streamedUpTo k ji s.table.files))
    | _ => none

/-! ## The condition -/

/-- A read of at most `k` bytes behind the end of the job takes all that is
left. -/
def ReadsRest (s : Sys n) (w : Fin n) (k : Nat) : Prop :=
  match (s.calls w).phase with
  | .streaming ji => ji.state = .exited →
    ∀ content ∈ s.table.files ji.outPath, content.length ≤ (s.calls w).streamedTo + k
  | _ => True

instance (s : Sys n) (w : Fin n) (k : Nat) : Decidable (ReadsRest s w k) := by
  unfold ReadsRest
  split <;> infer_instance

/-- The steps that leave every streaming call its chunks. -/
def Streamable (s : Sys n) : StreamLabel n → Prop
  | .exec (.stream w) => ReadsRest s w 8192
  | .exec a => Undisturbed s a
  | .short w k => ReadsRest s w (min k 8192)

instance (s : Sys n) (a : StreamLabel n) : Decidable (Streamable s a) := by
  unfold Streamable
  split <;> infer_instance

theorem Streamable.undisturbed {s : Sys n} {a : Label n} (h : Streamable s (.exec a)) :
    Undisturbed s a := by
  cases a with
  | stream w => trivial
  | _ => exact h

/-! ## What a call has sent -/

/-- The notifications of a call, one after another. -/
def Call.streamText (c : Call) : Bytes := (c.chunks.map Chunk.chunk).flatten

/-- The chunks are the output up to `streamed_to`; `wrote` is what the job has
written, and `died` how it has ended. -/
structure Streamed (wrote : Bytes) (died : Option Death) (c : Call) : Prop where
  text : (0 : UInt8) ∉ wrote.take c.streamedTo →
    c.streamText = amigaLatin1ToUtf8 (wrote.take c.streamedTo)
  within : c.streamedTo ≤ wrote.length
  dead : c.death ≠ none → died ≠ none

/-- The chunks are the whole output, if the call streams and has seen its job
ended, and the output has no NUL byte. -/
def SentAll (c : Call) (state : JobState) : Prop :=
  c.params.stream = true → state = .exited → (0 : UInt8) ∉ c.content →
    c.streamText = amigaLatin1ToUtf8 c.content

def StreamOk (s : Sys n) (c : Call) : Prop :=
  match c.phase with
  | .idle | .failed _ => True
  | .starting _ => c.streamText = [] ∧ c.streamedTo = 0 ∧ c.death = none
  | .polling | .streaming _ => Streamed (s.wrote c.id) (s.death c.id) c
  | .reading ji => Streamed (s.wrote c.id) (s.death c.id) c ∧
      (c.params.stream = true → ji.state = .exited → c.streamedTo = (s.wrote c.id).length)
  | .dropping ji _ => SentAll c ji.state
  | .answered r => SentAll c r.info.state

/-- What a job does between two looks of its call: it writes, until it ends. -/
structure Grows (s s' : Sys n) (id : Nat) : Prop where
  wrote : ∃ bytes, s'.wrote id = s.wrote id ++ bytes ∧ (s.death id ≠ none → bytes = [])
  death : s.death id ≠ none → s'.death id ≠ none

theorem Grows.same {s s' : Sys n} {id : Nat} (hwrote : s'.wrote id = s.wrote id)
    (hdeath : s'.death id = s.death id) : Grows s s' id :=
  ⟨⟨[], by rw [hwrote, List.append_nil], fun _ => rfl⟩, fun hd => by rwa [hdeath]⟩

theorem Streamed.frame {s s' : Sys n} {c : Call} (h : Streamed (s.wrote c.id) (s.death c.id) c)
    (hg : Grows s s' c.id) : Streamed (s'.wrote c.id) (s'.death c.id) c := by
  obtain ⟨bytes, hwrote, -⟩ := hg.wrote
  refine ⟨?_, ?_, fun hd => hg.death (h.dead hd)⟩
  · rw [hwrote, List.take_append_of_le_length h.within]
    exact h.text
  · rw [hwrote, List.length_append]
    exact Nat.le_trans h.within (Nat.le_add_right ..)

/-- The frame rule for what other calls and the jobs do. -/
theorem StreamOk.frame {s s' : Sys n} {c : Call} {t : Jobs.Sys} (h : StreamOk s c)
    (hcall : CallOk t c) (hg : ∀ id, c.job = some id → Grows s s' id) : StreamOk s' c := by
  unfold StreamOk at h ⊢
  unfold CallOk at hcall
  unfold Call.job at hg
  cases hp : c.phase with
  | idle | failed _ => trivial
  | starting _ | dropping _ _ | answered _ =>
    rw [hp] at h
    exact h
  | polling | streaming _ =>
    rw [hp] at h hg
    exact h.frame (hg c.id rfl)
  | reading ji =>
    rw [hp] at h hg hcall
    refine ⟨h.1.frame (hg c.id rfl), fun hstream hex => ?_⟩
    obtain ⟨bytes, hwrote, hended⟩ := (hg c.id rfl).wrote
    have hdead : c.death ≠ none := by
      rcases hcall.2.1.state with ⟨hrun, -⟩ | ⟨-, hsome⟩
      · rw [hex] at hrun
        cases hrun
      · rw [hsome]
        simp
    rw [hwrote, hended (h.1.dead hdead), List.append_nil]
    exact h.2 hstream hex

/-! ## One read -/

/-- The read of a part of a file. -/
theorem amigaReadOutput_part {files : Files} {path : CString} {content : Bytes}
    (h : files path = some content) (offset max : Nat) :
    amigaReadOutput files path offset max =
      ⟨amigaLatin1ToUtf8 ((content.drop offset).take max), min max (content.length - offset),
        content.length⟩ := by
  have hwant : (if offset < content.length then content.length - offset else 0) =
      content.length - offset := by
    split <;> omega
  have hcut : (if content.length - offset > max then max else content.length - offset) =
      min max (content.length - offset) := by
    split <;> omega
  have htake : (content.drop offset).take (min max (content.length - offset)) =
      (content.drop offset).take max := by
    rw [List.take_eq_take_iff, List.length_drop]
    omega
  rw [amigaReadOutput, amigaReadOutputWith, h]
  simp only [id, hwant, hcut, htake, List.length_take, List.length_drop]

/-- The loop behind the streaming read leaves what the call has sent. -/
theorem streamOk_decide {s : Sys n} {c : Call} {ji : JobInfo}
    (h : Streamed (s.wrote c.id) (s.death c.id) c)
    (hall : c.params.stream = true → ji.state = .exited → c.streamedTo = (s.wrote c.id).length) :
    StreamOk s (c.decide ji) := by
  unfold Call.decide
  split
  · split
    · trivial
    · exact ⟨⟨h.text, h.within, h.dead⟩, hall⟩
  · exact ⟨h.text, h.within, h.dead⟩

/-- A streaming read takes the next bytes of the output. -/
theorem streamOk_streamedUpTo {s : Sys n} {c : Call} {ji : JobInfo} {k : Nat}
    (h : Streamed (s.wrote c.id) (s.death c.id) c)
    (hfile : s.table.files ji.outPath = some (s.wrote c.id))
    (hrest : ji.state = .exited → (s.wrote c.id).length ≤ c.streamedTo + min k 8192) :
    StreamOk s (c.streamedUpTo k ji s.table.files) := by
  unfold Call.streamedUpTo
  rw [amigaReadOutput_part hfile]
  have hwithin := h.within
  have hsize : ((s.wrote c.id).drop c.streamedTo).take
        (min (min k 8192) ((s.wrote c.id).length - c.streamedTo)) =
      ((s.wrote c.id).drop c.streamedTo).take (min k 8192) := by
    rw [List.take_eq_take_iff, List.length_drop]
    omega
  refine streamOk_decide ⟨fun hclean => ?_, ?_, h.dead⟩ fun _ hex => ?_
  · change (0 : UInt8) ∉ (s.wrote c.id).take (c.streamedTo + _) at hclean
    rw [List.take_add, List.mem_append, not_or, hsize] at hclean
    show ((c.chunks ++ _).map Chunk.chunk).flatten =
      amigaLatin1ToUtf8 ((s.wrote c.id).take (c.streamedTo + _))
    rw [List.map_append, List.flatten_append, List.take_add, amigaLatin1ToUtf8_append, hsize]
    refine congrArg₂ _ (h.text hclean.1) ?_
    dsimp only
    split
    · rename_i hzero
      rw [← hsize, hzero]
      rfl
    · rw [cText_latin1 hclean.2, List.map_singleton, List.flatten_singleton]
  · show c.streamedTo + min _ _ ≤ (s.wrote c.id).length
    omega
  · have hleft := hrest hex
    show c.streamedTo + min _ _ = (s.wrote c.id).length
    omega

/-! ## Steps -/

/-- Worker `w` goes on with `c'`, and the jobs of the others go on. -/
theorem streamOk_update {s s' : Sys n} (hinv : Inv s) (h : ∀ w, StreamOk s (s.calls w)) {w : Fin n}
    {c' : Call} (hcalls : s'.calls = Function.update s.calls w c') (hc : StreamOk s' c')
    (hg : ∀ w', w' ≠ w → ∀ id, (s.calls w').job = some id → Grows s s' id) :
    ∀ w', StreamOk s' (s'.calls w') := by
  intro w'
  rw [hcalls]
  by_cases hw : w' = w
  · subst hw
    rw [Function.update_self]
    exact hc
  · rw [Function.update_of_ne hw]
    exact (h w').frame (hinv.calls w') (hg w' hw)

theorem streamOk_begin {s : Sys n} (hinv : Inv s) (h : ∀ w, StreamOk s (s.calls w)) {env : Env}
    {w : Fin n} {p : CmdParams} {cwdLocks : Bool} (hok : Undisturbed s (.begin env w p cwdLocks)) :
    ∀ w', StreamOk (beginCmd env w p cwdLocks s) ((beginCmd env w p cwdLocks s).calls w') := by
  unfold Undisturbed at hok
  unfold beginCmd
  dsimp only at hok
  split
  · exact streamOk_update hinv h rfl trivial fun _ _ _ _ => Grows.same rfl rfl
  · rename_i full hfull
    rw [hfull] at hok
    rcases beginStart_cases env w p full s with
      ⟨t, hclaim, hid, hcalls, hwrote, hdeath⟩ | ⟨-, hcalls, hwrote, hdeath⟩
    · have hunused := idUnused_of_claimed hclaim hok
      refine streamOk_update hinv h hcalls ⟨rfl, rfl, rfl⟩ fun w' _ id hjob => ?_
      have hne : id ≠ t.id := by
        rintro rfl
        exact hunused w' (hid ▸ hjob)
      exact Grows.same (by rw [hwrote, Function.update_of_ne hne])
        (by rw [hdeath, Function.update_of_ne hne])
    · exact streamOk_update hinv h hcalls trivial fun _ _ _ _ =>
        Grows.same (by rw [hwrote]) (by rw [hdeath])

theorem streamOk_polled {s : Sys n} {c : Call} {got : Option JobInfo}
    (h : Streamed (s.wrote c.id) (s.death c.id) c) : StreamOk s (c.polled (s.death c.id) got) := by
  have hstreamed : Streamed (s.wrote c.id) (s.death c.id) { c with death := s.death c.id } :=
    ⟨h.text, h.within, fun hd => hd⟩
  unfold Call.polled
  split
  · trivial
  · split
    · exact ⟨h.text, h.within, fun hd => hd⟩
    · rename_i hplain
      exact streamOk_decide hstreamed fun hstream => absurd hstream hplain

/-- The read of the whole output finds what the chunks have sent. -/
theorem streamOk_readAll {s s' : Sys n} {c : Call} {ji : JobInfo}
    (h : Streamed (s.wrote c.id) (s.death c.id) c)
    (hall : c.params.stream = true → ji.state = .exited → c.streamedTo = (s.wrote c.id).length) :
    StreamOk s' (c.readAll ji s.table.files (s.wrote c.id)) := by
  unfold Call.readAll
  dsimp only
  split
  · intro hstream hex hclean
    have htake : (s.wrote c.id).take c.streamedTo = s.wrote c.id := by
      rw [hall hstream hex, List.take_length]
    have htext := h.text
    rw [htake] at htext
    exact htext hclean
  · rename_i hrunning
    exact fun _ hex _ => absurd hex hrunning

/-- What the other jobs do. -/
theorem grows_onTable {s : Sys n} (h : Outputs s) {a : Jobs.Label} {t' : Jobs.Sys}
    (hs : Jobs.serve s.table a = some t') (id : Nat) : Grows s (s.onTable a t') id := by
  cases a with
  | childWrite c bytes =>
    obtain ⟨hc, -⟩ := whenChild_some hs
    by_cases hid : id = c.id
    · subst hid
      refine ⟨⟨bytes, Function.update_self .., fun hdead => ?_⟩, fun hdead => hdead⟩
      exact absurd (h.at_child hc).2.2.1 hdead
    · exact Grows.same (Function.update_of_ne hid ..) rfl
  | childExit c rc result2 =>
    refine ⟨⟨[], (List.append_nil _).symm, fun _ => rfl⟩, fun hdead => ?_⟩
    show Function.update s.death c.id (some ⟨rc, result2⟩) id ≠ none
    by_cases hid : id = c.id
    · subst hid
      rw [Function.update_self]
      simp
    · rwa [Function.update_of_ne hid]
  | _ => exact Grows.same rfl rfl

/-- The invariant of the streaming calls. -/
structure StreamInv (s : Sys n) : Prop where
  inv : Inv s
  calls : ∀ w, StreamOk s (s.calls w)

theorem init_streamInv (n : Nat) (files : Files) : StreamInv (init n files) :=
  ⟨init_inv n files, fun _ => trivial⟩

/-- Worker `w` reads the next part of the output. -/
theorem StreamInv.read {s : Sys n} (h : StreamInv s) {w : Fin n} {ji : JobInfo} {k : Nat}
    (hphase : (s.calls w).phase = .streaming ji) (hok : ReadsRest s w (min k 8192)) :
    StreamInv (s.setCall w ((s.calls w).streamedUpTo k ji s.table.files)) := by
  have hcall := h.inv.calls w
  have hstreamed := h.calls w
  unfold CallOk at hcall
  unfold StreamOk at hstreamed
  unfold ReadsRest at hok
  rw [hphase] at hcall hstreamed hok
  have hfile : s.table.files ji.outPath = some (s.wrote (s.calls w).id) := by
    rw [hcall.2.path]
    exact h.inv.outputs.kept_of_waits hcall.1
  have hjob : (s.calls w).job = some (s.calls w).id := by
    unfold Call.job
    rw [hphase]
  constructor
  · refine h.inv.update (h.inv.outputs.withCalls _) rfl (fun _ _ _ _ hw => hw)
      (callOk_decide hcall.1 ⟨hcall.2.id, hcall.2.path, hcall.2.state⟩) (h.inv.same_job ?_)
    rw [hjob]
    exact job_decide _ _
  · have hnext := streamOk_streamedUpTo hstreamed hfile fun hex => hok hex _ hfile
    exact streamOk_update h.inv h.calls rfl hnext fun _ _ _ _ => Grows.same rfl rfl

theorem StreamInv.exec {s s' : Sys n} (h : StreamInv s) {a : Label n} (hok : Streamable s (.exec a))
    (hstep : step s a = some s') : StreamInv s' := by
  refine ⟨h.inv.step hok.undisturbed hstep, ?_⟩
  have hcalls := h.calls
  cases step_cases hstep with
  | begin env w p cwdLocks _ => exact streamOk_begin h.inv hcalls hok
  | kicked w st hphase _ _ =>
    have hfresh := hcalls w
    unfold StreamOk at hfresh
    rw [hphase] at hfresh
    obtain ⟨htext, hzero, hdeath⟩ := hfresh
    refine streamOk_update h.inv hcalls rfl ⟨fun _ => ?_, ?_, ?_⟩
      fun _ _ _ _ => Grows.same rfl rfl
    · show (s.calls w).streamText = _
      rw [htext]
      show [] = amigaLatin1ToUtf8 (List.take (s.calls w).streamedTo _)
      rw [hzero]
      rfl
    · show (s.calls w).streamedTo ≤ _
      rw [hzero]
      exact Nat.zero_le _
    · exact fun hd => absurd hdeath hd
  | undone w st _ _ =>
    exact streamOk_update h.inv hcalls rfl trivial fun _ _ _ _ => Grows.same rfl rfl
  | poll env w hphase =>
    have hpolling := hcalls w
    unfold StreamOk at hpolling
    rw [hphase] at hpolling
    exact streamOk_update h.inv hcalls rfl (streamOk_polled (s := pollCall env w s)
      ⟨hpolling.text, hpolling.within, hpolling.dead⟩) fun _ _ _ _ => Grows.same rfl rfl
  | stream w ji hphase =>
    rw [streamed_eq]
    exact (h.read hphase (k := 8192) hok).calls
  | read w ji hphase =>
    have hreading := hcalls w
    unfold StreamOk at hreading
    rw [hphase] at hreading
    exact streamOk_update h.inv hcalls rfl (streamOk_readAll hreading.1 hreading.2)
      fun _ _ _ _ => Grows.same rfl rfl
  | drop w ji out hphase =>
    have hdropping := hcalls w
    unfold StreamOk at hdropping
    rw [hphase] at hdropping
    exact streamOk_update h.inv hcalls rfl hdropping fun _ _ _ _ => Grows.same rfl rfl
  | table a table _ hserve =>
    intro w
    rw [onTable_calls]
    exact (hcalls w).frame (h.inv.calls w) fun id _ => grows_onTable h.inv.outputs hserve id

theorem StreamInv.step {s s' : Sys n} {a : StreamLabel n} (h : StreamInv s) (hok : Streamable s a)
    (hstep : streamStep s a = some s') : StreamInv s' := by
  cases a with
  | exec a => exact h.exec hok hstep
  | short w k =>
    simp only [streamStep] at hstep
    split at hstep
    · rename_i ji hphase
      cases hstep
      exact h.read hphase hok
    · cases hstep

/-! ## Runs -/

/-- A call that streams and has answered for an ended job has sent its whole
output, if that has no NUL byte. -/
def StreamsWhole (c : Call) : Prop :=
  ∀ r, c.phase = .answered r → SentAll c r.info.state

theorem neZero_two : NeZero 2 := ⟨by decide⟩

attribute [local instance] neZero_two

/-- Worker 0 starts a streaming command, which writes `bytes` and ends before
the call looks at its job again. -/
def burstRun (bytes : Bytes) : List (StreamLabel 2) :=
  [.exec (.begin sampleEnv 0 { sampleParams with stream := true } true),
    .exec (.table (.startOpened ⟨0, .claimed, ⟨⟨0, jobSlots_pos⟩, 1⟩⟩)),
    .exec (.kicked 0 ⟨0, .opened, ⟨⟨0, jobSlots_pos⟩, 1⟩⟩),
    .exec (.table (.childWrite ⟨⟨0, jobSlots_pos⟩, 1⟩ bytes)),
    .exec (.table (.childExit ⟨⟨0, jobSlots_pos⟩, 1⟩ 0 0)),
    .exec (.poll sampleEnv 0), .exec (.stream 0), .exec (.read 0), .exec (.drop 0)]

/-- The state of the job a call has answered for. -/
def Call.answeredState (c : Call) : Option JobState :=
  match c.phase with
  | .answered r => some r.info.state
  | _ => none

theorem StreamsWhole.length_eq {c : Call} (h : StreamsWhole c) (hstream : c.params.stream = true)
    (hanswered : c.answeredState = some .exited) (hclean : (0 : UInt8) ∉ c.content) :
    c.streamText.length = (amigaLatin1ToUtf8 c.content).length := by
  unfold Call.answeredState at hanswered
  split at hanswered
  · rename_i r hphase
    rw [h r hphase hstream (Option.some.inj hanswered) hclean]
  · cases hanswered

end AmigaFleet.Mcpd.Exec
