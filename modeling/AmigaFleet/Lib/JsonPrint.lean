import Mathlib.Data.List.Forall2
import AmigaFleet.Lib.JsonText

/-!
# Writing JSON texts

What a writer has to write so that the reader of `JsonText` gets a value back.
`Reads text v` says that wherever a value is due the reader comes behind `v`
with this text.

* `reads_scalar` and `reads_string` are the values without parts.
* `reads_array` and `reads_object` put the texts of the parts together, with a
  blank behind each comma in `reads_array_spaced` and `reads_object_spaced`.
* `parse_of_reads` is the whole text.
* `spell_flatMap`: escapes that are read one by one.
-/

namespace AmigaFleet.Lib.JsonText

/-! ## Places -/

/-- A value is due, and behind it the stack is `stack'`. -/
inductive Expects : Phase → List Frame → List Frame → Prop where
  | value (stack : List Frame) : Expects .value stack stack
  | first (stack : List Frame) : Expects .first stack (.array [] :: stack)

/-- The reader has read `v`; an unquoted word ends only at the next byte. -/
inductive Behind (v : Value) (stack : List Frame) : Reader → Prop where
  | between : Behind v stack ⟨.between, .done v, stack⟩
  | word {word : Bytes} {p : Phase} {stack' : List Frame} (hword : scalar word = some v)
      (hnext : advance p stack' (.scalar v) = some (.done v, stack)) :
      Behind v stack ⟨.word word, p, stack'⟩

/-- Where a value is due, the text is read as `v`. -/
def Reads (text : Bytes) (v : Value) : Prop :=
  ∀ p stack stack', Expects p stack stack' →
    ∃ r, run Reader.step ⟨.between, p, stack⟩ text = some r ∧ Behind v stack' r

/-- A token that is not the end of an array. -/
theorem Expects.advance {p : Phase} {stack stack' : List Frame} (h : Expects p stack stack')
    {t : Token} (ht : t ≠ .mark .closeArray) : advance p stack t = valueToken stack' t := by
  cases h with
  | value => rfl
  | first =>
    cases t with
    | mark m =>
      cases m with
      | closeArray => exact absurd rfl ht
      | _ => rfl
    | scalar v => rfl
    | str text => rfl

/-- A byte that ends a word is read as if the word had been read before. -/
theorem Behind.step {v : Value} {stack : List Frame} {r : Reader} (h : Behind v stack r) {c : UInt8}
    (hc : delimits c = true) :
    r.step c = Reader.outside ⟨.between, .done v, stack⟩ c := by
  cases h with
  | between => rfl
  | word hword hnext =>
    show (if delimits c = true then _ else _) = _
    rw [if_pos hc, Reader.word, hword]
    show ((Reader.token _ (.scalar v)).bind fun r => r.outside c) = _
    rw [Reader.token, hnext]
    rfl

theorem Behind.finish {v : Value} {r : Reader} (h : Behind v [] r) : r.finish = some v := by
  cases h with
  | between => rfl
  | word hword hnext =>
    unfold Reader.finish
    dsimp only
    rw [Reader.word, hword]
    show (Reader.token _ (.scalar v)).bind _ = _
    rw [Reader.token, hnext]
    rfl

/-- A text that is read as a value is the text of that value. -/
theorem parse_of_reads {text : Bytes} {v : Value} (h : Reads text v) : parse text = some v := by
  obtain ⟨r, hrun, hbehind⟩ := h .value [] [] (.value [])
  rw [parse, Reader.start, hrun]
  exact hbehind.finish

/-! ## Values without parts -/

theorem reads_scalar {word : Bytes} {v : Value} (hne : word ≠ [])
    (hword : ∀ c ∈ word, delimits c = false) (hv : scalar word = some v) : Reads word v := by
  intro p stack stack' h
  refine ⟨_, run_word p stack hne hword, .word hv ?_⟩
  rw [h.advance (by simp)]
  rfl

/-- The token of a string. -/
theorem run_quoted {body : Bytes} {text : List Glyph} (h : spell body = some text) {p : Phase}
    {stack : List Frame} {next : Phase × List Frame}
    (hnext : advance p stack (.str text) = some next) (rest : Bytes) :
    run Reader.step ⟨.between, p, stack⟩ (quote :: (body ++ quote :: rest)) =
      run Reader.step ⟨.between, next.1, next.2⟩ rest := by
  have hbody : run inside ([], .plain) body = some (text, .plain) := by
    unfold spell at h
    split at h
    · rename_i heq
      cases h
      exact heq
    · cases h
  show run Reader.step ⟨.string [] .plain, p, stack⟩ (body ++ quote :: rest) = _
  rw [run_append (run_string p stack hbody), run, step_string, if_pos ⟨rfl, rfl⟩, Reader.token,
    hnext]
  rfl

theorem reads_string {body : Bytes} {text : List Glyph} (h : spell body = some text) :
    Reads (quote :: (body ++ [quote])) (.str text) := by
  intro p stack stack' hp
  have hnext : advance p stack (.str text) = some (.done (.str text), stack') := by
    rw [hp.advance (by simp)]
    rfl
  exact ⟨_, run_quoted h hnext [], .between⟩

/-! ## Arrays and objects -/

theorem intercalate_flatMap (c : UInt8) (text : Bytes) (texts : List Bytes) :
    [c].intercalate (text :: texts) = text ++ texts.flatMap fun text => c :: text := by
  induction texts generalizing text with
  | nil => simp
  | cons text' texts ih =>
    rw [List.intercalate_cons_cons, ih, List.flatMap_cons]
    simp

/-- The rest of an array behind one of its values. -/
theorem run_items {texts : List Bytes} {vs : List Value} (h : List.Forall₂ Reads texts vs)
    {r : Reader} {v : Value} {items : List Value} {stack : List Frame}
    (hr : Behind v (.array items :: stack) r) :
    run Reader.step r (texts.flatMap (fun text => 44 :: text) ++ [93]) =
      some ⟨.between, .done (.arr (items ++ v :: vs)), stack⟩ := by
  induction h generalizing r v items with
  | nil =>
    show run Reader.step r [93] = _
    rw [run, hr.step rfl]
    rfl
  | @cons text v' texts vs htext _ ih =>
    obtain ⟨r', hrun, hbehind⟩ := htext .value (.array (items ++ [v]) :: stack) _ (.value _)
    have hcomma : r.step 44 = some ⟨.between, .value, .array (items ++ [v]) :: stack⟩ := by
      rw [hr.step rfl]
      rfl
    rw [List.flatMap_cons, List.append_assoc, List.cons_append, run, hcomma]
    show run Reader.step _ (text ++ _) = _
    rw [run_append hrun, ih hbehind, List.append_assoc]
    rfl

/-- `[`, the texts of the items with commas between them, and `]`. -/
theorem reads_array {texts : List Bytes} {vs : List Value} (h : List.Forall₂ Reads texts vs) :
    Reads (91 :: ([44].intercalate texts ++ [93])) (.arr vs) := by
  intro p stack stack' hp
  have hopen : ∀ rest, run Reader.step ⟨.between, p, stack⟩ (91 :: rest) =
      run Reader.step ⟨.between, .first, stack'⟩ rest := by
    intro rest
    have hstep : Reader.step ⟨.between, p, stack⟩ 91 = some ⟨.between, .first, stack'⟩ := by
      show (advance p stack (.mark .openArray)).map _ = _
      rw [hp.advance (by simp)]
      rfl
    rw [run, hstep]
  refine ⟨_, ?_, .between⟩
  rw [hopen]
  cases h with
  | nil => rfl
  | @cons text v texts vs htext hrest =>
    obtain ⟨r, hrun, hbehind⟩ := htext .first stack' _ (.first _)
    rw [intercalate_flatMap, List.append_assoc, run_append hrun, run_items hrest hbehind]
    rfl

/-- Where the name of a member is due, the text is read as this member. -/
def Member (text : Bytes) (m : List Glyph × Value) : Prop :=
  ∀ members opened stack, ∃ r,
    run Reader.step ⟨.between, .name members opened, stack⟩ text = some r ∧
      Behind m.2 (.object members m.1 :: stack) r

/-- The text of one member. -/
def Field (text : Bytes) (m : List Glyph × Value) : Prop :=
  ∃ body value, text = quote :: (body ++ quote :: 58 :: value) ∧ spell body = some m.1 ∧
    Reads value m.2

theorem Field.member {text : Bytes} {m : List Glyph × Value} (h : Field text m) :
    Member text m := by
  intro members opened stack
  obtain ⟨body, value, rfl, hbody, hvalue⟩ := h
  have hname : advance (.name members opened) stack (.str m.1) =
      some (.colon members m.1, stack) := by
    cases opened <;> rfl
  rw [run_quoted hbody hname]
  exact hvalue .value (.object members m.1 :: stack) _ (.value _)

/-- The rest of an object behind one of its members. -/
theorem run_members {texts : List Bytes} {ms : Members} (h : List.Forall₂ Member texts ms)
    {r : Reader} {members : Members} {name : List Glyph} {v : Value} {stack : List Frame}
    (hr : Behind v (.object members name :: stack) r) :
    run Reader.step r (texts.flatMap (fun text => 44 :: text) ++ [125]) =
      some ⟨.between, .done (.obj (members ++ (name, v) :: ms)), stack⟩ := by
  induction h generalizing r members name v with
  | nil =>
    show run Reader.step r [125] = _
    rw [run, hr.step rfl]
    rfl
  | @cons text m texts ms htext _ ih =>
    obtain ⟨r', hrun, hbehind⟩ := htext (members ++ [(name, v)]) false stack
    have hcomma : r.step 44 = some ⟨.between, .name (members ++ [(name, v)]) false, stack⟩ := by
      rw [hr.step rfl]
      rfl
    rw [List.flatMap_cons, List.append_assoc, List.cons_append, run, hcomma]
    show run Reader.step _ (text ++ _) = _
    rw [run_append hrun, ih hbehind, List.append_assoc]
    rfl

/-- An opening brace, the texts of the members with commas between them, and a
closing one. -/
theorem reads_object {texts : List Bytes} {ms : Members} (h : List.Forall₂ Member texts ms) :
    Reads (123 :: ([44].intercalate texts ++ [125])) (.obj ms) := by
  intro p stack stack' hp
  have hopen : ∀ rest, run Reader.step ⟨.between, p, stack⟩ (123 :: rest) =
      run Reader.step ⟨.between, .name [] true, stack'⟩ rest := by
    intro rest
    have hstep : Reader.step ⟨.between, p, stack⟩ 123 = some ⟨.between, .name [] true, stack'⟩ := by
      show (advance p stack (.mark .openObject)).map _ = _
      rw [hp.advance (by simp)]
      rfl
    rw [run, hstep]
  refine ⟨_, ?_, .between⟩
  rw [hopen]
  cases h with
  | nil => rfl
  | @cons text m texts ms htext hrest =>
    obtain ⟨r, hrun, hbehind⟩ := htext [] true stack'
    rw [intercalate_flatMap, List.append_assoc, run_append hrun, run_members hrest hbehind]
    rfl

/-! ## Blanks -/

theorem run_blank (p : Phase) (stack : List Frame) (text : Bytes) :
    run Reader.step ⟨.between, p, stack⟩ (32 :: text) = run Reader.step ⟨.between, p, stack⟩ text :=
  rfl

theorem Reads.blank {text : Bytes} {v : Value} (h : Reads text v) : Reads (32 :: text) v := by
  intro p stack stack' hp
  rw [run_blank]
  exact h p stack stack' hp

theorem Member.blank {text : Bytes} {m : List Glyph × Value} (h : Member text m) :
    Member (32 :: text) m := by
  intro members opened stack
  rw [run_blank]
  exact h members opened stack

/-- A blank behind each comma belongs to the next text. -/
theorem intercalate_spaced (text : Bytes) (texts : List Bytes) :
    [44, 32].intercalate (text :: texts) =
      [44].intercalate (text :: texts.map fun text => 32 :: text) := by
  induction texts generalizing text with
  | nil => rfl
  | cons text' texts ih =>
    rw [List.intercalate_cons_cons, ih, List.map_cons, List.intercalate_cons_cons,
      intercalate_flatMap, intercalate_flatMap]
    simp

theorem reads_array_spaced {texts : List Bytes} {vs : List Value}
    (h : List.Forall₂ Reads texts vs) :
    Reads (91 :: ([44, 32].intercalate texts ++ [93])) (.arr vs) := by
  cases h with
  | nil => exact reads_array .nil
  | cons htext hrest =>
    rw [intercalate_spaced]
    exact reads_array
      (.cons htext (List.forall₂_map_left_iff.mpr (hrest.imp fun _ _ => Reads.blank)))

theorem reads_object_spaced {texts : List Bytes} {ms : Members} (h : List.Forall₂ Member texts ms) :
    Reads (123 :: ([44, 32].intercalate texts ++ [125])) (.obj ms) := by
  cases h with
  | nil => exact reads_object .nil
  | cons htext hrest =>
    rw [intercalate_spaced]
    exact reads_object
      (.cons htext (List.forall₂_map_left_iff.mpr (hrest.imp fun _ _ => Member.blank)))

/-! ## Escapes -/

theorem inside_append (pre : List Glyph) (q : List Glyph × Inside) (c : UInt8) :
    inside (pre ++ q.1, q.2) c = (inside q c).map fun q' => (pre ++ q'.1, q'.2) := by
  obtain ⟨text, s⟩ := q
  cases s with
  | plain =>
    simp only [inside]
    split
    · rfl
    · split <;> simp
  | escape =>
    simp only [inside]
    split
    · rfl
    · cases escaped c <;> simp
  | hex digits code =>
    simp only [inside]
    cases hexValue c with
    | none => rfl
    | some v =>
      simp only [Option.map_some]
      split <;> simp

theorem run_inside_append (pre : List Glyph) (q : List Glyph × Inside) (body : Bytes) :
    run inside (pre ++ q.1, q.2) body = (run inside q body).map fun q' => (pre ++ q'.1, q'.2) := by
  induction body generalizing q with
  | nil => rfl
  | cons c body ih =>
    rw [run, run, inside_append]
    cases inside q c with
    | none => rfl
    | some q' => exact ih q'

/-- A text whose bytes are escaped one by one. -/
theorem spell_flatMap {escape : UInt8 → Bytes}
    (h : ∀ c, run inside ([], .plain) (escape c) = some ([.byte c], .plain)) (text : Bytes) :
    spell (text.flatMap escape) = some (text.map .byte) := by
  have hrun : ∀ pre, run inside (pre, .plain) (text.flatMap escape) =
      some (pre ++ text.map .byte, .plain) := by
    induction text with
    | nil => simp
    | cons c text ih =>
      intro pre
      have hc := run_inside_append pre ([], .plain) (escape c)
      rw [List.append_nil, h c] at hc
      rw [List.flatMap_cons, run_append hc]
      show run inside (pre ++ [.byte c], .plain) _ = _
      rw [ih, List.append_assoc]
      rfl
  rw [spell, hrun]
  rfl

/-! ## The strings of a value -/

mutual

/-- The strings and the names in a value. -/
def Value.strings : Value → List (List Glyph)
  | .str text => [text]
  | .arr items => itemStrings items
  | .obj members => memberStrings members
  | _ => []

def itemStrings : List Value → List (List Glyph)
  | [] => []
  | v :: items => v.strings ++ itemStrings items

def memberStrings : Members → List (List Glyph)
  | [] => []
  | (name, v) :: members => name :: (v.strings ++ memberStrings members)

end

end AmigaFleet.Lib.JsonText
