import AmigaFleet.Lib.Dict
import AmigaFleet.Host.Discover
import AmigaFleet.Host.Json
import Mathlib.Algebra.Order.Ring.Rat
import Mathlib.Data.List.Lex
import Mathlib.Data.List.Sort

/-!
# What `discover` makes of the replies

The receive loop of `discover` in
`host/src/amiga_fleet_mcp/transports/discovery.py`, with the exceptions that its
conversions raise.

`PyLib` is what `json.loads` and `int` make of a text, whatever the limits of the
interpreter.  `Turn` is one round of the loop: the clock when it begins and how
the wait ends.

* `parseResponse_agree`: the reader of `AmigaFleet.Host.Discover`, which knows JSON
  texts, takes the same replies.
* `entry_ok_iff`: the replies that are converted without an exception.
* `collect_ok_iff`, `collect_spec`: what a whole window leaves.
* `discover_robust_iff`: when `discover` returns the whole fleet.
-/

namespace AmigaFleet.Host.DiscoverLoop

open AmigaFleet.Lib
open AmigaFleet.Mcpd (ascii)

/-! ## Python values -/

/-- A `str`, by its code points. -/
abbrev Text := List Nat

def text (s : String) : Text := s.toList.map Char.toNat

inductive PyError where
  | jsonDecodeError
  | valueError
  | typeError
  | overflowError
  | indexError
  | recursionError
deriving DecidableEq, Repr

inductive PyFloat where
  | finite (r : Rat)
  | infinite
  | nan
deriving DecidableEq, Repr

/-- What `json.loads` gives. -/
inductive PyValue where
  | none
  | bool (b : Bool)
  | int (n : Int)
  | float (f : PyFloat)
  | str (t : Text)
  | list (items : List PyValue)
  | dict (members : List (Text × PyValue))

structure PyLib where
  /-- `json.loads(data.decode("utf-8", errors="replace"))` -/
  loads : Bytes → Except PyError PyValue
  /-- `int(text)`; `none` is a `ValueError`. -/
  intOfText : Text → Option Int

namespace PyValue

/-- `bool(value)` -/
def truthy : PyValue → Bool
  | none => false
  | bool b => b
  | int n => n ≠ 0
  | float (.finite r) => r ≠ 0
  | float _ => true
  | str t => t ≠ []
  | list items => !items.isEmpty
  | dict members => !members.isEmpty

/-- `value == 1` -/
def equalsOne : PyValue → Bool
  | bool b => b
  | int n => n = 1
  | float (.finite r) => r = 1
  | _ => false

/-- `int(value)` -/
def toInt (py : PyLib) : PyValue → Except PyError Int
  | none => .error .typeError
  | bool b => .ok (if b then 1 else 0)
  | int n => .ok n
  | float (.finite r) => .ok (r.num.tdiv r.den)
  | float .infinite => .error .overflowError
  | float .nan => .error .valueError
  | str t =>
    match py.intOfText t with
    | some n => .ok n
    | Option.none => .error .valueError
  | list _ => .error .typeError
  | dict _ => .error .typeError

/-- The values that `int` takes. -/
def Numeric (py : PyLib) : PyValue → Prop
  | bool _ => True
  | int _ => True
  | float (.finite _) => True
  | str t => (py.intOfText t).isSome = true
  | _ => False

theorem toInt_ok_iff (py : PyLib) (value : PyValue) :
    (∃ n, value.toInt py = .ok n) ↔ value.Numeric py := by
  cases value with
  | float f => cases f <;> simp [toInt, Numeric]
  | str t => cases h : py.intOfText t <;> simp [toInt, Numeric, h]
  | _ => simp [toInt, Numeric]

end PyValue

/-! ## The loop -/

abbrev Members := List (Text × PyValue)

/-- `obj.get(key)` -/
def dictGet (obj : Members) (key : String) : Option PyValue :=
  (obj.find? fun member => member.1 = text key).map Prod.snd

/-- `int(obj.get(key) or default)` -/
def dictGetInt (py : PyLib) (obj : Members) (key : String) (default : Int) : Except PyError Int :=
  match dictGet obj key with
  | some value => if value.truthy then value.toInt py else .ok default
  | none => .ok default

/-- `_parse_response` -/
def parseResponse (py : PyLib) (data : Bytes) (expectedTag : Text) :
    Except PyError (Option Members) :=
  match py.loads data with
  | .error .jsonDecodeError => .ok none
  | .error e => .error e
  | .ok (.dict obj) =>
    if (dictGet obj "mcp_discovery").any PyValue.equalsOne then
      match dictGet obj "tag" with
      | some (.str tag) => .ok (if tag = expectedTag then some obj else none)
      | _ => .ok none
    else .ok none
  | .ok _ => .ok none

/-- One entry of `endpoint_map`. -/
structure Override where
  endpoint : Option Text
  target : Option Text
deriving DecidableEq, Repr

structure Datagram where
  data : Bytes
  ip : Text
  port : Nat
  /-- `now` -/
  readAt : Rat
deriving DecidableEq, Repr

/-- One value of `seen`. -/
structure Found where
  ip : Text
  tcpPort : Int
  server : PyValue
  protocol : PyValue
  host : PyValue
  methods : Int
  latencyMs : Int
  endpoint : Text
  target : Option Text

/-- What one call of `discover` has set up when it begins to receive. -/
structure Probe where
  tag : Text
  sentAt : Rat
  deadline : Rat
  endpointMap : List ((Text × Nat) × Override)

/-- `endpoint_map.get((peer[0], peer[1]), {})` -/
def Probe.override (probe : Probe) (d : Datagram) : Override :=
  ((probe.endpointMap.find? fun e => e.1 = (d.ip, d.port)).map Prod.snd).getD ⟨none, none⟩

/-- `override.get("endpoint")`, when it is truthy. -/
def Override.given (override : Override) : Option Text := override.endpoint.filter (· ≠ [])

/-- `int(endpoint.rsplit(":", 1)[1])` -/
def portOf (py : PyLib) (endpoint : Text) : Except PyError Int :=
  if 58 ∈ endpoint then
    match py.intOfText (endpoint.reverse.takeWhile (· ≠ 58)).reverse with
    | some n => .ok n
    | none => .error .valueError
  else .error .indexError

/-- `tcp_port` in the entry. -/
def entryPort (py : PyLib) (override : Override) (announced : Int) : Except PyError Int :=
  match override.given with
  | some endpoint => portOf py endpoint
  | none => .ok announced

/-- `int(seconds * 1000)` -/
def milliseconds (seconds : Rat) : Int := (seconds * 1000).num.tdiv (seconds * 1000).den

/-- The entry for one reply. -/
def found (py : PyLib) (probe : Probe) (d : Datagram) (obj : Members) : Except PyError Found := do
  let announced ← dictGetInt py obj "tcp_port" 4322
  let override := probe.override d
  let endpoint := override.given.getD (d.ip ++ text ":" ++ text (toString announced))
  let tcpPort ← entryPort py override announced
  let methods ← dictGetInt py obj "methods" 0
  .ok
    { ip := d.ip
      tcpPort
      server := (dictGet obj "server").getD (.str (text "?"))
      protocol := (dictGet obj "protocol").getD (.str (text "?"))
      host := (dictGet obj "host").getD (.str (text "?"))
      methods
      latencyMs := milliseconds (d.readAt - probe.sentAt)
      endpoint
      target := override.target }

/-- One datagram: `none` when it is no reply to this probe. -/
def entry (py : PyLib) (probe : Probe) (d : Datagram) : Except PyError (Option Found) := do
  match ← parseResponse py d.data probe.tag with
  | none => .ok none
  | some obj =>
    let r ← found py probe d obj
    .ok (some r)

inductive Wait where
  | datagram (d : Datagram)
  | osError
  | timeout
deriving DecidableEq, Repr

structure Turn where
  checkedAt : Rat
  wait : Wait
deriving DecidableEq, Repr

abbrev Seen := Dict (Text × Int) Found

/-- The loop, from one turn on.  Behind the last turn the deadline has passed. -/
def collect (py : PyLib) (probe : Probe) (seen : Seen) : List Turn → Except PyError Seen
  | [] => .ok seen
  | turn :: turns =>
    if probe.deadline - turn.checkedAt ≤ 0 then .ok seen
    else
      match turn.wait with
      | .timeout => .ok seen
      | .osError => collect py probe seen turns
      | .datagram d => do
        match ← entry py probe d with
        | none => collect py probe seen turns
        | some r => collect py probe (seen.set (r.ip, r.tcpPort) r) turns

/-- `r["latency_ms"], r["ip"]` -/
def Found.before (r s : Found) : Prop :=
  r.latencyMs < s.latencyMs ∨ r.latencyMs = s.latencyMs ∧ r.ip ≤ s.ip

instance : DecidableRel Found.before := fun _ _ => inferInstanceAs (Decidable (_ ∨ _))

/-- `discover`, behind the sending of the probes. -/
def discover (py : PyLib) (probe : Probe) (turns : List Turn) : Except PyError (List Found) := do
  let seen ← collect py probe [] turns
  .ok ((seen.map Prod.snd).insertionSort Found.before)

/-! ## One reply -/

/-- A member that is missing, that counts as false or that `int` takes. -/
def Countable (py : PyLib) (obj : Members) (key : String) : Prop :=
  ∀ value, dictGet obj key = some value → value.truthy = true → value.Numeric py

/-- A reply whose conversions succeed. -/
structure Convertible (py : PyLib) (probe : Probe) (d : Datagram) (obj : Members) : Prop where
  tcpPort : Countable py obj "tcp_port"
  endpoint : ∀ endpoint ∈ (probe.override d).given, ∃ n, portOf py endpoint = .ok n
  methods : Countable py obj "methods"

theorem dictGetInt_ok_iff (py : PyLib) (obj : Members) (key : String) (default : Int) :
    (∃ n, dictGetInt py obj key default = .ok n) ↔ Countable py obj key := by
  unfold dictGetInt Countable
  cases hget : dictGet obj key with
  | none => simp
  | some value =>
    cases htruthy : value.truthy with
    | false => simp [htruthy]
    | true => simp [htruthy, PyValue.toInt_ok_iff]

theorem bind_ok_iff {ε α β : Type} (x : Except ε α) (f : α → Except ε β) :
    (∃ b, (x >>= f) = .ok b) ↔ ∃ a, x = .ok a ∧ ∃ b, f a = .ok b := by
  cases x with
  | error e => simp [bind, Except.bind]
  | ok a => simp [bind, Except.bind]

theorem found_ok_iff (py : PyLib) (probe : Probe) (d : Datagram) (obj : Members) :
    (∃ r, found py probe d obj = .ok r) ↔ Convertible py probe d obj := by
  have htcp := dictGetInt_ok_iff py obj "tcp_port" 4322
  have hmethods := dictGetInt_ok_iff py obj "methods" 0
  unfold found
  simp only [bind_ok_iff, Except.ok.injEq, exists_eq', and_true, hmethods]
  constructor
  · rintro ⟨announced, hannounced, port, hport, hm⟩
    refine ⟨htcp.mp ⟨announced, hannounced⟩, fun endpoint hgiven => ⟨port, ?_⟩, hm⟩
    rwa [entryPort, Option.mem_def.mp hgiven] at hport
  · rintro ⟨ht, hendpoint, hm⟩
    obtain ⟨announced, hannounced⟩ := htcp.mpr ht
    refine ⟨announced, hannounced, ?_⟩
    rw [entryPort]
    cases hgiven : (probe.override d).given with
    | none => exact ⟨announced, rfl, hm⟩
    | some endpoint =>
      obtain ⟨port, hport⟩ := hendpoint endpoint hgiven
      exact ⟨port, hport, hm⟩

/-- A datagram that raises nothing. -/
structure Harmless (py : PyLib) (probe : Probe) (d : Datagram) : Prop where
  loads : ∀ e, py.loads d.data = .error e → e = .jsonDecodeError
  convertible : ∀ obj, parseResponse py d.data probe.tag = .ok (some obj) →
    Convertible py probe d obj

theorem parseResponse_ok_iff (py : PyLib) (data : Bytes) (tag : Text) :
    (∃ r, parseResponse py data tag = .ok r) ↔
      ∀ e, py.loads data = .error e → e = .jsonDecodeError := by
  unfold parseResponse
  cases hloads : py.loads data with
  | error e => cases e <;> simp
  | ok value =>
    cases value with
    | dict obj =>
      dsimp only
      split
      · split <;> simp
      · simp
    | _ => simp

/-- `v` is what `json.loads` makes of a member, as far as `_parse_response` looks. -/
structure Reads (value : Option JsonText.Value) (v : Option PyValue) : Prop where
  one : value.any Host.equalsOne = v.any PyValue.equalsOne
  text : ∀ t : Bytes, (∀ c ∈ t, c < 128) →
    (value = some (.str (glyphs t)) ↔ v = some (.str (t.map UInt8.toNat)))

/-- `json.loads` reads the text as JSON is read. -/
inductive LoadsAs : Option JsonText.Value → Except PyError PyValue → Prop
  | invalid : LoadsAs none (.error .jsonDecodeError)
  | object (members : JsonText.Members) (obj : Members) :
      (∀ key, Reads (Host.member key members) (dictGet obj key)) →
        LoadsAs (some (.obj members)) (.ok (.dict obj))
  | other (value : JsonText.Value) (v : PyValue) : (∀ members, value ≠ .obj members) →
      (∀ obj, v ≠ .dict obj) → LoadsAs (some value) (.ok v)

/-- A reply with this tag, for `json.loads` and in the JSON text. -/
theorem parseResponse_some_iff {py : PyLib} {data : Bytes} {tag : Text} :
    (∃ obj, parseResponse py data tag = .ok (some obj)) ↔ ∃ obj, py.loads data = .ok (.dict obj) ∧
      (dictGet obj "mcp_discovery").any PyValue.equalsOne = true ∧
      dictGet obj "tag" = some (.str tag) := by
  unfold parseResponse
  constructor
  · rintro ⟨reply, h⟩
    split at h
    · cases h
    · cases h
    · rename_i obj hloads
      split at h
      · rename_i hone
        split at h
        · rename_i found htag
          rw [Except.ok.injEq, Option.ite_none_right_eq_some] at h
          rw [h.1] at htag
          exact ⟨obj, hloads, hone, htag⟩
        · cases h
      · cases h
    · cases h
  · rintro ⟨obj, hloads, hone, htag⟩
    refine ⟨obj, ?_⟩
    rw [hloads]
    dsimp only
    rw [if_pos hone, htag]
    exact congrArg Except.ok (if_pos rfl)

theorem hostParseResponse_some_iff {data tag : Bytes} :
    (Host.parseResponse data tag).isSome = true ↔ ∃ members,
      JsonText.parse data = some (.obj members) ∧
      (Host.member "mcp_discovery" members).any Host.equalsOne = true ∧
      Host.member "tag" members = some (.str (glyphs tag)) := by
  unfold Host.parseResponse
  constructor
  · intro h
    split at h
    · rename_i members hparse
      split at h
      · rename_i hone
        split at h
        · rename_i found htag
          split at h
          · rename_i heq
            rw [heq] at htag
            exact ⟨members, hparse, hone, htag⟩
          · cases h
        · cases h
      · cases h
    · cases h
  · rintro ⟨members, hparse, hone, htag⟩
    rw [hparse]
    dsimp only
    rw [if_pos hone, htag]
    dsimp only
    rw [if_pos rfl]
    rfl

/-- The two readers of `_parse_response` take the same datagrams, wherever `json.loads`
reads them as JSON. -/
theorem parseResponse_agree {py : PyLib} {data tag : Bytes}
    (h : LoadsAs (JsonText.parse data) (py.loads data)) (htag : ∀ c ∈ tag, c < 128) :
    (∃ obj, parseResponse py data (tag.map UInt8.toNat) = .ok (some obj)) ↔
      (Host.parseResponse data tag).isSome = true := by
  rw [parseResponse_some_iff, hostParseResponse_some_iff]
  generalize JsonText.parse data = parsed at h ⊢
  generalize py.loads data = loaded at h ⊢
  cases h with
  | invalid =>
    constructor
    · rintro ⟨obj, hloads, -⟩
      cases hloads
    · rintro ⟨members, hparse, -⟩
      cases hparse
  | object members obj hreads =>
    have hone := (hreads "mcp_discovery").one
    have htext := (hreads "tag").text tag htag
    constructor
    · rintro ⟨obj', hloads, hfirst, hlast⟩
      cases hloads
      exact ⟨members, rfl, hone.trans hfirst, htext.mpr hlast⟩
    · rintro ⟨members', hparse, hfirst, hlast⟩
      cases hparse
      exact ⟨obj, rfl, hone.symm.trans hfirst, htext.mp hlast⟩
  | other value v hvalue hv =>
    constructor
    · rintro ⟨obj, hloads, -⟩
      exact absurd (Except.ok.inj hloads) (hv obj)
    · rintro ⟨members, hparse, -⟩
      exact absurd (Option.some.inj hparse) (hvalue members)

theorem entry_ok_iff (py : PyLib) (probe : Probe) (d : Datagram) :
    (∃ r, entry py probe d = .ok r) ↔ Harmless py probe d := by
  have hparse := parseResponse_ok_iff py d.data probe.tag
  unfold entry
  rw [bind_ok_iff]
  constructor
  · rintro ⟨obj?, hobj, r, hr⟩
    refine ⟨hparse.mp ⟨_, hobj⟩, fun obj h => ?_⟩
    obtain rfl : obj? = some obj := Except.ok.inj (hobj.symm.trans h)
    obtain ⟨r', hfound, -⟩ := (bind_ok_iff ..).mp ⟨r, hr⟩
    exact (found_ok_iff ..).mp ⟨r', hfound⟩
  · rintro ⟨hloads, hconvertible⟩
    obtain ⟨obj?, hobj⟩ := hparse.mpr hloads
    refine ⟨obj?, hobj, ?_⟩
    cases obj? with
    | none => exact ⟨none, rfl⟩
    | some obj =>
      obtain ⟨r, hr⟩ := (found_ok_iff ..).mpr (hconvertible obj hobj)
      exact ⟨some r, by simp [hr, bind, Except.bind]⟩

/-! ## The window -/

/-- The datagrams that are read before the deadline. -/
def window (probe : Probe) : List Turn → List Datagram
  | [] => []
  | turn :: turns =>
    if probe.deadline - turn.checkedAt ≤ 0 then []
    else
      match turn.wait with
      | .timeout => []
      | .osError => window probe turns
      | .datagram d => d :: window probe turns

/-- `seen` with one more reply. -/
def note (seen : Seen) : Option Found → Seen
  | none => seen
  | some r => seen.set (r.ip, r.tcpPort) r

/-- The loop is a fold over the datagrams of the window. -/
theorem collect_eq_foldlM (py : PyLib) (probe : Probe) (seen : Seen) (turns : List Turn) :
    collect py probe seen turns =
      (window probe turns).foldlM (fun seen d => do
        let r ← entry py probe d
        .ok (note seen r)) seen := by
  induction turns generalizing seen with
  | nil => rfl
  | cons turn turns ih =>
    rw [collect, window]
    split
    · rfl
    · cases turn.wait with
      | timeout => rfl
      | osError => exact ih seen
      | datagram d =>
        rw [List.foldlM_cons]
        cases hentry : entry py probe d with
        | error e => simp [hentry, bind, Except.bind]
        | ok r? =>
          cases r? with
          | none => simpa [hentry, note, bind, Except.bind] using ih seen
          | some r => simpa [hentry, note, bind, Except.bind] using ih (note seen (some r))

theorem collect_ok_iff (py : PyLib) (probe : Probe) (seen : Seen) (turns : List Turn) :
    (∃ out, collect py probe seen turns = .ok out) ↔
      ∀ d ∈ window probe turns, Harmless py probe d := by
  rw [collect_eq_foldlM]
  induction window probe turns generalizing seen with
  | nil => simp [pure, Except.pure]
  | cons d ds ih =>
    rw [List.foldlM_cons, bind_ok_iff, List.forall_mem_cons, ← entry_ok_iff]
    constructor
    · rintro ⟨seen', hseen, out, hout⟩
      obtain ⟨r, hr, -⟩ := (bind_ok_iff ..).mp ⟨seen', hseen⟩
      exact ⟨⟨r, hr⟩, (ih seen').mp ⟨out, hout⟩⟩
    · rintro ⟨⟨r, hr⟩, hds⟩
      exact ⟨note seen r, by simp [hr, bind, Except.bind], (ih _).mpr hds⟩

/-- Every value is under its own address and port, once. -/
structure Keyed (seen : Seen) : Prop where
  nodup : (Dict.keys seen).Nodup
  own : ∀ e ∈ seen, e.1 = (e.2.ip, e.2.tcpPort)

theorem keyed_nil : Keyed [] := ⟨List.nodup_nil, by simp⟩

theorem keyed_note {seen : Seen} (h : Keyed seen) (r : Option Found) : Keyed (note seen r) := by
  cases r with
  | none => exact h
  | some r =>
    refine ⟨Dict.nodup_keys_set h.nodup .., fun e he => ?_⟩
    rcases Dict.mem_set he with rfl | hold
    · rfl
    · exact h.own e hold

theorem keys_note {seen : Seen} {key : Text × Int} (h : key ∈ Dict.keys seen) (r : Option Found) :
    key ∈ Dict.keys (note seen r) := by
  cases r with
  | none => exact h
  | some r => exact Dict.mem_keys_set.mpr (.inr h)

/-- What a window that raises nothing leaves in `seen`. -/
theorem collect_spec {py : PyLib} {probe : Probe} {seen out : Seen} {turns : List Turn}
    (hseen : Keyed seen) (h : collect py probe seen turns = .ok out) :
    Keyed out ∧ (∀ key ∈ Dict.keys seen, key ∈ Dict.keys out) ∧
      ∀ d ∈ window probe turns, ∀ r, entry py probe d = .ok (some r) →
        (r.ip, r.tcpPort) ∈ Dict.keys out := by
  rw [collect_eq_foldlM] at h
  generalize window probe turns = ds at h ⊢
  induction ds generalizing seen with
  | nil =>
    obtain rfl := Except.ok.inj h
    exact ⟨hseen, fun _ => id, nofun⟩
  | cons d ds ih =>
    rw [List.foldlM_cons] at h
    obtain ⟨seen', hseen', -⟩ := (bind_ok_iff ..).mp ⟨out, h⟩
    obtain ⟨r?, hr?, -⟩ := (bind_ok_iff ..).mp ⟨seen', hseen'⟩
    simp only [hr?, bind, Except.bind] at h
    obtain ⟨hkeyed, hold, hnew⟩ := ih (keyed_note hseen r?) h
    refine ⟨hkeyed, fun key hkey => hold key (keys_note hkey r?), fun d' hd' r hr => ?_⟩
    rcases List.mem_cons.mp hd' with rfl | htail
    · obtain rfl := Except.ok.inj (hr?.symm.trans hr)
      exact hold _ (Dict.mem_keys_set.mpr (.inl rfl))
    · exact hnew d' htail r hr

/-! ## The fleet -/

instance : Std.Total Found.before := ⟨fun r s => by
  unfold Found.before
  rcases Int.lt_trichotomy r.latencyMs s.latencyMs with h | h | h
  · exact .inl (.inl h)
  · exact (le_total r.ip s.ip).imp (fun hip => .inr ⟨h, hip⟩) fun hip => .inr ⟨h.symm, hip⟩
  · exact .inr (.inl h)⟩

instance : IsTrans Found Found.before := ⟨fun r s t hrs hst => by
  rcases hrs with hrs | ⟨hrs, hip⟩
  · rcases hst with hst | ⟨hst, -⟩
    · exact .inl (Int.lt_trans hrs hst)
    · exact .inl (hst ▸ hrs)
  · rcases hst with hst | ⟨hst, hip'⟩
    · exact .inl (hrs ▸ hst)
    · exact .inr ⟨hrs.trans hst, hip.trans hip'⟩⟩

/-- What `discover` is to return for a window. -/
structure Fleet (py : PyLib) (probe : Probe) (turns : List Turn) (fleet : List Found) : Prop where
  nodup : (fleet.map fun r => (r.ip, r.tcpPort)).Nodup
  sorted : fleet.Pairwise Found.before
  complete : ∀ d ∈ window probe turns, ∀ r, entry py probe d = .ok (some r) →
    ∃ r' ∈ fleet, r'.ip = r.ip ∧ r'.tcpPort = r.tcpPort

theorem fleet_of_collect {py : PyLib} {probe : Probe} {turns : List Turn} {seen : Seen}
    (h : collect py probe [] turns = .ok seen) :
    Fleet py probe turns ((seen.map Prod.snd).insertionSort Found.before) := by
  obtain ⟨hkeyed, -, hcomplete⟩ := collect_spec keyed_nil h
  have hperm := List.perm_insertionSort Found.before (seen.map Prod.snd)
  have hkeys : (seen.map Prod.snd).map (fun r => (r.ip, r.tcpPort)) = Dict.keys seen := by
    rw [List.map_map]
    exact List.map_congr_left fun e he => (hkeyed.own e he).symm
  refine ⟨?_, List.pairwise_insertionSort .., fun d hd r hr => ?_⟩
  · rw [(hperm.map _).nodup_iff, hkeys]
    exact hkeyed.nodup
  · have hmem := hcomplete d hd r hr
    rw [← hkeys] at hmem
    obtain ⟨r', hr', hkey⟩ := List.mem_map.mp hmem
    obtain ⟨hip, hport⟩ := Prod.mk.inj hkey
    exact ⟨r', hperm.mem_iff.mpr hr', hip, hport⟩

/-- `discover` returns the fleet when no datagram of the window raises an
exception, and only then. -/
theorem discover_robust_iff (py : PyLib) (probe : Probe) (turns : List Turn) :
    (∃ fleet, discover py probe turns = .ok fleet ∧ Fleet py probe turns fleet) ↔
      ∀ d ∈ window probe turns, Harmless py probe d := by
  rw [← collect_ok_iff py probe []]
  constructor
  · rintro ⟨fleet, hfleet, -⟩
    obtain ⟨seen, hseen, -⟩ := (bind_ok_iff ..).mp ⟨fleet, hfleet⟩
    exact ⟨seen, hseen⟩
  · rintro ⟨seen, hseen⟩
    exact ⟨_, by rw [discover, hseen]; rfl, fleet_of_collect hseen⟩

/-- `json.loads` on some texts and `int` on decimal digits. -/
def pyOn (texts : List (Bytes × PyValue)) : PyLib where
  loads data :=
    match texts.find? fun e => e.1 = data with
    | some e => .ok e.2
    | none => .error .jsonDecodeError
  intOfText t :=
    if t ≠ [] ∧ t.all fun c => 48 ≤ c ∧ c ≤ 57 then
      some (t.foldl (fun n c => 10 * n + (c - 48)) 0 : Nat)
    else none

/-- One reply whose port is no number hides a daemon that has answered before it. -/
theorem discover_hidden : ¬ ∀ (py : PyLib) (probe : Probe) (turns : List Turn),
    ∃ fleet, discover py probe turns = .ok fleet ∧ Fleet py probe turns fleet := by
  intro h
  let good : Bytes := ascii "\x7b\"mcp_discovery\":1,\"tag\":\"9f86d081884c7d65\"\x7d"
  let bad : Bytes := ascii "\x7b\"mcp_discovery\":1,\"tag\":\"9f86d081884c7d65\",\"tcp_port\":\"x\"\x7d"
  let member (key : String) (value : PyValue) : Text × PyValue := (text key, value)
  let tag : Text := text "9f86d081884c7d65"
  let py := pyOn
    [(good, .dict [member "mcp_discovery" (.int 1), member "tag" (.str tag)]),
      (bad, .dict [member "mcp_discovery" (.int 1), member "tag" (.str tag),
        member "tcp_port" (.str (text "x"))])]
  let probe : Probe := ⟨tag, 0, 1, []⟩
  let hostile : Datagram := ⟨bad, text "10.0.0.2", 4323, 0⟩
  let turns : List Turn := [⟨0, .datagram ⟨good, text "10.0.0.1", 4323, 0⟩⟩, ⟨0, .datagram hostile⟩]
  have hwindow : hostile ∈ window probe turns := by
    simp [turns, probe, window]
  obtain ⟨fleet, hfleet, -⟩ := h py probe turns
  obtain ⟨seen, hseen, -⟩ := (bind_ok_iff ..).mp ⟨fleet, hfleet⟩
  have hharmless := (collect_ok_iff py probe [] turns).mp ⟨seen, hseen⟩ hostile hwindow
  obtain ⟨r, hr⟩ := (entry_ok_iff ..).mpr hharmless
  have hraised : entry py probe hostile = .error .valueError := rfl
  rw [hraised] at hr
  cases hr

end AmigaFleet.Host.DiscoverLoop
