import Mathlib.Data.List.FinRange
import AmigaFleet.Lib.Run
import AmigaFleet.Mcpd.CJson

/-!
# The discovery responder

`mcpd/src/discovery.c`: a task that answers UDP probes.  A `Daemon` is what the
task keeps between two datagrams, with the clock that `_now_ticks` reads.  A
`Datagram` carries the ticks that pass before it arrives, its source address
and its bytes; `Daemon.serve` is one round of `_discovery_loop`.

Two token buckets limit the replies, one for each source address and one for
all of them.  The products in `_rl_refill` are taken in 64 bits and stay below
`2 ^ 47`, so the tokens are plain integers here.
-/

namespace AmigaFleet.Mcpd.Discovery

open AmigaFleet.Lib

/-! ## Reply budgets -/

/-- `DISCOVERY_TICKS_PER_SEC` -/
def ticksPerSec : Int := 50

/-- `DISCOVERY_SRC_SLOTS` -/
abbrev srcSlots : Nat := 16

/-- `DISCOVERY_SRC_BURST` -/
def srcBurst : Int := 4

/-- `DISCOVERY_SRC_RATE` -/
def srcRate : Int := 1

/-- `DISCOVERY_GLOBAL_BURST` -/
def globalBurst : Int := 24

/-- `DISCOVERY_GLOBAL_RATE` -/
def globalRate : Int := 8

/-- `RL_SCALE` -/
def rlScale : Int := 1000

/-- `rl_bucket` -/
structure Bucket where
  tokens : Int
  lastTick : UInt32
deriving DecidableEq, Repr

/-- `rl_src`; the address 0 marks a free slot. -/
structure Src where
  ip : UInt32
  lastSeen : UInt32
  bucket : Bucket
deriving DecidableEq, Repr

/-- `g_src` and `g_global`. -/
structure Limiter where
  src : Fin srcSlots → Src
  global : Bucket

/-- `_rl_init` -/
def rlInit (burst : Int) (now : UInt32) : Bucket := ⟨burst * rlScale, now⟩

/-- `_rl_refill` -/
def rlRefill (b : Bucket) (now : UInt32) (rate burst : Int) : Bucket :=
  let elapsed := now - b.lastTick
  if elapsed = 0 then b
  else
    let tok := b.tokens + ((elapsed.toNat : Int) * rate * rlScale).tdiv ticksPerSec
    let cap := burst * rlScale
    ⟨if tok > cap then cap else tok, now⟩

/-- Where the loop of `_rl_src_for` ends. -/
inductive Found where
  /-- the slot that belongs to the address -/
  | own (i : Fin srcSlots)
  /-- the slot that is taken over -/
  | taken (i : Fin srcSlots)
deriving DecidableEq, Repr

/-- The loop of `_rl_src_for`, from the slots that are still to come, with
`free_slot` and `oldest`. -/
def rlScan (src : Fin srcSlots → Src) (ip now : UInt32) :
    List (Fin srcSlots) → Option (Fin srcSlots) → Fin srcSlots → Found
  | [], freeSlot, oldest => .taken (freeSlot.getD oldest)
  | i :: rest, freeSlot, oldest =>
    if (src i).ip ≠ 0 ∧ (src i).ip = ip then .own i
    else
      rlScan src ip now rest
        (if (src i).ip = 0 ∧ freeSlot = none then some i else freeSlot)
        (if now - (src i).lastSeen > now - (src oldest).lastSeen then i else oldest)

/-- `_rl_src_for`: the slot, and what it holds afterwards. -/
def rlSrcFor (src : Fin srcSlots → Src) (ip now : UInt32) : Fin srcSlots × Src :=
  match rlScan src ip now (List.finRange srcSlots) none 0 with
  | .own i => (i, { src i with lastSeen := now })
  | .taken i => (i, ⟨ip, now, rlInit srcBurst now⟩)

/-- Take one token. -/
def Bucket.spend (b : Bucket) : Bucket := { b with tokens := b.tokens - rlScale }

/-- `_rl_allow` -/
def rlAllow (l : Limiter) (ip now : UInt32) : Limiter × Bool :=
  let (i, s) := rlSrcFor l.src ip now
  let b := rlRefill s.bucket now srcRate srcBurst
  let g := rlRefill l.global now globalRate globalBurst
  if b.tokens < rlScale ∨ g.tokens < rlScale then
    (⟨Function.update l.src i { s with bucket := b }, g⟩, false)
  else (⟨Function.update l.src i { s with bucket := b.spend }, g.spend⟩, true)

/-! ## Probes and replies -/

/-- `strstr`, with the rest behind the match. -/
def strstr (needle : Bytes) : Bytes → Option Bytes
  | [] => if needle = [] then some [] else none
  | c :: text =>
    if needle <+: c :: text then some ((c :: text).drop needle.length) else strstr needle text

/-- `"key"` -/
def needleOf (key : String) : Bytes := CJson.quote :: (ascii key ++ [CJson.quote])

/-- `_extract_str_field`; `none` leaves `out` as it is. -/
def extractStrField (buf : Bytes) (key : String) (cap : Nat) : Option Bytes :=
  match strstr (needleOf key) (cText buf) with
  | none => none
  | some p =>
    match p.dropWhile fun c => c = 32 ∨ c = 9 ∨ c = 58 with
    | c :: p =>
      if c = CJson.quote ∧ CJson.quote ∈ p then
        some ((p.takeWhile (· ≠ CJson.quote)).take (cap - 1))
      else none
    | [] => none

/-- `_sanitize_inplace` -/
def sanitize (s : Bytes) : Bytes := s.map fun c => if c < 32 ∨ 127 ≤ c then 63 else c

/-- `DISCOVERY_BUF` -/
def discoveryBuf : Nat := 2048

/-- `DISCOVERY_MIN_PROBE` -/
def discoveryMinProbe : Nat := 64

structure Datagram where
  /-- ticks since the datagram before it -/
  wait : Nat
  ip : UInt32
  bytes : Bytes
deriving DecidableEq, Repr

/-- What `recvfrom` puts into `buf`. -/
def Datagram.buf (g : Datagram) : Bytes := g.bytes.take (discoveryBuf - 1)

/-- The acceptance check. -/
def Datagram.isProbe (g : Datagram) : Bool :=
  discoveryMinProbe ≤ g.buf.length ∧ (strstr (needleOf "mcp_discovery") (cText g.buf)).isSome ∧
    (strstr (needleOf "v") (cText g.buf)).isSome

/-- The `tag` that is echoed. -/
def Datagram.tag (g : Datagram) : Bytes := sanitize ((extractStrField g.buf "tag" 64).getD [])

/-- The `host` that is announced; `none` is a `gethostname` that fails. -/
def hostOf : Option Bytes → Bytes
  | some name => sanitize (cText (name.take 63))
  | none => ascii "amiga"

/-- The decimal text of `%u` and `%d`. -/
def decimal (n : Int) : Bytes := ascii (toString n)

structure Daemon where
  limiter : Limiter
  clock : UInt32
  host : Bytes
  tcpPort : UInt16
  methods : Int32

/-- The state in which `_discovery_loop` starts to receive. -/
def Daemon.init (hostname : Option Bytes) (tcpPort : UInt16) (methods : Int32) (now : UInt32) :
    Daemon where
  limiter := ⟨fun _ => ⟨0, 0, ⟨0, 0⟩⟩, rlInit globalBurst now⟩
  clock := now
  host := hostOf hostname
  tcpPort := tcpPort
  methods := methods

/-- The text of a reply. -/
def Daemon.reply (d : Daemon) (tag : Bytes) : Bytes :=
  ascii "\x7b\"mcp_discovery\":1,\"v\":1,\"server\":\"mcpd/2.2\",\"protocol\":\"1.0\",\"tcp_port\":" ++
    decimal d.tcpPort.toNat ++ ascii ",\"host\":\"" ++ d.host ++ ascii "\",\"methods\":" ++
    decimal d.methods.toInt ++ ascii ",\"tag\":\"" ++ tag ++ ascii "\"\x7d"

/-- One round of `_discovery_loop`, with the reply that goes out. -/
def Daemon.serve (d : Daemon) (g : Datagram) : Daemon × Option Bytes :=
  let d := { d with clock := d.clock + UInt32.ofNat g.wait }
  if g.isProbe then
    match rlAllow d.limiter g.ip d.clock with
    | (limiter, false) => ({ d with limiter := limiter }, none)
    | (limiter, true) =>
      let resp := d.reply g.tag
      ({ d with limiter := limiter }, if resp.length ≥ 512 then none else some resp)
  else (d, none)

/-- One round as a step. -/
def step (d : Daemon) (g : Datagram) : Option Daemon := some (d.serve g).1

/-- The state behind a sequence of datagrams. -/
def Daemon.after (d : Daemon) (gs : List Datagram) : Daemon := gs.foldl (fun d g => (d.serve g).1) d

/-- The replies to a sequence of datagrams, each with its addressee. -/
def replies (d : Daemon) : List Datagram → List (UInt32 × Bytes)
  | [] => []
  | g :: gs => ((d.serve g).2.map fun resp => (g.ip, resp)).toList ++ replies (d.serve g).1 gs

/-- Only a probe that the limiter allows is answered. -/
theorem serve_cases (d : Daemon) (g : Datagram) :
    (d.serve g).1.clock = d.clock + UInt32.ofNat g.wait ∧
      (((d.serve g).1.limiter = d.limiter ∧ (d.serve g).2 = none) ∨
        (g.isProbe = true ∧
          (d.serve g).1.limiter =
            (rlAllow d.limiter g.ip (d.clock + UInt32.ofNat g.wait)).1 ∧
          ((d.serve g).2.isSome →
            (rlAllow d.limiter g.ip (d.clock + UInt32.ofNat g.wait)).2 = true))) := by
  unfold Daemon.serve
  dsimp only
  cases hprobe : g.isProbe with
  | false => exact ⟨rfl, Or.inl ⟨rfl, rfl⟩⟩
  | true =>
    rw [if_pos rfl]
    rcases hallow : rlAllow d.limiter g.ip (d.clock + UInt32.ofNat g.wait) with ⟨l, _ | _⟩
    · exact ⟨rfl, Or.inr ⟨rfl, rfl, fun h => absurd h Bool.false_ne_true⟩⟩
    · exact ⟨rfl, Or.inr ⟨rfl, rfl, fun _ => rfl⟩⟩

theorem run_after (d : Daemon) (gs : List Datagram) : run step d gs = some (d.after gs) := by
  induction gs generalizing d with
  | nil => rfl
  | cons g gs ih => exact ih (d.serve g).1

end AmigaFleet.Mcpd.Discovery
