import AmigaFleet.Lib.Blocks
import AmigaFleet.Lib.Framing
import Mathlib.Data.Nat.Prime.Basic

/-!
# SHA-256

The hash function of FIPS 180-4 for texts of bytes: the functions of section
4.1.2, the constants of 4.2.2 and 5.3.3, the padding of 5.1.1 and the hash
computation of 6.2.2.

`IsRootBits` says what the constants are, and `k_rootBits` and
`initial_rootBits` that the tables hold them.
-/

namespace AmigaFleet.Lib.Sha256

/-! ## Functions -/

def rotr (n x : UInt32) : UInt32 := (x >>> n) ||| (x <<< (32 - n))

def ch (x y z : UInt32) : UInt32 := (x &&& y) ^^^ (~~~x &&& z)

def maj (x y z : UInt32) : UInt32 := (x &&& y) ^^^ (x &&& z) ^^^ (y &&& z)

def bigSigma0 (x : UInt32) : UInt32 := rotr 2 x ^^^ rotr 13 x ^^^ rotr 22 x

def bigSigma1 (x : UInt32) : UInt32 := rotr 6 x ^^^ rotr 11 x ^^^ rotr 25 x

def smallSigma0 (x : UInt32) : UInt32 := rotr 7 x ^^^ rotr 18 x ^^^ (x >>> 3)

def smallSigma1 (x : UInt32) : UInt32 := rotr 17 x ^^^ rotr 19 x ^^^ (x >>> 10)

/-! ## Constants -/

/-- Eight words: a hash value or the working variables. -/
structure Words where
  a : UInt32
  b : UInt32
  c : UInt32
  d : UInt32
  e : UInt32
  f : UInt32
  g : UInt32
  h : UInt32
deriving DecidableEq, Repr

namespace Words

def toList (v : Words) : List UInt32 := [v.a, v.b, v.c, v.d, v.e, v.f, v.g, v.h]

def add (v w : Words) : Words :=
  ⟨v.a + w.a, v.b + w.b, v.c + w.c, v.d + w.d, v.e + w.e, v.f + w.f, v.g + w.g, v.h + w.h⟩

end Words

def kTable : List UInt32 :=
  [0x428a2f98, 0x71374491, 0xb5c0fbcf, 0xe9b5dba5, 0x3956c25b, 0x59f111f1, 0x923f82a4, 0xab1c5ed5,
   0xd807aa98, 0x12835b01, 0x243185be, 0x550c7dc3, 0x72be5d74, 0x80deb1fe, 0x9bdc06a7, 0xc19bf174,
   0xe49b69c1, 0xefbe4786, 0x0fc19dc6, 0x240ca1cc, 0x2de92c6f, 0x4a7484aa, 0x5cb0a9dc, 0x76f988da,
   0x983e5152, 0xa831c66d, 0xb00327c8, 0xbf597fc7, 0xc6e00bf3, 0xd5a79147, 0x06ca6351, 0x14292967,
   0x27b70a85, 0x2e1b2138, 0x4d2c6dfc, 0x53380d13, 0x650a7354, 0x766a0abb, 0x81c2c92e, 0x92722c85,
   0xa2bfe8a1, 0xa81a664b, 0xc24b8b70, 0xc76c51a3, 0xd192e819, 0xd6990624, 0xf40e3585, 0x106aa070,
   0x19a4c116, 0x1e376c08, 0x2748774c, 0x34b0bcb5, 0x391c0cb3, 0x4ed8aa4a, 0x5b9cca4f, 0x682e6ff3,
   0x748f82ee, 0x78a5636f, 0x84c87814, 0x8cc70208, 0x90befffa, 0xa4506ceb, 0xbef9a3f7, 0xc67178f2]

def k (t : Nat) : UInt32 := kTable.getD t 0

/-- The initial hash value. -/
def initial : Words :=
  ⟨0x6a09e667, 0xbb67ae85, 0x3c6ef372, 0xa54ff53a, 0x510e527f, 0x9b05688c, 0x1f83d9ab, 0x5be0cd19⟩

/-- The first 32 bits of the fractional part of the `e`-th root of `p`. -/
def IsRootBits (e p : Nat) (bits : UInt32) : Prop :=
  ∃ q, (q * 2 ^ 32 + bits.toNat) ^ e ≤ p * 2 ^ (32 * e) ∧
    p * 2 ^ (32 * e) < (q * 2 ^ 32 + bits.toNat + 1) ^ e

/-- The prime numbers below 312. -/
def primes : List Nat := (List.range 312).filter Nat.Prime

/-- The numbers from 2 on without a divisor below 18 but 1 and themselves. -/
def Undivided (p : Nat) : Prop := 2 ≤ p ∧ ∀ m < 18, 2 ≤ m → m ∣ p → m = p

instance (p : Nat) : Decidable (Undivided p) := inferInstanceAs (Decidable (_ ∧ _))

theorem prime_iff {p : Nat} (hp : p < 18 ^ 2) : p.Prime ↔ Undivided p := by
  constructor
  · intro hprime
    refine ⟨hprime.two_le, fun m _ hm hdvd => ?_⟩
    exact (hprime.eq_one_or_self_of_dvd m hdvd).resolve_left (by omega)
  · rintro ⟨htwo, hdvd⟩
    have hfac : p.minFac.Prime := Nat.minFac_prime (by omega)
    by_contra hprime
    have hsq : p.minFac ^ 2 ≤ p := Nat.minFac_sq_le_self (by omega) hprime
    have hlt : p.minFac < 18 := by
      by_contra hge
      have hmul : 18 ^ 2 ≤ p.minFac ^ 2 := Nat.pow_le_pow_left (by omega) 2
      omega
    rw [hdvd _ hlt hfac.two_le p.minFac_dvd] at hfac
    exact hprime hfac

theorem primes_eq : primes =
    [2, 3, 5, 7, 11, 13, 17, 19, 23, 29, 31, 37, 41, 43, 47, 53, 59, 61, 67, 71, 73, 79, 83, 89,
      97, 101, 103, 107, 109, 113, 127, 131, 137, 139, 149, 151, 157, 163, 167, 173, 179, 181, 191,
      193, 197, 199, 211, 223, 227, 229, 233, 239, 241, 251, 257, 263, 269, 271, 277, 281, 283, 293,
      307, 311] := by
  have hfilter : primes = (List.range 312).filter Undivided := by
    refine List.filter_congr fun p hp => decide_eq_decide.mpr (prime_iff ?_)
    rw [List.mem_range] at hp
    omega
  rw [hfilter]
  decide +kernel

/-- The words of `kTable` belong to the cube roots of the first 64 primes. -/
theorem k_rootBits :
    primes.length = 64 ∧ ∀ t < 64, IsRootBits 3 (primes.getD t 0) (k t) := by
  have hroots : ∀ t < 64, ∃ q < 7, (q * 2 ^ 32 + (k t).toNat) ^ 3 ≤ primes.getD t 0 * 2 ^ 96 ∧
      primes.getD t 0 * 2 ^ 96 < (q * 2 ^ 32 + (k t).toNat + 1) ^ 3 := by
    rw [primes_eq]
    decide +kernel
  refine ⟨by rw [primes_eq]; rfl, fun t ht => ?_⟩
  obtain ⟨q, -, hq⟩ := hroots t ht
  exact ⟨q, hq⟩

/-- The initial words belong to the square roots of the first eight primes. -/
theorem initial_rootBits :
    ∀ t < 8, IsRootBits 2 (primes.getD t 0) (initial.toList.getD t 0) := by
  have hroots : ∀ t < 8, ∃ q < 5,
      (q * 2 ^ 32 + (initial.toList.getD t 0).toNat) ^ 2 ≤ primes.getD t 0 * 2 ^ 64 ∧
        primes.getD t 0 * 2 ^ 64 < (q * 2 ^ 32 + (initial.toList.getD t 0).toNat + 1) ^ 2 := by
    rw [primes_eq]
    decide +kernel
  intro t ht
  obtain ⟨q, -, hq⟩ := hroots t ht
  exact ⟨q, hq⟩

/-! ## Padding -/

/-- The least number of zero bytes that brings the text, the byte `0x80` and
the zeros to 56 bytes behind a block. -/
def zeros (n : Nat) : Nat := (119 - n % 64) % 64

theorem zeros_spec (n : Nat) :
    (n + 1 + zeros n) % 64 = 56 ∧ ∀ z, (n + 1 + z) % 64 = 56 → zeros n ≤ z := by
  unfold zeros
  constructor
  · omega
  · intro z hz
    omega

/-- The length of a text in bits, as eight bytes. -/
def lengthBytes (bits : Nat) : Bytes := header (bits / 2 ^ 32) ++ header bits

def pad (text : Bytes) : Bytes :=
  text ++ 0x80 :: (List.replicate (zeros text.length) 0 ++ lengthBytes (8 * text.length))

/-- A padded text is a row of complete blocks. -/
theorem pad_length (text : Bytes) : 64 ∣ (pad text).length := by
  have hspec := (zeros_spec text.length).1
  apply Nat.dvd_of_mod_eq_zero
  simp only [pad, lengthBytes, List.length_append, List.length_cons, List.length_replicate,
    header_length]
  omega

/-! ## The hash -/

/-- The word with this number in a block. -/
def word (block : Bytes) (t : Nat) : UInt32 := UInt32.ofNat (be32 ((block.drop (4 * t)).take 4))

/-- The message schedule of a block. -/
def schedule (block : Bytes) (t : Nat) : UInt32 :=
  if t < 16 then word block t
  else
    smallSigma1 (schedule block (t - 2)) + schedule block (t - 7) +
      smallSigma0 (schedule block (t - 15)) + schedule block (t - 16)
termination_by t

def round (kt wt : UInt32) (v : Words) : Words :=
  let t1 := v.h + bigSigma1 v.e + ch v.e v.f v.g + kt + wt
  let t2 := bigSigma0 v.a + maj v.a v.b v.c
  ⟨t1 + t2, v.a, v.b, v.c, v.d + t1, v.e, v.f, v.g⟩

/-- The working variables behind the first `t` rounds. -/
def rounds (w : Nat → UInt32) (v : Words) : Nat → Words
  | 0 => v
  | t + 1 => round (k t) (w t) (rounds w v t)

def compress (v : Words) (block : Bytes) : Words := (rounds (schedule block) v 64).add v

def hash (text : Bytes) : Words := Blocks.absorb 64 compress initial (pad text)

def Words.bytes (v : Words) : Bytes := v.toList.flatMap fun w => header w.toNat

def digest (text : Bytes) : Bytes := (hash text).bytes

end AmigaFleet.Lib.Sha256
