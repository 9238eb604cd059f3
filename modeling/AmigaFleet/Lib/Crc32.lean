import AmigaFleet.Lib.Framing

/-!
# CRC-32

The checksum of PNG, gzip and zlib: the polynomial `0x04c11db7` with the bits in
reverse order, where the register starts with ones and is inverted at the end.

`update crc data` goes on from a checksum.  It goes on over two pieces as over both
in one (`update_append`).
-/

namespace AmigaFleet.Lib.Crc32

/-- One bit of the division. -/
def shiftBit (c : UInt32) : UInt32 := if c &&& 1 = 1 then c >>> 1 ^^^ 0xedb88320 else c >>> 1

/-- One byte. -/
def step (c : UInt32) (b : UInt8) : UInt32 := Nat.repeat shiftBit 8 (c ^^^ b.toUInt32)

/-- The checksum of a text that has the checksum `crc`, continued by `data`. -/
def update (crc : UInt32) (data : Bytes) : UInt32 :=
  data.foldl step (crc ^^^ 0xffffffff) ^^^ 0xffffffff

def crc32 (data : Bytes) : UInt32 := update 0 data

theorem invert_invert (c : UInt32) : c ^^^ 0xffffffff ^^^ 0xffffffff = c := by
  rw [UInt32.xor_assoc, UInt32.xor_self, UInt32.xor_zero]

@[simp] theorem update_nil (crc : UInt32) : update crc [] = crc := invert_invert crc

/-- The pieces of a text one after another. -/
theorem update_append (crc : UInt32) (a b : Bytes) :
    update (update crc a) b = update crc (a ++ b) := by
  rw [update, update, invert_invert, update, List.foldl_append]

/-- The check value of the algorithm. -/
example : crc32 [49, 50, 51, 52, 53, 54, 55, 56, 57] = 0xcbf43926 := by decide +kernel

end AmigaFleet.Lib.Crc32
