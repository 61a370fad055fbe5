import Hivex.PackedBits
import Hivex.Commands

/-! The hive handle of `lib/hivex-internal.h` and the record layouts of
`lib/hivex.c`, as an x86-64 host sees them: little-endian, 64-bit `size_t`.
An image is addressed by file offset. Every access states its bytes, so a read
or write that leaves the buffer is an outcome of its own and never a value. -/
namespace Hivex

open ByteMemory Commands

inductive Errno where
  | unset | EINVAL | EFAULT | ENOTSUP | ERANGE | EROFS | EEXIST | ENOMEM | ELOOP
  | ENOKEY | EILSEQ | E2BIG | system
deriving DecidableEq, Repr

-- The ways a call ends without a result: an error return with its errno, a
-- failed `assert`, an access outside the buffer, a handle left holding freed
-- memory, and the step bound of the embedding.
inductive Stop where
  | errno (code : Errno) | abort | outside | dangling | fuel
deriving DecidableEq, Repr

def Stop.code? : Stop → Option Errno
  | .errno code => some code
  | _ => none

/-- What the code takes from the C library: which `realloc` sizes are granted
and what `iconv` makes of a UTF-16 string. -/
structure Host where
  realloc : Nat → Bool
  iconv : List UInt8 → Except Errno (List UInt8)

-- A NUL-terminated string by its bytes before the NUL.
structure CString where
  bytes : List UInt8
  nul_free : 0 ∉ bytes
deriving DecidableEq

def cstr (buffer : List UInt8) : CString where
  bytes := buffer.takeWhile (· ≠ 0)
  nul_free := by
    intro member
    simpa using List.mem_takeWhile_imp member

theorem nulFree_nil : (0 : UInt8) ∉ ([] : List UInt8) := List.not_mem_nil

theorem nulFree_long : (0 : UInt8) ∉ List.replicate 65536 (0x61 : UInt8) := fun member =>
  absurd (List.eq_of_mem_replicate member) (by decide)

theorem nulFree_a : (0 : UInt8) ∉ ([0x61] : List UInt8) := by decide

abbrev CString.strlen (s : CString) : Nat := s.bytes.length

/-- `struct hive_h`. `addr` is meaningful below `size`, `bitmap` below
`bitmapLen size`. -/
structure Hive where
  size : Nat
  addr : Mem
  bitmap : Mem
  writable : Bool
  rootoffs : Nat
  endpages : Nat
  lastModified : Nat
  endblocks : Nat

def bitmapLen (size : Nat) : Nat := 1 + size / 32

-- `BITMAP_SET`, `BITMAP_CLR` and `BITMAP_TST` address bit `off >> 2`.
def bitmapTst (bitmap : Mem) (len off : Nat) : Except Stop Bool :=
  if off / 32 < len then .ok (PackedBits.test bitmap (off / 4)) else .error .outside

def bitmapSet (bitmap : Mem) (len off : Nat) : Except Stop Mem :=
  if off / 32 < len then .ok (PackedBits.set bitmap (off / 4)) else .error .outside

def bitmapClr (bitmap : Mem) (len off : Nat) : Except Stop Mem :=
  if off / 32 < len then .ok (PackedBits.clear bitmap (off / 4)) else .error .outside

/-- A handle together with the bytes that may be touched through an address: `may b i`
is about the byte `i` bytes behind `b`. -/
structure View where
  hive : Hive
  may : Nat → Nat → Bool

def Hive.view (h : Hive) : View := ⟨h, fun b i => b + i < h.size⟩

def View.mayAll (v : View) (b i n : Nat) : Bool := (List.range n).all fun k => v.may b (i + k)

abbrev Reader := Query Stop View

abbrev Command := EStateM Stop Hive

/-- The little-endian word of `n` bytes that lies `i` bytes behind `b`. -/
def rdLe (n b i : Nat) : Reader Nat := fun v =>
  if v.mayAll b i n then .ok (getLe v.hive.addr (b + i) n) else .error .outside

abbrev rd16 : Nat → Nat → Reader Nat := rdLe 2
abbrev rd32 : Nat → Nat → Reader Nat := rdLe 4
abbrev rd64 : Nat → Nat → Reader Nat := rdLe 8

def rdBytes (b i n : Nat) : Reader (List UInt8) := fun v =>
  if v.mayAll b i n then .ok (slice v.hive.addr (b + i) n) else .error .outside

def wrBytes (i : Nat) (bytes : List UInt8) : Command Unit := fun h =>
  if i + bytes.length ≤ h.size then .ok () { h with addr := blit h.addr i bytes }
  else .error .outside h

abbrev wr16 (i v : Nat) : Command Unit := wrBytes i (leBytes 2 v)
abbrev wr32 (i v : Nat) : Command Unit := wrBytes i (leBytes 4 v)
abbrev wr64 (i v : Nat) : Command Unit := wrBytes i (leBytes 8 v)

abbrev read {α : Type} : Reader α → Command α := look Hive.view

section
variable {h : Hive} {b i n : Nat}

theorem mayAll_view (inside : b + i + n ≤ h.size) : h.view.mayAll b i n = true := by
  simp only [View.mayAll, List.all_eq_true, List.mem_range, Hive.view, decide_eq_true_eq]
  omega

theorem rdLe_view (inside : b + i + n ≤ h.size) :
    rdLe n b i h.view = .ok (getLe h.addr (b + i) n) := by
  simp only [rdLe, mayAll_view inside, if_true]
  rfl

theorem rdBytes_view (inside : b + i + n ≤ h.size) :
    rdBytes b i n h.view = .ok (slice h.addr (b + i) n) := by
  simp only [rdBytes, mayAll_view inside, if_true]
  rfl

theorem wrBytes_run {base : Nat} {bytes : List UInt8} (inside : base + bytes.length ≤ h.size) :
    wrBytes base bytes h = .ok () { h with addr := blit h.addr base bytes } := if_pos inside

end

def hiveMaxSubkeys : Nat := 15000
def hiveMaxValues : Nat := 10000
def hiveMaxValueLen : Nat := 1000000
def hiveMaxAllocation : Nat := 1000000

/-! Field offsets of the packed structures. -/

namespace Header
abbrev sequence1 : Nat := 4
abbrev sequence2 : Nat := 8
abbrev lastModified : Nat := 12
abbrev majorVer : Nat := 20
abbrev offset : Nat := 36
abbrev blocks : Nat := 40
abbrev csum : Nat := 0x1fc
abbrev magic : List UInt8 := [0x72, 0x65, 0x67, 0x66]
end Header

namespace Hbin
abbrev offsetFirst : Nat := 4
abbrev pageSize : Nat := 8
abbrev sizeof : Nat := 0x20
abbrev magic : List UInt8 := [0x68, 0x62, 0x69, 0x6e]
end Hbin

namespace Nk
abbrev flags : Nat := 6
abbrev timestamp : Nat := 8
abbrev parent : Nat := 20
abbrev nrSubkeys : Nat := 24
abbrev subkeyLf : Nat := 32
abbrev subkeyLfVolatile : Nat := 36
abbrev nrValues : Nat := 40
abbrev vallist : Nat := 44
abbrev sk : Nat := 48
abbrev classname : Nat := 52
abbrev maxSubkeyNameLen : Nat := 56
abbrev maxVkNameLen : Nat := 64
abbrev maxVkDataLen : Nat := 68
abbrev nameLen : Nat := 76
abbrev name : Nat := 80
abbrev sizeof : Nat := 81
abbrev id : List UInt8 := [0x6e, 0x6b]
end Nk

namespace Lf
abbrev nrKeys : Nat := 6
abbrev keyOffset (i : Nat) : Nat := 8 + 8 * i
abbrev keyHash (i : Nat) : Nat := 12 + 8 * i
abbrev sizeof : Nat := 16
abbrev idLf : List UInt8 := [0x6c, 0x66]
abbrev idLh : List UInt8 := [0x6c, 0x68]
end Lf

namespace Ri
abbrev nrOffsets : Nat := 6
abbrev offset (i : Nat) : Nat := 8 + 4 * i
abbrev id : List UInt8 := [0x72, 0x69]
end Ri

namespace ValueList
abbrev offset (i : Nat) : Nat := 4 + 4 * i
abbrev sizeof : Nat := 8
end ValueList

namespace Vk
abbrev nameLen : Nat := 6
abbrev dataLen : Nat := 8
abbrev dataOffset : Nat := 12
abbrev dataType : Nat := 16
abbrev flags : Nat := 20
abbrev name : Nat := 24
abbrev sizeof : Nat := 25
abbrev id : List UInt8 := [0x76, 0x6b]
end Vk

namespace Sk
abbrev skNext : Nat := 8
abbrev skPrev : Nat := 12
abbrev refcount : Nat := 16
abbrev id : List UInt8 := [0x73, 0x6b]
end Sk

def isValidBlock (off : Nat) : Reader Bool := fun v =>
  if off % 4 = 0 ∧ 0x1000 ≤ off ∧ off < v.hive.size then
    bitmapTst v.hive.bitmap (bitmapLen v.hive.size) off
  else .ok false

def blockIdEq (off : Nat) (eqid : List UInt8) : Reader Bool := do
  let id ← rdBytes off 4 2
  return id = eqid

-- `block_len` on the stored word: a negative length is negated in 32 bits, which
-- leaves the most negative one as it is, and then widened to `size_t`.
def segUsed (word : Nat) : Bool := 2 ^ 31 ≤ word

def segLength (word : Nat) : Nat :=
  if word < 2 ^ 31 then word
  else if word = 2 ^ 31 then 2 ^ 64 - 2 ^ 31
  else 2 ^ 32 - word

def blockLen (blkoff : Nat) : Reader Nat := do
  let word ← rd32 blkoff 0
  return segLength word

end Hivex
