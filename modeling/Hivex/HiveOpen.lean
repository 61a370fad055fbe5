import Hivex.HiveImage

/-! `hivex_open`: the header checks and the scan of pages and blocks that fills
the bitmap. The scan may meet a block length that sends it backwards, so its two
loops count their rounds down from a bound. -/
namespace Hivex

open ByteMemory

structure File where
  size : Nat
  byte : Mem

namespace File

def rd8 (file : File) (i : Nat) : Except Stop UInt8 :=
  if i < file.size then .ok (file.byte i) else .error .outside

def rdLe (file : File) (n i : Nat) : Except Stop Nat :=
  if i + n ≤ file.size then .ok (getLe file.byte i n) else .error .outside

/-- Compare a magic number as the chain of `||` does: stop at the first mismatch. -/
def magicIs (file : File) (base : Nat) : List UInt8 → Except Stop Bool
  | [] => .ok true
  | c :: cs => do
      let b ← file.rd8 base
      if b ≠ c then return false
      file.magicIs (base + 1) cs

end File

section
variable {file : File}

theorem rdLe_file {n i : Nat} (inside : i + n ≤ file.size) :
    file.rdLe n i = .ok (getLe file.byte i n) := if_pos inside

theorem magicIs_true {magic : List UInt8} {base : Nat} (inside : base + magic.length ≤ file.size)
    (same : slice file.byte base magic.length = magic) : file.magicIs base magic = .ok true := by
  induction magic generalizing base with
  | nil => rfl
  | cons c cs ih =>
      simp only [List.length_cons] at inside same
      rw [slice_succ] at same
      injection same with head tail
      have first : file.rd8 base = .ok c := by
        simp only [File.rd8, head]
        rw [if_pos (by omega)]
      unfold File.magicIs
      simp only [first, bind, Except.bind, ne_eq, not_true_eq_false, if_false]
      exact ih (by omega) tail

end

def headerChecksum (addr : Mem) : Nat :=
  (List.range (Header.csum / 4)).foldl (fun sum i => sum ^^^ get32 addr (4 * i)) 0

def File.checksum (file : File) : Except Stop Nat :=
  if Header.csum ≤ file.size then .ok (headerChecksum file.byte) else .error .outside

/-- What the scan has found so far. -/
structure Scan where
  bitmap : Mem
  seenRootBlock : Bool
  badRootBlock : Bool

-- A used root block must be an nk-block.
def rootIdBad (file : File) (blkoff : Nat) : Except Stop Bool := do
  return !(← file.magicIs (blkoff + 4) Nk.id)

/-- One block header at `blkoff`: the length to skip and the updated scan. -/
def readBlock (file : File) (rootoffs blkoff : Nat) (scan : Scan) :
    Except Stop (Nat × Scan) := do
  let isRoot : Bool := blkoff = rootoffs
  let seen := scan.seenRootBlock || isRoot
  let word ← file.rdLe 4 blkoff
  let segLen := segLength word
  let used := segUsed word
  if segLen ≤ 4 ∨ segLen % 4 ≠ 0 then throw (.errno .ENOTSUP)
  if !used then
    return (segLen, { scan with seenRootBlock := seen, badRootBlock := scan.badRootBlock || isRoot })
  let badId ← if isRoot then rootIdBad file blkoff else .ok false
  let bitmap ← bitmapSet scan.bitmap (bitmapLen file.size) blkoff
  return (segLen, ⟨bitmap, seen, scan.badRootBlock || badId⟩)

/-- Read the blocks in a page that ends at `pageEnd`. -/
def readBlocks (file : File) (rootoffs pageEnd : Nat) : Nat → Nat → Scan → Except Stop Scan
  | 0, _, _ => .error .fuel
  | fuel + 1, blkoff, scan =>
      if blkoff < pageEnd then do
        let (segLen, scan) ← readBlock file rootoffs blkoff scan
        readBlocks file rootoffs pageEnd fuel ((blkoff + segLen) % 2 ^ 64) scan
      else .ok scan

/-- The page at `off`: its size and the updated scan. -/
def readPage (file : File) (rootoffs fuel off : Nat) (scan : Scan) : Except Stop (Nat × Scan) := do
  unless (← file.magicIs off Hbin.magic) do throw (.errno .ENOTSUP)
  let pageSize ← file.rdLe 4 (off + Hbin.pageSize)
  if pageSize ≤ Hbin.sizeof ∨ pageSize % 4096 ≠ 0 then throw (.errno .ENOTSUP)
  let scan ← readBlocks file rootoffs (off + pageSize) fuel (off + Hbin.sizeof) scan
  return (pageSize, scan)

/-- Read the pages from `off` to the end of pages or the end of the file. -/
def readPages (file : File) (rootoffs endpages : Nat) : Nat → Nat → Scan → Except Stop Scan
  | 0, _, _ => .error .fuel
  | fuel + 1, off, scan =>
      if off < file.size ∧ off < endpages then do
        let (pageSize, scan) ← readPage file rootoffs fuel off scan
        readPages file rootoffs endpages fuel ((off + pageSize) % 2 ^ 64) scan
      else .ok scan

/-- `hivex_open` on a file that could be opened, read and given memory. An empty
file cannot be mapped. `fuel` bounds the rounds of the two loops. -/
def hivexOpen (fuel : Nat) (file : File) (write : Bool) : Except Stop Hive := do
  if !write ∧ file.size = 0 then throw (.errno .EINVAL)
  unless (← file.magicIs 0 Header.magic) do throw (.errno .ENOTSUP)
  let majorVer ← file.rdLe 4 Header.majorVer
  if majorVer ≠ 1 then throw (.errno .ENOTSUP)
  let sum ← file.checksum
  let csum ← file.rdLe 4 Header.csum
  if sum ≠ csum then throw (.errno .EINVAL)
  let lastModified ← file.rdLe 8 Header.lastModified
  let rootWord ← file.rdLe 4 Header.offset
  let blocksWord ← file.rdLe 4 Header.blocks
  let rootoffs := (rootWord + 0x1000) % 2 ^ 32
  let endpages := (blocksWord + 0x1000) % 2 ^ 32
  let scan ← readPages file rootoffs endpages fuel 0x1000 ⟨fun _ => 0, false, false⟩
  if !scan.seenRootBlock then throw (.errno .ENOTSUP)
  if scan.badRootBlock then throw (.errno .ENOTSUP)
  return {
    size := file.size
    addr := file.byte
    bitmap := scan.bitmap
    writable := write
    rootoffs := rootoffs
    endpages := endpages
    lastModified := lastModified
    endblocks := 0 }

/-- The scan of `file` ends and `hivex_open` returns `h`. -/
def Accepts (file : File) (write : Bool) (h : Hive) : Prop :=
  ∃ fuel, hivexOpen fuel file write = .ok h

end Hivex
