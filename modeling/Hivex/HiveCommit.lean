import Hivex.HiveWrite
import Hivex.HiveOpen

/-! `hivex_commit`: the header fields it updates and the bytes it writes out. -/
namespace Hivex

open ByteMemory Commands

/-- How the calls on the output file end. -/
structure CommitIo where
  openOk : Bool
  writeOk : Bool
  closeOk : Bool

def Hive.file (h : Hive) : File := ⟨h.size, h.addr⟩

def updateHeader : Command Unit := do
  let sequence ← read (rd32 0 Header.sequence1)
  wr32 Header.sequence1 (sequence + 1)
  wr32 Header.sequence2 (sequence + 1)
  let h ← get
  wr32 Header.blocks (h.endpages - 0x1000)

def updateChecksum : Command Unit := do
  let h ← get
  if h.size < Header.csum then throw .outside
  wr32 Header.csum (headerChecksum h.addr)

/-- `hivex_commit`; the result is the content of the output file. -/
def hivexCommit (io : CommitIo) (flags : Nat) : Command File := do
  if flags ≠ 0 then fail .EINVAL
  if !(← get).writable then fail .EROFS
  if !io.openOk then fail .system
  updateHeader
  updateChecksum
  if !io.writeOk then fail .system
  if !io.closeOk then fail .system
  return (← get).file

end Hivex
