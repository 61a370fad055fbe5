import Hivex.HiveCommit

/-! The writing half of `lib/hivex.c` with its integer accesses spelled out. A field
that goes through one conversion of `byte_conversions.h` is the same little-endian
word on every host; the fields the source touches without a conversion are not. A
platform says what those accesses see, and watches two kinds of store: the ones
without a conversion, and the offsets cut from 64 to 32 bits. -/
namespace Hivex

open ByteMemory Commands

section Endianness

inductive Endian where
  | little | big
deriving DecidableEq, Repr

/-- The integer a host loads from these bytes. -/
def Endian.load : Endian → List UInt8 → Nat
  | .little, bytes => getLe (fun i => bytes.getD i 0) 0 bytes.length
  | .big, bytes => getLe (fun i => bytes.reverse.getD i 0) 0 bytes.length

/-- The bytes of an integer as a host stores it. -/
def Endian.store : Endian → Nat → Nat → List UInt8
  | .little, n, v => leBytes n v
  | .big, n, v => (leBytes n v).reverse

/-- `bswap_16`, `bswap_32` and `bswap_64`. -/
def bswap (n v : Nat) : Nat := getLe (fun i => (leBytes n v).reverse.getD i 0) 0 n

/-- `le16toh`, `le32toh` and `le64toh`, and `htole16`, `htole32` and `htole64`. -/
def Endian.convert : Endian → Nat → Nat → Nat
  | .little, _, v => v
  | .big, n, v => bswap n v

end Endianness

/-- `word` and `half` are the loads and stores without a conversion, in terms of the
little-endian value of the field. `raw` runs before each of them, `offset` before
each store of an offset, with the 64-bit value. -/
structure Platform where
  word : Nat → Nat
  half : Nat → Nat
  raw : Command Unit
  offset : Nat → Command Unit

def Endian.platform (endian : Endian) : Platform where
  word := endian.convert 4
  half := endian.convert 2
  raw := pure ()
  offset := fun _ => pure ()

namespace Platform
variable (p : Platform)

def storeOffset (i v : Nat) : Command Unit := do
  p.offset v
  wr32 i v

section Allocation

def writePage (nr4kPages : Nat) : Command Nat := do
  let offset := (← get).endpages
  modify fun h => { h with endpages := h.endpages + nr4kPages * 4096 }
  wrBytes offset Hbin.magic
  p.storeOffset (offset + Hbin.offsetFirst) (offset - 0x1000)
  wr32 (offset + Hbin.pageSize) (nr4kPages * 4096)
  wrFill (offset + 12) 20
  return offset + Hbin.sizeof

def allocatePage (host : Host) (allocationHint : Nat) : Command Nat := do
  let nr4kPages := 1 + (allocationHint + Hbin.sizeof - 1) / 4096
  let h ← get
  let extend : Int := (h.endpages + nr4kPages * 4096 : Nat) - (h.size : Int)
  if extend > 0 then growImage host (h.size + extend.toNat)
  p.writePage nr4kPages

def allocateBlock (host : Host) (segLen : Nat) (id : List UInt8) : Command Nat := do
  if !(← get).writable then fail .EROFS
  if segLen < 4 then fail .ERANGE
  if segLen > hiveMaxAllocation then fail .ERANGE
  let segLen := (segLen + 7) / 8 * 8
  let h ← get
  if h.endblocks = 0 ∨ h.endblocks + segLen > h.endpages then
    let newendblocks ← p.allocatePage host segLen
    modify fun h => { h with endblocks := newendblocks }
  placeBlock segLen id

end Allocation

section AddChild

def newLhRecord (host : Host) (name : CString) (node : Nat) : Command Nat := do
  let offset ← p.allocateBlock host Lf.sizeof Lf.idLh
  wr16 (offset + Lf.nrKeys) 1
  p.storeOffset (offset + Lf.keyOffset 0) (node - 0x1000)
  wrBytes (offset + Lf.keyHash 0) (calcHash Lf.idLh name)
  return offset

def insertLfRecord (host : Host) (oldOffs posn : Nat) (name : CString) (node : Nat) :
    Command Nat := do
  requireValid oldOffs
  let id ← read (rdBytes oldOffs 4 2)
  assert (decide (id = Lf.idLf ∨ id = Lf.idLh))
  let nrKeys ← read (rd16 oldOffs Lf.nrKeys)
  let nrKeys := nrKeys + 1
  let newOffs ← p.allocateBlock host (Lf.sizeof + (nrKeys - 1) * 8) id
  wr16 (newOffs + Lf.nrKeys) nrKeys
  (List.range posn).forM fun i => copyKey oldOffs newOffs i i
  p.storeOffset (newOffs + Lf.keyOffset posn) (node - 0x1000)
  wrBytes (newOffs + Lf.keyHash posn) (calcHash id name)
  (List.range' (posn + 1) (nrKeys - (posn + 1))).forM fun i => copyKey oldOffs newOffs (i - 1) i
  markBlockUnused oldOffs
  return newOffs

-- `le32toh (ri->offset[j] + 0x1000)`: the sum is taken before the conversion.
def relinkEntry (ri oldOffs newOffs : Nat) : List Nat → Command Bool
  | [] => return false
  | j :: rest => do
      p.raw
      let offset ← read (rd32 ri (Ri.offset j))
      if p.word ((p.word offset + 0x1000) % 2 ^ 32) = oldOffs then
        p.storeOffset (ri + Ri.offset j) (newOffs - 0x1000)
        return true
      relinkEntry ri oldOffs newOffs rest

def relinkRi (oldOffs newOffs : Nat) : List Nat → Command Unit
  | [] => fail .ENOTSUP
  | block :: rest => do
      if ← read (blockIdEq block Ri.id) then
        let nrOffsets ← read (rd16 block Ri.nrOffsets)
        if ← p.relinkEntry block oldOffs newOffs (List.range nrOffsets) then return ()
      relinkRi oldOffs newOffs rest

def newNkRecord (host : Host) (parent : Nat) (name : CString) : Command Nat := do
  let node ← p.allocateBlock host (Nk.sizeof + name.strlen) Nk.id
  wr16 (node + Nk.flags) 0x0020
  p.storeOffset (node + Nk.parent) (parent - 0x1000)
  wr32 (node + Nk.subkeyLf) 0xffffffff
  wr32 (node + Nk.subkeyLfVolatile) 0xffffffff
  wr32 (node + Nk.vallist) 0xffffffff
  wr32 (node + Nk.classname) 0xffffffff
  wr16 (node + Nk.nameLen) name.strlen
  wrBytes (node + Nk.name) (name.bytes ++ [0])
  return node

def linkChild (host : Host) (parent node : Nat) (name : CString) (nrSubkeys : Nat)
    (blocks : List Nat) : Command Unit := do
  if nrSubkeys = 0 then
    blocks.forM markBlockUnused
    let lhOffs ← p.newLhRecord host name node
    p.storeOffset (parent + Nk.subkeyLf) (lhOffs - 0x1000)
  else
    let (oldOffs, j) ← findInsert name none blocks
    let newOffs ← p.insertLfRecord host oldOffs j name node
    let subkeyLf ← read (rd32 parent Nk.subkeyLf)
    if (subkeyLf + 0x1000) % 2 ^ 32 = oldOffs then
      p.storeOffset (parent + Nk.subkeyLf) (newOffs - 0x1000)
    else p.relinkRi oldOffs newOffs blocks

def hivexNodeAddChild (host : Host) (parent : Nat) (name : CString) : Command Nat := do
  if !(← get).writable then fail .EROFS
  read (requireBlock parent Nk.id)
  if name.strlen = 0 then fail .EINVAL
  if (← read (hivexNodeGetChild parent name)) ≠ 0 then fail .EEXIST
  let node ← p.newNkRecord host parent name
  inheritSk parent node
  let (_, blocks) ← read (getChildren parent false)
  let nrSubkeysInParentNk ← read (rd32 parent Nk.nrSubkeys)
  p.linkChild host parent node name nrSubkeysInParentNk blocks
  wr32 (parent + Nk.nrSubkeys) (nrSubkeysInParentNk + 1)
  let max ← read (rd16 parent Nk.maxSubkeyNameLen)
  if max < name.strlen * 2 then wr16 (parent + Nk.maxSubkeyNameLen) (name.strlen * 2)
  return node

end AddChild

section DeleteChild

-- The links are loaded without a conversion, and stored with one.
def unlinkSk (skOffset : Nat) : Command Unit := do
  let skPrev ← read (rd32 skOffset Sk.skPrev)
  let skPrevOffset := p.word skPrev + 0x1000
  let skNext ← read (rd32 skOffset Sk.skNext)
  let skNextOffset := p.word skNext + 0x1000
  if skPrevOffset ≠ skOffset ∧ skNextOffset ≠ skOffset then
    wr32 (skPrevOffset + Sk.skNext) (skNextOffset - 0x1000)
    wr32 (skNextOffset + Sk.skPrev) (skPrevOffset - 0x1000)

def deleteSk (skOffset : Nat) : Command Unit := do
  unless (← read (isValidBlock skOffset)) do fail .EFAULT
  unless (← read (blockIdEq skOffset Sk.id)) do fail .EFAULT
  p.raw
  let refcount ← read (rd32 skOffset Sk.refcount)
  if p.word refcount = 0 then fail .EINVAL
  wr32 (skOffset + Sk.refcount) (p.word (p.word refcount - 1))
  if p.word refcount - 1 = 0 then
    p.unlinkSk skOffset
    markBlockUnused skOffset

def releaseSk (node : Nat) : Command Unit := do
  let skOffs ← read (rd32 node Nk.sk)
  if skOffs ≠ 0xffffffff then
    p.deleteSk (skOffs + 0x1000)
    wr32 (node + Nk.sk) 0xffffffff

def deleteNode (node : Nat) : Command Unit := do
  let (_, blocks) ← read (getChildren node true)
  blocks.forM markBlockUnused
  deleteValues node
  p.releaseSk node
  releaseClassname node
  markBlockUnused node

def deleteVisitor : Visitor Hive where
  nodeEnd := some fun node _ => p.deleteNode node

def hivexNodeDeleteChild (host : Host) (node : Nat) : Command Unit := do
  if !(← get).writable then fail .EROFS
  read (requireBlock node Nk.id)
  if node = (← read (zeroOnError hivexRoot)) then fail .EINVAL
  let parent ← read (hivexNodeParent node)
  hivexVisitNode id host p.deleteVisitor false node
  let (_, blocks) ← read (getChildren parent true)
  unlinkChild node blocks
  let nrSubkeysInNk ← read (rd32 parent Nk.nrSubkeys)
  wr32 (parent + Nk.nrSubkeys) (nrSubkeysInNk + (2 ^ 32 - 1))

end DeleteChild

section SetValues

-- `vk->flags = name_len == 0 ? 0 : 1`, without a conversion; a zero has none to miss.
def storeFlags (vkOffs nameLen : Nat) : Command Unit := do
  if nameLen = 0 then wr16 (vkOffs + Vk.flags) 0
  else
    p.raw
    wr16 (vkOffs + Vk.flags) (p.half 1)

def newVkRecord (host : Host) (vallistOffs i : Nat) (val : SetValue) : Command Nat := do
  let vkOffs ← p.allocateBlock host (Vk.sizeof + val.key.strlen) Vk.id
  p.storeOffset (vallistOffs + ValueList.offset i) (vkOffs - 0x1000)
  let nameLen := val.key.strlen
  wr16 (vkOffs + Vk.nameLen) nameLen
  wrBytes (vkOffs + Vk.name) (val.key.bytes ++ [0])
  wr32 (vkOffs + Vk.dataType) val.t
  let len := val.value.length % 2 ^ 32
  wr32 (vkOffs + Vk.dataLen) (if len ≤ 4 then len + 2 ^ 31 else len)
  p.storeFlags vkOffs nameLen
  return vkOffs

def storeData (host : Host) (vkOffs : Nat) (value : List UInt8) : Command Unit := do
  if value.length ≤ 4 then wrBytes (vkOffs + Vk.dataOffset) value
  else
    let offs ← p.allocateBlock host (value.length + 4) []
    wrBytes (offs + 4) value
    p.storeOffset (vkOffs + Vk.dataOffset) (offs - 0x1000)

def setOneValue (host : Host) (node vallistOffs : Nat) (i : Nat) (val : SetValue) :
    Command Unit := do
  let vkOffs ← p.newVkRecord host vallistOffs i val
  p.storeData host vkOffs val.value
  raiseWord node Nk.maxVkNameLen (val.key.strlen * 2)
  raiseWord node Nk.maxVkDataLen val.value.length

def storeValues (host : Host) (node : Nat) (values : List SetValue) : Command Unit := do
  let vallistOffs ← p.allocateBlock host (ValueList.sizeof + (values.length - 1) * 4) []
  wr32 (node + Nk.nrValues) values.length
  p.storeOffset (node + Nk.vallist) (vallistOffs - 0x1000)
  values.zipIdx.forM fun (val, i) => p.setOneValue host node vallistOffs i val

def hivexNodeSetValues (host : Host) (node : Nat) (values : List SetValue) : Command Unit := do
  if !(← get).writable then fail .EROFS
  read (requireBlock node Nk.id)
  deleteValues node
  if values.length = 0 then return ()
  p.storeValues host node values

def hivexNodeSetValue (host : Host) (node : Nat) (val : SetValue) : Command Unit := do
  let prevValues ← read (hivexNodeValues node)
  let prev ← read (prevValues.mapM readValue)
  p.hivexNodeSetValues host node (editValues val prev)

end SetValues

section Commit

def updateHeader : Command Unit := do
  let sequence ← read (rd32 0 Header.sequence1)
  wr32 Header.sequence1 (sequence + 1)
  wr32 Header.sequence2 (sequence + 1)
  let h ← get
  p.storeOffset Header.blocks (h.endpages - 0x1000)

def hivexCommit (io : CommitIo) (flags : Nat) : Command File := do
  if flags ≠ 0 then fail .EINVAL
  if !(← get).writable then fail .EROFS
  if !io.openOk then fail .system
  p.updateHeader
  updateChecksum
  if !io.writeOk then fail .system
  if !io.closeOk then fail .system
  return (← get).file

end Commit

end Platform

section Little

abbrev onLittle : Platform := Endian.little.platform
abbrev onBig : Platform := Endian.big.platform

/-! On a little-endian host this is the writing half as it stands. -/

theorem little_allocateBlock : onLittle.allocateBlock = allocateBlock := rfl

theorem little_newNkRecord : onLittle.newNkRecord = newNkRecord := rfl

theorem little_relinkEntry (ri oldOffs newOffs : Nat) (entries : List Nat) :
    onLittle.relinkEntry ri oldOffs newOffs entries = relinkEntry ri oldOffs newOffs entries := by
  induction entries with
  | nil => rfl
  | cons j rest ih =>
      rw [Platform.relinkEntry, relinkEntry, ← ih]
      rfl

theorem little_relinkRi (oldOffs newOffs : Nat) (blocks : List Nat) :
    onLittle.relinkRi oldOffs newOffs blocks = relinkRi oldOffs newOffs blocks := by
  induction blocks with
  | nil => rfl
  | cons block rest ih =>
      rw [Platform.relinkRi, relinkRi, ih]
      simp only [little_relinkEntry]

theorem little_linkChild : onLittle.linkChild = linkChild := by
  funext host parent node name nrSubkeys blocks
  rw [Platform.linkChild, linkChild]
  simp only [little_relinkRi]
  rfl

theorem little_hivexNodeAddChild : onLittle.hivexNodeAddChild = hivexNodeAddChild := by
  funext host parent name
  rw [Platform.hivexNodeAddChild, hivexNodeAddChild, little_linkChild, little_newNkRecord]

theorem little_releaseSk : onLittle.releaseSk = releaseSk := rfl

theorem little_deleteVisitor : onLittle.deleteVisitor = deleteVisitor := by
  rw [Platform.deleteVisitor, deleteVisitor]
  simp only [Platform.deleteNode, deleteNode, little_releaseSk]

theorem little_hivexNodeDeleteChild : onLittle.hivexNodeDeleteChild = hivexNodeDeleteChild := by
  funext host node
  rw [Platform.hivexNodeDeleteChild, hivexNodeDeleteChild, little_deleteVisitor]

theorem little_storeFlags (vkOffs nameLen : Nat) :
    onLittle.storeFlags vkOffs nameLen = wr16 (vkOffs + Vk.flags) (if nameLen = 0 then 0 else 1) := by
  rw [Platform.storeFlags]
  split
  · rfl
  · rfl

theorem little_newVkRecord : onLittle.newVkRecord = newVkRecord := by
  funext host vallistOffs i val
  rw [Platform.newVkRecord, newVkRecord]
  simp only [little_storeFlags]
  rfl

theorem little_setOneValue : onLittle.setOneValue = setOneValue := by
  funext host node vallistOffs i val
  rw [Platform.setOneValue, setOneValue, little_newVkRecord]
  rfl

theorem little_hivexNodeSetValues : onLittle.hivexNodeSetValues = hivexNodeSetValues := by
  funext host node values
  rw [Platform.hivexNodeSetValues, hivexNodeSetValues]
  simp only [Platform.storeValues, storeValues, little_setOneValue, little_allocateBlock]
  rfl

theorem little_hivexNodeSetValue : onLittle.hivexNodeSetValue = hivexNodeSetValue := by
  funext host node val
  rw [Platform.hivexNodeSetValue, hivexNodeSetValue, little_hivexNodeSetValues]

theorem little_hivexCommit : onLittle.hivexCommit = hivexCommit := rfl

end Little

end Hivex
