import Hivex.HiveVisit

/-! The writing half of `lib/hivex.c`. A C function that returns an error code keeps
the changes it has made, and so does a command that stops. Pointers into the image
are offsets here, so a moved buffer needs no recalculation. -/
namespace Hivex

open ByteMemory Commands

def fail {α : Type} (code : Errno) : Command α := throw (.errno code)

def assert (condition : Bool) : Command Unit :=
  if condition then pure () else throw .abort

def setBit (off : Nat) : Command Unit := fun h =>
  match bitmapSet h.bitmap (bitmapLen h.size) off with
  | .ok bitmap => .ok () { h with bitmap := bitmap }
  | .error stop => .error stop h

def clearBit (off : Nat) : Command Unit := fun h =>
  match bitmapClr h.bitmap (bitmapLen h.size) off with
  | .ok bitmap => .ok () { h with bitmap := bitmap }
  | .error stop => .error stop h

def wrFill (base count : Nat) : Command Unit := fun h =>
  if base + count ≤ h.size then .ok () { h with addr := fill h.addr base count 0 }
  else .error .outside h

theorem wrFill_run {h : Hive} {base count : Nat} (inside : base + count ≤ h.size) :
    wrFill base count h = .ok () { h with addr := fill h.addr base count 0 } := if_pos inside

theorem setBit_run {h : Hive} {off : Nat} (inside : off / 32 < bitmapLen h.size) :
    setBit off h = .ok () { h with bitmap := PackedBits.set h.bitmap (off / 4) } := by
  simp only [setBit, bitmapSet, inside, if_true]

/-- The two `realloc` calls of `allocate_page`. When the second fails the first
buffer is freed while the handle still points at it. -/
def growImage (host : Host) (newsize : Nat) : Command Unit := fun h =>
  if host.realloc newsize then
    if host.realloc (bitmapLen newsize) then
      .ok () { h with
        size := newsize
        addr := fill h.addr h.size (newsize - h.size) 0
        bitmap := fill h.bitmap (bitmapLen h.size) (bitmapLen newsize - bitmapLen h.size) 0 }
    else .error .dangling h
  else .error (.errno .ENOMEM) h

/-- The second half of `allocate_page`: the page header at the old end of pages. -/
def writePage (nr4kPages : Nat) : Command Nat := do
  let offset := (← get).endpages
  modify fun h => { h with endpages := h.endpages + nr4kPages * 4096 }
  wrBytes offset Hbin.magic
  wr32 (offset + Hbin.offsetFirst) (offset - 0x1000)
  wr32 (offset + Hbin.pageSize) (nr4kPages * 4096)
  wrFill (offset + 12) 20
  return offset + Hbin.sizeof

def allocatePage (host : Host) (allocationHint : Nat) : Command Nat := do
  let nr4kPages := 1 + (allocationHint + Hbin.sizeof - 1) / 4096
  let h ← get
  let extend : Int := (h.endpages + nr4kPages * 4096 : Nat) - (h.size : Int)
  if extend > 0 then growImage host (h.size + extend.toNat)
  writePage nr4kPages

/-- The second half of `allocate_block`: take the block at `endblocks`. `id` is empty
for the blocks the source gives the id `{ 0, 0 }`. -/
def placeBlock (segLen : Nat) (id : List UInt8) : Command Nat := do
  let offset := (← get).endblocks
  wrFill offset segLen
  wr32 offset (2 ^ 32 - segLen)
  wrBytes (offset + 4) id
  setBit offset
  modify fun h => { h with endblocks := h.endblocks + segLen }
  let h ← get
  let rem : Int := (h.endpages : Int) - h.endblocks
  -- The rest of the last page becomes one free block.
  if rem > 0 then
    assert (rem ≥ 4)
    wr32 h.endblocks rem.toNat
  return offset

def allocateBlock (host : Host) (segLen : Nat) (id : List UInt8) : Command Nat := do
  if !(← get).writable then fail .EROFS
  if segLen < 4 then fail .ERANGE
  if segLen > hiveMaxAllocation then fail .ERANGE
  let segLen := (segLen + 7) / 8 * 8
  let h ← get
  if h.endblocks = 0 ∨ h.endblocks + segLen > h.endpages then
    let newendblocks ← allocatePage host segLen
    modify fun h => { h with endblocks := newendblocks }
  placeBlock segLen id

def requireValid (off : Nat) : Command Unit := do
  assert (← read (isValidBlock off))

def markBlockUnused (offset : Nat) : Command Unit := do
  assert (← get).writable
  requireValid offset
  let segLen ← read (blockLen offset)
  wr32 offset segLen
  clearBit offset

/-- Free the data block of a value and the vk-record itself. -/
def deleteValue (value : Nat) : Command Unit := do
  let len ← read (rd32 value Vk.dataLen)
  let isInline : Bool := 2 ^ 31 ≤ len
  if !isInline then
    let dataOffset ← read (rd32 value Vk.dataOffset)
    markBlockUnused (dataOffset + 0x1000)
  markBlockUnused value

def deleteValues (node : Nat) : Command Unit := do
  assert (← get).writable
  let (values, blocks) ← read (getValues node)
  blocks.forM markBlockUnused
  values.forM deleteValue
  wr32 (node + Nk.nrValues) 0
  wr32 (node + Nk.vallist) 0xffffffff

-- `c_toupper` of gnulib applied to a signed `char`, widened to `size_t` and then
-- added modulo 2^32: a byte from 0x80 on counts as its value minus 256.
def hashByte (c : UInt8) : Nat :=
  if 0x61 ≤ c ∧ c ≤ 0x7a then c.toNat - 0x20
  else if 0x80 ≤ c then c.toNat + (2 ^ 32 - 256)
  else c.toNat

def lhHash (name : CString) : Nat :=
  name.bytes.foldl (fun hash c => (hash * 37 + hashByte c) % 2 ^ 32) 0

/-- The bytes `calc_hash` stores: at most the first four of the name for an lf-record. -/
def calcHash (type : List UInt8) (name : CString) : List UInt8 :=
  if type = Lf.idLf then name.bytes.take 4 else leBytes 4 (lhHash name)

def newLhRecord (host : Host) (name : CString) (node : Nat) : Command Nat := do
  let offset ← allocateBlock host Lf.sizeof Lf.idLh
  wr16 (offset + Lf.nrKeys) 1
  wr32 (offset + Lf.keyOffset 0) (node - 0x1000)
  wrBytes (offset + Lf.keyHash 0) (calcHash Lf.idLh name)
  return offset

-- `new_lf->keys[to] = old_lf->keys[from]`.
def copyKey (oldLf newLf fromPosn toPosn : Nat) : Command Unit := do
  let key ← read (rdBytes oldLf (Lf.keyOffset fromPosn) 8)
  wrBytes (newLf + Lf.keyOffset toPosn) key

def insertLfRecord (host : Host) (oldOffs posn : Nat) (name : CString) (node : Nat) :
    Command Nat := do
  requireValid oldOffs
  let id ← read (rdBytes oldOffs 4 2)
  assert (decide (id = Lf.idLf ∨ id = Lf.idLh))
  let nrKeys ← read (rd16 oldOffs Lf.nrKeys)
  let nrKeys := nrKeys + 1
  let newOffs ← allocateBlock host (Lf.sizeof + (nrKeys - 1) * 8) id
  wr16 (newOffs + Lf.nrKeys) nrKeys
  (List.range posn).forM fun i => copyKey oldOffs newOffs i i
  wr32 (newOffs + Lf.keyOffset posn) (node - 0x1000)
  wrBytes (newOffs + Lf.keyHash posn) (calcHash id name)
  (List.range' (posn + 1) (nrKeys - (posn + 1))).forM fun i => copyKey oldOffs newOffs (i - 1) i
  markBlockUnused oldOffs
  return newOffs

/-- A name that cannot be read compares equal. -/
def compareNameWithNkName (name : CString) (nkOffs : Nat) : Command Int := do
  requireValid nkOffs
  assert (← read (blockIdEq nkOffs Nk.id))
  match ← tryRead id (hivexNodeName nkOffs) with
  | .error _ => return 0
  | .ok nname => return strcasecmp name (cstr nname)

/-- The position in one lf/lh-record of the first key whose name is greater. -/
def findGreater (name : CString) (lf : Nat) : List Nat → Command (Option Nat)
  | [] => return none
  | j :: rest => do
      let nkOffs ← read (rd32 lf (Lf.keyOffset j))
      if (← compareNameWithNkName name (nkOffs + 0x1000)) < 0 then return some j
      findGreater name lf rest

/-- The lf/lh-record and position to insert at: before the first greater key, else
at the end of the last lf/lh-record, which is the one seen before. -/
def findInsert (name : CString) : Option Nat → List Nat → Command (Nat × Nat)
  | last, [] => do
      assert last.isSome
      let oldOffs := last.getD 0
      return (oldOffs, ← read (rd16 oldOffs Lf.nrKeys))
  | last, block :: rest => do
      let id ← read (rdBytes block 4 2)
      if id = Lf.idLf ∨ id = Lf.idLh then
        let nrKeys ← read (rd16 block Lf.nrKeys)
        match ← findGreater name block (List.range nrKeys) with
        | some j => return (block, j)
        | none => findInsert name (some block) rest
      else findInsert name last rest

/-- Update the ri-record entry that points at `oldOffs`, in place. -/
def relinkEntry (ri oldOffs newOffs : Nat) : List Nat → Command Bool
  | [] => return false
  | j :: rest => do
      let offset ← read (rd32 ri (Ri.offset j))
      if (offset + 0x1000) % 2 ^ 32 = oldOffs then
        wr32 (ri + Ri.offset j) (newOffs - 0x1000)
        return true
      relinkEntry ri oldOffs newOffs rest

def relinkRi (oldOffs newOffs : Nat) : List Nat → Command Unit
  | [] => fail .ENOTSUP
  | block :: rest => do
      if ← read (blockIdEq block Ri.id) then
        let nrOffsets ← read (rd16 block Ri.nrOffsets)
        if ← relinkEntry block oldOffs newOffs (List.range nrOffsets) then return ()
      relinkRi oldOffs newOffs rest

/-- The new nk-record of a child, as far as it does not depend on the security record. -/
def newNkRecord (host : Host) (parent : Nat) (name : CString) : Command Nat := do
  let node ← allocateBlock host (Nk.sizeof + name.strlen) Nk.id
  wr16 (node + Nk.flags) 0x0020
  wr32 (node + Nk.parent) (parent - 0x1000)
  wr32 (node + Nk.subkeyLf) 0xffffffff
  wr32 (node + Nk.subkeyLfVolatile) 0xffffffff
  wr32 (node + Nk.vallist) 0xffffffff
  wr32 (node + Nk.classname) 0xffffffff
  wr16 (node + Nk.nameLen) name.strlen
  wrBytes (node + Nk.name) (name.bytes ++ [0])
  return node

/-- Inherit the parent's security record and timestamp. -/
def inheritSk (parent node : Nat) : Command Unit := do
  let sk ← read (rd32 parent Nk.sk)
  let parentSkOffset := sk + 0x1000
  unless (← read (isValidBlock parentSkOffset)) do fail .EFAULT
  unless (← read (blockIdEq parentSkOffset Sk.id)) do fail .EFAULT
  let refcount ← read (rd32 parentSkOffset Sk.refcount)
  wr32 (parentSkOffset + Sk.refcount) (refcount + 1)
  wr32 (node + Nk.sk) (parentSkOffset - 0x1000)
  let timestamp ← read (rd64 parent Nk.timestamp)
  wr64 (node + Nk.timestamp) timestamp

/-- Link `node` into the subkey lists of `parent`, whose intermediate blocks are `blocks`. -/
def linkChild (host : Host) (parent node : Nat) (name : CString) (nrSubkeys : Nat)
    (blocks : List Nat) : Command Unit := do
  if nrSubkeys = 0 then
    blocks.forM markBlockUnused
    let lhOffs ← newLhRecord host name node
    wr32 (parent + Nk.subkeyLf) (lhOffs - 0x1000)
  else
    let (oldOffs, j) ← findInsert name none blocks
    let newOffs ← insertLfRecord host oldOffs j name node
    let subkeyLf ← read (rd32 parent Nk.subkeyLf)
    if (subkeyLf + 0x1000) % 2 ^ 32 = oldOffs then
      wr32 (parent + Nk.subkeyLf) (newOffs - 0x1000)
    else relinkRi oldOffs newOffs blocks

/-- `hivex_node_add_child`. A NULL name takes the branch of the empty one. -/
def hivexNodeAddChild (host : Host) (parent : Nat) (name : CString) : Command Nat := do
  if !(← get).writable then fail .EROFS
  read (requireBlock parent Nk.id)
  if name.strlen = 0 then fail .EINVAL
  if (← read (hivexNodeGetChild parent name)) ≠ 0 then fail .EEXIST
  let node ← newNkRecord host parent name
  inheritSk parent node
  let (_, blocks) ← read (getChildren parent false)
  let nrSubkeysInParentNk ← read (rd32 parent Nk.nrSubkeys)
  linkChild host parent node name nrSubkeysInParentNk blocks
  wr32 (parent + Nk.nrSubkeys) (nrSubkeysInParentNk + 1)
  let max ← read (rd16 parent Nk.maxSubkeyNameLen)
  if max < name.strlen * 2 then wr16 (parent + Nk.maxSubkeyNameLen) (name.strlen * 2)
  return node

/-- Unlink an sk-record from its circular list. The source reads and writes these
fields without conversion, which is the identity on a little-endian host. -/
def unlinkSk (skOffset : Nat) : Command Unit := do
  let skPrev ← read (rd32 skOffset Sk.skPrev)
  let skPrevOffset := skPrev + 0x1000
  let skNext ← read (rd32 skOffset Sk.skNext)
  let skNextOffset := skNext + 0x1000
  if skPrevOffset ≠ skOffset ∧ skNextOffset ≠ skOffset then
    wr32 (skPrevOffset + Sk.skNext) (skNextOffset - 0x1000)
    wr32 (skNextOffset + Sk.skPrev) (skPrevOffset - 0x1000)

def deleteSk (skOffset : Nat) : Command Unit := do
  unless (← read (isValidBlock skOffset)) do fail .EFAULT
  unless (← read (blockIdEq skOffset Sk.id)) do fail .EFAULT
  let refcount ← read (rd32 skOffset Sk.refcount)
  if refcount = 0 then fail .EINVAL
  wr32 (skOffset + Sk.refcount) (refcount - 1)
  if refcount - 1 = 0 then
    unlinkSk skOffset
    markBlockUnused skOffset

/-- Give up the node's reference to its security record. -/
def releaseSk (node : Nat) : Command Unit := do
  let skOffs ← read (rd32 node Nk.sk)
  if skOffs ≠ 0xffffffff then
    deleteSk (skOffs + 0x1000)
    wr32 (node + Nk.sk) 0xffffffff

def releaseClassname (node : Nat) : Command Unit := do
  let clOffs ← read (rd32 node Nk.classname)
  if clOffs ≠ 0xffffffff then
    markBlockUnused (clOffs + 0x1000)
    wr32 (node + Nk.classname) 0xffffffff

def deleteNode (node : Nat) : Command Unit := do
  let (_, blocks) ← read (getChildren node true)
  blocks.forM markBlockUnused
  deleteValues node
  releaseSk node
  releaseClassname node
  markBlockUnused node

def deleteVisitor : Visitor Hive where
  nodeEnd := some fun node _ => deleteNode node

/-- The position of `node` among the keys of an lf/lh-record. -/
def findKey (lf node : Nat) : List Nat → Reader (Option Nat)
  | [] => return none
  | j :: rest => do
      let offset ← rd32 lf (Lf.keyOffset j)
      if (offset + 0x1000) % 2 ^ 32 = node then return some j
      findKey lf node rest

/-- Remove the key at `j`: shift the later keys down and store the new count. -/
def removeKey (lf nrKeys j : Nat) : Command Unit := do
  (List.range' j (nrKeys - 1 - j)).forM fun i => copyKey lf lf (i + 1) i
  wr16 (lf + Lf.nrKeys) (nrKeys - 1)

def unlinkChild (node : Nat) : List Nat → Command Unit
  | [] => fail .ENOTSUP
  | block :: rest => do
      let id ← read (rdBytes block 4 2)
      if id = Lf.idLf ∨ id = Lf.idLh then
        let nrKeys ← read (rd16 block Lf.nrKeys)
        match ← read (findKey block node (List.range nrKeys)) with
        | some j => removeKey block nrKeys j
        | none => unlinkChild node rest
      else unlinkChild node rest

def hivexNodeDeleteChild (host : Host) (node : Nat) : Command Unit := do
  if !(← get).writable then fail .EROFS
  read (requireBlock node Nk.id)
  if node = (← read (zeroOnError hivexRoot)) then fail .EINVAL
  let parent ← read (hivexNodeParent node)
  hivexVisitNode id host deleteVisitor false node
  let (_, blocks) ← read (getChildren parent true)
  unlinkChild node blocks
  let nrSubkeysInNk ← read (rd32 parent Nk.nrSubkeys)
  wr32 (parent + Nk.nrSubkeys) (nrSubkeysInNk + (2 ^ 32 - 1))

/-- `struct hive_set_value`; `len` is the length of the data. -/
structure SetValue where
  key : CString
  t : Nat
  value : List UInt8
deriving DecidableEq

/-- Link a new vk-record into the value list, with all fields but the data. -/
def newVkRecord (host : Host) (vallistOffs i : Nat) (val : SetValue) : Command Nat := do
  let vkOffs ← allocateBlock host (Vk.sizeof + val.key.strlen) Vk.id
  wr32 (vallistOffs + ValueList.offset i) (vkOffs - 0x1000)
  let nameLen := val.key.strlen
  wr16 (vkOffs + Vk.nameLen) nameLen
  wrBytes (vkOffs + Vk.name) (val.key.bytes ++ [0])
  wr32 (vkOffs + Vk.dataType) val.t
  let len := val.value.length % 2 ^ 32
  wr32 (vkOffs + Vk.dataLen) (if len ≤ 4 then len + 2 ^ 31 else len)
  wr16 (vkOffs + Vk.flags) (if nameLen = 0 then 0 else 1)
  return vkOffs

/-- Store the data of a value inline up to four bytes, else in a block of its own. -/
def storeData (host : Host) (vkOffs : Nat) (value : List UInt8) : Command Unit := do
  if value.length ≤ 4 then wrBytes (vkOffs + Vk.dataOffset) value
  else
    let offs ← allocateBlock host (value.length + 4) []
    wrBytes (offs + 4) value
    wr32 (vkOffs + Vk.dataOffset) (offs - 0x1000)

-- The maxima that the nk-record keeps about its values.
def raiseWord (base i v : Nat) : Command Unit := do
  if v > (← read (rd32 base i)) then wr32 (base + i) v

/-- Store one array element. -/
def setOneValue (host : Host) (node vallistOffs : Nat) (i : Nat) (val : SetValue) :
    Command Unit := do
  let vkOffs ← newVkRecord host vallistOffs i val
  storeData host vkOffs val.value
  raiseWord node Nk.maxVkNameLen (val.key.strlen * 2)
  raiseWord node Nk.maxVkDataLen val.value.length

/-- The second half of `hivex_node_set_values`, for an array that is not empty. -/
def storeValues (host : Host) (node : Nat) (values : List SetValue) : Command Unit := do
  let vallistOffs ← allocateBlock host (ValueList.sizeof + (values.length - 1) * 4) []
  wr32 (node + Nk.nrValues) values.length
  wr32 (node + Nk.vallist) (vallistOffs - 0x1000)
  values.zipIdx.forM fun (val, i) => setOneValue host node vallistOffs i val

def hivexNodeSetValues (host : Host) (node : Nat) (values : List SetValue) : Command Unit := do
  if !(← get).writable then fail .EROFS
  read (requireBlock node Nk.id)
  deleteValues node
  if values.length = 0 then return ()
  storeValues host node values

/-- One existing value as `hivex_node_set_value` copies it. -/
def readValue (value : Nat) : Reader SetValue := do
  let (t, data) ← hivexValueValue value
  let key ← hivexValueKey value
  return ⟨cstr key, t, data⟩

/-- The array after the edit: the last entry whose key equals the new one is
replaced, else the new value is appended. -/
def editValues (val : SetValue) (prev : List SetValue) : List SetValue :=
  match (List.range prev.length).reverse.find?
      (fun i => (prev[i]?).any fun old => strcasecmp old.key val.key = 0) with
  | some i => prev.set i val
  | none => prev ++ [val]

def hivexNodeSetValue (host : Host) (node : Nat) (val : SetValue) : Command Unit := do
  let prevValues ← read (hivexNodeValues node)
  let prev ← read (prevValues.mapM readValue)
  hivexNodeSetValues host node (editValues val prev)

end Hivex
