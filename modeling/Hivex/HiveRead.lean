import Hivex.HiveImage

/-! The reading half of `lib/hivex.c`. Every function is a query on a view of the
handle; `malloc` of a result is taken to succeed. -/
namespace Hivex

open ByteMemory Commands

-- The opening check shared by the nk and vk functions.
def requireBlock (off : Nat) (eqid : List UInt8) : Reader Unit := do
  unless (← isValidBlock off) do throw (.errno .EINVAL)
  unless (← blockIdEq off eqid) do throw (.errno .EINVAL)

def hivexRoot : Reader Nat := do
  let v ← readThe View
  unless (← isValidBlock v.hive.rootoffs) do throw (.errno .ENOKEY)
  return v.hive.rootoffs

def hivexNodeStructLength (node : Nat) : Reader Nat := do
  requireBlock node Nk.id
  let nameLen ← rd16 node Nk.nameLen
  let ret := nameLen + Nk.sizeof - 1
  let segLen ← blockLen node
  if ret > segLen then throw (.errno .EFAULT)
  return ret

def hivexNodeName (node : Nat) : Reader (List UInt8) := do
  requireBlock node Nk.id
  let len ← rd16 node Nk.nameLen
  let segLen ← blockLen node
  if Nk.sizeof + len - 1 > segLen then throw (.errno .EFAULT)
  rdBytes node Nk.name len

def timestampCheck (timestamp : Nat) : Reader Nat := do
  if timestamp ≥ 2 ^ 63 then throw (.errno .EINVAL)
  return timestamp

def hivexLastModified : Reader Nat := do
  let v ← readThe View
  timestampCheck v.hive.lastModified

def hivexNodeTimestamp (node : Nat) : Reader Nat := do
  requireBlock node Nk.id
  let ret ← rd64 node Nk.timestamp
  timestampCheck ret

/-- One entry of an lf/lh-record, checked unless `GET_CHILDREN_NO_CHECK_NK`. -/
def getSubkey (noCheckNk : Bool) (lf j : Nat) : Reader Nat := do
  let subkey ← rd32 lf (Lf.keyOffset j)
  let subkey := subkey + 0x1000
  unless noCheckNk do
    unless (← isValidBlock subkey) do throw (.errno .EFAULT)
  return subkey

def getSubkeys (noCheckNk : Bool) (lf nrKeys : Nat) : Reader (List Nat) :=
  (List.range nrKeys).mapM (getSubkey noCheckNk lf)

/-- One entry of an ri-record: a valid lf/lh-record. -/
def getRiOffset (ri i : Nat) : Reader Nat := do
  let offset ← rd32 ri (Ri.offset i)
  let offset := offset + 0x1000
  unless (← isValidBlock offset) do throw (.errno .EFAULT)
  unless (← blockIdEq offset Lf.idLf) do
    unless (← blockIdEq offset Lf.idLh) do throw (.errno .ENOTSUP)
  return offset

/-- The children of `node` and the intermediate lf/lh/ri blocks, in reading order. -/
def getChildren (node : Nat) (noCheckNk : Bool) : Reader (List Nat × List Nat) := do
  requireBlock node Nk.id
  let nrSubkeysInNk ← rd32 node Nk.nrSubkeys
  if nrSubkeysInNk = 0 then return ([], [])
  if nrSubkeysInNk > hiveMaxSubkeys then throw (.errno .ERANGE)
  let subkeyLf ← rd32 node Nk.subkeyLf
  let subkeyLf := subkeyLf + 0x1000
  unless (← isValidBlock subkeyLf) do throw (.errno .EFAULT)
  let id ← rdBytes subkeyLf 4 2
  if id = Lf.idLf ∨ id = Lf.idLh then
    let nrSubkeysInLf ← rd16 subkeyLf Lf.nrKeys
    if nrSubkeysInNk ≠ nrSubkeysInLf then throw (.errno .ENOTSUP)
    let len ← blockLen subkeyLf
    if 8 + nrSubkeysInLf * 8 > len then throw (.errno .EFAULT)
    let children ← getSubkeys noCheckNk subkeyLf nrSubkeysInLf
    return (children, [subkeyLf])
  else if id = Ri.id then
    let nrOffsets ← rd16 subkeyLf Ri.nrOffsets
    -- The first pass counts the children, the second copies them.
    let counted ← (List.range nrOffsets).mapM fun i => do
      let offset ← getRiOffset subkeyLf i
      let nrKeys ← rd16 offset Lf.nrKeys
      return (offset, nrKeys)
    if nrSubkeysInNk ≠ (counted.map Prod.snd).sum then throw (.errno .ENOTSUP)
    let children ← (List.range nrOffsets).mapM fun i => do
      let offset ← getRiOffset subkeyLf i
      let nrKeys ← rd16 offset Lf.nrKeys
      getSubkeys noCheckNk offset nrKeys
    return (children.flatten, subkeyLf :: counted.map Prod.fst)
  else throw (.errno .ENOTSUP)

def hivexNodeChildren (node : Nat) : Reader (List Nat) := do
  let (children, _) ← getChildren node false
  return children

-- `tolower` in the C locale.
def toLower (c : UInt8) : UInt8 := if 0x41 ≤ c ∧ c ≤ 0x5a then c + 0x20 else c

def strcasecmpBytes : List UInt8 → List UInt8 → Int
  | [], [] => 0
  | [], d :: _ => -(toLower d).toNat
  | c :: _, [] => (toLower c).toNat
  | c :: cs, d :: ds =>
      if toLower c = toLower d then strcasecmpBytes cs ds
      else (toLower c).toNat - (toLower d).toNat

/-- `strcasecmp` in the C locale: the difference of the first unequal bytes. -/
def strcasecmp (a b : CString) : Int := strcasecmpBytes a.bytes b.bytes

/-- Both lookups share one loop: the first entry whose name equals `wanted`. A
name that cannot be read ends the search. -/
def firstNamed (nameOf : Nat → Reader (List UInt8)) (wanted : CString) : List Nat → Reader Nat
  | [] => return 0
  | x :: xs => do
      let name ← nameOf x
      if strcasecmp (cstr name) wanted = 0 then return x
      firstNamed nameOf wanted xs

-- The lookups return 0 for every error of the readers they call.
def zeroOnError (query : Reader Nat) : Reader Nat := fun v =>
  match query v with
  | .error (.errno _) => .ok 0
  | other => other

def hivexNodeGetChild (node : Nat) (nname : CString) : Reader Nat :=
  zeroOnError do
    let children ← hivexNodeChildren node
    firstNamed hivexNodeName nname children

def hivexNodeParent (node : Nat) : Reader Nat := do
  requireBlock node Nk.id
  let ret ← rd32 node Nk.parent
  let ret := ret + 0x1000
  unless (← isValidBlock ret) do throw (.errno .EFAULT)
  return ret

def getValueOffset (vlist i : Nat) : Reader Nat := do
  let value ← rd32 vlist (ValueList.offset i)
  let value := value + 0x1000
  unless (← isValidBlock value) do throw (.errno .EFAULT)
  return value

/-- The values of `node` and the value-list block. -/
def getValues (node : Nat) : Reader (List Nat × List Nat) := do
  requireBlock node Nk.id
  let nrValues ← rd32 node Nk.nrValues
  if nrValues = 0 then return ([], [])
  if nrValues > hiveMaxValues then throw (.errno .ERANGE)
  let vlistOffset ← rd32 node Nk.vallist
  let vlistOffset := vlistOffset + 0x1000
  unless (← isValidBlock vlistOffset) do throw (.errno .EFAULT)
  let len ← blockLen vlistOffset
  if 4 + nrValues * 4 > len then throw (.errno .EFAULT)
  let values ← (List.range nrValues).mapM (getValueOffset vlistOffset)
  return (values, [vlistOffset])

def hivexNodeValues (node : Nat) : Reader (List Nat) := do
  let (values, _) ← getValues node
  return values

def hivexValueKeyLen (value : Nat) : Reader Nat := do
  requireBlock value Vk.id
  let ret ← rd16 value Vk.nameLen
  let segLen ← blockLen value
  if Vk.sizeof + ret - 1 > segLen then throw (.errno .EFAULT)
  return ret

def hivexValueStructLength (value : Nat) : Reader Nat := do
  let keyLen ← hivexValueKeyLen value
  return keyLen + Vk.sizeof - 1

def hivexValueKey (value : Nat) : Reader (List UInt8) := do
  requireBlock value Vk.id
  let len ← hivexValueKeyLen value
  rdBytes value Vk.name len

def hivexNodeGetValue (node : Nat) (key : CString) : Reader Nat :=
  zeroOnError do
    let values ← hivexNodeValues node
    firstNamed hivexValueKey key values

def hivexValueType (value : Nat) : Reader (Nat × Nat) := do
  requireBlock value Vk.id
  let t ← rd32 value Vk.dataType
  let len ← rd32 value Vk.dataLen
  return (t, len % 2 ^ 31)

def hivexValueValue (value : Nat) : Reader (Nat × List UInt8) := do
  requireBlock value Vk.id
  let t ← rd32 value Vk.dataType
  let len ← rd32 value Vk.dataLen
  let isInline : Bool := 2 ^ 31 ≤ len
  let len := len % 2 ^ 31
  if isInline ∧ len > 4 then throw (.errno .ENOTSUP)
  if len > hiveMaxValueLen then throw (.errno .ERANGE)
  if isInline then
    let data ← rdBytes value Vk.dataOffset len
    return (t, data)
  let dataOffset ← rd32 value Vk.dataOffset
  let dataOffset := dataOffset + 0x1000
  unless (← isValidBlock dataOffset) do throw (.errno .EFAULT)
  -- A declared size larger than the block is cut to the block.
  let blen ← blockLen dataOffset
  let len := if len > blen - 4 then blen - 4 else len
  let data ← rdBytes dataOffset 4 len
  return (t, data)

namespace HiveType
abbrev none : Nat := 0
abbrev string : Nat := 1
abbrev expandString : Nat := 2
abbrev binary : Nat := 3
abbrev dword : Nat := 4
abbrev dwordBe : Nat := 5
abbrev link : Nat := 6
abbrev multipleStrings : Nat := 7
abbrev qword : Nat := 11
end HiveType

def utf16StringLenInBytesMax : List UInt8 → Nat
  | a :: b :: rest => if a ≠ 0 ∨ b ≠ 0 then 2 + utf16StringLenInBytesMax rest else 0
  | _ => 0

def windowsUtf16ToUtf8 (host : Host) (input : List UInt8) : Reader (List UInt8) := fun _ =>
  match host.iconv input with
  | .ok out => .ok out
  | .error code => .error (.errno code)

def hivexValueString (host : Host) (value : Nat) : Reader (List UInt8) := do
  let (t, data) ← hivexValueValue value
  if t ≠ HiveType.string ∧ t ≠ HiveType.expandString ∧ t ≠ HiveType.link then
    throw (.errno .EINVAL)
  let slen := utf16StringLenInBytesMax data
  windowsUtf16ToUtf8 host (if slen < data.length then data.take slen else data)

/-- The pieces handed to the converter, from a pointer that moves past each
piece and its terminator. -/
def multipleStringsFrom (host : Host) : Nat → List UInt8 → Reader (List (List UInt8))
  | 0, _ => return []
  | fuel + 1, data => do
      let plen := utf16StringLenInBytesMax data
      if plen = 0 then return []
      let str ← windowsUtf16ToUtf8 host (data.take plen)
      let rest ← multipleStringsFrom host fuel (data.drop (plen + 2))
      return str :: rest

def hivexValueMultipleStrings (host : Host) (value : Nat) : Reader (List (List UInt8)) := do
  let (t, data) ← hivexValueValue value
  if t ≠ HiveType.multipleStrings then throw (.errno .EINVAL)
  -- Every round drops at least two bytes.
  multipleStringsFrom host (data.length + 1) data

-- Reading a stored word as a signed integer of `bits` bits.
def toSigned (bits word : Nat) : Int := if word < 2 ^ (bits - 1) then word else word - 2 ^ bits

def hivexValueDword (value : Nat) : Reader Int := do
  let (t, data) ← hivexValueValue value
  if (t ≠ HiveType.dword ∧ t ≠ HiveType.dwordBe) ∨ data.length ≠ 4 then throw (.errno .EINVAL)
  let stored := if t = HiveType.dword then data else data.reverse
  return toSigned 32 (get32 (fun i => stored.getD i 0) 0)

def hivexValueQword (value : Nat) : Reader Int := do
  let (t, data) ← hivexValueValue value
  if t ≠ HiveType.qword ∨ data.length ≠ 8 then throw (.errno .EINVAL)
  return toSigned 64 (get64 (fun i => data.getD i 0) 0)

end Hivex
