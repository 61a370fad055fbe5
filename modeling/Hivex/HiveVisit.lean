import Hivex.HiveRead

/-! `hivex_visit_node`. The visitor runs over any store that contains a hive
handle, so that callbacks may record a trace or change the hive. -/
namespace Hivex

open ByteMemory Commands

/-- `struct hivex_visitor`; an absent callback is a NULL pointer. A value callback
gets the node, the value, its type, its length, its key and its data. A callback
that returns -1 stops the program. -/
structure Visitor (σ : Type) where
  nodeStart : Option (Nat → List UInt8 → EStateM Stop σ Unit) := none
  nodeEnd : Option (Nat → List UInt8 → EStateM Stop σ Unit) := none
  valueString : Option (Nat → Nat → Nat → Nat → List UInt8 → List UInt8 →
    EStateM Stop σ Unit) := none
  valueMultipleStrings : Option (Nat → Nat → Nat → Nat → List UInt8 → List (List UInt8) →
    EStateM Stop σ Unit) := none
  valueStringInvalidUtf16 : Option (Nat → Nat → Nat → Nat → List UInt8 →
    Option (List UInt8) → EStateM Stop σ Unit) := none
  valueDword : Option (Nat → Nat → Nat → Nat → List UInt8 → Int → EStateM Stop σ Unit) := none
  valueQword : Option (Nat → Nat → Nat → Nat → List UInt8 → Int → EStateM Stop σ Unit) := none
  valueBinary : Option (Nat → Nat → Nat → Nat → List UInt8 → List UInt8 →
    EStateM Stop σ Unit) := none
  valueNone : Option (Nat → Nat → Nat → Nat → List UInt8 → List UInt8 →
    EStateM Stop σ Unit) := none
  valueOther : Option (Nat → Nat → Nat → Nat → List UInt8 → List UInt8 →
    EStateM Stop σ Unit) := none
  valueAny : Option (Nat → Nat → Nat → Nat → List UInt8 → List UInt8 →
    EStateM Stop σ Unit) := none

section
variable {σ : Type} (hive : σ → Hive) (host : Host) (vtor : Visitor σ) (skipBad : Bool)

def tryRead {α : Type} (query : Reader α) : EStateM Stop σ (Except Errno α) :=
  attempt Stop.code? (look (fun s => (hive s).view) query)

-- An internal error: `ret = skip_bad ? 0 : -1; goto error`. The result tells
-- whether the visit of the node goes on.
def internalError (code : Errno) : EStateM Stop σ Bool :=
  if skipBad then pure false else throw (.errno code)

/-- The cases that hand `hivex_value_value` to one callback. `expected` is the
type the value must still have, where the case tests it again. -/
def visitData (callback : Option (Nat → Nat → Nat → Nat → List UInt8 → List UInt8 →
      EStateM Stop σ Unit)) (expected : Option Nat) (node value : Nat) (key : List UInt8) :
    EStateM Stop σ Bool := do
  match ← tryRead hive (hivexValueValue value) with
  | .error code => internalError skipBad code
  | .ok (t, data) =>
      if expected.any (· ≠ t) then internalError skipBad .unset
      else
        if let some f := callback then f node value t data.length key data
        return true

/-- A string that could not be read: only EILSEQ and EINVAL go to the callback for
invalid strings. -/
def visitInvalid (code : Errno) (node value t len : Nat) (key : List UInt8) :
    EStateM Stop σ Bool := do
  if code ≠ .EILSEQ ∧ code ≠ .EINVAL then internalError skipBad code
  else
    if let some f := vtor.valueStringInvalidUtf16 then
      match ← tryRead hive (hivexValueValue value) with
      | .error _ => f node value t len key none
      | .ok (t, data) => f node value t data.length key (some data)
    return true

-- The dword and qword cases do not test for an error: a failed reader returns -1.
def visitInteger (callback : Option (Nat → Nat → Nat → Nat → List UInt8 → Int →
      EStateM Stop σ Unit)) (reader : Nat → Reader Int) (node value t len : Nat)
    (key : List UInt8) : EStateM Stop σ Bool := do
  let integer ← tryRead hive (reader value)
  if let some f := callback then
    f node value t len key (match integer with | .ok i => i | .error _ => -1)
  return true

def visitTyped (node value t len : Nat) (key : List UInt8) : EStateM Stop σ Bool := do
  if t = HiveType.none then
    visitData hive skipBad vtor.valueNone (some HiveType.none) node value key
  else if t = HiveType.string ∨ t = HiveType.expandString ∨ t = HiveType.link then
    match ← tryRead hive (hivexValueString host value) with
    | .error code => visitInvalid hive vtor skipBad code node value t len key
    | .ok str =>
        if let some f := vtor.valueString then f node value t len key str
        return true
  else if t = HiveType.dword ∨ t = HiveType.dwordBe then
    visitInteger hive vtor.valueDword hivexValueDword node value t len key
  else if t = HiveType.qword then
    visitInteger hive vtor.valueQword hivexValueQword node value t len key
  else if t = HiveType.binary then
    visitData hive skipBad vtor.valueBinary (some HiveType.binary) node value key
  else if t = HiveType.multipleStrings then
    match ← tryRead hive (hivexValueMultipleStrings host value) with
    | .error code => visitInvalid hive vtor skipBad code node value t len key
    | .ok strs =>
        if let some f := vtor.valueMultipleStrings then f node value t len key strs
        return true
  else visitData hive skipBad vtor.valueOther none node value key

def visitValue (node value : Nat) : EStateM Stop σ Bool := do
  match ← tryRead hive (hivexValueType value) with
  | .error code => internalError skipBad code
  | .ok (t, len) =>
      match ← tryRead hive (hivexValueKey value) with
      | .error code => internalError skipBad code
      | .ok key =>
          match vtor.valueAny with
          | some f => visitData hive skipBad (some f) none node value key
          | none => visitTyped hive host vtor skipBad node value t len key

def visitValues (node : Nat) : List Nat → EStateM Stop σ Bool
  | [] => return true
  | value :: rest => do
      if ← visitValue hive host vtor skipBad node value then visitValues node rest
      else return false

/-- The second half of `hivex__visit_node`: the values, the subkeys through `descend`
and the end of the node. -/
def visitContents (descend : Mem → Nat → EStateM Stop σ Mem) (node : Nat) (name : List UInt8)
    (unvisited : Mem) : EStateM Stop σ Mem := do
  match ← tryRead hive (hivexNodeValues node) with
  | .error code =>
      let _ ← internalError skipBad code
      return unvisited
  | .ok values =>
  if !(← visitValues hive host vtor skipBad node values) then return unvisited
  match ← tryRead hive (hivexNodeChildren node) with
  | .error code =>
      let _ ← internalError skipBad code
      return unvisited
  | .ok children =>
  let unvisited ← children.foldlM descend unvisited
  if let some f := vtor.nodeEnd then f node name
  return unvisited

/-- `hivex__visit_node`. The bitmap of unvisited nodes is shared by the whole visit
and returned with each result; `unvisitedLen` is its length. `fuel` bounds the depth. -/
def visitNode (unvisitedLen : Nat) : Nat → Nat → Mem → EStateM Stop σ Mem
  | 0, _, _ => throw .fuel
  | fuel + 1, node, unvisited => do
      let fresh ← look (fun _ => ()) fun _ => bitmapTst unvisited unvisitedLen node
      if !fresh then
        let _ ← internalError skipBad .ELOOP
        return unvisited
      let unvisited ← look (fun _ => ()) fun _ => bitmapClr unvisited unvisitedLen node
      match ← tryRead hive (hivexNodeName node) with
      | .error code =>
          let _ ← internalError skipBad code
          return unvisited
      | .ok name =>
      if let some f := vtor.nodeStart then f node name
      visitContents hive host vtor skipBad
        (fun unvisited child => visitNode unvisitedLen fuel child unvisited) node name unvisited

/-- `hivex_visit_node`. The private copy of the bitmap bounds the depth: every
level clears one of its bits. -/
def hivexVisitNode (node : Nat) : EStateM Stop σ Unit := do
  let s ← get
  let len := bitmapLen (hive s).size
  let _ ← visitNode hive host vtor skipBad len (8 * len + 1) node (hive s).bitmap

end

end Hivex
