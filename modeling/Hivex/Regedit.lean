import Hivex.LineText

/-! The regedit text format of Regedit.pm: the exporter, and the importer as a
machine that takes one joined line at a time. A hive is here only the tree its
calls offer. The exporter walks a tree; the importer looks nodes up, adds them and
sets their values, so the same tree is there the table of its nodes. -/
namespace Regedit
open LineText

abbrev quote : Char := Char.ofNat 34
abbrev backslash : Char := Char.ofNat 92

structure Value where
  key : Text
  t : Nat
  value : List UInt8
deriving DecidableEq, Repr

inductive Tree where
  | node (name : Text) (values : List Value) (children : List Tree)

def Tree.name : Tree → Text
  | .node name _ _ => name

/-- A node, as the names from it up to the root, the root's own name left out. -/
abbrev Node := List Text

structure Entry where
  node : Node
  values : List Value
deriving DecidableEq, Repr

abbrev Hive := List Entry

mutual
def Tree.entries (node : Node) : Tree → Hive
  | .node _ values children => ⟨node, values⟩ :: entriesUnder node children

def entriesUnder (node : Node) : List Tree → Hive
  | [] => []
  | child :: rest => child.entries (child.name :: node) ++ entriesUnder node rest
end

def Tree.hive (tree : Tree) : Hive := tree.entries []

def emptyHive : Hive := [⟨[], []⟩]

-- Letters outside ASCII are not folded.
def lc (name : Text) : Text := name.map Char.toLower

section HiveCalls

inductive HiveError where
  | invalid
  | exist
deriving DecidableEq, Repr

/-- How an import ends early: with a message of its own, or of the hive. -/
inductive Stop where
  | croak (message : String)
  | hive (reason : HiveError)
deriving DecidableEq, Repr

def isChild (node : Node) (name : Text) : Node → Bool
  | [] => false
  | other :: parent => parent == node && lc other == lc name

def nodeGetChild (h : Hive) (node : Node) (name : Text) : Option Node :=
  (h.find? fun entry => isChild node name entry.node).map Entry.node

def nodeValues (h : Hive) (node : Node) : List Value :=
  ((h.find? fun entry => entry.node == node).map Entry.values).getD []

def nodeAddChild (h : Hive) (parent : Node) (name : Text) : Except Stop (Node × Hive) :=
  if name = [] ∨ ∀ entry ∈ h, entry.node ≠ parent then
    .error (.hive .invalid)
  else if (nodeGetChild h parent name).isSome then
    .error (.hive .exist)
  else
    .ok (name :: parent, h ++ [⟨name :: parent, []⟩])

def nodeSetValues (h : Hive) (node : Node) (values : List Value) : Hive :=
  h.map fun entry => if entry.node = node then { entry with values := values } else entry

def nodeDeleteChild (h : Hive) (node : Node) : Hive :=
  h.filter fun entry => ¬ node <:+ entry.node

end HiveCalls

section Lookup

-- Empty fields at the end are dropped, as split drops them.
def split (path : Text) : List Text :=
  (path.splitOn backslash).rdropWhile (· == [])

def pathNames (path : Text) : List Text :=
  match split path with
  | [] => []
  | first :: rest => if first = [] then rest else first :: rest

def descend {ν : Type} (getChild : ν → Text → Option ν) (node : ν) : List Text → Option ν
  | [] => some node
  | name :: names => (getChild node name).bind fun child => descend getChild child names

def nodeLookup (h : Hive) (path : Text) : Option Node :=
  descend (nodeGetChild h) [] (pathNames path)

def nodeCanonicalPath : Node → Text
  | [] => [backslash]
  | name :: parent =>
      let path := nodeCanonicalPath parent
      if path = [backslash] then path ++ name else path ++ backslash :: name

end Lookup

section Export

def escapeQuotes (key : Text) : Text :=
  key.flatMap fun c => if c = backslash ∨ c = quote then [backslash, c] else [c]

structure ExportParams where
  keyPrefix : Option Text := none
  -- how strings decode, where they are printed as strings
  unsafePrintableStrings : Option (List UInt8 → Text) := none

def chopBackslash (text : Text) : Text :=
  if text.getLast? = some backslash then text.dropLast else text

def chopZero (text : Text) : Text :=
  if text.getLast? = some '\x00' then text.dropLast
  else if ['\x00', '\n'] <:+ text then text.dropLast.dropLast ++ ['\n']
  else text

def unpackV (data : List UInt8) : Nat :=
  data.foldr (fun byte rest => byte.toNat + 256 * rest) 0

def hexList (data : List UInt8) : Text := [','].intercalate (data.map byteDigits)

def printKey (key : Text) : Text :=
  if key = [] then ['@', '='] else quote :: escapeQuotes key ++ [quote, '=']

def printData (params : ExportParams) (value : Value) : Text :=
  let encoded := "hex(".toList ++ hexadecimal value.t ++ "):".toList ++ hexList value.value
  if value.t = 4 ∧ value.value.length = 4 then
    "dword:".toList ++ hexadecimalPadded 8 (unpackV value.value)
  else match params.unsafePrintableStrings with
    | none => encoded
    | some decode =>
        if value.t = 1 ∨ value.t = 2 then
          let data := (chopZero (decode value.value)).flatMap fun c =>
            if c = quote then [backslash, c] else [c]
          "str(".toList ++ hexadecimal value.t ++ "):".toList ++ quote :: data ++ [quote]
        else encoded

def printValue (params : ExportParams) (value : Value) : Text :=
  printKey value.key ++ printData params value ++ ['\n']

def printNode (params : ExportParams) (node : Node) (values : List Value) : Text :=
  '[' :: (params.keyPrefix.map chopBackslash).getD [] ++ nodeCanonicalPath node ++ [']', '\n'] ++
    (values.mergeSort fun a b => a.key ≤ b.key).flatMap (printValue params) ++ ['\n']

mutual
def regExportNode (params : ExportParams) (node : Node) : Tree → Text
  | .node _ values children =>
      printNode params node values ++
        ((exportedChildren params node children).mergeSort fun a b => a.1 ≤ b.1).flatMap Prod.snd

-- Each child's name with its text, so that they can be sorted by name.
def exportedChildren (params : ExportParams) (node : Node) : List Tree → List (Text × Text)
  | [] => []
  | child :: rest =>
      (child.name, regExportNode params (child.name :: node) child) ::
        exportedChildren params node rest
end

def treeGetChild : Node × Tree → Text → Option (Node × Tree)
  | (node, .node _ _ children), name =>
      (children.find? fun child => lc child.name == lc name).map fun child =>
        (child.name :: node, child)

def regExport (params : ExportParams) (tree : Tree) (key : Text) : Except Stop Text :=
  match descend treeGetChild ([], tree) (pathNames key) with
  | none => .error (.croak (String.ofList key ++ ": path not found in this hive"))
  | some (node, subtree) => .ok (regExportNode params node subtree)

end Export

section Lines

-- A trailing backslash, spaces after it allowed, joins the next line.
def continued (line : Text) : Option Text :=
  let trimmed := trimEnd line
  if trimmed.getLast? = some backslash then some trimmed.dropLast else none

/-- The lines the loop body sees, each with its number. `carried` is what earlier
lines left to join; the last line of a file joins as it is and is not looked at
again, so it keeps its line end and its own backslash. -/
def logicalLines (carried : Text) (lineno : Nat) : List Text → List (Text × Nat)
  | [] => []
  | raw :: rest =>
      let line := chomp (carried ++ raw)
      match continued line with
      | none => (line, lineno + 1) :: logicalLines [] (lineno + 1) rest
      | some start =>
          match rest with
          | [] => [(start, lineno + 1)]
          | [last] => [(start ++ last, lineno + 1)]
          | next :: more => logicalLines start (lineno + 1) (next :: more)

def isBlank (line : Text) : Bool := line.all isSpace

def header : Text := "Windows Registry Editor Version".toList

def isIgnored (line : Text) : Bool :=
  isBlank line || header <:+: line || "REGEDIT".toList <+: line ||
    (line.dropWhile isSpace).head? == some ';'

def bracketed (opening line : Text) : Option Text :=
  match after opening (trimEnd line) with
  | none => none
  | some inside => if inside.getLast? = some ']' then some inside.dropLast else none

def isDeleteValue (line : Text) : Bool :=
  match trimEnd line with
  | [] => false
  | c :: rest => c == quote && ['=', '-'] <:+ rest

def isDeleteDefault (line : Text) : Bool := trimEnd line == ['@', '=', '-']

def isOrdinaryValue : Text → Bool
  | [] => false
  | c :: rest => c == quote && [quote, '='] <:+: rest

end Lines

section Import

-- Without the first quote: the string up to its closing quote, and what follows.
def quotedRest : Text → Option (Text × Text)
  | [] => none
  | c :: rest =>
      if c = quote then some ([], rest)
      else if c = backslash then
        match rest with
        -- the index has run past the end, which is not the length: no error
        | [] => some ([], [])
        | escaped :: rest => (quotedRest rest).map fun (out, last) => (escaped :: out, last)
      else (quotedRest rest).map fun (out, last) => (c :: out, last)

def parseQuotedString : Text → Option (Text × Text)
  | [] => none
  | c :: rest => if c = quote then quotedRest rest else none

def packV (n : Nat) : List UInt8 :=
  [UInt8.ofNat n, UInt8.ofNat (n / 256), UInt8.ofNat (n / 65536), UInt8.ofNat (n / 16777216)]

def dataFromHexDigits (digits : Text) : List UInt8 :=
  packNibbles (digits.filter fun c => !(c = ',' || isSpace c))

def dwordDigits (line : Text) : Option Text :=
  (after "dword:".toList line).filter fun digits => digits.length = 8 ∧ digits.all isXDigit

-- The type in the brackets, and the text after the colon.
def typed (opening line : Text) : Option (Nat × Text) :=
  match after opening line with
  | none => none
  | some rest =>
      let digits := rest.takeWhile isXDigit
      if digits = [] then none
      else (after "):".toList (rest.dropWhile isXDigit)).map fun text => (hexValue digits, text)

def isQuoted (text : Text) : Bool :=
  2 ≤ text.length && text.head? == some quote && text.getLast? == some quote

/-- `encode` is the encoding of strings, a parameter of the import. -/
def parseString (encode : Text → List UInt8) (key : Text) (t : Nat) (text : Text) :
    Option Value :=
  (parseQuotedString text).map fun (data, _) => ⟨key, t, encode (data ++ ['\x00'])⟩

def parseValue (encode : Text → List UInt8) (key text : Text) : Option Value :=
  let line := chomp text
  if let some digits := dwordDigits line then
    some ⟨key, 4, packV (hexValue digits)⟩
  else if let some digits := after "hex:".toList line then
    some ⟨key, 3, dataFromHexDigits digits⟩
  else if let some (t, digits) := typed "hex(".toList line then
    some ⟨key, t, dataFromHexDigits digits⟩
  else if let some string := (after "str:".toList line).filter isQuoted then
    parseString encode key 1 string
  else if let some (t, string) := (typed "str(".toList line).filter (isQuoted ∘ Prod.snd) then
    parseString encode key t string
  else if isQuoted line then
    parseString encode key 1 line
  else none

def parseKeyValue (encode : Text → List UInt8) (line : Text) : Option Value :=
  match parseQuotedString line with
  | none => none
  | some (key, rest) => (after ['='] rest).bind fun text => parseValue encode key text

def imember (item : Text) (items : List Text) : Bool := items.any fun other => lc other == lc item

-- A path that ends in a backslash has no last name, and is then the name itself.
def lastName (path : Text) : Text :=
  let name := path.rtakeWhile (· ≠ backslash)
  if name = [] then path else name

def parentPath (path : Text) : Text := path.rdropWhile (· ≠ backslash)

def findOrAdd (h : Hive) (path : Text) : Except Stop (Node × Hive) :=
  match nodeLookup h path with
  | some node => .ok (node, h)
  | none =>
      match nodeLookup h (parentPath path) with
      | some parent => nodeAddChild h parent (lastName path)
      | none => .error (.croak ("reg_import: cannot create " ++ String.ofList path ++
          " since parent " ++ String.ofList (parentPath path) ++ " does not exist"))

def mergeNode (h : Hive) (path : Text) (newvalues : List Value) (delvalues : List Text) :
    Except Stop Hive := do
  let (node, h) ← findOrAdd h path
  let delvalues := delvalues ++ newvalues.map Value.key
  let values := (nodeValues h node).filter fun value => !imember value.key delvalues
  return nodeSetValues h node (values ++ newvalues)

def deleteNode (h : Hive) (path : Text) : Except Stop Hive :=
  match nodeLookup h path with
  | none => .ok h
  | some [] => .error (.croak "reg_import: the root node of a hive cannot be deleted")
  | some node => .ok (nodeDeleteChild h node)

def unexpected (line : Text) (lineno : Nat) : Stop :=
  .croak ("reg_import: parse error: unexpected text found at line " ++ toString lineno ++
    " near\n" ++ String.ofList line)

def parseError (line : Text) (lineno : Nat) : Stop :=
  .croak ("reg_import: parse error: at line " ++ toString lineno ++ " near\n" ++
    String.ofList line)

inductive State where
  | outer
  | inner (newnode : Text) (newvalues : List Value) (delvalues : List Text)

def outerLine (h : Hive) (line : Text) (lineno : Nat) : Except Stop (State × Hive) :=
  if isIgnored line then .ok (.outer, h)
  else match bracketed ['[', '-'] line with
    | some path => (deleteNode h path).map fun h => (.outer, h)
    | none =>
        match bracketed ['['] line with
        | some newnode => .ok (.inner newnode [] [], h)
        | none => .error (unexpected line lineno)

def innerLine (encode : Text → List UInt8) (newnode : Text) (newvalues : List Value)
    (delvalues : List Text) (h : Hive) (line : Text) (lineno : Nat) :
    Except Stop (State × Hive) :=
  let wanted (value : Option Value) : Except Stop (State × Hive) :=
    match value with
    | none => .error (parseError line lineno)
    | some value => .ok (.inner newnode (newvalues ++ [value]) delvalues, h)
  if isDeleteValue line then
    match parseQuotedString line with
    | none => .error (parseError line lineno)
    | some (key, _) => .ok (.inner newnode newvalues (delvalues ++ [key]), h)
  else if isDeleteDefault line then
    .ok (.inner newnode newvalues (delvalues ++ [[]]), h)
  else if isOrdinaryValue line then
    wanted (parseKeyValue encode line)
  else match after ['@', '='] line with
    | some text => wanted (parseValue encode [] (chomp text))
    | none =>
        if isBlank line then
          (mergeNode h newnode newvalues delvalues).map fun h => (.outer, h)
        else .error (unexpected line lineno)

/-- What `innerLine` does with a value it has read. -/
def wantedLine (newnode : Text) (newvalues : List Value) (delvalues : List Text) (h : Hive) (line : Text)
    (lineno : Nat) : Option Value → Except Stop (State × Hive)
  | none => .error (parseError line lineno)
  | some value => .ok (.inner newnode (newvalues ++ [value]) delvalues, h)

def importLine (encode : Text → List UInt8) :
    State × Hive → Text × Nat → Except Stop (State × Hive)
  | (.outer, h), (line, lineno) => outerLine h line lineno
  | (.inner newnode newvalues delvalues, h), (line, lineno) =>
      innerLine encode newnode newvalues delvalues h line lineno

def importEnd : State × Hive → Except Stop Hive
  | (.outer, h) => .ok h
  | (.inner newnode newvalues delvalues, h) => mergeNode h newnode newvalues delvalues

def regImport (encode : Text → List UInt8) (text : Text) (h : Hive) : Except Stop Hive := do
  let final ← (logicalLines [] 0 (rawLines text)).foldlM (importLine encode) (.outer, h)
  importEnd final

end Import

end Regedit
