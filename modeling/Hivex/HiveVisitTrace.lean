import Hivex.HiveCells

/-! The trace of a visit. The visitor of this module only records its calls, and every
answer it gives may depend on all calls before. Each node is started and ended once. -/
namespace Hivex

open ByteMemory Commands

/-- One call of a visitor function. -/
inductive Event where
  | nodeStart (node : Nat) (name : List UInt8)
  | nodeEnd (node : Nat) (name : List UInt8)
  | valueString (node value t len : Nat) (key str : List UInt8)
  | valueMultipleStrings (node value t len : Nat) (key : List UInt8) (strs : List (List UInt8))
  | valueStringInvalidUtf16 (node value t len : Nat) (key : List UInt8) (str : Option (List UInt8))
  | valueDword (node value t len : Nat) (key : List UInt8) (i : Int)
  | valueQword (node value t len : Nat) (key : List UInt8) (i : Int)
  | valueBinary (node value t len : Nat) (key data : List UInt8)
  | valueNone (node value t len : Nat) (key data : List UInt8)
  | valueOther (node value t len : Nat) (key data : List UInt8)
  | valueAny (node value t len : Nat) (key data : List UInt8)
deriving DecidableEq

def Event.started? : Event → Option Nat
  | .nodeStart node _ => some node
  | _ => none

def Event.ended? : Event → Option Nat
  | .nodeEnd node _ => some node
  | _ => none

/-- Which functions of the visitor are not NULL. -/
structure Callbacks where
  nodeStart : Bool
  nodeEnd : Bool
  valueString : Bool
  valueMultipleStrings : Bool
  valueStringInvalidUtf16 : Bool
  valueDword : Bool
  valueQword : Bool
  valueBinary : Bool
  valueNone : Bool
  valueOther : Bool
  valueAny : Bool

abbrev Answers := List Event → Event → Bool

/-- A visitor function: record the call, then return 0 or -1. -/
def record (answer : Answers) (e : Event) : EStateM Stop (List Event) Unit := fun log =>
  if answer log e then .ok () (log ++ [e]) else .error (.errno .unset) (log ++ [e])

def recorder (given : Callbacks) (answer : Answers) : Visitor (List Event) where
  nodeStart := if given.nodeStart then some fun n name => record answer (.nodeStart n name) else none
  nodeEnd := if given.nodeEnd then some fun n name => record answer (.nodeEnd n name) else none
  valueString := if given.valueString then
    some fun n v t len key str => record answer (.valueString n v t len key str) else none
  valueMultipleStrings := if given.valueMultipleStrings then
    some fun n v t len key strs => record answer (.valueMultipleStrings n v t len key strs) else none
  valueStringInvalidUtf16 := if given.valueStringInvalidUtf16 then
    some fun n v t len key str => record answer (.valueStringInvalidUtf16 n v t len key str) else none
  valueDword := if given.valueDword then
    some fun n v t len key i => record answer (.valueDword n v t len key i) else none
  valueQword := if given.valueQword then
    some fun n v t len key i => record answer (.valueQword n v t len key i) else none
  valueBinary := if given.valueBinary then
    some fun n v t len key data => record answer (.valueBinary n v t len key data) else none
  valueNone := if given.valueNone then
    some fun n v t len key data => record answer (.valueNone n v t len key data) else none
  valueOther := if given.valueOther then
    some fun n v t len key data => record answer (.valueOther n v t len key data) else none
  valueAny := if given.valueAny then
    some fun n v t len key data => record answer (.valueAny n v t len key data) else none

/-- `hivex_visit_node` on an unchanging handle with a recording visitor. -/
def visitTrace (h : Hive) (host : Host) (given : Callbacks) (answer : Answers) (skipBad : Bool)
    (node : Nat) : EStateM Stop (List Event) Unit :=
  hivexVisitNode (fun _ => h) host (recorder given answer) skipBad node

/-- The readers end with a value, an error code or an access outside the image. -/
def Plain {α : Type} (query : Reader α) : Prop :=
  ∀ v, Ends (query v) (fun _ => True) fun stop => (∃ code, stop = .errno code) ∨ stop = .outside

section Plain
variable {α β : Type}

theorem Plain.pure (value : α) : Plain (pure value : Reader α) := fun _ => trivial

theorem Plain.failed (code : Errno) : Plain (throw (.errno code) : Reader α) :=
  fun _ => Or.inl ⟨code, rfl⟩

theorem Plain.bind {first : Reader α} {next : α → Reader β} (plain : Plain first)
    (continues : ∀ value, Plain (next value)) : Plain (first >>= next) :=
  fun v => (plain v).bind fun value _ => continues value v

theorem Plain.mapM {f : α → Reader β} (each : ∀ x, Plain (f x)) (xs : List α) :
    Plain (xs.mapM f) := by
  induction xs with
  | nil => exact Plain.pure _
  | cons x xs ih =>
      rw [List.mapM_cons]
      exact (each x).bind fun y => ih.bind fun ys => Plain.pure _

theorem Plain.rdLe (n b i : Nat) : Plain (rdLe n b i) := by
  intro v
  unfold Hivex.rdLe
  split
  · trivial
  · exact Or.inr rfl

theorem Plain.rdBytes (b i n : Nat) : Plain (rdBytes b i n) := by
  intro v
  unfold Hivex.rdBytes
  split
  · trivial
  · exact Or.inr rfl

theorem Plain.isValidBlock (off : Nat) : Plain (isValidBlock off) := by
  intro v
  unfold Hivex.isValidBlock bitmapTst
  split_ifs
  · trivial
  · exact Or.inr rfl
  · trivial

theorem Plain.unlessValid {off : Nat} {code : Errno} {next : Reader β} (plain : Plain next) :
    Plain (do
      unless (← Hivex.isValidBlock off) do throw (.errno code)
      next : Reader β) := by
  refine (Plain.isValidBlock off).bind fun valid => ?_
  cases valid with
  | false => exact Plain.failed _
  | true => exact plain

theorem Plain.blockIdEq (off : Nat) (eqid : List UInt8) : Plain (blockIdEq off eqid) :=
  (Plain.rdBytes _ _ _).bind fun _ => Plain.pure _

theorem Plain.blockLen (off : Nat) : Plain (blockLen off) :=
  (Plain.rdLe _ _ _).bind fun _ => Plain.pure _

theorem Plain.requireBlock (off : Nat) (eqid : List UInt8) : Plain (requireBlock off eqid) := by
  refine Plain.unlessValid ((Plain.blockIdEq off eqid).bind fun same => ?_)
  cases same with
  | false => exact Plain.failed _
  | true => exact Plain.pure _

theorem Plain.hivexNodeName (node : Nat) : Plain (hivexNodeName node) := by
  refine (Plain.requireBlock node Nk.id).bind fun _ => (Plain.rdLe _ _ _).bind fun len => ?_
  refine (Plain.blockLen node).bind fun segLen => ?_
  split
  · exact Plain.failed _
  · exact Plain.rdBytes _ _ _

theorem Plain.getSubkey (noCheckNk : Bool) (lf j : Nat) : Plain (getSubkey noCheckNk lf j) := by
  refine (Plain.rdLe _ _ _).bind fun subkey => ?_
  cases noCheckNk with
  | true => exact Plain.pure _
  | false => exact Plain.unlessValid (Plain.pure _)

theorem Plain.getRiOffset (ri i : Nat) : Plain (getRiOffset ri i) := by
  refine (Plain.rdLe _ _ _).bind fun offset => Plain.unlessValid ?_
  refine (Plain.blockIdEq _ _).bind fun isLf => ?_
  cases isLf with
  | true => exact Plain.pure _
  | false =>
      refine (Plain.blockIdEq _ _).bind fun isLh => ?_
      cases isLh with
      | true => exact Plain.pure _
      | false => exact Plain.failed _

theorem Plain.getChildren (node : Nat) (noCheckNk : Bool) : Plain (getChildren node noCheckNk) := by
  refine (Plain.requireBlock node Nk.id).bind fun _ => (Plain.rdLe _ _ _).bind fun nrSubkeys => ?_
  split
  · exact Plain.pure _
  split
  · exact Plain.failed _
  refine (Plain.rdLe _ _ _).bind fun subkeyLf => Plain.unlessValid ?_
  refine (Plain.rdBytes _ _ _).bind fun id => ?_
  split
  · refine (Plain.rdLe _ _ _).bind fun nrKeys => ?_
    split
    · exact Plain.failed _
    refine (Plain.blockLen _).bind fun len => ?_
    split
    · exact Plain.failed _
    exact (Plain.mapM (fun j => Plain.getSubkey noCheckNk _ j) _).bind fun _ => Plain.pure _
  split
  · refine (Plain.rdLe _ _ _).bind fun nrOffsets => ?_
    refine (Plain.mapM (fun i => ?_) _).bind fun counted => ?_
    · exact (Plain.getRiOffset _ i).bind fun lf => (Plain.rdLe _ _ _).bind fun _ => Plain.pure _
    split
    · exact Plain.failed _
    refine (Plain.mapM (fun i => ?_) _).bind fun _ => Plain.pure _
    refine (Plain.getRiOffset _ i).bind fun lf => (Plain.rdLe _ _ _).bind fun nrKeys => ?_
    exact Plain.mapM (fun j => Plain.getSubkey noCheckNk _ j) _
  · exact Plain.failed _

theorem Plain.hivexNodeChildren (node : Nat) : Plain (hivexNodeChildren node) :=
  (Plain.getChildren node false).bind fun _ => Plain.pure _

theorem Plain.getValues (node : Nat) : Plain (getValues node) := by
  refine (Plain.requireBlock node Nk.id).bind fun _ => (Plain.rdLe _ _ _).bind fun nrValues => ?_
  split
  · exact Plain.pure _
  split
  · exact Plain.failed _
  refine (Plain.rdLe _ _ _).bind fun vlist => Plain.unlessValid ?_
  refine (Plain.blockLen _).bind fun len => ?_
  split
  · exact Plain.failed _
  refine (Plain.mapM (fun i => ?_) _).bind fun _ => Plain.pure _
  exact (Plain.rdLe _ _ _).bind fun value => Plain.unlessValid (Plain.pure _)

theorem Plain.hivexNodeValues (node : Nat) : Plain (hivexNodeValues node) :=
  (Plain.getValues node).bind fun _ => Plain.pure _

theorem Plain.hivexValueKey (value : Nat) : Plain (hivexValueKey value) := by
  refine (Plain.requireBlock value Vk.id).bind fun _ => Plain.bind ?_ fun _ => Plain.rdBytes _ _ _
  refine (Plain.requireBlock value Vk.id).bind fun _ => (Plain.rdLe _ _ _).bind fun ret => ?_
  refine (Plain.blockLen value).bind fun segLen => ?_
  split
  · exact Plain.failed _
  · exact Plain.pure _

theorem Plain.hivexValueType (value : Nat) : Plain (hivexValueType value) :=
  (Plain.requireBlock value Vk.id).bind fun _ => (Plain.rdLe _ _ _).bind fun _ =>
    (Plain.rdLe _ _ _).bind fun _ => Plain.pure _

theorem Plain.hivexValueValue (value : Nat) : Plain (hivexValueValue value) := by
  refine (Plain.requireBlock value Vk.id).bind fun _ => (Plain.rdLe _ _ _).bind fun t => ?_
  refine (Plain.rdLe _ _ _).bind fun len => ?_
  dsimp only
  split
  · exact Plain.failed _
  split
  · exact Plain.failed _
  split
  · exact (Plain.rdBytes _ _ _).bind fun _ => Plain.pure _
  refine (Plain.rdLe _ _ _).bind fun offset => Plain.unlessValid ?_
  exact (Plain.blockLen _).bind fun blen => (Plain.rdBytes _ _ _).bind fun _ => Plain.pure _

theorem Plain.windowsUtf16ToUtf8 (host : Host) (input : List UInt8) :
    Plain (windowsUtf16ToUtf8 host input) := by
  intro v
  unfold Hivex.windowsUtf16ToUtf8
  split
  · trivial
  · exact Or.inl ⟨_, rfl⟩

theorem Plain.hivexValueString (host : Host) (value : Nat) : Plain (hivexValueString host value) := by
  refine (Plain.hivexValueValue value).bind fun read => ?_
  dsimp only
  split
  · exact Plain.failed _
  · exact Plain.windowsUtf16ToUtf8 host _

theorem Plain.multipleStringsFrom (host : Host) (fuel : Nat) (data : List UInt8) :
    Plain (multipleStringsFrom host fuel data) := by
  induction fuel generalizing data with
  | zero => exact Plain.pure _
  | succ fuel ih =>
      unfold Hivex.multipleStringsFrom
      dsimp only
      split
      · exact Plain.pure _
      exact (Plain.windowsUtf16ToUtf8 host _).bind fun str => (ih _).bind fun _ => Plain.pure _

theorem Plain.hivexValueMultipleStrings (host : Host) (value : Nat) :
    Plain (hivexValueMultipleStrings host value) := by
  refine (Plain.hivexValueValue value).bind fun read => ?_
  dsimp only
  split
  · exact Plain.failed _
  · exact Plain.multipleStringsFrom host _ _

theorem Plain.hivexValueDword (value : Nat) : Plain (hivexValueDword value) := by
  refine (Plain.hivexValueValue value).bind fun read => ?_
  dsimp only
  split
  · exact Plain.failed _
  · exact Plain.pure _

theorem Plain.hivexValueQword (value : Nat) : Plain (hivexValueQword value) := by
  refine (Plain.hivexValueValue value).bind fun read => ?_
  dsimp only
  split
  · exact Plain.failed _
  · exact Plain.pure _

end Plain

/-- A query that turns the error codes of another into values, as `tryRead` does. -/
def tried {α : Type} (query : Reader α) : Reader (Except Errno α) := fun v =>
  match query v with
  | .ok value => .ok (.ok value)
  | .error reason =>
      match reason.code? with
      | some code => .ok (.error code)
      | none => .error reason

section Calls
variable (host : Host) (given : Callbacks)

/-! The calls that one value causes: the visitor's branches as queries. -/

def dataCalls (called : Bool) (event : Nat → Nat → Nat → Nat → List UInt8 → List UInt8 → Event)
    (expected : Option Nat) (node value : Nat) (key : List UInt8) : Reader (List Event) := do
  let (t, data) ← hivexValueValue value
  if expected.any (· ≠ t) then throw (.errno .unset)
  else return if called then [event node value t data.length key data] else []

def invalidCalls (code : Errno) (node value t len : Nat) (key : List UInt8) :
    Reader (List Event) := do
  if code ≠ .EILSEQ ∧ code ≠ .EINVAL then throw (.errno code)
  else if given.valueStringInvalidUtf16 then
    match ← tried (hivexValueValue value) with
    | .error _ => return [.valueStringInvalidUtf16 node value t len key none]
    | .ok (t, data) => return [.valueStringInvalidUtf16 node value t data.length key (some data)]
  else return []

def integerCalls (called : Bool) (event : Nat → Nat → Nat → Nat → List UInt8 → Int → Event)
    (reader : Nat → Reader Int) (node value t len : Nat) (key : List UInt8) :
    Reader (List Event) := do
  let integer ← tried (reader value)
  return if called then
    [event node value t len key (match integer with | .ok i => i | .error _ => -1)] else []

def textCalls {α : Type} (called : Bool) (event : Nat → Nat → Nat → Nat → List UInt8 → α → Event)
    (reader : Nat → Reader α) (node value t len : Nat) (key : List UInt8) :
    Reader (List Event) := do
  match ← tried (reader value) with
  | .error code => invalidCalls given code node value t len key
  | .ok text => return if called then [event node value t len key text] else []

def typedCalls (node value t len : Nat) (key : List UInt8) : Reader (List Event) :=
  if t = HiveType.none then
    dataCalls given.valueNone .valueNone (some HiveType.none) node value key
  else if t = HiveType.string ∨ t = HiveType.expandString ∨ t = HiveType.link then
    textCalls given given.valueString .valueString (hivexValueString host) node value t len key
  else if t = HiveType.dword ∨ t = HiveType.dwordBe then
    integerCalls given.valueDword .valueDword hivexValueDword node value t len key
  else if t = HiveType.qword then
    integerCalls given.valueQword .valueQword hivexValueQword node value t len key
  else if t = HiveType.binary then
    dataCalls given.valueBinary .valueBinary (some HiveType.binary) node value key
  else if t = HiveType.multipleStrings then
    textCalls given given.valueMultipleStrings .valueMultipleStrings (hivexValueMultipleStrings host)
      node value t len key
  else dataCalls given.valueOther .valueOther none node value key

def valueCalls (node value : Nat) : Reader (List Event) := do
  let (t, len) ← hivexValueType value
  let key ← hivexValueKey value
  if given.valueAny then dataCalls true .valueAny none node value key
  else typedCalls host given node value t len key

def valuesCalls (node : Nat) (values : List Nat) : Reader (List Event) := do
  let calls ← values.mapM (valueCalls host given node)
  return calls.flatten

end Calls

/-- What a program adds to the trace, whatever the trace already holds. -/
def Traces {α : Type} (program : EStateM Stop (List Event) α) (post : α → List Event → Prop)
    (stop : Stop → List Event → Prop) : Prop :=
  ∀ log, wp program (fun value log' => ∃ new, log' = log ++ new ∧ post value new)
    (fun reason log' => ∃ new, log' = log ++ new ∧ stop reason new) log

section Traces
variable {α β : Type} {post post' : α → List Event → Prop} {stop stop' : Stop → List Event → Prop}

theorem Traces.pure {value : α} (holds : post value []) : Traces (pure value) post stop :=
  fun log => ⟨[], (List.append_nil log).symm, holds⟩

theorem Traces.throw {reason : Stop} (holds : stop reason []) :
    Traces (throw reason : EStateM Stop (List Event) α) post stop :=
  fun log => ⟨[], (List.append_nil log).symm, holds⟩

theorem Traces.mono {program : EStateM Stop (List Event) α} (traces : Traces program post stop)
    (weaker : ∀ value new, post value new → post' value new)
    (later : ∀ reason new, stop reason new → stop' reason new) : Traces program post' stop' := by
  intro log
  refine wp_mono (traces log) ?_ ?_
  · rintro value log' ⟨new, rfl, holds⟩
    exact ⟨new, rfl, weaker value new holds⟩
  · rintro reason log' ⟨new, rfl, holds⟩
    exact ⟨new, rfl, later reason new holds⟩

theorem Traces.bind (post : α → List Event → Prop) {first : EStateM Stop (List Event) α}
    {next : α → EStateM Stop (List Event) β} {final : β → List Event → Prop} (traces : Traces first post stop)
    (continues : ∀ value new, post value new → Traces (next value)
      (fun result more => final result (new ++ more)) (fun reason more => stop reason (new ++ more))) :
    Traces (first >>= next) final stop := by
  intro log
  refine wp_seq (traces log) ?_
  rintro value log' ⟨new, rfl, holds⟩
  refine wp_mono (continues value new holds (log ++ new)) ?_ ?_
  · rintro result log' ⟨more, rfl, holds⟩
    exact ⟨new ++ more, List.append_assoc _ _ _, holds⟩
  · rintro reason log' ⟨more, rfl, holds⟩
    exact ⟨new ++ more, List.append_assoc _ _ _, holds⟩

/-- Some call is answered with -1. -/
def Refuses (answer : Answers) : Prop := ∃ log e, answer log e = false

theorem Traces.record {answer : Answers} {e : Event} {post : Unit → List Event → Prop}
    (holds : post () [e]) (refused : Refuses answer → stop (.errno .unset) [e]) :
    Traces (record answer e) post stop := by
  intro log
  simp only [wp, Hivex.record]
  cases answered : answer log e with
  | true => exact ⟨[e], rfl, holds⟩
  | false => exact ⟨[e], rfl, refused ⟨log, e, answered⟩⟩

theorem Traces.tryRead {h : Hive} {query : Reader α} {post : Except Errno α → List Event → Prop}
    (plain : Plain query) (good : ∀ value, query h.view = .ok value → post (.ok value) [])
    (bad : ∀ code, query h.view = .error (.errno code) → post (.error code) [])
    (outside : query h.view = .error .outside → stop .outside []) :
    Traces (tryRead (fun _ => h) query) post stop := by
  intro log
  have ends := plain h.view
  refine (wp_attempt _ _ _).mpr ((wp_look _ _ _).mpr ?_)
  cases found : query h.view with
  | ok value => exact ⟨[], (List.append_nil log).symm, good value found⟩
  | error reason =>
      rw [found] at ends
      obtain ⟨code, rfl⟩ | rfl := ends
      · exact ⟨[], (List.append_nil log).symm, bad code found⟩
      · exact ⟨[], (List.append_nil log).symm, outside found⟩

end Traces

/-- Calls about values only. -/
def Inner (calls : List Event) : Prop := ∀ e ∈ calls, e.started? = none ∧ e.ended? = none

theorem Inner.nil : Inner [] := fun _ member => by cases member

theorem Inner.append {calls more : List Event} (first : Inner calls) (later : Inner more) :
    Inner (calls ++ more) := by
  intro e member
  rcases List.mem_append.mp member with inside | inside
  · exact first e inside
  · exact later e inside

/-- How the visit goes on after a part whose calls are `calls`. -/
def Follows (h : Hive) (answer : Answers) (skipBad : Bool) (calls : Reader (List Event))
    (program : EStateM Stop (List Event) Bool) : Prop :=
  Traces program
    (fun more new => Inner new ∧ if more then calls h.view = .ok new
      else skipBad = true ∧ ∃ code, calls h.view = .error (.errno code))
    (fun reason new => Inner new ∧ ((reason = .errno .unset ∧ Refuses answer) ∨
      (calls h.view = .error reason ∧ (reason = .outside ∨ skipBad = false ∧ ∃ code, reason = .errno code))))

section Follows
variable {h : Hive} {answer : Answers} {skipBad : Bool} {α : Type}

theorem Follows.internalError (code : Errno) :
    Follows h answer skipBad (throw (.errno code)) (internalError skipBad code) := by
  cases skipBad with
  | true => exact Traces.pure ⟨Inner.nil, rfl, code, rfl⟩
  | false => exact Traces.throw ⟨Inner.nil, Or.inr ⟨rfl, Or.inr ⟨rfl, code, rfl⟩⟩⟩

theorem Follows.nothing : Follows h answer skipBad (pure []) (pure true) :=
  Traces.pure ⟨Inner.nil, rfl⟩

theorem Follows.call {e : Event} (inner : Inner [e]) :
    Follows h answer skipBad (pure [e]) (do record answer e; return true) := by
  refine Traces.bind (fun _ new => new = [e])
    (Traces.record rfl fun refused => ⟨inner, Or.inl ⟨rfl, refused⟩⟩) ?_
  rintro _ _ rfl
  exact Traces.pure ⟨inner, rfl⟩

-- A reader whose failure ends the part.
theorem Follows.after {query : Reader α} {next : Except Errno α → EStateM Stop (List Event) Bool}
    {rest : α → Reader (List Event)} (plain : Plain query)
    (good : ∀ value, query h.view = .ok value → Follows h answer skipBad (rest value) (next (.ok value)))
    (bad : ∀ code, next (.error code) = Hivex.internalError skipBad code) :
    Follows h answer skipBad (query >>= rest) (tryRead (fun _ => h) query >>= next) := by
  refine Traces.bind (fun result new => new = [] ∧ match result with
    | .ok value => query h.view = .ok value
    | .error code => query h.view = .error (.errno code))
    (Traces.tryRead plain (fun value found => ⟨rfl, found⟩) (fun code found => ⟨rfl, found⟩) ?_) ?_
  · intro found
    refine ⟨Inner.nil, Or.inr ⟨?_, Or.inl rfl⟩⟩
    rw [bind_query, found, error_bind]
  · rintro result _ ⟨rfl, found⟩
    cases result with
    | ok value =>
        have calls : (query >>= rest) h.view = rest value h.view := by
          rw [bind_query, found, ok_bind]
        simpa only [Follows, List.nil_append, calls] using good value found
    | error code =>
        have calls : (query >>= rest) h.view = (throw (.errno code) : Reader (List Event)) h.view := by
          rw [bind_query, found, error_bind, throw_query]
        rw [bad]
        have failed : Follows h answer skipBad _ _ := Follows.internalError code
        simpa only [Follows, List.nil_append, calls] using failed

-- A reader whose failure the part goes on with.
theorem Follows.either {query : Reader α} {next : Except Errno α → EStateM Stop (List Event) Bool}
    {rest : Except Errno α → Reader (List Event)} (plain : Plain query)
    (each : ∀ result, Follows h answer skipBad (rest result) (next result)) :
    Follows h answer skipBad (tried query >>= rest) (tryRead (fun _ => h) query >>= next) := by
  refine Traces.bind (fun result new => new = [] ∧ tried query h.view = .ok result)
    (Traces.tryRead plain (fun value found => ⟨rfl, ?_⟩) (fun code found => ⟨rfl, ?_⟩)
      fun found => ⟨Inner.nil, Or.inr ⟨?_, Or.inl rfl⟩⟩) ?_
  · simp only [tried, found]
  · simp only [tried, found, Stop.code?]
  · simp only [bind_query, tried, found, Stop.code?, error_bind]
  · rintro result _ ⟨rfl, found⟩
    have calls : (tried query >>= rest) h.view = rest result h.view := by
      rw [bind_query, found, ok_bind]
    simpa only [Follows, List.nil_append, calls] using each result

variable {host : Host} {given : Callbacks} {node value t len : Nat} {key : List UInt8}

theorem Follows.data {called : Bool}
    {event : Nat → Nat → Nat → Nat → List UInt8 → List UInt8 → Event} {expected : Option Nat}
    (inner : ∀ n v t len key data, Inner [event n v t len key data]) :
    Follows h answer skipBad (dataCalls called event expected node value key)
      (visitData (fun _ => h) skipBad
        (if called then some fun n v t len key data => record answer (event n v t len key data)
          else none) expected node value key) := by
  refine Follows.after (Plain.hivexValueValue value) ?_ fun _ => rfl
  rintro ⟨t, data⟩ _
  dsimp only
  split
  · exact Follows.internalError .unset
  cases called with
  | true => exact Follows.call (inner _ _ _ _ _ _)
  | false => exact Follows.nothing

theorem Follows.invalid (code : Errno) :
    Follows h answer skipBad (invalidCalls given code node value t len key)
      (visitInvalid (fun _ => h) (recorder given answer) skipBad code node value t len key) := by
  unfold invalidCalls visitInvalid
  by_cases other : code ≠ .EILSEQ ∧ code ≠ .EINVAL
  · simpa only [if_pos other] using Follows.internalError code
  simp only [if_neg other]
  cases called : given.valueStringInvalidUtf16 with
  | false => simpa only [recorder, called, Bool.false_eq_true, if_false] using Follows.nothing
  | true =>
      simp only [recorder, called, if_true]
      refine Follows.either (Plain.hivexValueValue value) fun result => ?_
      rcases result with _ | ⟨t', data⟩ <;>
        exact Follows.call fun e member => by cases List.mem_singleton.mp member; exact ⟨rfl, rfl⟩

theorem Follows.integer {called : Bool}
    {event : Nat → Nat → Nat → Nat → List UInt8 → Int → Event} {reader : Nat → Reader Int}
    (plain : Plain (reader value)) (inner : ∀ n v t len key i, Inner [event n v t len key i]) :
    Follows h answer skipBad (integerCalls called event reader node value t len key)
      (visitInteger (fun _ => h)
        (if called then some fun n v t len key i => record answer (event n v t len key i) else none)
        reader node value t len key) := by
  refine Follows.either plain fun result => ?_
  cases called with
  | true => exact Follows.call (inner _ _ _ _ _ _)
  | false => exact Follows.nothing

theorem Follows.text {called : Bool}
    {event : Nat → Nat → Nat → Nat → List UInt8 → α → Event} {reader : Nat → Reader α}
    (plain : Plain (reader value)) (inner : ∀ n v t len key x, Inner [event n v t len key x])
    {next : Except Errno α → EStateM Stop (List Event) Bool}
    (bad : ∀ code, next (.error code) =
      visitInvalid (fun _ => h) (recorder given answer) skipBad code node value t len key)
    (good : ∀ x, next (.ok x) = if called then (do record answer (event node value t len key x); return true)
      else return true) :
    Follows h answer skipBad (textCalls given called event reader node value t len key)
      (tryRead (fun _ => h) (reader value) >>= next) := by
  refine Follows.either plain fun result => ?_
  cases result with
  | error code =>
      rw [bad]
      exact Follows.invalid code
  | ok x =>
      rw [good]
      cases called with
      | true => exact Follows.call (inner _ _ _ _ _ _)
      | false => exact Follows.nothing

theorem inner_call {e : Event} (notStart : e.started? = none) (notEnd : e.ended? = none) :
    Inner [e] := by
  intro e' member
  obtain rfl := List.mem_singleton.mp member
  exact ⟨notStart, notEnd⟩

theorem Follows.typed :
    Follows h answer skipBad (typedCalls host given node value t len key)
      (visitTyped (fun _ => h) host (recorder given answer) skipBad node value t len key) := by
  unfold typedCalls visitTyped
  split_ifs
  · exact Follows.data fun _ _ _ _ _ _ => inner_call rfl rfl
  · refine Follows.text (Plain.hivexValueString host value) (fun _ _ _ _ _ _ => inner_call rfl rfl)
      (fun _ => rfl) fun str => ?_
    cases called : given.valueString <;> simp [recorder, called]
  · exact Follows.integer (Plain.hivexValueDword value) fun _ _ _ _ _ _ => inner_call rfl rfl
  · exact Follows.integer (Plain.hivexValueQword value) fun _ _ _ _ _ _ => inner_call rfl rfl
  · exact Follows.data fun _ _ _ _ _ _ => inner_call rfl rfl
  · refine Follows.text (Plain.hivexValueMultipleStrings host value)
      (fun _ _ _ _ _ _ => inner_call rfl rfl) (fun _ => rfl) fun strs => ?_
    cases called : given.valueMultipleStrings <;> simp [recorder, called]
  · exact Follows.data fun _ _ _ _ _ _ => inner_call rfl rfl

theorem Follows.visitValue :
    Follows h answer skipBad (valueCalls host given node value)
      (visitValue (fun _ => h) host (recorder given answer) skipBad node value) := by
  refine Follows.after (Plain.hivexValueType value) ?_ fun _ => rfl
  rintro ⟨t, len⟩ _
  refine Follows.after (Plain.hivexValueKey value) (fun key _ => ?_) fun _ => rfl
  cases called : given.valueAny with
  | false =>
      have absent : (recorder given answer).valueAny = none := by simp [recorder, called]
      simpa only [absent, Bool.false_eq_true, if_false] using Follows.typed
  | true =>
      have data : Follows h answer skipBad (dataCalls true .valueAny none node value key) _ :=
        Follows.data fun _ _ _ _ _ _ => inner_call rfl rfl
      simpa [recorder, called] using data

theorem valuesCalls_cons (rest : List Nat) (v : View) :
    valuesCalls host given node (value :: rest) v =
      (valueCalls host given node value v).bind fun calls =>
        (valuesCalls host given node rest v).bind fun more => .ok (calls ++ more) := by
  simp only [valuesCalls, bind_query, mapM_cons_query]
  cases valueCalls host given node value v with
  | error reason => rfl
  | ok calls => cases (rest.mapM (valueCalls host given node)) v <;> rfl

theorem Follows.visitValues (values : List Nat) :
    Follows h answer skipBad (valuesCalls host given node values)
      (visitValues (fun _ => h) host (recorder given answer) skipBad node values) := by
  induction values with
  | nil => exact Follows.nothing
  | cons value rest ih =>
      refine Traces.bind _ (Follows.visitValue.mono (fun _ _ holds => holds) ?_) ?_
      · rintro reason new ⟨inner, refused | ⟨failed, skips⟩⟩
        · exact ⟨inner, Or.inl refused⟩
        · refine ⟨inner, Or.inr ⟨?_, skips⟩⟩
          rw [valuesCalls_cons, failed, error_bind]
      · rintro (_ | _) new ⟨inner, followed⟩
        · obtain ⟨skips, code, failed⟩ : skipBad = true ∧ ∃ code, _ := followed
          refine Traces.pure ⟨by rwa [List.append_nil], skips, code, ?_⟩
          rw [valuesCalls_cons, failed, error_bind]
        · have known : valueCalls host given node value h.view = .ok new := followed
          refine ih.mono ?_ ?_
          · rintro (_ | _) more ⟨inner', followed⟩
            · obtain ⟨skips, code, failed⟩ : skipBad = true ∧ ∃ code, _ := followed
              refine ⟨inner.append inner', skips, code, ?_⟩
              rw [valuesCalls_cons, known, ok_bind, failed, error_bind]
            · have later : valuesCalls host given node rest h.view = .ok more := followed
              refine ⟨inner.append inner', ?_⟩
              show valuesCalls host given node (value :: rest) h.view = .ok (new ++ more)
              rw [valuesCalls_cons, known, ok_bind, later, ok_bind]
          · rintro reason more ⟨inner', refused | ⟨failed, skips⟩⟩
            · exact ⟨inner.append inner', Or.inl refused⟩
            · refine ⟨inner.append inner', Or.inr ⟨?_, skips⟩⟩
              rw [valuesCalls_cons, known, ok_bind, failed, error_bind]

end Follows

end Hivex
