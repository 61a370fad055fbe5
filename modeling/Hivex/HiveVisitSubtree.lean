import Hivex.HiveVisitNesting

/-! What a strict visit delivers. The reference traversal reads every value with the
reader of its type; the visitor hands on -1 where the reader of an integer fails. -/
namespace Hivex

open ByteMemory Commands Relation

section
variable (h : Hive) (host : Host)

/-- A string value: what the reader returns, or the raw bytes of a string that does not
decode. -/
def referenceText {α : Type} (event : Nat → Nat → Nat → Nat → List UInt8 → α → Event)
    (reader : Nat → Reader α) (node value t len : Nat) (key : List UInt8) : Reader Event := do
  match ← tried (reader value) with
  | .ok text => return event node value t len key text
  | .error code =>
      if code = .EILSEQ ∨ code = .EINVAL then
        let (t, data) ← hivexValueValue value
        return .valueStringInvalidUtf16 node value t data.length key (some data)
      else throw (.errno code)

def referenceData (event : Nat → Nat → Nat → Nat → List UInt8 → List UInt8 → Event)
    (node value : Nat) (key : List UInt8) : Reader Event := do
  let (t, data) ← hivexValueValue value
  return event node value t data.length key data

def referenceInteger (event : Nat → Nat → Nat → Nat → List UInt8 → Int → Event)
    (reader : Nat → Reader Int) (node value t len : Nat) (key : List UInt8) : Reader Event := do
  let i ← reader value
  return event node value t len key i

/-- The one call for a value: its type chooses the reader and the callback. -/
def referenceCall (node value : Nat) : Reader Event := do
  let (t, len) ← hivexValueType value
  let key ← hivexValueKey value
  if t = HiveType.none then referenceData .valueNone node value key
  else if t = HiveType.string ∨ t = HiveType.expandString ∨ t = HiveType.link then
    referenceText .valueString (hivexValueString host) node value t len key
  else if t = HiveType.dword ∨ t = HiveType.dwordBe then
    referenceInteger .valueDword hivexValueDword node value t len key
  else if t = HiveType.qword then
    referenceInteger .valueQword hivexValueQword node value t len key
  else if t = HiveType.binary then referenceData .valueBinary node value key
  else if t = HiveType.multipleStrings then
    referenceText .valueMultipleStrings (hivexValueMultipleStrings host) node value t len key
  else referenceData .valueOther node value key

/-- The calls for the subtrees of some nodes in order, where `calls` are the calls for
the values of one node. -/
inductive Traversal (calls : Nat → List Nat → Reader (List Event)) : List Nat → List Event → Prop
  | nil : Traversal calls [] []
  | node {node : Nat} {rest values children : List Nat} {name : List UInt8}
      {own below later : List Event}
      (named : hivexNodeName node h.view = .ok name)
      (valued : hivexNodeValues node h.view = .ok values)
      (called : calls node values h.view = .ok own)
      (listed : hivexNodeChildren node h.view = .ok children)
      (deeper : Traversal calls children below) (after : Traversal calls rest later) :
      Traversal calls (node :: rest)
        (.nodeStart node name :: own ++ below ++ .nodeEnd node name :: later)

/-- The reference: exactly one call for each value, in list order. -/
def Reference : List Nat → List Event → Prop :=
  Traversal h fun node values => values.mapM (referenceCall host node)

/-- The same with -1 for every integer that cannot be read. -/
def Tolerant : List Nat → List Event → Prop := Traversal h (valuesCalls host typedCallbacks)

/-- The reader of a dword or qword value succeeds. -/
def IntegerRead (value : Nat) : Prop :=
  ∀ t len, hivexValueType value h.view = .ok (t, len) →
    (t = HiveType.dword ∨ t = HiveType.dwordBe → ∃ i, hivexValueDword value h.view = .ok i) ∧
    (t = HiveType.qword → ∃ i, hivexValueQword value h.view = .ok i)

/-- A strict visit that returns 0 has delivered the reference traversal. -/
def Truthful (node : Nat) : Prop :=
  ∀ log, visitTrace h host typedCallbacks agreeable false node [] = .ok () log → Reference h host [node] log

end

section
variable {h : Hive} {host : Host} {node value t len : Nat} {key : List UInt8} {values : List Nat}
  {e : Event} {own log : List Event}

theorem valueType_ok (typed : hivexValueType value h.view = .ok (t, len)) :
    requireBlock value Vk.id h.view = .ok () ∧ rd32 value Vk.dataType h.view = .ok t := by
  simp only [hivexValueType, bind_query, bind_ok_iff, pure_query, Except.ok.injEq, Prod.mk.injEq] at typed
  obtain ⟨_, block, t', type, _, _, rfl, _⟩ := typed
  exact ⟨block, type⟩

/-- A stop that the visitor does not take for a string that does not decode. -/
def NotInvalid (stop : Stop) : Prop := stop ≠ .errno .EINVAL ∧ stop ≠ .errno .EILSEQ

theorem rdLe_notInvalid (n b i : Nat) (v : View) : Ends (rdLe n b i v) (fun _ => True) NotInvalid := by
  unfold rdLe
  split
  · trivial
  · exact ⟨nofun, nofun⟩

theorem rdBytes_notInvalid (b i n : Nat) (v : View) :
    Ends (rdBytes b i n v) (fun _ => True) NotInvalid := by
  unfold rdBytes
  split
  · trivial
  · exact ⟨nofun, nofun⟩

-- The second read of a value finds the type that the first read found.
theorem value_again (typed : hivexValueType value h.view = .ok (t, len)) :
    Ends (hivexValueValue value h.view) (fun read => read.1 = t) NotInvalid := by
  obtain ⟨block, type⟩ := valueType_ok typed
  refine Ends.known block (Ends.known type ((rdLe_notInvalid _ _ _ _).seq fun len _ => ?_))
  dsimp only
  split
  · exact ⟨nofun, nofun⟩
  split
  · exact ⟨nofun, nofun⟩
  split
  · exact (rdBytes_notInvalid _ _ _ _).seq fun _ _ => rfl
  refine (rdLe_notInvalid _ _ _ _).seq fun offset _ => ?_
  refine ends_unlessValid (fun _ => ⟨nofun, nofun⟩) fun c found => ?_
  refine Ends.seq (?_ : Ends _ (fun _ => True) _) fun blen _ => ?_
  · exact (rdLe_notInvalid _ _ _ _).seq fun _ _ => trivial
  · exact (rdBytes_notInvalid _ _ _ _).seq fun _ _ => rfl

theorem tried_error {α : Type} {query : Reader α} {v : View} {code : Errno}
    (tested : tried query v = .ok (.error code)) : query v = .error (.errno code) := by
  unfold tried at tested
  cases found : query v with
  | ok value => simp [found] at tested
  | error reason =>
      rw [found] at tested
      cases reason <;> simp_all [Stop.code?]

-- A string that does not decode has raw bytes.
theorem value_of_invalid {α : Type} {decode : Nat × List UInt8 → Reader α}
    (typed : hivexValueType value h.view = .ok (t, len)) {code : Errno}
    (failed : (hivexValueValue value >>= decode) h.view = .error (.errno code))
    (invalid : code = .EILSEQ ∨ code = .EINVAL) :
    ∃ data, hivexValueValue value h.view = .ok (t, data) := by
  have again := value_again typed
  cases read : hivexValueValue value h.view with
  | ok found =>
      rw [read] at again
      obtain rfl : found.1 = t := again
      exact ⟨found.2, rfl⟩
  | error reason =>
      rw [read] at again
      rw [bind_query, read, error_bind] at failed
      cases failed
      rcases invalid with rfl | rfl
      · exact absurd rfl again.2
      · exact absurd rfl again.1

theorem dataCalls_reference {event : Nat → Nat → Nat → Nat → List UInt8 → List UInt8 → Event}
    {expected : Option Nat} (made : dataCalls true event expected node value key h.view = .ok own) :
    ∃ e, own = [e] ∧ referenceData event node value key h.view = .ok e := by
  simp only [dataCalls, bind_query, bind_ok_iff] at made
  obtain ⟨⟨t', data⟩, read, made⟩ := made
  simp only at made
  split at made
  · cases made
  · cases made
    refine ⟨event node value t' data.length key data, rfl, ?_⟩
    rw [referenceData, bind_query, read, ok_bind]
    rfl

theorem textCalls_reference {α : Type} {event : Nat → Nat → Nat → Nat → List UInt8 → α → Event}
    {reader : Nat → Reader α} {decode : Nat × List UInt8 → Reader α}
    (reads : reader value = (hivexValueValue value >>= decode))
    (typed : hivexValueType value h.view = .ok (t, len)) {t' len' : Nat}
    (made : textCalls typedCallbacks true event reader node value t' len' key h.view = .ok own) :
    ∃ e, own = [e] ∧ referenceText event reader node value t' len' key h.view = .ok e := by
  simp only [textCalls, referenceText, bind_query, bind_ok_iff] at made ⊢
  obtain ⟨result, tested, made⟩ := made
  cases result with
  | ok text =>
      cases made
      exact ⟨_, rfl, .ok text, tested, rfl⟩
  | error code =>
      have failed : reader value h.view = .error (.errno code) := tried_error tested
      by_cases invalid : code = .EILSEQ ∨ code = .EINVAL
      · rw [reads] at failed
        obtain ⟨data, read⟩ := value_of_invalid typed failed invalid
        have again : tried (hivexValueValue value) h.view = .ok (.ok (t, data)) := by
          simp only [tried, read]
        have known : ¬(code ≠ .EILSEQ ∧ code ≠ .EINVAL) := by tauto
        simp only [invalidCalls, known, if_false, typedCallbacks, if_true, bind_query, again, ok_bind] at made
        cases made
        refine ⟨_, rfl, .error code, tested, ?_⟩
        simp only [invalid, if_true, bind_query, read, ok_bind]
        rfl
      · have other : code ≠ .EILSEQ ∧ code ≠ .EINVAL := by tauto
        have refused : invalidCalls typedCallbacks code node value t' len' key =
            throw (.errno code) := if_pos other
        simp only [refused] at made
        cases made

theorem integerCalls_reference {event : Nat → Nat → Nat → Nat → List UInt8 → Int → Event}
    {reader : Nat → Reader Int} (read : ∃ i, reader value h.view = .ok i)
    (made : integerCalls true event reader node value t len key h.view = .ok own) :
    ∃ e, own = [e] ∧ referenceInteger event reader node value t len key h.view = .ok e := by
  obtain ⟨i, read⟩ := read
  have found : tried (reader value) h.view = .ok (.ok i) := by simp only [tried, read]
  rw [integerCalls, bind_query, found, ok_bind] at made
  cases made
  refine ⟨_, rfl, ?_⟩
  rw [referenceInteger, bind_query, read, ok_bind]
  rfl

-- Where the integers read, the visitor makes the reference call for each value.
theorem valueCalls_reference (made : valueCalls host typedCallbacks node value h.view = .ok own)
    (integer : IntegerRead h value) : ∃ e, own = [e] ∧ referenceCall host node value h.view = .ok e := by
  rw [valueCalls, bind_query, bind_ok_iff] at made
  obtain ⟨⟨t, len⟩, typed, made⟩ := made
  dsimp only at made
  rw [bind_query, bind_ok_iff] at made
  obtain ⟨key, keyed, made⟩ := made
  have made : typedCalls host typedCallbacks node value t len key h.view = .ok own := made
  rw [referenceCall, bind_query, typed, ok_bind]
  dsimp only
  rw [bind_query, keyed, ok_bind]
  unfold typedCalls at made
  split_ifs at made ⊢
  · exact dataCalls_reference made
  · exact textCalls_reference rfl typed made
  · exact integerCalls_reference ((integer t len typed).1 ‹_›) made
  · exact integerCalls_reference ((integer t len typed).2 ‹_›) made
  · exact dataCalls_reference made
  · exact textCalls_reference rfl typed made
  · exact dataCalls_reference made

theorem integerRead_of_reference (made : referenceCall host node value h.view = .ok e) :
    IntegerRead h value := by
  intro t len typed
  rw [referenceCall, bind_query, typed, ok_bind] at made
  dsimp only at made
  rw [bind_query, bind_ok_iff] at made
  obtain ⟨key, keyed, made⟩ := made
  constructor
  · rintro (rfl | rfl)
    all_goals
      obtain ⟨i, read, _⟩ := bind_ok_iff.mp made
      exact ⟨i, read⟩
  · rintro rfl
    obtain ⟨i, read, _⟩ := bind_ok_iff.mp made
    exact ⟨i, read⟩

theorem valuesCalls_reference (made : valuesCalls host typedCallbacks node values h.view = .ok own)
    (integers : ∀ value ∈ values, IntegerRead h value) :
    (values.mapM (referenceCall host node)) h.view = .ok own := by
  induction values generalizing own with
  | nil => exact made
  | cons value rest ih =>
      rw [valuesCalls_cons, bind_ok_iff] at made
      obtain ⟨first, firstMade, made⟩ := made
      obtain ⟨more, moreMade, made⟩ := bind_ok_iff.mp made
      obtain ⟨e, rfl, referred⟩ := valueCalls_reference firstMade (integers value (by simp))
      cases made
      rw [mapM_cons_query, referred, ok_bind,
        ih moreMade fun v member => integers v (List.mem_cons_of_mem _ member)]
      rfl

theorem integersRead_of_reference (made : (values.mapM (referenceCall host node)) h.view = .ok own) :
    ∀ value ∈ values, IntegerRead h value := by
  induction values generalizing own with
  | nil => exact fun value member => absurd member List.not_mem_nil
  | cons value rest ih =>
      rw [mapM_cons_query, bind_ok_iff] at made
      obtain ⟨e, first, made⟩ := made
      obtain ⟨more, later, _⟩ := bind_ok_iff.mp made
      intro v member
      rcases List.mem_cons.mp member with rfl | member
      · exact integerRead_of_reference first
      · exact ih later v member

end

section
variable {h : Hive} {host : Host} {calls : Nat → List Nat → Reader (List Event)} {nodes : List Nat}
  {log log' : List Event} {len : Nat} {bits bits' : Mem} {node : Nat}

theorem Traversal.deterministic (left : Traversal h calls nodes log)
    (right : Traversal h calls nodes log') : log = log' := by
  induction left generalizing log' with
  | nil =>
      cases right
      rfl
  | node named valued called listed _ _ deeper after =>
      obtain _ | ⟨named', valued', called', listed', deeper', after'⟩ := right
      rw [named] at named'
      rw [valued] at valued'
      cases named'
      cases valued'
      rw [called] at called'
      rw [listed] at listed'
      cases called'
      cases listed'
      rw [deeper deeper', after after']

-- The nodes of a traversal whose own calls are for values only.
theorem started_node {name : List UInt8} {own below later : List Event} (inner : Inner own) :
    startedNodes (.nodeStart node name :: own ++ below ++ .nodeEnd node name :: later) =
      node :: (startedNodes below ++ startedNodes later) := by
  have none : own.filterMap Event.started? = [] := (started_marks typedCallbacks).inner own inner
  simp [startedNodes, none, Event.started?, List.filterMap_cons]

theorem valuesCalls_inner {values : List Nat} {given : Callbacks} {own : List Event}
    (made : valuesCalls host given node values h.view = .ok own) : Inner own := by
  have follows := @Follows.visitValues h agreeable true host given node values []
  unfold wp at follows
  split at follows
  next more log run =>
    obtain ⟨new, _, inner, followed⟩ := follows
    cases more with
    | true =>
        rw [if_pos rfl, made] at followed
        cases followed
        exact inner
    | false =>
        obtain ⟨_, code, failed⟩ : true = true ∧ ∃ code, _ := followed
        rw [made] at failed
        cases failed
  next reason log run =>
    obtain ⟨new, _, _, ⟨_, refuses⟩ | ⟨failed, _⟩⟩ := follows
    · exact absurd refuses agreeable_agrees
    · rw [made] at failed
      cases failed

theorem contents_ok {given : Callbacks} {own : List Event} {children : List Nat} :
    contents host given node h.view = .ok (own, children) ↔
      ∃ values, hivexNodeValues node h.view = .ok values ∧
        valuesCalls host given node values h.view = .ok own ∧
        hivexNodeChildren node h.view = .ok children := by
  simp only [contents, bind_query, bind_ok_iff, pure_query, Except.ok.injEq, Prod.mk.injEq]
  constructor
  · rintro ⟨values, valued, _, called, _, listed, rfl, rfl⟩
    exact ⟨values, valued, called, listed⟩
  · rintro ⟨values, valued, called, listed⟩
    exact ⟨values, valued, own, called, children, listed, rfl, rfl⟩

-- A strict walk is a tolerant traversal, and enters no other node.
theorem Walk.tolerant (walk : Walk h host typedCallbacks false len bits nodes log bits') :
    Tolerant h host nodes log ∧ ∀ bit, PackedBits.test bits bit = true →
      PackedBits.test bits' bit = false → ∃ node ∈ startedNodes log, node / 4 = bit := by
  induction walk with
  | nil bits =>
      refine ⟨Traversal.nil, fun bit marked gone => ?_⟩
      rw [marked] at gone
      cases gone
  | seen skips => cases skips
  | unnamed skips => cases skips
  | broken skips => cases skips
  | @whole bits bits' bits'' node rest children own below new name _ named read inner _ _ deeper later =>
      obtain ⟨values, valued, called, listed⟩ := contents_ok.mp read
      have shape : opening typedCallbacks node name ++ own ++ below ++ closing typedCallbacks node name ++ new =
          .nodeStart node name :: own ++ below ++ .nodeEnd node name :: new := by
        simp [opening, closing, typedCallbacks]
      rw [shape]
      refine ⟨Traversal.node named valued called listed deeper.1 later.1, fun bit marked gone => ?_⟩
      rw [started_node inner]
      by_cases same : bit = node / 4
      · exact ⟨node, by simp, same.symm⟩
      cases middle : PackedBits.test bits' bit with
      | true =>
          obtain ⟨m, member, here⟩ := later.2 bit middle gone
          exact ⟨m, by simp [member], here⟩
      | false =>
          obtain ⟨m, member, here⟩ := deeper.2 bit (by simp [PackedBits.test_clear, same, marked]) middle
          exact ⟨m, by simp [member], here⟩

theorem Tolerant.named (tolerant : Tolerant h host nodes log) :
    ∀ m ∈ startedNodes log, h.valid m = true := by
  induction tolerant with
  | nil => exact fun m member => absurd member List.not_mem_nil
  | @node node rest values children name own below later named valued called listed _ _ deeper after =>
      intro m member
      rw [started_node (valuesCalls_inner called)] at member
      simp only [List.mem_cons, List.mem_append] at member
      rcases member with rfl | inside | inside
      · exact valid_of_named (by rw [named]; exact nofun)
      · exact deeper m inside
      · exact after m inside

theorem Tolerant.cons {rest : List Nat} (tolerant : Tolerant h host (node :: rest) log) :
    ∃ name own children below later, hivexNodeName node h.view = .ok name ∧
      contents host typedCallbacks node h.view = .ok (own, children) ∧
      Tolerant h host children below ∧ Tolerant h host rest later ∧
      startedNodes log = node :: (startedNodes below ++ startedNodes later) := by
  obtain _ | ⟨named, valued, called, listed, deeper, after⟩ := tolerant
  exact ⟨_, _, _, _, _, named, contents_ok.mpr ⟨_, valued, called, listed⟩, deeper, after,
    started_node (valuesCalls_inner called)⟩

theorem valid_aligned (valid : h.valid node = true) : node % 4 = 0 ∧ node / 32 < bitmapLen h.size := by
  simp only [Hive.valid, decide_eq_true_eq] at valid
  refine ⟨valid.1, ?_⟩
  unfold bitmapLen
  omega

-- A tolerant traversal of distinct unvisited nodes is not cut short.
theorem Halt.not_tolerant {reason : Stop}
    (halt : Halt h host typedCallbacks agreeable false (bitmapLen h.size) bits nodes reason log')
    (tolerant : Tolerant h host nodes log) (distinct : (startedNodes log).Nodup)
    (fresh : ∀ m ∈ startedNodes log, PackedBits.test bits (m / 4) = true) : False := by
  induction halt generalizing log with
  | @outside bits node rest beyond =>
      obtain ⟨name, own, children, below, later, named, _⟩ := tolerant.cons
      have valid := valid_of_named (h := h) (by rw [named]; exact nofun)
      simp [bitmapTst, (valid_aligned valid).2] at beyond
  | @cycle bits node rest _ unset =>
      obtain ⟨name, own, children, below, later, _, _, _, _, shape⟩ := tolerant.cons
      have marked := fresh node (by simp [shape])
      rw [gone_of_unset unset] at marked
      cases marked
  | unnamed _ nameless _ =>
      obtain ⟨name, own, children, below, later, named, _⟩ := tolerant.cons
      rw [named] at nameless
      cases nameless
  | refused _ _ _ refuses => exact agreeable_agrees refuses
  | broken _ _ failed _ _ =>
      obtain ⟨name, own, children, below, later, _, read, _⟩ := tolerant.cons
      rw [read] at failed
      cases failed
  | @deeper bits node rest children name calls below reason _ named read _ _ ih =>
      obtain ⟨_, _, _, below', later, named', read', deeper, after, shape⟩ := tolerant.cons
      rw [read] at read'
      cases read'
      rw [shape, List.nodup_cons, List.nodup_append] at distinct
      refine ih deeper distinct.2.1 fun m member => ?_
      have marked := fresh m (by simp [shape, member])
      have apart : m ≠ node := by
        rintro rfl
        exact distinct.1 (List.mem_append_left _ member)
      have flat := (valid_aligned (deeper.named m member)).1
      have flat' := (valid_aligned (tolerant.named node (by simp [shape]))).1
      have other : m / 4 ≠ node / 4 := by omega
      simp [PackedBits.test_clear, other, marked]
  | unfinished _ _ _ _ _ refuses => exact agreeable_agrees refuses
  | @later bits bits' node rest new more reason walk _ ih =>
      obtain ⟨name, own, children, below, later, named, read, deeper, after, shape⟩ := tolerant.cons
      obtain ⟨first, entered⟩ := walk.tolerant
      obtain ⟨_, _, _, below', none, _, read', deeper', last, shape'⟩ := first.cons
      rw [read] at read'
      cases read'
      cases last
      rw [deeper'.deterministic deeper] at shape'
      rw [shape, List.nodup_cons, List.nodup_append] at distinct
      refine ih after distinct.2.2.1 fun m member => ?_
      cases still : PackedBits.test bits' (m / 4) with
      | true => rfl
      | false =>
          obtain ⟨n, inside, same⟩ := entered (m / 4) (fresh m (by simp [shape, member])) still
          have flat := (valid_aligned (after.named m member)).1
          have flat' := (valid_aligned (first.named n inside)).1
          obtain rfl : n = m := by omega
          rw [shape'] at inside
          simp only [startedNodes, List.filterMap_nil, List.append_nil, List.mem_cons] at inside
          rcases inside with rfl | inside
          · exact absurd (List.mem_append_right _ member) distinct.1
          · exact absurd rfl (distinct.2.2.2 n inside n member)

-- A tolerant traversal with readable integers is the reference.
theorem Tolerant.reference (tolerant : Tolerant h host nodes log)
    (integers : ∀ m ∈ startedNodes log, ∀ values, hivexNodeValues m h.view = .ok values →
      ∀ value ∈ values, IntegerRead h value) : Reference h host nodes log := by
  induction tolerant with
  | nil => exact Traversal.nil
  | node named valued called listed _ _ deeper after =>
      rw [started_node (valuesCalls_inner called)] at integers
      refine Traversal.node named valued ?_ listed (deeper fun m member => ?_) (after fun m member => ?_)
      · exact valuesCalls_reference called (integers _ (by simp) _ valued)
      · exact integers m (by simp [member])
      · exact integers m (by simp [member])

-- The reference reads every integer of the subtree.
theorem Tolerant.integers (tolerant : Tolerant h host nodes log) (reference : Reference h host nodes log') :
    ∀ m ∈ startedNodes log, ∀ values, hivexNodeValues m h.view = .ok values →
      ∀ value ∈ values, IntegerRead h value := by
  induction tolerant generalizing log' with
  | nil => exact fun m member => absurd member List.not_mem_nil
  | @node node rest values children name own below later named valued called listed _ _ deeper after =>
      obtain _ | ⟨_, valued', called', listed', deeper', after'⟩ := reference
      rw [valued] at valued'
      rw [listed] at listed'
      cases valued'
      cases listed'
      intro m member values' found
      rw [started_node (valuesCalls_inner called)] at member
      simp only [List.mem_cons, List.mem_append] at member
      rcases member with rfl | inside | inside
      · rw [valued] at found
        cases found
        exact integersRead_of_reference called'
      · exact deeper deeper' m inside values' found
      · exact after after' m inside values' found

-- A tolerant traversal of distinct nodes is what the strict visit delivers.
theorem Tolerant.visited (tolerant : Tolerant h host [node] log) (distinct : (startedNodes log).Nodup) :
    visitTrace h host typedCallbacks agreeable false node [] = .ok () log := by
  have walks := @visitTrace_walks h host typedCallbacks agreeable false node
  have fresh : ∀ m ∈ startedNodes log, PackedBits.test h.bitmap (m / 4) = true := by
    intro m member
    have valid := tolerant.named m member
    simp only [Hive.valid, decide_eq_true_eq] at valid
    exact valid.2.2.2
  cases run : visitTrace h host typedCallbacks agreeable false node [] with
  | ok _ log' =>
      obtain ⟨bits', walk⟩ := walk_of_visit run
      rw [walk.tolerant.1.deterministic tolerant]
  | error reason log' =>
      have halt : Halt h host typedCallbacks agreeable false (bitmapLen h.size) h.bitmap [node] reason log' := by
        simpa only [wp, run] using walks
      exact (halt.not_tolerant tolerant distinct fresh).elim

theorem Truthful.integers (truthful : Truthful h host node) (tolerant : Tolerant h host [node] log)
    (distinct : (startedNodes log).Nodup) : ∀ m ∈ startedNodes log, ∀ values,
      hivexNodeValues m h.view = .ok values → ∀ value ∈ values, IntegerRead h value :=
  tolerant.integers (truthful log (tolerant.visited distinct))

/-- A strict visit that returns 0 has delivered the reference traversal, unless it has met
a dword or qword value that its reader refuses. -/
theorem truthful_iff (h : Hive) (host : Host) (node : Nat) :
    Truthful h host node ↔
      ∀ log, Tolerant h host [node] log → (startedNodes log).Nodup → ∀ m ∈ startedNodes log,
        ∀ values, hivexNodeValues m h.view = .ok values → ∀ value ∈ values, IntegerRead h value := by
  refine ⟨fun truthful log tolerant distinct => truthful.integers tolerant distinct, ?_⟩
  intro integers log run
  obtain ⟨bits', walk⟩ := walk_of_visit run
  have tolerant := walk.tolerant.1
  exact tolerant.reference (integers log tolerant (walk.spent (started_marks _)).distinct)

end

/-- The smallest hive with one value under the root: a dword of two bytes. -/
def shortDwordImage : Mem :=
  [(0x1020 + Nk.nrValues, leBytes 4 1), (0x1020 + Nk.vallist, leBytes 4 0x90),
    (0x1090, leBytes 4 (2 ^ 32 - 8)), (0x1094, leBytes 4 0x98),
    (0x1098, leBytes 4 (2 ^ 32 - 32)), (0x109c, Vk.id),
    (0x1098 + Vk.dataLen, leBytes 4 (2 ^ 31 + 2)), (0x1098 + Vk.dataType, leBytes 4 HiveType.dword),
    (0x10b8, leBytes 4 0xf48)].foldl (fun image (i, bytes) => blit image i bytes) minimalImage

def shortDword : Hive := onePage shortDwordImage [0x1020, 0x1078, 0x1090, 0x1098, 0x10b8]

theorem shortDword_laidOut : LaidOut shortDword [⟨0x1000, [0x1020, 0x1078, 0x1090, 0x1098, 0x10b8]⟩] :=
  onePage_laidOut (by decide) (by decide) (by decide) (by decide)

theorem shortDword_committable : Committable shortDword where
  magic := by decide
  major := by decide
  rootoffs := by decide
  root := ⟨shortDword_laidOut.valid_iff.mpr ⟨by decide, by decide⟩, by decide⟩
  layout := ⟨_, shortDword_laidOut⟩
  small := by decide

theorem shortDword_reads :
    hivexNodeName 0x1020 shortDword.view = .ok [0x72, 0x6f, 0x6f, 0x74] ∧
    hivexNodeValues 0x1020 shortDword.view = .ok [0x1098] ∧
    hivexNodeChildren 0x1020 shortDword.view = .ok [] ∧
    hivexValueType 0x1098 shortDword.view = .ok (HiveType.dword, 2) ∧
    hivexValueKey 0x1098 shortDword.view = .ok [] ∧
    hivexValueDword 0x1098 shortDword.view = .error (.errno .EINVAL) :=
  ⟨rfl, rfl, rfl, rfl, rfl, rfl⟩

/-- A strict `hivex_visit_node` returns 0 on this file, after a dword callback with -1. -/
theorem shortDword_untruthful : ∃ file g, Accepts file false g ∧ ¬Truthful g plainHost g.rootoffs := by
  have reads := (reopened_agrees shortDword_laidOut false).1.readsAlike
  have root := (reopened_fields (h := shortDword.committed)
    [⟨0x1000, [0x1020, 0x1078, 0x1090, 0x1098, 0x10b8]⟩] false).1
  refine ⟨_, _, shortDword_committable.accepted shortDword_laidOut false, ?_⟩
  generalize shortDword.committed.reopened _ false = g at reads root
  have at_root : g.rootoffs = 0x1020 := root
  rw [at_root]
  obtain ⟨named, valued, listed, typed, keyed, refused⟩ := shortDword_reads
  rw [reads.nodeName] at named
  rw [reads.nodeValues] at valued
  rw [reads.nodeChildren] at listed
  rw [reads.valueType] at typed
  rw [reads.valueKey] at keyed
  rw [reads.valueDword] at refused
  have tried_refused : tried (hivexValueDword 0x1098) g.view = .ok (.error .EINVAL) := by
    simp only [tried, refused, Stop.code?]
  have called : valuesCalls plainHost typedCallbacks 0x1020 [0x1098] g.view =
      .ok [.valueDword 0x1020 0x1098 HiveType.dword 2 [] (-1)] := by
    rw [valuesCalls_cons, valueCalls, bind_query, typed, ok_bind]
    dsimp only
    rw [bind_query, keyed, ok_bind]
    show (Except.bind (Except.bind (tried (hivexValueDword 0x1098) g.view) _) _) = _
    rw [tried_refused]
    rfl
  have tolerant : Tolerant g plainHost [0x1020] _ :=
    Traversal.node named valued called listed Traversal.nil Traversal.nil
  intro truthful
  have integers := truthful.integers tolerant (List.nodup_singleton 0x1020) 0x1020
    (List.mem_singleton_self 0x1020) [0x1098] valued 0x1098 (List.mem_singleton_self 0x1098)
  obtain ⟨i, read⟩ := (integers HiveType.dword 2 typed).1 (Or.inl rfl)
  rw [refused] at read
  cases read

end Hivex
