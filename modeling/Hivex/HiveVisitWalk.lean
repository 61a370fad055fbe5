import Hivex.HiveVisitTrace

/-! The course of a visit. A visit that returns 0 is a walk, and one that stops is a
walk cut short; the set bits of the private bitmap bound its depth. -/
namespace Hivex

open ByteMemory Commands

section
variable (h : Hive) (host : Host) (given : Callbacks) (answer : Answers) (skipBad : Bool) (len : Nat)

/-- The value calls of a node and its children: what the visit reads of a node that has
been started. -/
def contents (node : Nat) : Reader (List Event × List Nat) := do
  let values ← hivexNodeValues node
  let calls ← valuesCalls host given node values
  let children ← hivexNodeChildren node
  return (calls, children)

def opening (node : Nat) (name : List UInt8) : List Event :=
  if given.nodeStart then [.nodeStart node name] else []

def closing (node : Nat) (name : List UInt8) : List Event :=
  if given.nodeEnd then [.nodeEnd node name] else []

/-- The reasons of a reader that end the whole visit. -/
def Stops (reason : Stop) : Prop :=
  reason = .outside ∨ skipBad = false ∧ ∃ code, reason = .errno code

/-- A visit of some nodes in order that returns 0, from one bitmap of unvisited nodes
to the next. -/
inductive Walk : Mem → List Nat → List Event → Mem → Prop
  | nil (bits : Mem) : Walk bits [] [] bits
  | seen {bits bits' : Mem} {node : Nat} {rest : List Nat} {new : List Event}
      (skips : skipBad = true) (unset : bitmapTst bits len node = .ok false)
      (later : Walk bits rest new bits') : Walk bits (node :: rest) new bits'
  | unnamed {bits bits' : Mem} {node : Nat} {rest : List Nat} {new : List Event} {code : Errno}
      (skips : skipBad = true) (fresh : bitmapTst bits len node = .ok true)
      (nameless : hivexNodeName node h.view = .error (.errno code))
      (later : Walk (PackedBits.clear bits (node / 4)) rest new bits') :
      Walk bits (node :: rest) new bits'
  | broken {bits bits' : Mem} {node : Nat} {rest : List Nat} {part new : List Event}
      {name : List UInt8} {code : Errno}
      (skips : skipBad = true) (fresh : bitmapTst bits len node = .ok true)
      (named : hivexNodeName node h.view = .ok name)
      (failed : contents host given node h.view = .error (.errno code)) (inner : Inner part)
      (later : Walk (PackedBits.clear bits (node / 4)) rest new bits') :
      Walk bits (node :: rest) (opening given node name ++ part ++ new) bits'
  | whole {bits bits' bits'' : Mem} {node : Nat} {rest children : List Nat}
      {calls below new : List Event} {name : List UInt8}
      (fresh : bitmapTst bits len node = .ok true)
      (named : hivexNodeName node h.view = .ok name)
      (read : contents host given node h.view = .ok (calls, children)) (inner : Inner calls)
      (deeper : Walk (PackedBits.clear bits (node / 4)) children below bits')
      (later : Walk bits' rest new bits'') :
      Walk bits (node :: rest)
        (opening given node name ++ calls ++ below ++ closing given node name ++ new) bits''

/-- A visit of some nodes that is cut short. -/
inductive Halt : Mem → List Nat → Stop → List Event → Prop
  | outside {bits : Mem} {node : Nat} {rest : List Nat}
      (beyond : bitmapTst bits len node = .error .outside) : Halt bits (node :: rest) .outside []
  | cycle {bits : Mem} {node : Nat} {rest : List Nat} (strict : skipBad = false)
      (unset : bitmapTst bits len node = .ok false) : Halt bits (node :: rest) (.errno .ELOOP) []
  | unnamed {bits : Mem} {node : Nat} {rest : List Nat} {reason : Stop}
      (fresh : bitmapTst bits len node = .ok true)
      (nameless : hivexNodeName node h.view = .error reason) (stops : Stops skipBad reason) :
      Halt bits (node :: rest) reason []
  | refused {bits : Mem} {node : Nat} {rest : List Nat} {name : List UInt8} {part : List Event}
      (fresh : bitmapTst bits len node = .ok true) (named : hivexNodeName node h.view = .ok name)
      (inner : Inner part) (refuses : Refuses answer) :
      Halt bits (node :: rest) (.errno .unset) (opening given node name ++ part)
  | broken {bits : Mem} {node : Nat} {rest : List Nat} {name : List UInt8} {part : List Event}
      {reason : Stop}
      (fresh : bitmapTst bits len node = .ok true) (named : hivexNodeName node h.view = .ok name)
      (failed : contents host given node h.view = .error reason) (stops : Stops skipBad reason)
      (inner : Inner part) : Halt bits (node :: rest) reason (opening given node name ++ part)
  | deeper {bits : Mem} {node : Nat} {rest children : List Nat} {name : List UInt8}
      {calls below : List Event} {reason : Stop}
      (fresh : bitmapTst bits len node = .ok true) (named : hivexNodeName node h.view = .ok name)
      (read : contents host given node h.view = .ok (calls, children)) (inner : Inner calls)
      (cut : Halt (PackedBits.clear bits (node / 4)) children reason below) :
      Halt bits (node :: rest) reason (opening given node name ++ calls ++ below)
  | unfinished {bits bits' : Mem} {node : Nat} {rest children : List Nat} {name : List UInt8}
      {calls below : List Event}
      (fresh : bitmapTst bits len node = .ok true) (named : hivexNodeName node h.view = .ok name)
      (read : contents host given node h.view = .ok (calls, children)) (inner : Inner calls)
      (deeper : Walk h host given skipBad len (PackedBits.clear bits (node / 4)) children below bits')
      (refuses : Refuses answer) :
      Halt bits (node :: rest) (.errno .unset)
        (opening given node name ++ calls ++ below ++ closing given node name)
  | later {bits bits' : Mem} {node : Nat} {rest : List Nat} {new more : List Event} {reason : Stop}
      (first : Walk h host given skipBad len bits [node] new bits')
      (cut : Halt bits' rest reason more) : Halt bits (node :: rest) reason (new ++ more)

/-- What the part of a node behind its start has done when the visit goes on. -/
def WalkBehind (bits : Mem) (node : Nat) (name : List UInt8) (new : List Event) (bits' : Mem) : Prop :=
  (skipBad = true ∧ bits' = bits ∧ Inner new ∧
    ∃ code, contents host given node h.view = .error (.errno code)) ∨
  ∃ calls children below, contents host given node h.view = .ok (calls, children) ∧ Inner calls ∧
    Walk h host given skipBad len bits children below bits' ∧
    new = calls ++ below ++ closing given node name

/-- The same when the visit is cut short there. -/
def HaltBehind (bits : Mem) (node : Nat) (name : List UInt8) (reason : Stop) (new : List Event) : Prop :=
  (Inner new ∧ ((reason = .errno .unset ∧ Refuses answer) ∨
    (contents host given node h.view = .error reason ∧ Stops skipBad reason))) ∨
  ∃ calls children below, contents host given node h.view = .ok (calls, children) ∧ Inner calls ∧
    ((Halt h host given answer skipBad len bits children reason below ∧ new = calls ++ below) ∨
      (reason = .errno .unset ∧ Refuses answer ∧ ∃ bits',
        Walk h host given skipBad len bits children below bits' ∧
        new = calls ++ below ++ closing given node name))

end

section Walk
variable {h : Hive} {host : Host} {given : Callbacks} {answer : Answers} {skipBad : Bool} {len : Nat}

theorem Walk.append {bits bits' bits'' : Mem} {first later : List Nat} {new more : List Event}
    (walk : Walk h host given skipBad len bits first new bits')
    (walk' : Walk h host given skipBad len bits' later more bits'') :
    Walk h host given skipBad len bits (first ++ later) (new ++ more) bits'' := by
  induction walk with
  | nil bits => exact walk'
  | seen skips unset _ ih => exact Walk.seen skips unset (ih walk')
  | unnamed skips fresh nameless _ ih => exact Walk.unnamed skips fresh nameless (ih walk')
  | broken skips fresh named failed inner _ ih =>
      rw [List.cons_append, List.append_assoc]
      exact Walk.broken skips fresh named failed inner (ih walk')
  | whole fresh named read inner deeper _ _ ih =>
      rw [List.cons_append, List.append_assoc]
      exact Walk.whole fresh named read inner deeper (ih walk')

theorem Halt.append {bits : Mem} {first later : List Nat} {reason : Stop} {new : List Event}
    (halt : Halt h host given answer skipBad len bits first reason new) :
    Halt h host given answer skipBad len bits (first ++ later) reason new := by
  induction halt with
  | outside beyond => exact Halt.outside beyond
  | cycle strict unset => exact Halt.cycle strict unset
  | unnamed fresh nameless stops => exact Halt.unnamed fresh nameless stops
  | refused fresh named inner refuses => exact Halt.refused fresh named inner refuses
  | broken fresh named failed stops inner => exact Halt.broken fresh named failed stops inner
  | deeper fresh named read inner cut _ => exact Halt.deeper fresh named read inner cut
  | unfinished fresh named read inner deeper refuses =>
      exact Halt.unfinished fresh named read inner deeper refuses
  | later walk _ ih => exact Halt.later walk ih

/-- The nodes that a visit may still enter. -/
def unvisited (len : Nat) (bits : Mem) : Finset Nat :=
  (Finset.range (8 * len)).filter fun bit => PackedBits.test bits bit = true

theorem unvisited_few (len : Nat) (bits : Mem) : (unvisited len bits).card < 8 * len + 1 := by
  have fewer := Finset.card_filter_le (Finset.range (8 * len)) fun bit => PackedBits.test bits bit = true
  rw [Finset.card_range] at fewer
  exact Nat.lt_succ_of_le fewer

theorem unvisited_clear {bits : Mem} {node : Nat} (fresh : bitmapTst bits len node = .ok true) :
    (unvisited len (PackedBits.clear bits (node / 4))).card < (unvisited len bits).card := by
  have inside : node / 32 < len := by
    by_contra beyond
    simp [bitmapTst, beyond] at fresh
  have marked : PackedBits.test bits (node / 4) = true := by
    simpa [bitmapTst, inside] using fresh
  refine Finset.card_lt_card ((Finset.ssubset_iff_of_subset ?_).mpr ⟨node / 4, ?_, ?_⟩)
  · intro bit member
    simp only [unvisited, Finset.mem_filter, PackedBits.test_clear, Bool.and_eq_true] at member ⊢
    exact ⟨member.1, member.2.2⟩
  · simp only [unvisited, Finset.mem_filter, Finset.mem_range]
    exact ⟨by omega, marked⟩
  · simp [unvisited, PackedBits.test_clear]

theorem strict_of_stops {code : Errno} (stops : Stops skipBad (.errno code)) : skipBad = false := by
  obtain outside | ⟨strict, _⟩ := stops
  · cases outside
  · exact strict

theorem Traces.internalError {α : Type} {code : Errno} {next : EStateM Stop (List Event) α}
    {post : α → List Event → Prop} {stop : Stop → List Event → Prop}
    (skips : skipBad = true → Traces next post stop)
    (stops : Stops skipBad (.errno code) → stop (.errno code) []) :
    Traces (do let _ ← Hivex.internalError skipBad code; next) post stop := by
  refine Traces.bind (fun _ new => new = [] ∧ skipBad = true) ?_ ?_
  · cases skipBad with
    | true => exact Traces.pure ⟨rfl, rfl⟩
    | false => exact Traces.throw (stops (Or.inr ⟨rfl, code, rfl⟩))
  · rintro _ _ ⟨rfl, on⟩
    simpa only [List.nil_append] using skips on

-- A test of the private bitmap.
theorem Traces.query {α β : Type} {result : Except Stop α}
    {next : α → EStateM Stop (List Event) β}
    {post : β → List Event → Prop} {stop : Stop → List Event → Prop}
    (good : ∀ value, result = .ok value → Traces (next value) post stop)
    (bad : ∀ reason, result = .error reason → stop reason []) :
    Traces (look (fun _ => ()) (fun _ => result) >>= next) post stop := by
  refine Traces.bind (fun value new => new = [] ∧ result = .ok value) ?_ ?_
  · intro log
    refine (wp_look _ _ _).mpr ?_
    cases result with
    | ok value => exact ⟨[], (List.append_nil log).symm, rfl, rfl⟩
    | error reason => exact ⟨[], (List.append_nil log).symm, bad reason rfl⟩
  · rintro value _ ⟨rfl, found⟩
    simpa only [List.nil_append] using good value found

theorem Traces.afterRead {α β : Type} {query : Reader α}
    {next : Except Errno α → EStateM Stop (List Event) β}
    {post : β → List Event → Prop} {stop : Stop → List Event → Prop} (plain : Plain query)
    (good : ∀ value, query h.view = .ok value → Traces (next (.ok value)) post stop)
    (bad : ∀ code, query h.view = .error (.errno code) → Traces (next (.error code)) post stop)
    (outside : query h.view = .error .outside → stop .outside []) :
    Traces (Hivex.tryRead (fun _ => h) query >>= next) post stop := by
  refine Traces.bind (fun result new => new = [] ∧ match result with
    | .ok value => query h.view = .ok value
    | .error code => query h.view = .error (.errno code))
    (Traces.tryRead plain (fun value found => ⟨rfl, found⟩) (fun code found => ⟨rfl, found⟩) outside) ?_
  rintro result _ ⟨rfl, found⟩
  cases result with
  | ok value => simpa only [List.nil_append] using good value found
  | error code => simpa only [List.nil_append] using bad code found

-- An optional call at the start or the end of a node.
theorem Traces.notify {α : Type} (answer : Answers) (called : Bool) (e : Event)
    {program : EStateM Stop (List Event) α} (next : EStateM Stop (List Event) α)
    {post : α → List Event → Prop} {stop : Stop → List Event → Prop} {calls : List Event}
    (made : calls = if called then [e] else [])
    (present : called = true → program = do Hivex.record answer e; next)
    (absent : called = false → program = next)
    (refused : Refuses answer → stop (.errno .unset) calls)
    (continues : Traces next (fun value new => post value (calls ++ new))
      (fun reason new => stop reason (calls ++ new))) : Traces program post stop := by
  subst made
  cases called with
  | true =>
      rw [present rfl]
      refine Traces.bind (fun _ new => new = [e]) (Traces.record rfl refused) ?_
      rintro _ _ rfl
      exact continues
  | false =>
      rw [absent rfl]
      exact continues

/-- The part of a node behind its start. -/
theorem visitContents_traces {descend : Mem → Nat → EStateM Stop (List Event) Mem} {bits : Mem}
    (node : Nat) (name : List UInt8)
    (descends : ∀ children, Traces (children.foldlM descend bits)
      (fun bits' below => Walk h host given skipBad len bits children below bits')
      (fun reason below => Halt h host given answer skipBad len bits children reason below)) :
    Traces (visitContents (fun _ => h) host (recorder given answer) skipBad descend node name bits)
      (fun bits' new => WalkBehind h host given skipBad len bits node name new bits')
      (fun reason new => HaltBehind h host given answer skipBad len bits node name reason new) := by
  unfold visitContents
  refine Traces.afterRead (Plain.hivexNodeValues node) (fun values foundValues => ?_)
    (fun code found => ?_) fun found => ?_
  · have behind : contents host given node h.view =
        (valuesCalls host given node values h.view).bind fun calls =>
          (hivexNodeChildren node h.view).bind fun children => .ok (calls, children) := by
      simp only [contents, bind_query, foundValues, ok_bind]
      rfl
    refine Traces.bind _ ((Follows.visitValues values).mono (fun _ _ holds => holds) ?_) ?_
    · rintro reason new ⟨inner, refused | ⟨failed, stops⟩⟩
      · exact Or.inl ⟨inner, Or.inl refused⟩
      · refine Or.inl ⟨inner, Or.inr ⟨?_, stops⟩⟩
        rw [behind, failed, error_bind]
    · rintro (_ | _) calls ⟨inner, followed⟩
      · obtain ⟨skips, code, failed⟩ : skipBad = true ∧ ∃ code, _ := followed
        refine Traces.pure (Or.inl ⟨skips, rfl, by rwa [List.append_nil], code, ?_⟩)
        rw [behind, failed, error_bind]
      · have known : valuesCalls host given node values h.view = .ok calls := followed
        rw [known, ok_bind] at behind
        refine Traces.afterRead (Plain.hivexNodeChildren node) (fun children foundChildren => ?_)
          (fun code found => ?_) fun found => ?_
        · rw [foundChildren, ok_bind] at behind
          refine Traces.bind _ ((descends children).mono (fun _ _ walk => walk) fun reason below halt => ?_)
            fun bits' below walk => ?_
          · exact Or.inr ⟨calls, children, below, behind, inner, Or.inl ⟨halt, rfl⟩⟩
          refine Traces.notify answer given.nodeEnd (.nodeEnd node name) (pure bits') rfl
            (fun called => ?_) (fun called => ?_) (fun refused => ?_) (Traces.pure ?_)
          · simp [recorder, called]
          · simp [recorder, called]
          · exact Or.inr ⟨calls, children, below, behind, inner,
              Or.inr ⟨rfl, refused, bits', walk, (List.append_assoc _ _ _).symm⟩⟩
          · refine Or.inr ⟨calls, children, below, behind, inner, walk, ?_⟩
            rw [List.append_nil, List.append_assoc]
            rfl
        · rw [found, error_bind] at behind
          refine Traces.internalError (fun skips => ?_) fun stops => ?_
          · exact Traces.pure (Or.inl ⟨skips, rfl, by rwa [List.append_nil], code, behind⟩)
          · exact Or.inl ⟨by rwa [List.append_nil], Or.inr ⟨behind, stops⟩⟩
        · rw [found, error_bind] at behind
          exact Or.inl ⟨by rwa [List.append_nil], Or.inr ⟨behind, Or.inl rfl⟩⟩
  · have failed : contents host given node h.view = .error (.errno code) := by
      simp only [contents, bind_query, found, error_bind]
    refine Traces.internalError (fun skips => ?_) fun stops => ?_
    · exact Traces.pure (Or.inl ⟨skips, rfl, Inner.nil, code, failed⟩)
    · exact Or.inl ⟨Inner.nil, Or.inr ⟨failed, stops⟩⟩
  · refine Or.inl ⟨Inner.nil, Or.inr ⟨?_, Or.inl rfl⟩⟩
    simp only [contents, bind_query, found, error_bind]

theorem Walk.shrinks {bits bits' : Mem} {nodes : List Nat} {new : List Event}
    (walk : Walk h host given skipBad len bits nodes new bits') {bit : Nat}
    (marked : PackedBits.test bits' bit = true) : PackedBits.test bits bit = true := by
  have cleared : ∀ {bits : Mem} {off : Nat}, PackedBits.test (PackedBits.clear bits off) bit = true →
      PackedBits.test bits bit = true := by
    intro bits off still
    rw [PackedBits.test_clear, Bool.and_eq_true] at still
    exact still.2
  induction walk with
  | nil => exact marked
  | seen _ _ _ ih => exact ih marked
  | unnamed _ _ _ _ ih => exact cleared (ih marked)
  | broken _ _ _ _ _ _ ih => exact cleared (ih marked)
  | whole _ _ _ _ _ _ deeper later => exact cleared (deeper (later marked))

theorem Walk.fewer {bits bits' : Mem} {nodes : List Nat} {new : List Event}
    (walk : Walk h host given skipBad len bits nodes new bits') :
    (unvisited len bits').card ≤ (unvisited len bits).card :=
  Finset.card_le_card (Finset.monotone_filter_right _ fun _ _ marked => walk.shrinks marked)

theorem foldlM_traces {descend : Mem → Nat → EStateM Stop (List Event) Mem} {fuel : Nat}
    (each : ∀ node bits, (unvisited len bits).card < fuel → Traces (descend bits node)
      (fun bits' new => Walk h host given skipBad len bits [node] new bits')
      (fun reason new => Halt h host given answer skipBad len bits [node] reason new))
    (nodes : List Nat) (bits : Mem) (enough : (unvisited len bits).card < fuel) :
    Traces (nodes.foldlM descend bits)
      (fun bits' new => Walk h host given skipBad len bits nodes new bits')
      (fun reason new => Halt h host given answer skipBad len bits nodes reason new) := by
  induction nodes generalizing bits with
  | nil => exact Traces.pure (Walk.nil bits)
  | cons node rest ih =>
      rw [List.foldlM_cons]
      refine Traces.bind _ ((each node bits enough).mono (fun _ _ walk => walk)
        fun _ _ halt => halt.append) fun bits' new walk => ?_
      have fewer := walk.fewer
      refine (ih bits' (by omega)).mono (fun bits'' more later => ?_) fun reason more halt => ?_
      · exact walk.append later
      · exact Halt.later walk halt

theorem WalkBehind.walk {bits bits' : Mem} {node : Nat} {name : List UInt8} {new : List Event}
    (fresh : bitmapTst bits len node = .ok true) (named : hivexNodeName node h.view = .ok name)
    (ends : WalkBehind h host given skipBad len (PackedBits.clear bits (node / 4)) node name new bits') :
    Walk h host given skipBad len bits [node] (opening given node name ++ new) bits' := by
  obtain ⟨skips, rfl, inner, code, failed⟩ | ⟨calls, children, below, read, inner, walk, rfl⟩ := ends
  · have broken := Walk.broken skips fresh named failed inner (Walk.nil _)
    rwa [List.append_nil] at broken
  · have whole := Walk.whole fresh named read inner walk (Walk.nil _)
    simpa only [List.append_nil, List.append_assoc] using whole

theorem HaltBehind.halt {bits : Mem} {node : Nat} {name : List UInt8} {new : List Event}
    {reason : Stop} (fresh : bitmapTst bits len node = .ok true)
    (named : hivexNodeName node h.view = .ok name)
    (stopped : HaltBehind h host given answer skipBad len (PackedBits.clear bits (node / 4)) node name
      reason new) :
    Halt h host given answer skipBad len bits [node] reason (opening given node name ++ new) := by
  obtain ⟨inner, ⟨rfl, refuses⟩ | ⟨failed, stops⟩⟩ | ⟨calls, children, below, read, inner, inside⟩ := stopped
  · exact Halt.refused fresh named inner refuses
  · exact Halt.broken fresh named failed stops inner
  obtain ⟨cut, rfl⟩ | ⟨rfl, refuses, bits', walk, rfl⟩ := inside
  · rw [← List.append_assoc]
    exact Halt.deeper fresh named read inner cut
  · have unfinished : Halt h host given answer skipBad len bits [node] _ _ :=
      Halt.unfinished fresh named read inner walk refuses
    simpa only [List.append_assoc] using unfinished

theorem visitNode_traces {fuel : Nat} {node : Nat} {bits : Mem}
    (enough : (unvisited len bits).card < fuel) :
    Traces (visitNode (fun _ => h) host (recorder given answer) skipBad len fuel node bits)
      (fun bits' new => Walk h host given skipBad len bits [node] new bits')
      (fun reason new => Halt h host given answer skipBad len bits [node] reason new) := by
  induction fuel generalizing node bits with
  | zero => exact absurd enough (Nat.not_lt_zero _)
  | succ fuel ih =>
      unfold visitNode
      refine Traces.query (fun fresh tested => ?_) fun reason beyond => ?_
      · cases fresh with
        | false =>
            refine Traces.internalError (fun skips => ?_) fun stops => ?_
            · exact Traces.pure (Walk.seen skips tested (Walk.nil _))
            · exact Halt.cycle (strict_of_stops stops) tested
        | true =>
            have inside : node / 32 < len := by
              by_contra beyond
              simp [bitmapTst, beyond] at tested
            refine Traces.query (fun bits' cleared => ?_) fun reason beyond => ?_
            · obtain rfl : PackedBits.clear bits (node / 4) = bits' := by
                simpa [bitmapClr, inside] using cleared
              refine Traces.afterRead (Plain.hivexNodeName node) (fun name named => ?_)
                (fun code nameless => ?_) fun nameless => ?_
              · have fewer := unvisited_clear tested
                have behind := visitContents_traces node name fun children =>
                  foldlM_traces (fun _ _ enough => ih enough) children
                    (PackedBits.clear bits (node / 4)) (by omega)
                refine Traces.notify answer given.nodeStart (.nodeStart node name) _ rfl
                  (fun called => ?_) (fun called => ?_) (fun refused => ?_)
                  (behind.mono (fun bits' new ends => ?_) fun reason new stopped => ?_)
                · simp only [recorder, called, if_true]
                · simp only [recorder, called, Bool.false_eq_true, if_false]
                · have halt : Halt h host given answer skipBad len bits [node] _ _ :=
                    Halt.refused tested named Inner.nil refused
                  rwa [List.append_nil] at halt
                · exact WalkBehind.walk tested named ends
                · exact HaltBehind.halt tested named stopped
              · refine Traces.internalError (fun skips => ?_) fun stops => ?_
                · exact Traces.pure (Walk.unnamed skips tested nameless (Walk.nil _))
                · exact Halt.unnamed tested nameless stops
              · exact Halt.unnamed tested nameless (Or.inl rfl)
            · simp [bitmapClr, inside] at beyond
      · simp only [bitmapTst] at beyond
        split at beyond
        · cases beyond
        next outside =>
          cases beyond
          exact Halt.outside (if_neg outside)

theorem visitTrace_walks (node : Nat) :
    wp (visitTrace h host given answer skipBad node)
      (fun _ log => ∃ bits', Walk h host given skipBad (bitmapLen h.size) h.bitmap [node] log bits')
      (fun reason log => Halt h host given answer skipBad (bitmapLen h.size) h.bitmap [node] reason log)
      [] := by
  have enough := unvisited_few (bitmapLen h.size) h.bitmap
  unfold visitTrace hivexVisitNode
  rw [wp_bind]
  refine wp_seq (wp_mono (visitNode_traces enough []) (fun _ _ walk => walk) ?_) ?_
  · rintro reason _ ⟨new, rfl, halt⟩
    exact halt
  · rintro bits' _ ⟨new, rfl, walk⟩
    exact ⟨bits', walk⟩

end Walk

end Hivex
