import Hivex.HiveVisitOnce
import Hivex.HiveReopen

/-! The start and end calls of a visit. An error exit behind the start of a node skips
its end, and skip-bad mode turns that exit into success. -/
namespace Hivex

open ByteMemory Commands Relation

/-- A part of a trace that opens and closes some of `nodes`, each around the calls for
its own values and for some of its children. -/
inductive Nested (h : Hive) : List Nat → List Event → Prop
  | nil (nodes : List Nat) : Nested h nodes []
  | node {nodes children : List Nat} {node : Nat} {name : List UInt8} {calls below rest : List Event}
      (member : node ∈ nodes) (listed : hivexNodeChildren node h.view = .ok children)
      (inner : Inner calls) (deeper : Nested h children below) (later : Nested h nodes rest) :
      Nested h nodes (.nodeStart node name :: calls ++ below ++ .nodeEnd node name :: rest)

/-- Every callback returns 0. -/
def agreeable : Answers := fun _ _ => true

/-- A visit that returns 0 has started and ended its nodes in a well-bracketed way. -/
def Balanced (h : Hive) (host : Host) (given : Callbacks) (skipBad : Bool) (node : Nat) : Prop :=
  ∀ log, visitTrace h host given agreeable skipBad node [] = .ok () log → Nested h [node] log ∧ Once log

section
variable (h : Hive) (host : Host) (given : Callbacks)

/-- A node whose name reads but whose values, one of them, or whose subkeys do not. -/
def Broken (node : Nat) : Prop :=
  (∃ name, hivexNodeName node h.view = .ok name) ∧
    ∃ code, contents host given node h.view = .error (.errno code)

/-- A node on which a reader leaves the image. -/
def Leaves (node : Nat) : Prop :=
  hivexNodeName node h.view = .error .outside ∨
    (∃ name, hivexNodeName node h.view = .ok name) ∧ contents host given node h.view = .error .outside

/-- The visit goes from a node that reads completely to its children. -/
def Below (node child : Nat) : Prop :=
  (∃ name, hivexNodeName node h.view = .ok name) ∧
    ∃ calls children, contents host given node h.view = .ok (calls, children) ∧ child ∈ children

def Reached : Nat → Nat → Prop := ReflTransGen (Below h host given)

end

section
variable {h : Hive} {host : Host} {given : Callbacks} {answer : Answers} {skipBad : Bool} {len : Nat}
  {bits bits' : Mem} {nodes children : List Nat} {new calls : List Event} {node m : Nat} {name : List UInt8}

theorem children_of_contents (read : contents host given node h.view = .ok (calls, children)) :
    hivexNodeChildren node h.view = .ok children := by
  simp only [contents, bind_query, bind_ok_iff, pure_query, Except.ok.injEq, Prod.mk.injEq] at read
  obtain ⟨_, _, _, _, listed', listed, _, rfl⟩ := read
  exact listed

theorem getSubkey_valid (lf j : Nat) :
    Ends (getSubkey false lf j h.view) (fun child => h.valid child = true) fun _ => True := by
  refine Ends.after fun subkey _ => ?_
  refine ends_unlessValid (fun _ => trivial) fun c found => ?_
  exact (cell_some found).1

-- A child is a valid block, so the visit of it starts inside the bitmap.
theorem hivexNodeChildren_valid :
    Ends (hivexNodeChildren node h.view) (fun children => ∀ child ∈ children, h.valid child = true)
      fun _ => True := by
  have subkeys : ∀ lf nrKeys, Ends (getSubkeys false lf nrKeys h.view)
      (fun children => ∀ child ∈ children, h.valid child = true) fun _ => True := fun lf nrKeys =>
    Ends.mapM_all _ _ _ _ fun j _ => getSubkey_valid lf j
  have none : ∀ child ∈ ([] : List Nat), h.valid child = true := fun child member => by cases member
  suffices Ends (getChildren node false h.view) (fun r => ∀ child ∈ r.1, h.valid child = true) fun _ => True from
    this.seq fun r valid => valid
  refine Ends.after fun _ _ => Ends.after fun nrSubkeys _ => ?_
  dsimp only
  split
  · exact none
  split
  · trivial
  refine Ends.after fun subkeyLf _ => ends_unlessValid (fun _ => trivial) fun c found => ?_
  refine Ends.after fun id _ => ?_
  split
  · refine Ends.after fun nrKeys _ => ?_
    split
    · trivial
    refine Ends.after fun len _ => ?_
    split
    · trivial
    exact (subkeys _ _).seq fun children valid => valid
  split
  · refine Ends.after fun nrOffsets _ => Ends.after fun counted _ => ?_
    split
    · trivial
    refine (Ends.mapM_all _ _ _ (fun children => ∀ child ∈ children, h.valid child = true)
      fun i _ => ?_).seq fun lists valid => ?_
    · exact Ends.after fun lf _ => Ends.after fun nrKeys _ => subkeys lf nrKeys
    · intro child member
      obtain ⟨children, inside, listed⟩ := List.mem_flatten.mp member
      exact valid children inside child listed
  · trivial

theorem below_valid (below : Below h host given node m) : h.valid m = true := by
  obtain ⟨_, calls, children, read, member⟩ := below
  have valid := @hivexNodeChildren_valid h node
  rw [children_of_contents read] at valid
  exact valid m member

-- What is not a valid block has no name.
theorem valid_of_named (named : hivexNodeName node h.view ≠ .error (.errno .EINVAL)) :
    h.valid node = true := by
  cases valid : h.valid node with
  | true => rfl
  | false =>
      refine absurd ?_ named
      simp only [hivexNodeName, requireBlock, bind_query, isValidBlock_view, valid, ok_bind]
      rfl

theorem reached_valid (reached : Reached h host given node m) (valid : h.valid node = true) :
    h.valid m = true := by
  induction reached with
  | refl => exact valid
  | tail _ step _ => exact below_valid step

/-- What a finished walk knows of a node it has entered. -/
def Settled (h : Hive) (host : Host) (given : Callbacks) (bits : Mem) (new : List Event) (m : Nat) : Prop :=
  (∃ code, hivexNodeName m h.view = .error (.errno code)) ∨
  ∃ name, hivexNodeName m h.view = .ok name ∧ (given.nodeStart = true → .nodeStart m name ∈ new) ∧
    ((∃ code, contents host given m h.view = .error (.errno code)) ∨
      ∃ calls children, contents host given m h.view = .ok (calls, children) ∧
        ∀ child ∈ children, PackedBits.test bits (child / 4) = false)

theorem Settled.mono {more : List Event} (settled : Settled h host given bits new m)
    (shrinks : ∀ bit, PackedBits.test bits' bit = true → PackedBits.test bits bit = true)
    (longer : ∀ e ∈ new, e ∈ more) : Settled h host given bits' more m := by
  obtain nameless | ⟨name, named, started, behind⟩ := settled
  · exact Or.inl nameless
  refine Or.inr ⟨name, named, fun called => longer _ (started called), ?_⟩
  obtain failed | ⟨calls, children, read, gone⟩ := behind
  · exact Or.inl failed
  refine Or.inr ⟨calls, children, read, fun child member => ?_⟩
  cases still : PackedBits.test bits' (child / 4) with
  | false => rfl
  | true =>
      rw [← gone child member]
      exact (shrinks _ still).symm ▸ rfl

theorem gone_stays (walk : Walk h host given skipBad len bits nodes new bits') {bit : Nat}
    (gone : PackedBits.test bits bit = false) : PackedBits.test bits' bit = false := by
  cases still : PackedBits.test bits' bit with
  | false => rfl
  | true => rw [walk.shrinks still] at gone; cases gone

theorem gone_of_unset (unset : bitmapTst bits len node = .ok false) :
    PackedBits.test bits (node / 4) = false := by
  unfold bitmapTst at unset
  split at unset
  · exact Except.ok.inj unset
  · cases unset

theorem gone_of_clear (bits : Mem) (off : Nat) : PackedBits.test (PackedBits.clear bits off) off = false := by
  simp [PackedBits.test_clear]

theorem start_opening (given : Callbacks) (node : Nat) (name : List UInt8) (more : List Event)
    (called : given.nodeStart = true) : .nodeStart node name ∈ opening given node name ++ more := by
  simp [opening, called]

-- A walk enters all its nodes, and every node it enters is settled.
theorem Walk.covers (walk : Walk h host given skipBad len bits nodes new bits')
    (aligned : ∀ node ∈ nodes, node % 4 = 0) :
    (∀ node ∈ nodes, PackedBits.test bits' (node / 4) = false) ∧
    ∀ m, m % 4 = 0 → PackedBits.test bits (m / 4) = true → PackedBits.test bits' (m / 4) = false →
      Settled h host given bits' new m := by
  induction walk with
  | nil bits =>
      refine ⟨fun node member => absurd member List.not_mem_nil, fun m _ marked gone => ?_⟩
      rw [marked] at gone
      cases gone
  | seen skips unset later ih =>
      obtain ⟨all, settled⟩ := ih fun n member => aligned n (List.mem_cons_of_mem _ member)
      refine ⟨fun n member => ?_, settled⟩
      rcases List.mem_cons.mp member with rfl | member
      · exact gone_stays later (gone_of_unset unset)
      · exact all n member
  | @unnamed bits bits' node rest new code skips fresh nameless later ih =>
      obtain ⟨all, settled⟩ := ih fun n member => aligned n (List.mem_cons_of_mem _ member)
      refine ⟨fun n member => ?_, fun m flat marked gone => ?_⟩
      · rcases List.mem_cons.mp member with rfl | member
        · exact gone_stays later (gone_of_clear _ _)
        · exact all n member
      · by_cases same : m / 4 = node / 4
        · obtain rfl : m = node := by
            have := aligned node (by simp)
            omega
          exact Or.inl ⟨code, nameless⟩
        · exact settled m flat (by simp [PackedBits.test_clear, same, marked]) gone
  | @broken bits bits' node rest part new name code skips fresh named failed inner later ih =>
      obtain ⟨all, settled⟩ := ih fun n member => aligned n (List.mem_cons_of_mem _ member)
      refine ⟨fun n member => ?_, fun m flat marked gone => ?_⟩
      · rcases List.mem_cons.mp member with rfl | member
        · exact gone_stays later (gone_of_clear _ _)
        · exact all n member
      · by_cases same : m / 4 = node / 4
        · obtain rfl : m = node := by
            have := aligned node (by simp)
            omega
          refine Or.inr ⟨name, named, fun called => ?_, Or.inl ⟨code, failed⟩⟩
          rw [List.append_assoc]
          exact start_opening _ _ _ _ called
        · refine (settled m flat (by simp [PackedBits.test_clear, same, marked]) gone).mono
            (fun _ marked => marked) fun e member => ?_
          exact List.mem_append_right _ member
  | @whole bits bits' bits'' node rest children calls below new name fresh named read inner walk later deeper ih =>
      obtain ⟨all, settled⟩ := ih fun n member => aligned n (List.mem_cons_of_mem _ member)
      obtain ⟨entered, below_settled⟩ := deeper fun child member => by
        have valid := below_valid ⟨⟨name, named⟩, calls, children, read, member⟩
        simp only [Hive.valid, decide_eq_true_eq] at valid
        exact valid.1
      refine ⟨fun n member => ?_, fun m flat marked gone => ?_⟩
      · rcases List.mem_cons.mp member with rfl | member
        · exact gone_stays later (gone_stays walk (gone_of_clear _ _))
        · exact all n member
      · by_cases same : m / 4 = node / 4
        · obtain rfl : m = node := by
            have := aligned node (by simp)
            omega
          refine Or.inr ⟨name, named, fun called => ?_, Or.inr ⟨calls, children, read, fun child member => ?_⟩⟩
          · simp only [List.append_assoc]
            exact start_opening _ _ _ _ called
          · exact gone_stays later (entered child member)
        · cases middle : PackedBits.test bits' (m / 4) with
          | true =>
              refine (settled m flat middle gone).mono (fun _ marked => marked) fun e member => ?_
              exact List.mem_append_right _ member
          | false =>
              refine (below_settled m flat (by simp [PackedBits.test_clear, same, marked]) middle).mono
                (fun _ marked => later.shrinks marked) fun e member => ?_
              simp [member]

-- Only a node that reads completely is ended.
theorem Walk.ended (walk : Walk h host given skipBad len bits nodes new bits')
    (member : .nodeEnd m name ∈ new) : ∃ calls children,
      contents host given m h.view = .ok (calls, children) := by
  have opened : ∀ {node name'}, .nodeEnd m name ∉ opening given node name' := by
    intro node name' member
    cases called : given.nodeStart <;> simp [opening, called] at member
  have called : ∀ {calls}, Inner calls → .nodeEnd m name ∉ calls := fun inner member => by
    cases (inner _ member).2
  induction walk with
  | nil => cases member
  | seen _ _ _ ih => exact ih member
  | unnamed _ _ _ _ ih => exact ih member
  | broken _ _ _ _ inner _ ih =>
      simp only [List.mem_append, opened, called inner, false_or] at member
      exact ih member
  | @whole bits bits' bits'' node rest children calls below new name' _ _ read inner _ _ deeper later =>
      simp only [List.mem_append, opened, called inner, false_or] at member
      rcases member with (inside | closed) | member
      · exact deeper inside
      · cases ending : given.nodeEnd with
        | false => simp [closing, ending] at closed
        | true =>
            obtain ⟨rfl, _⟩ : m = node ∧ name = name' := by simpa [closing, ending] using closed
            exact ⟨calls, children, read⟩
      · exact later member

theorem Nested.closes (nested : Nested h nodes new) (member : .nodeStart m name ∈ new) :
    .nodeEnd m name ∈ new := by
  induction nested with
  | nil => cases member
  | @node nodes children node' name' calls below rest _ _ inner _ _ deeper later =>
      have called : .nodeStart m name ∉ calls := fun member => by
        cases (inner _ member).1
      simp only [List.mem_cons, List.mem_append, called, false_or, reduceCtorEq, List.cons_append] at member ⊢
      grind

theorem Nested.weaken {more : List Nat} (nested : Nested h nodes new) (fewer : nodes ⊆ more) :
    Nested h more new := by
  induction nested with
  | nil nodes => exact Nested.nil more
  | node member listed inner deeper _ _ later =>
      exact Nested.node (fewer member) listed inner deeper (later fewer)

-- Without a broken node every start has its end.
theorem Walk.nested (walk : Walk h host given skipBad len bits nodes new bits')
    (starts : given.nodeStart = true) (ends : given.nodeEnd = true)
    (sound : skipBad = true → ∀ node ∈ nodes, ∀ m, Reached h host given node m → ¬Broken h host given m) :
    Nested h nodes new := by
  induction walk with
  | nil => exact Nested.nil []
  | seen _ _ _ ih =>
      exact (ih fun skips n member => sound skips n (List.mem_cons_of_mem _ member)).weaken
        (List.subset_cons_self _ _)
  | unnamed _ _ _ _ ih =>
      exact (ih fun skips n member => sound skips n (List.mem_cons_of_mem _ member)).weaken
        (List.subset_cons_self _ _)
  | @broken _ _ node _ _ _ name code skips _ named failed _ _ _ =>
      exact absurd ⟨⟨name, named⟩, code, failed⟩
        (sound skips node (List.mem_cons_self) node ReflTransGen.refl)
  | @whole _ _ _ node rest children calls below new name _ named read inner _ _ deeper later =>
      have below := deeper fun skips child member m reached =>
        sound skips node (List.mem_cons_self) m
          (ReflTransGen.head ⟨⟨name, named⟩, calls, children, read, member⟩ reached)
      have rest := (later fun skips n member => sound skips n (List.mem_cons_of_mem _ member)).weaken
        (List.subset_cons_self node _)
      have whole : Nested h _ (.nodeStart node name :: _ ++ _ ++ .nodeEnd node name :: _) :=
        Nested.node List.mem_cons_self (children_of_contents read) inner below rest
      simpa [opening, closing, starts, ends] using whole

theorem agreeable_agrees : ¬Refuses agreeable := by
  rintro ⟨log, e, refused⟩
  cases refused

-- In skip-bad mode only a reader that leaves the image cuts the visit short.
theorem Halt.leaves {reason : Stop}
    (halt : Halt h host given agreeable true (bitmapLen h.size) bits nodes reason new)
    (valid : ∀ node ∈ nodes, h.valid node = true) :
    ∃ node ∈ nodes, ∃ m, Reached h host given node m ∧ Leaves h host given m := by
  have outside : ∀ {reason}, Stops true reason → reason = .outside := by
    rintro reason (rfl | ⟨strict, _⟩)
    · rfl
    · cases strict
  induction halt with
  | @outside bits node rest beyond =>
      have inside := valid node List.mem_cons_self
      simp only [Hive.valid, decide_eq_true_eq] at inside
      have within : node / 32 < bitmapLen h.size := by
        unfold bitmapLen
        omega
      simp [bitmapTst, within] at beyond
  | cycle strict _ => cases strict
  | @unnamed bits node _ _ _ nameless stops =>
      obtain rfl := outside stops
      exact ⟨node, List.mem_cons_self, node, ReflTransGen.refl, Or.inl nameless⟩
  | refused _ _ _ refuses => exact absurd refuses agreeable_agrees
  | @broken bits node _ name _ _ _ named failed stops _ =>
      obtain rfl := outside stops
      exact ⟨node, List.mem_cons_self, node, ReflTransGen.refl, Or.inr ⟨⟨name, named⟩, failed⟩⟩
  | @deeper bits node rest children name calls below reason _ named read _ _ ih =>
      have down : ∀ child ∈ children, Below h host given node child := fun child member =>
        ⟨⟨name, named⟩, calls, children, read, member⟩
      obtain ⟨child, member, m, reached, leaves⟩ := ih fun child member => below_valid (down child member)
      exact ⟨node, List.mem_cons_self, m, ReflTransGen.head (down child member) reached, leaves⟩
  | unfinished _ _ _ _ _ refuses => exact absurd refuses agreeable_agrees
  | later _ _ ih =>
      obtain ⟨n, member, found⟩ := ih fun n member => valid n (List.mem_cons_of_mem _ member)
      exact ⟨n, List.mem_cons_of_mem _ member, found⟩

theorem walk_of_visit {log : List Event}
    (run : visitTrace h host given answer skipBad node [] = .ok () log) :
    ∃ bits', Walk h host given skipBad (bitmapLen h.size) h.bitmap [node] log bits' := by
  have walks := @visitTrace_walks h host given answer skipBad node
  simpa only [wp, run] using walks

-- What a visit that returns 0 has reached, it has entered.
theorem reached_settled {log : List Event} (valid : h.valid node = true)
    (walk : Walk h host given skipBad (bitmapLen h.size) h.bitmap [node] log bits')
    (reached : Reached h host given node m) : Settled h host given bits' log m := by
  have flat : ∀ {b}, h.valid b = true → b % 4 = 0 ∧ PackedBits.test h.bitmap (b / 4) = true := by
    intro b valid
    simp only [Hive.valid, decide_eq_true_eq] at valid
    exact ⟨valid.1, valid.2.2.2⟩
  obtain ⟨entered, settled⟩ := walk.covers fun n member => by
    rw [List.mem_singleton.mp member]
    exact (flat valid).1
  have here : ∀ b, h.valid b = true → PackedBits.test bits' (b / 4) = false →
      Settled h host given bits' log b := fun b valid gone => settled b (flat valid).1 (flat valid).2 gone
  suffices PackedBits.test bits' (m / 4) = false from here m (reached_valid reached valid) this
  induction reached with
  | refl => exact entered node (List.mem_singleton.mpr rfl)
  | @tail b child reached below gone =>
      obtain ⟨⟨name, named⟩, calls, children, read, member⟩ := below
      obtain ⟨code, nameless⟩ | ⟨_, _, _, ⟨code, failed⟩ | ⟨_, _, read', all⟩⟩ :=
        here b (reached_valid reached valid) gone
      · rw [named] at nameless
        cases nameless
      · rw [read] at failed
        cases failed
      · rw [read] at read'
        cases read'
        exact all child member

theorem valid_of_reached (reached : Reached h host given node m)
    (named : hivexNodeName m h.view ≠ .error (.errno .EINVAL)) : h.valid node = true := by
  rcases ReflTransGen.cases_head reached with rfl | ⟨child, ⟨⟨name, start⟩, _⟩, _⟩
  · exact valid_of_named named
  · exact valid_of_named (by rw [start]; exact nofun)

theorem not_leaves {log : List Event} (settled : Settled h host given bits log m) :
    ¬Leaves h host given m := by
  rintro (outside | ⟨⟨name, named⟩, outside⟩)
  · obtain ⟨code, nameless⟩ | ⟨name, named, _⟩ := settled
    · rw [outside] at nameless
      cases nameless
    · rw [outside] at named
      cases named
  · obtain ⟨code, nameless⟩ | ⟨_, _, _, ⟨code, failed⟩ | ⟨_, _, read, _⟩⟩ := settled
    · rw [named] at nameless
      cases nameless
    · rw [outside] at failed
      cases failed
    · rw [outside] at read
      cases read

theorem balanced_of_sound (starts : given.nodeStart = true) (ends : given.nodeEnd = true)
    (sound : skipBad = false ∨ (∃ m, Reached h host given node m ∧ Leaves h host given m) ∨
      ∀ m, Reached h host given node m → ¬Broken h host given m) :
    Balanced h host given skipBad node := by
  intro log run
  obtain ⟨bits', walk⟩ := walk_of_visit run
  have once : Once log :=
    ⟨(walk.spent (started_marks given)).distinct, (walk.spent (ended_marks given)).distinct⟩
  refine ⟨?_, once⟩
  have nested := fun sound => walk.nested starts ends sound
  obtain rfl | ⟨m, reached, leaves⟩ | whole := sound
  · exact nested fun skips => by cases skips
  · have named : hivexNodeName m h.view ≠ .error (.errno .EINVAL) := by
      rcases leaves with outside | ⟨⟨name, named⟩, _⟩
      · rw [outside]
        exact nofun
      · rw [named]
        exact nofun
    exact absurd leaves (not_leaves (reached_settled (valid_of_reached reached named) walk reached))
  · exact nested fun _ n member => by
      rw [List.mem_singleton.mp member]
      exact whole

theorem unbalanced_of_broken (starts : given.nodeStart = true)
    (inside : ∀ m, Reached h host given node m → ¬Leaves h host given m)
    (reached : Reached h host given node m) (broken : Broken h host given m) :
    ¬Balanced h host given true node := by
  obtain ⟨⟨name, named⟩, code, failed⟩ := broken
  have valid := valid_of_reached reached (by rw [named]; exact nofun)
  intro balanced
  have walks := @visitTrace_walks h host given agreeable true node
  cases run : visitTrace h host given agreeable true node [] with
  | error reason log =>
      have halt : Halt h host given agreeable true (bitmapLen h.size) h.bitmap [node] reason log := by
        simpa only [wp, run] using walks
      obtain ⟨n, member, m', reached', leaves⟩ := halt.leaves fun n member => by
        rwa [List.mem_singleton.mp member]
      rw [List.mem_singleton.mp member] at reached'
      exact inside m' reached' leaves
  | ok _ log =>
      obtain ⟨bits', walk⟩ := walk_of_visit run
      have settled := reached_settled valid walk reached
      obtain ⟨_, nameless⟩ | ⟨name', named', started, _⟩ := settled
      · rw [named] at nameless
        cases nameless
      have closed := (balanced log run).1.closes (started starts)
      obtain ⟨calls, children, read⟩ := walk.ended closed
      rw [read] at failed
      cases failed

end

/-- All functions but `value_any`. -/
def typedCallbacks : Callbacks where
  nodeStart := true
  nodeEnd := true
  valueString := true
  valueMultipleStrings := true
  valueStringInvalidUtf16 := true
  valueDword := true
  valueQword := true
  valueBinary := true
  valueNone := true
  valueOther := true
  valueAny := false

/-- A host that grants memory and converts no string. -/
def plainHost : Host where
  realloc _ := true
  iconv _ := .error .EILSEQ

/-- The smallest hive with a root that counts one value and has no value list. -/
def listless : Hive :=
  { minimal with addr := blit minimalImage (0x1020 + Nk.nrValues) (leBytes 4 1) }

theorem listless_addr {i : Nat} (other : i < 0x1048 ∨ 0x104c ≤ i) : listless.addr i = minimal.addr i :=
  blit_outside _ _ _ _ other

theorem listless_laidOut : LaidOut listless [⟨0x1000, [0x1020, 0x1078, 0x1090]⟩] := by
  have words : ∀ b ∈ allBlocks [⟨0x1000, [0x1020, 0x1078, 0x1090]⟩], listless.blockWord b = minimal.blockWord b := by
    intro b member
    simp only [allBlocks, List.flatMap_cons, List.flatMap_nil, List.append_nil, List.mem_cons,
      List.not_mem_nil, or_false] at member
    exact getLe_congr _ _ _ _ _ fun k small => listless_addr (by omega)
  refine minimal_laidOut.of_headers rfl rfl (fun p member k small => ?_) (fun b member => ?_)
    fun off aligned within => ?_
  · rw [List.mem_singleton.mp member]
    exact listless_addr (by simp only; omega)
  · rw [Hive.blockLength, words b member, Hive.blockLength]
  · refine (minimal_laidOut.bits off aligned within).trans (and_congr_right fun member => ?_)
    rw [Hive.blockUsed, Hive.blockUsed, words off member]

theorem listless_committable : Committable listless where
  magic := by decide
  major := by decide
  rootoffs := by decide
  root := ⟨listless_laidOut.valid_iff.mpr ⟨by decide, by decide⟩, by decide⟩
  layout := ⟨_, listless_laidOut⟩
  small := by decide

theorem listless_name : hivexNodeName 0x1020 listless.view = .ok [0x72, 0x6f, 0x6f, 0x74] := rfl

theorem listless_values : hivexNodeValues 0x1020 listless.view = .error (.errno .EFAULT) := rfl

end Hivex
