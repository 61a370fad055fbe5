import Hivex.HiveVisitWalk

/-! A visit ends, and starts and ends each node at most once. Every node that is
entered costs one bit of the private bitmap, and bits only go away. -/
namespace Hivex

open ByteMemory Commands

def startedNodes (log : List Event) : List Nat := log.filterMap Event.started?

def endedNodes (log : List Event) : List Nat := log.filterMap Event.ended?

/-- No node is started twice, and none is ended twice. -/
def Once (log : List Event) : Prop := (startedNodes log).Nodup ∧ (endedNodes log).Nodup

/-- Distinct nodes whose bits have gone away. -/
structure Spent (bits bits' : Mem) (nodes : List Nat) : Prop where
  shrinks : ∀ bit, PackedBits.test bits' bit = true → PackedBits.test bits bit = true
  distinct : nodes.Nodup
  before : ∀ node ∈ nodes, PackedBits.test bits (node / 4) = true
  after : ∀ node ∈ nodes, PackedBits.test bits' (node / 4) = false

section Spent
variable {bits bits' bits'' : Mem} {nodes more : List Nat} {node : Nat}

theorem Spent.nil (bits : Mem) : Spent bits bits [] where
  shrinks _ marked := marked
  distinct := List.nodup_nil
  before _ member := by cases member
  after _ member := by cases member

theorem clear_shrinks {off bit : Nat} (marked : PackedBits.test (PackedBits.clear bits off) bit = true) :
    bit ≠ off ∧ PackedBits.test bits bit = true := by
  simpa [PackedBits.test_clear] using marked

theorem Spent.append (first : Spent bits bits' nodes) (later : Spent bits' bits'' more) :
    Spent bits bits'' (nodes ++ more) where
  shrinks bit marked := first.shrinks bit (later.shrinks bit marked)
  distinct := by
    refine List.nodup_append.mpr ⟨first.distinct, later.distinct, ?_⟩
    rintro node left _ right rfl
    have gone := first.after node left
    rw [later.before node right] at gone
    cases gone
  before node member := by
    rcases List.mem_append.mp member with left | right
    · exact first.before node left
    · exact first.shrinks _ (later.before node right)
  after node member := by
    rcases List.mem_append.mp member with left | right
    · have gone := first.after node left
      cases still : PackedBits.test bits'' (node / 4) with
      | false => rfl
      | true =>
          rw [later.shrinks _ still] at gone
          cases gone
    · exact later.after node right

theorem Spent.perm (spent : Spent bits bits' nodes) (same : nodes.Perm more) : Spent bits bits' more where
  shrinks := spent.shrinks
  distinct := same.nodup_iff.mp spent.distinct
  before node member := spent.before node (same.mem_iff.mpr member)
  after node member := spent.after node (same.mem_iff.mpr member)

-- Entering a node clears its bit, whether or not the visitor hears of it.
theorem Spent.entered (fresh : PackedBits.test bits (node / 4) = true) (called : nodes = [] ∨ nodes = [node]) :
    Spent bits (PackedBits.clear bits (node / 4)) nodes where
  shrinks _ marked := (clear_shrinks marked).2
  distinct := by rcases called with rfl | rfl <;> simp
  before m member := by
    rcases called with rfl | rfl
    · cases member
    · rwa [List.mem_singleton.mp member]
  after m member := by
    rcases called with rfl | rfl
    · cases member
    · rw [List.mem_singleton.mp member, PackedBits.test_clear]
      simp

end Spent

/-- A way to read one kind of node calls off a trace. -/
structure Marks (given : Callbacks) (pick : Event → Option Nat) : Prop where
  inner : ∀ calls, Inner calls → calls.filterMap pick = []
  node : ∀ node name, (opening given node name).filterMap pick = [] ∧
      ((closing given node name).filterMap pick = [] ∨ (closing given node name).filterMap pick = [node]) ∨
    ((opening given node name).filterMap pick = [node] ∧ (closing given node name).filterMap pick = [])

theorem started_marks (given : Callbacks) : Marks given Event.started? where
  inner calls inner := List.filterMap_eq_nil_iff.mpr fun e member => (inner e member).1
  node node name := by
    cases opened : given.nodeStart <;> cases closed : given.nodeEnd <;>
      simp [opening, closing, opened, closed, Event.started?]

theorem ended_marks (given : Callbacks) : Marks given Event.ended? where
  inner calls inner := List.filterMap_eq_nil_iff.mpr fun e member => (inner e member).2
  node node name := by
    cases opened : given.nodeStart <;> cases closed : given.nodeEnd <;>
      simp [opening, closing, opened, closed, Event.ended?]

section
variable {h : Hive} {host : Host} {given : Callbacks} {answer : Answers} {skipBad : Bool} {len : Nat}
  {pick : Event → Option Nat} {bits bits' : Mem} {nodes : List Nat} {new : List Event}

theorem test_of_fresh {node : Nat} (fresh : bitmapTst bits len node = .ok true) :
    PackedBits.test bits (node / 4) = true := by
  unfold bitmapTst at fresh
  split at fresh
  · exact Except.ok.inj fresh
  · cases fresh

theorem Marks.opened (marks : Marks given pick) (node : Nat) (name : List UInt8) :
    (opening given node name).filterMap pick = [] ∨ (opening given node name).filterMap pick = [node] := by
  obtain ⟨opened, _⟩ | ⟨opened, _⟩ := marks.node node name
  · exact Or.inl opened
  · exact Or.inr opened

-- A node's own call, with those of the nodes below it.
theorem Marks.entered (marks : Marks given pick) {node : Nat} {name : List UInt8} {calls below : List Event}
    (fresh : bitmapTst bits len node = .ok true) (inner : Inner calls)
    (deeper : Spent (PackedBits.clear bits (node / 4)) bits' (below.filterMap pick)) :
    Spent bits bits' ((opening given node name ++ calls ++ below).filterMap pick) ∧
    Spent bits bits'
      ((opening given node name ++ calls ++ below ++ closing given node name).filterMap pick) := by
  have marked := test_of_fresh fresh
  simp only [List.filterMap_append, marks.inner calls inner, List.append_nil]
  constructor
  · exact (Spent.entered marked (marks.opened node name)).append deeper
  · obtain ⟨opened, closed⟩ | ⟨opened, closed⟩ := marks.node node name
    · rw [opened, List.nil_append]
      exact ((Spent.entered marked closed).append deeper).perm List.perm_append_comm
    · rw [opened, closed, List.append_nil]
      exact (Spent.entered marked (Or.inr rfl)).append deeper

theorem Marks.cut (marks : Marks given pick) {node : Nat} {name : List UInt8} {calls : List Event}
    (fresh : bitmapTst bits len node = .ok true) (inner : Inner calls) :
    Spent bits (PackedBits.clear bits (node / 4)) ((opening given node name ++ calls).filterMap pick) := by
  rw [List.filterMap_append, marks.inner calls inner, List.append_nil]
  exact Spent.entered (test_of_fresh fresh) (marks.opened node name)

theorem Walk.spent (marks : Marks given pick) (walk : Walk h host given skipBad len bits nodes new bits') :
    Spent bits bits' (new.filterMap pick) := by
  induction walk with
  | nil bits => exact Spent.nil bits
  | seen _ _ _ ih => exact ih
  | unnamed _ fresh _ _ ih => exact (Spent.entered (test_of_fresh fresh) (Or.inl rfl)).append ih
  | broken _ fresh _ _ inner _ ih =>
      rw [List.filterMap_append]
      exact (marks.cut fresh inner).append ih
  | whole fresh _ _ inner _ _ deeper later =>
      rw [List.filterMap_append]
      exact (marks.entered fresh inner deeper).2.append later

theorem Halt.spent (marks : Marks given pick) {reason : Stop}
    (halt : Halt h host given answer skipBad len bits nodes reason new) :
    ∃ bits', Spent bits bits' (new.filterMap pick) := by
  induction halt with
  | outside => exact ⟨_, Spent.nil _⟩
  | cycle => exact ⟨_, Spent.nil _⟩
  | unnamed => exact ⟨_, Spent.nil _⟩
  | refused fresh _ inner _ => exact ⟨_, marks.cut fresh inner⟩
  | broken fresh _ _ _ inner => exact ⟨_, marks.cut fresh inner⟩
  | deeper fresh _ _ inner _ ih =>
      obtain ⟨bits', below⟩ := ih
      exact ⟨bits', (marks.entered fresh inner below).1⟩
  | unfinished fresh _ _ inner walk _ => exact ⟨_, (marks.entered fresh inner (walk.spent marks)).2⟩
  | later walk _ ih =>
      obtain ⟨bits', rest⟩ := ih
      rw [List.filterMap_append]
      exact ⟨bits', (walk.spent marks).append rest⟩

theorem Halt.not_fuel {reason : Stop} (halt : Halt h host given answer skipBad len bits nodes reason new) :
    reason ≠ .fuel := by
  have returned : ∀ {reason}, Stops skipBad reason → reason ≠ .fuel := by
    rintro reason (rfl | ⟨_, code, rfl⟩) <;> exact Stop.noConfusion
  induction halt with
  | unnamed _ _ stops => exact returned stops
  | broken _ _ _ stops _ => exact returned stops
  | deeper _ _ _ _ _ ih => exact ih
  | later _ _ ih => exact ih
  | _ => exact Stop.noConfusion

end

/-- Whatever the hive holds and the visitor answers, a visit ends, and it starts and ends
each node at most once. -/
theorem visit_once (h : Hive) (host : Host) (given : Callbacks) (answer : Answers) (skipBad : Bool)
    (node : Nat) :
    wp (visitTrace h host given answer skipBad node) (fun _ log => Once log)
      (fun reason log => reason ≠ .fuel ∧ Once log) [] := by
  refine wp_mono (visitTrace_walks node) ?_ ?_
  · rintro _ log ⟨bits', walk⟩
    exact ⟨(walk.spent (started_marks given)).distinct, (walk.spent (ended_marks given)).distinct⟩
  · intro reason log halt
    obtain ⟨_, started⟩ := halt.spent (started_marks given)
    obtain ⟨_, ended⟩ := halt.spent (ended_marks given)
    exact ⟨halt.not_fuel, started.distinct, ended.distinct⟩

end Hivex
