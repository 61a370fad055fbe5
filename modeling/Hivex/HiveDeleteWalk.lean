import Hivex.HiveDeleteNode
import Hivex.HiveAddedChild
import Mathlib.Logic.Relation

/-! The visit that deletes. It erases the nodes of a subtree from below, and a node that
has been erased cannot be visited again, so that success decides which nodes are gone. -/
namespace Hivex

open ByteMemory Commands StoreTyping

/-- `n` is in the subtree below `top`, which is in it. -/
def InSubtree (cells : Cells) : Nat → Nat → Prop := Relation.ReflTransGen fun p k => k ∈ cells.kids p

/-- The records of the keys count the entries in their subkey lists. -/
def Counted (h : Hive) (roles : Roles) : Prop :=
  ∀ n parent c, roles n = some (.nk parent) → h.cell n = some c →
    (h.cell.kids n).length = c.get32 Nk.nrSubkeys

/-- The security record of a key. -/
def Cells.skOf (cells : Cells) (n : Nat) : Nat := ((cells n).map fun c => c.get32 Nk.sk + 0x1000).getD 0

/-- How many of the keys refer to the security record `s`. -/
def Cells.refsTo (cells : Cells) (nodes : List Nat) (s : Nat) : Nat :=
  (nodes.filter fun n => cells.skOf n = s).length

/-- `h₀` has become `h`, in which the keys in `gone` have been erased. -/
structure Walked (roles : Roles) (h₀ h : Hive) (gone : List Nat) : Prop where
  kept : Kept h roles
  keeps : Keeps h₀ h
  distinct : gone.Nodup
  owned : ∀ n ∈ gone, ∀ b, Owns h₀.cell n b → h.cell b = none
  lists : ∀ n ∈ gone, ∀ c, h₀.cell n = some c → c.get32 Nk.nrSubkeys ≠ 0 →
    ∀ ris lfs, HasLists h₀.cell c ris lfs → ∀ b ∈ ris ++ lfs, h.cell b = none
  sub : ∀ b d, roles b ≠ some .sk → h.cell b = some d → h₀.cell b = some d
  others : ∀ b, roles b ≠ some .sk → (∀ n ∈ gone, ¬OwnedBy roles n b) → h.cell b = h₀.cell b
  dead : ∀ s, roles s = some .sk → h₀.cell.refcount s = none → h.cell.refcount s = none
  refs : ∀ s r, roles s = some .sk → h₀.cell.refcount s = some r → h₀.cell.refsTo gone s ≤ r ∧
    h.cell.refcount s = if h₀.cell.refsTo gone s = r ∧ r ≠ 0 then none
      else some (r - h₀.cell.refsTo gone s)

section Walk
variable {roles : Roles} {h₀ h g : Hive} {gone ks : List Nat} {node n b : Nat} {c : Cell} {parent : Option Nat}

theorem Walked.refl (kept : Kept h roles) : Walked roles h h [] := by
  refine ⟨kept, Keeps.refl h, List.nodup_nil, by simp, by simp, fun _ _ _ there => there, fun _ _ _ => rfl,
    fun _ _ none => none, fun s r _ count => ⟨Nat.zero_le r, ?_⟩⟩
  have none : h.cell.refsTo [] s = 0 := rfl
  rw [none, count, if_neg fun both => both.2 both.1.symm]
  rfl

theorem Walked.alive (walked : Walked roles h₀ h gone) (found : h.cell n = some c) : n ∉ gone := by
  intro member
  rw [walked.owned n member n Owns.node] at found
  cases found

-- The blocks of a key that is not gone are as before.
theorem Walked.same (walked : Walked roles h₀ h gone) (notGone : n ∉ gone) (owned : OwnedBy roles n b) :
    h.cell b = h₀.cell b := by
  apply walked.others b owned.not_sk
  intro m member owned'
  rw [owned.unique owned'] at notGone
  exact notGone member

theorem Walked.found (walked : Walked roles h₀ h gone) (tagged : roles n = some (.nk parent))
    (found : h.cell n = some c) : h₀.cell n = some c := by
  rw [← walked.same (walked.alive found) (OwnedBy.nk tagged)]
  exact found

theorem Walked.hasLists {ris lfs : List Nat} (walked : Walked roles h₀ h gone) (typed : Typed h₀ roles)
    (tagged : roles n = some (.nk parent)) (found : h₀.cell n = some c) (notGone : n ∉ gone)
    (lists : HasLists h₀.cell c ris lfs) : HasLists h.cell c ris lfs :=
  lists.frame rfl fun b member => walked.same notGone (lists.owned typed tagged found b member)

theorem Walked.owns (walked : Walked roles h₀ h gone) (typed : Typed h₀ roles)
    (tagged : roles n = some (.nk parent)) (notGone : n ∉ gone) (owns : Owns h₀.cell n b) : Owns h.cell n b := by
  have node : h.cell n = h₀.cell n := walked.same notGone (OwnedBy.nk tagged)
  have same : ∀ {x d}, Owns h₀.cell n x → h₀.cell x = some d → h.cell x = some d := by
    intro x d owns there
    rw [walked.same notGone (owns.owned typed tagged (by rw [there]; rfl))]
    exact there
  cases owns with
  | node => exact Owns.node
  | vallist found proper => exact Owns.vallist (node.trans found) proper
  | value found list member =>
      have proper : ∀ {c : Cell} {l : Cell}, b ∈ l.values (c.get32 Nk.nrValues) → c.get32 Nk.nrValues ≠ 0 := by
        intro c l member none
        rw [none] at member
        cases member
      exact Owns.value (node.trans found) (same (Owns.vallist found (proper member)) list) member
  | @data c l d v found list member there notInline =>
      have proper : c.get32 Nk.nrValues ≠ 0 := by
        intro none
        rw [none] at member
        cases member
      exact Owns.data (node.trans found) (same (Owns.vallist found proper) list) member
        (same (Owns.value found list member) there) notInline
  | classname found named => exact Owns.classname (node.trans found) named

theorem skOf_cell {cells : Cells} (found : cells n = some c) : cells.skOf n = c.get32 Nk.sk + 0x1000 := by
  rw [Cells.skOf, found]
  rfl

theorem refsTo_cons (cells : Cells) (n : Nat) (nodes : List Nat) (s : Nat) :
    cells.refsTo (n :: nodes) s = cells.refsTo nodes s + if cells.skOf n = s then 1 else 0 := by
  unfold Cells.refsTo
  rw [List.filter_cons]
  by_cases same : cells.skOf n = s <;> simp [same]

theorem refcount_none {cells : Cells} : cells.refcount b = none ↔ cells b = none := by
  simp [Cells.refcount]

-- What is gone does not come back.
theorem Erased.stays (erased : Erased roles h g n c) (absent : h.cell b = none) : g.cell b = none := by
  by_cases isSk : roles b = some .sk
  · have count := refcount_none.mpr absent
    rw [← refcount_none]
    by_cases own : b = c.get32 Nk.sk + 0x1000
    · obtain ⟨r, before, -⟩ := erased.own (own ▸ isSk)
      rw [← own, count] at before
      cases before
    · rw [erased.counts b own isSk, count]
  · cases there : g.cell b with
    | none => rfl
    | some d =>
        rw [erased.sub b d isSk there] at absent
        cases absent

/-- One key more has been erased. -/
theorem Walked.erase (walked : Walked roles h₀ h gone) (typed : Typed h₀ roles)
    (tagged : roles n = some (.nk parent)) (found : h.cell n = some c) (erased : Erased roles h g n c) :
    Walked roles h₀ g (n :: gone) := by
  have notGone := walked.alive found
  have found₀ := walked.found tagged found
  constructor
  · exact erased.kept
  · exact walked.keeps.trans erased.keeps
  · exact List.nodup_cons.mpr ⟨notGone, walked.distinct⟩
  · intro m member b owns
    rcases List.mem_cons.mp member with rfl | before
    · exact erased.owned b (walked.owns typed tagged notGone owns)
    · exact erased.stays (walked.owned m before b owns)
  · intro m member d there some_keys ris lfs has b inLists
    rcases List.mem_cons.mp member with rfl | before
    · rw [found₀] at there
      cases there
      exact erased.lists some_keys ris lfs (walked.hasLists typed tagged found₀ notGone has) b inLists
    · exact erased.stays (walked.lists m before d there some_keys ris lfs has b inLists)
  · exact fun b d notSk there => walked.sub b d notSk (erased.sub b d notSk there)
  · intro b notSk apart
    rw [erased.others b notSk (apart n (by simp)), walked.others b notSk fun m member =>
      apart m (List.mem_cons_of_mem _ member)]
  · intro s isSk none
    rw [refcount_none]
    exact erased.stays (refcount_none.mp (walked.dead s isSk none))
  · intro s r isSk count
    obtain ⟨most, left⟩ := walked.refs s r isSk count
    rw [refsTo_cons, skOf_cell found₀]
    by_cases own : c.get32 Nk.sk + 0x1000 = s
    · obtain ⟨q, before, after⟩ := erased.own (own ▸ isSk)
      rw [own, left] at before
      rw [own] at after
      split at before
      · cases before
      · have rest := Option.some.inj before
        rw [if_pos own, after]
        refine ⟨by omega, ?_⟩
        by_cases last : q = 0
        · rw [if_pos last, if_pos ⟨by omega, by omega⟩]
        · rw [if_neg last, if_neg fun both => last (by omega)]
          congr 1
          omega
    · rw [if_neg own, Nat.add_zero, erased.counts s (Ne.symm own) isSk]
      exact ⟨most, left⟩

theorem Typed.listsFit (typed : Typed h roles) (tagged : roles node = some (.nk parent))
    (found : h.cell node = some c) : ListsFit h.cell c := by
  intro r there isRi
  have fits : RiTyped roles node r := by
    rcases (typed.nk tagged found).list with points | points
    · have id := (typed.follow points there).2.id
      rw [isRi] at id
      exact absurd id (by decide)
    · exact (typed.follow points there).2
  refine ⟨fits.len, fun lf member l list _ => ?_⟩
  obtain ⟨i, inside, rfl⟩ := List.mem_map.mp member
  exact (typed.follow (fits.offsets i (List.mem_range.mp inside)) list).2.len

theorem getChildren_of_children (read : hivexNodeChildren node h.view = .ok ks) :
    ∃ blocks, getChildren node false h.view = .ok (ks, blocks) := by
  unfold hivexNodeChildren at read
  rw [bind_query] at read
  cases got : getChildren node false h.view with
  | error reason =>
      rw [got] at read
      cases read
  | ok result =>
      rw [got] at read
      cases read
      exact ⟨result.2, rfl⟩

-- A key in the lists of a node that is in use is a child of the node by its role.
theorem HasLists.childTagged {ris lfs : List Nat} {k : Nat} (lists : HasLists h.cell c ris lfs) (typed : Typed h roles)
    (tagged : roles node = some (.nk parent)) (found : h.cell node = some c)
    (member : k ∈ lfs.flatMap h.cell.keysOf) (alive : (h.cell k).isSome) :
    roles k = some (.nk (some node)) := by
  obtain ⟨b, inLfs, inKeys⟩ := List.mem_flatMap.mp member
  obtain ⟨l, there, -⟩ := lists.leaves b inLfs
  have fits : LfTyped roles node l := typed.cells _ _ _ ((lists.tagged typed tagged found).2 b inLfs) there
  rw [keysOf_cell there] at inKeys
  obtain ⟨i, inside, rfl⟩ := List.mem_map.mp inKeys
  obtain ⟨d, here⟩ := Option.isSome_iff_exists.mp alive
  exact (typed.follow (fits.keys i (List.mem_range.mp inside)) here).1

/-- The children that are read are those in the lists of the record. -/
theorem Typed.children (typed : Typed h roles) (tagged : roles node = some (.nk parent))
    (found : h.cell node = some c) (read : hivexNodeChildren node h.view = .ok ks) :
    c.get32 Nk.nrSubkeys = 0 ∧ ks = [] ∨
      ∃ ris lfs, HasChildren h.cell c ris lfs ∧ ks = lfs.flatMap h.cell.keysOf := by
  obtain ⟨blocks, got⟩ := getChildren_of_children read
  have lists := getChildren_lists typed.sound found (typed.nk tagged found).len (typed.listsFit tagged found)
  rw [got] at lists
  rcases lists with ⟨none, isEmpty⟩ | ⟨ris, lfs, children, isLists⟩
  · cases isEmpty
    exact Or.inl ⟨none, rfl⟩
  · cases isLists
    exact Or.inr ⟨ris, lfs, children, rfl⟩

theorem Typed.children_kids (typed : Typed h roles) (counted : Counted h roles)
    (tagged : roles node = some (.nk parent)) (found : h.cell node = some c)
    (read : hivexNodeChildren node h.view = .ok ks) : ks = h.cell.kids node := by
  rcases typed.children tagged found read with ⟨none, rfl⟩ | ⟨ris, lfs, children, rfl⟩
  · have count := counted node parent c tagged found
    rw [none] at count
    exact (List.length_eq_zero_iff.mp count).symm
  · rw [Cells.kids, children.toHasLists.listsOf typed found]

theorem Typed.childTagged {k : Nat} (typed : Typed h roles) (tagged : roles node = some (.nk parent))
    (found : h.cell node = some c) (read : hivexNodeChildren node h.view = .ok ks) (member : k ∈ ks) :
    roles k = some (.nk (some node)) ∧ (h.cell k).isSome := by
  rcases typed.children tagged found read with ⟨-, none⟩ | ⟨ris, lfs, children, isKids⟩
  · rw [none] at member
    cases member
  · rw [isKids] at member
    have alive := children.alive k member
    exact ⟨children.toHasLists.childTagged typed tagged found member alive, alive⟩

theorem children_none (sound : Sound h) (found : h.cell node = some c) (whole : 28 ≤ c.len) (isNk : c.id = Nk.id)
    (childless : c.get32 Nk.nrSubkeys = 0) : hivexNodeChildren node h.view = .ok [] := by
  unfold hivexNodeChildren
  rw [bind_query, getChildren_none sound found whole isNk childless]
  rfl

theorem HasChildren.children {ris lfs : List Nat} (children : HasChildren h.cell c ris lfs) (sound : Sound h)
    (found : h.cell node = some c) (whole : 80 ≤ c.len) (isNk : c.id = Nk.id) :
    hivexNodeChildren node h.view = .ok (lfs.flatMap h.cell.keysOf) := by
  unfold hivexNodeChildren
  rw [bind_query, children.read sound found whole isNk]
  rfl

/-- The children of a key that is not gone are read as before. -/
theorem Walked.children (walked : Walked roles h₀ h gone) (typed : Typed h₀ roles)
    (tagged : roles node = some (.nk parent)) (found : h.cell node = some c)
    (read : hivexNodeChildren node h.view = .ok ks) : hivexNodeChildren node h₀.view = .ok ks := by
  have found₀ := walked.found tagged found
  have fits := typed.nk tagged found₀
  have notGone := walked.alive found
  rcases walked.kept.toTyped.children tagged found read with ⟨none, rfl⟩ | ⟨ris, lfs, children, rfl⟩
  · exact children_none typed.sound found₀ (by have := fits.len; omega) fits.id none
  · have same : ∀ b ∈ ris ++ lfs, h₀.cell b = h.cell b := fun b member =>
      (walked.same notGone (children.toHasLists.owned walked.kept.toTyped tagged found b member)).symm
    have kids : lfs.flatMap h₀.cell.keysOf = lfs.flatMap h.cell.keysOf :=
      keysOf_frame fun b member => same b (List.mem_append_right _ member)
    have before : HasChildren h₀.cell c ris lfs := by
      refine ⟨children.toHasLists.frame rfl same, ?_, children.few, children.proper, fun k member => ?_⟩
      · rw [kids]
        exact children.count
      · rw [kids] at member
        have alive := children.alive k member
        have role := children.toHasLists.childTagged walked.kept.toTyped tagged found member alive
        obtain ⟨d, there⟩ := Option.isSome_iff_exists.mp alive
        rw [walked.found role there]
        rfl
    rw [← kids]
    exact before.children typed.sound found₀ fits.len fits.id

end Walk

/-- A program that returns true and leaves the handle as it is. -/
def Passes (program : Command Bool) : Prop :=
  ∀ h, wp program (fun b h' => b = true ∧ h' = h) (fun _ _ => True) h

section Values
variable {host : Host} {node value t len : Nat} {key : List UInt8}

theorem Inert.passes {α : Type} {first : Command α} {next : α → Command Bool} (inert : Inert first)
    (continues : ∀ value, Passes (next value)) : Passes (first >>= next) := fun h =>
  wp_seq (inert h) fun value h' same => same ▸ continues value h'

theorem Passes.true : Passes (pure true) := fun _ => ⟨rfl, rfl⟩

theorem Passes.internalError (code : Errno) : Passes (Hivex.internalError false code) := fun _ => trivial

theorem Passes.visitData (expected : Option Nat) : Passes (visitData id false none expected node value key) := by
  refine (Inert.tryRead _).passes fun result => ?_
  cases result with
  | error code => exact Passes.internalError code
  | ok read =>
      dsimp only
      split
      · exact Passes.internalError _
      · exact Passes.true

theorem Passes.visitInvalid (code : Errno) :
    Passes (visitInvalid id deleteVisitor false code node value t len key) := by
  unfold Hivex.visitInvalid
  split
  · exact Passes.internalError code
  · exact Passes.true

theorem Passes.visitInteger (reader : Nat → Reader Int) :
    Passes (visitInteger id none reader node value t len key) :=
  (Inert.tryRead _).passes fun _ => Passes.true

theorem Passes.visitTyped : Passes (visitTyped id host deleteVisitor false node value t len key) := by
  unfold Hivex.visitTyped
  split
  · exact Passes.visitData _
  split
  · refine (Inert.tryRead _).passes fun result => ?_
    cases result with
    | error code => exact Passes.visitInvalid code
    | ok str => exact Passes.true
  split
  · exact Passes.visitInteger _
  split
  · exact Passes.visitInteger _
  split
  · exact Passes.visitData _
  split
  · refine (Inert.tryRead _).passes fun result => ?_
    cases result with
    | error code => exact Passes.visitInvalid code
    | ok strs => exact Passes.true
  · exact Passes.visitData _

theorem Passes.visitValue : Passes (visitValue id host deleteVisitor false node value) := by
  refine (Inert.tryRead _).passes fun result => ?_
  cases result with
  | error code => exact Passes.internalError code
  | ok type =>
      refine (Inert.tryRead _).passes fun result => ?_
      cases result with
      | error code => exact Passes.internalError code
      | ok key => exact Passes.visitTyped

/-- Without callbacks the values of a node are only read. -/
theorem Passes.visitValues (values : List Nat) :
    Passes (visitValues id host deleteVisitor false node values) := by
  induction values with
  | nil => exact Passes.true
  | cons value rest ih =>
      intro h
      refine wp_seq (Passes.visitValue h) fun b h' visited => ?_
      rw [visited.1, visited.2]
      exact ih h

end Values

section Visit
variable {roles : Roles} {h₀ h g : Hive} {gone ks : List Nat} {node n : Nat} {c : Cell} {parent : Option Nat}
  {host : Host} {len : Nat}

theorem inSubtree_iff (cells : Cells) :
    InSubtree cells node n ↔ n = node ∨ ∃ k ∈ cells.kids node, InSubtree cells k n := by
  unfold InSubtree
  rw [Relation.ReflTransGen.cases_head_iff]
  constructor
  · rintro (same | ⟨k, member, below⟩)
    · exact Or.inl same.symm
    · exact Or.inr ⟨k, member, below⟩
  · rintro (same | ⟨k, member, below⟩)
    · exact Or.inl same.symm
    · exact Or.inr ⟨k, member, below⟩

-- A node that is gone cannot be deleted again.
theorem deleteNode_gone {post : Unit → Hive → Prop} (absent : h.cell node = none) :
    wp (deleteNode node) post (fun _ _ => True) h := by
  refine (wp_bind _ _ _).mpr ((wp_look _ _ _).mpr ?_)
  have refused : getChildren node true h.view = .error (.errno .EINVAL) := by
    rw [getChildren, bind_query, requireBlock_none absent]
    rfl
  rw [refused]
  trivial

theorem Walked.deleteNode (walked : Walked roles h₀ h gone) (typed : Typed h₀ roles)
    (tagged : roles node = some (.nk parent)) :
    wp (Hivex.deleteNode node) (fun _ g => Walked roles h₀ g (node :: gone)) (fun _ _ => True) h := by
  cases found : h.cell node with
  | none => exact deleteNode_gone found
  | some c =>
      refine wp_mono (walked.kept.deleteNode tagged found) ?_ fun _ _ _ => trivial
      exact fun _ g erased => walked.erase typed tagged found erased

/-- The visit of one node or of several has erased more keys: those that are below, where
the records count their children. -/
def Erases (roles : Roles) (h₀ : Hive) (gone : List Nat) (below : Nat → Prop) (g : Hive) : Prop :=
  ∃ more, Walked roles h₀ g (more ++ gone) ∧ (Counted h₀ roles → ∀ n, n ∈ more ↔ below n)

theorem Walked.fold {descend : Mem → Nat → Command Mem} (tagged : ∀ k ∈ ks, ∃ p, roles k = some (.nk p))
    (descends : ∀ k p unvisited gone h, roles k = some (.nk p) → Walked roles h₀ h gone →
      wp (descend unvisited k) (fun _ g => Erases roles h₀ gone (InSubtree h₀.cell k) g) (fun _ _ => True) h)
    (unvisited : Mem) (walked : Walked roles h₀ h gone) :
    wp (ks.foldlM descend unvisited)
      (fun _ g => Erases roles h₀ gone (fun n => ∃ k ∈ ks, InSubtree h₀.cell k n) g) (fun _ _ => True) h := by
  induction ks generalizing h gone unvisited with
  | nil => exact ⟨[], walked, fun _ => by simp⟩
  | cons k ks ih =>
      rw [List.foldlM_cons]
      obtain ⟨p, isNk⟩ := tagged k (by simp)
      refine wp_seq (descends k p unvisited gone h isNk walked) fun unvisited' g ⟨first, walked', isFirst⟩ => ?_
      refine wp_mono (ih (fun k member => tagged k (List.mem_cons_of_mem _ member)) unvisited' walked') ?_
        fun _ _ _ => trivial
      rintro _ g' ⟨rest, walked'', isRest⟩
      refine ⟨rest ++ first, by rw [List.append_assoc]; exact walked'', fun counted n => ?_⟩
      dsimp only
      rw [List.mem_append, isRest counted, isFirst counted, List.exists_mem_cons_iff]
      exact or_comm

theorem Inert.look {ρ α : Type} (part : Hive → ρ) (query : Query Stop ρ α) :
    Inert (Commands.look part query : Command α) := by
  intro h
  refine (wp_look _ _ _).mpr ?_
  cases query (part h) with
  | ok value => rfl
  | error reason => trivial

-- Reading a part of the handle that is not tested again.
theorem wp_tryRead {α β : Type} {query : Reader α} {next : Except Errno α → Command β} {post : β → Hive → Prop}
    (fails : ∀ code, wp (next (.error code)) post (fun _ _ => True) h)
    (reads : ∀ value, query h.view = .ok value → wp (next (.ok value)) post (fun _ _ => True) h) :
    wp (tryRead id query >>= next) post (fun _ _ => True) h := by
  refine (wp_bind _ _ _).mpr ((wp_attempt _ _ _).mpr ((wp_look _ _ _).mpr ?_))
  show Ends (query h.view) _ _
  cases read : query h.view with
  | ok value => exact reads value read
  | error reason =>
      cases reason with
      | errno code => exact fails code
      | abort => trivial
      | outside => trivial
      | fuel => trivial
      | dangling => trivial

theorem Walked.visitNode (typed : Typed h₀ roles) (fuel : Nat) :
    ∀ node p unvisited gone h, roles node = some (.nk p) → Walked roles h₀ h gone →
      wp (Hivex.visitNode id host deleteVisitor false len fuel node unvisited)
        (fun _ g => Erases roles h₀ gone (InSubtree h₀.cell node) g) (fun _ _ => True) h := by
  induction fuel with
  | zero => exact fun _ _ _ _ _ _ _ => trivial
  | succ fuel ih =>
      intro node p unvisited gone h tagged walked
      unfold Hivex.visitNode
      refine (Inert.look _ _).then fun fresh => ?_
      cases fresh with
      | false => trivial
      | true =>
      refine (Inert.look _ _).then fun unvisited' => ?_
      refine wp_tryRead (fun code => trivial) fun name named => ?_
      obtain ⟨c, found, isNk⟩ := hivexNodeName_nk walked.kept.sound named
      refine wp_tryRead (fun code => trivial) fun values _ => ?_
      refine wp_seq (Passes.visitValues values h) fun b h' visited => ?_
      rw [visited.1, visited.2]
      refine wp_tryRead (fun code => trivial) fun ks read => ?_
      have kids : ∀ k ∈ ks, ∃ p, roles k = some (.nk p) := fun k member =>
        ⟨_, (walked.kept.toTyped.childTagged tagged found read member).1⟩
      refine wp_seq (walked.fold kids (fun k p unvisited gone h => ih k p unvisited gone h) unvisited') ?_
      rintro unvisited'' g ⟨more, walked', below⟩
      refine wp_seq (walked'.deleteNode typed tagged) fun _ g' walked'' => ?_
      refine ⟨node :: more, walked'', fun counted n => ?_⟩
      have isKids := typed.children_kids counted tagged (walked.found tagged found)
        (walked.children typed tagged found read)
      rw [inSubtree_iff, ← isKids, List.mem_cons, below counted]

end Visit

end Hivex
