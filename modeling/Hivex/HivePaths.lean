import Hivex.FunctionalWalk
import Hivex.HiveVisitNesting

/-! Paths from a node up to the root: `_node_canonical_path` of Regedit.pm and
`print_node_path` of the shell. Both follow parent offsets that nothing checks. -/
namespace Hivex
open ByteMemory Commands FunctionalWalk Relation

abbrev slash : UInt8 := 0x5c

-- The bindings and the shell see a name up to its first NUL.
def nodeName (node : Nat) : Reader (List UInt8) := do
  return (cstr (← hivexNodeName node)).bytes

/-- The canonical path of `node`; `fuel` bounds the depth of the recursion. -/
def nodeCanonicalPath : Nat → Nat → Reader (List UInt8)
  | 0, _ => throw .fuel
  | fuel + 1, node => do
      if node = (← hivexRoot) then return [slash]
      let name ← nodeName node
      let parent ← hivexNodeParent node
      let path ← nodeCanonicalPath fuel parent
      if path = [slash] then return path ++ name else return path ++ slash :: name

/-- A NULL result for every error of a reader. -/
def noneOnError {α : Type} (query : Reader α) : Reader (Option α) := fun v =>
  match query v with
  | .ok value => .ok (some value)
  | .error (.errno _) => .ok none
  | .error stop => .error stop

/-- What `print_node_path` prints; where it reports an error the path stays as it is. -/
def printNodePath : Nat → Nat → Reader (List UInt8)
  | 0, _ => throw .fuel
  | fuel + 1, node => do
      let root ← zeroOnError hivexRoot
      if node = root then return [slash]
      let parent ← zeroOnError (hivexNodeParent node)
      if parent = 0 then return []
      let above ← printNodePath fuel parent
      let above := if parent ≠ root then above ++ [slash] else above
      match ← noneOnError (nodeName node) with
      | none => return above
      | some name => return above ++ name

/-- With enough steps the recursion ends. -/
def Settles {α : Type} (run : Nat → Except Stop α) : Prop := ∃ fuel, run fuel ≠ .error .fuel

section Edges
variable (h : Hive)

/-- `print_node_path` goes on from `node` to `parent`. -/
def Above (node parent : Nat) : Prop :=
  hivexRoot h.view ≠ .ok node ∧ hivexNodeParent node h.view = .ok parent

/-- So does `_node_canonical_path`, which reads the name first. -/
def Named (node parent : Nat) : Prop :=
  (∃ root, hivexRoot h.view = .ok root ∧ node ≠ root) ∧ (∃ name, hivexNodeName node h.view = .ok name) ∧
    hivexNodeParent node h.view = .ok parent

end Edges

section Plain

theorem Plain.hivexRoot : Plain hivexRoot := by
  intro v
  exact (Plain.unlessValid (Plain.pure v.hive.rootoffs)) v

theorem Plain.hivexNodeParent (node : Nat) : Plain (hivexNodeParent node) :=
  (Plain.requireBlock node Nk.id).bind fun _ => (Plain.rdLe _ _ _).bind fun _ =>
    Plain.unlessValid (Plain.pure _)

theorem Plain.nodeName (node : Nat) : Plain (nodeName node) :=
  (Plain.hivexNodeName node).bind fun _ => Plain.pure _

theorem Plain.zeroOnError {query : Reader Nat} (plain : Plain query) : Plain (zeroOnError query) := by
  intro v
  have ends := plain v
  unfold Hivex.zeroOnError
  cases result : query v with
  | ok value => trivial
  | error stop =>
      rw [result] at ends
      cases stop with
      | errno code => trivial
      | _ => exact ends

theorem Plain.noneOnError {α : Type} {query : Reader α} (plain : Plain query) : Plain (noneOnError query) := by
  intro v
  have ends := plain v
  unfold Hivex.noneOnError
  cases result : query v with
  | ok value => trivial
  | error stop =>
      rw [result] at ends
      cases stop with
      | errno code => trivial
      | _ => exact ends

theorem Plain.not_fuel {α : Type} {query : Reader α} (plain : Plain query) (v : View) : query v ≠ .error .fuel := by
  intro stopped
  have ends := plain v
  rw [stopped] at ends
  rcases ends with ⟨code, other⟩ | other <;> cases other

end Plain

section Walking
variable {h : Hive} {node parent root : Nat} {fuel : Nat}

theorem bind_fuel {α β : Type} {first : Except Stop α} {next : α → Except Stop β} (ends : first ≠ .error .fuel) :
    first.bind next = .error .fuel ↔ ∃ value, first = .ok value ∧ next value = .error .fuel := by
  cases first with
  | ok value => simp
  | error stop => simpa using ends

theorem hivexRoot_view :
    hivexRoot h.view = if h.valid h.rootoffs = true then .ok h.rootoffs else .error (.errno .ENOKEY) := by
  show (isValidBlock h.rootoffs h.view).bind _ = _
  rw [isValidBlock_view, ok_bind]
  cases h.valid h.rootoffs <;> rfl

theorem zeroOnError_parent : zeroOnError (hivexNodeParent node) h.view = .ok parent → parent ≠ 0 →
    hivexNodeParent node h.view = .ok parent := by
  unfold zeroOnError
  intro read some
  split at read
  · exact absurd (Except.ok.inj read).symm some
  · exact read

theorem parent_valid (read : hivexNodeParent node h.view = .ok parent) : h.valid parent = true := by
  have ends : Ends (hivexNodeParent node h.view) (fun parent => h.valid parent = true) fun _ => True := by
    refine Ends.after fun _ _ => Ends.after fun word _ => ?_
    exact ends_unlessValid (fun _ => trivial) fun c found => (cell_some found).1
  rw [read] at ends
  exact ends

theorem valid_bounds {off : Nat} (marked : h.valid off = true) : 0x1000 ≤ off ∧ off < h.size := by
  simp only [Hive.valid, decide_eq_true_eq] at marked
  exact ⟨marked.2.1, marked.2.2.1⟩

theorem parent_low (read : hivexNodeParent node h.view = .ok parent) : 0x1000 ≤ node := by
  unfold hivexNodeParent at read
  rw [bind_query, bind_ok_iff] at read
  obtain ⟨_, block, -⟩ := read
  exact requireBlock_low block

/-- The root as the shell sees it, 0 for none. -/
theorem zeroOnError_root : ∃ root, zeroOnError hivexRoot h.view = .ok root ∧
    (hivexRoot h.view = .ok root ∨ root = 0 ∧ hivexRoot h.view = .error (.errno .ENOKEY)) := by
  have read := @hivexRoot_view h
  unfold zeroOnError
  by_cases marked : h.valid h.rootoffs = true
  · rw [if_pos marked] at read
    rw [read]
    exact ⟨_, rfl, Or.inl rfl⟩
  · rw [if_neg marked] at read
    rw [read]
    exact ⟨0, rfl, Or.inr ⟨rfl, rfl⟩⟩

/-- `print_node_path` is busy as long as the print of the next parent is. -/
theorem printNodePath_fuel : printNodePath (fuel + 1) node h.view = .error .fuel ↔
    ∃ parent, Above h node parent ∧ printNodePath fuel parent h.view = .error .fuel := by
  obtain ⟨root, rooted, kind⟩ := @zeroOnError_root h
  rw [printNodePath, bind_query, rooted, ok_bind]
  constructor
  · intro busy
    by_cases top : node = root
    · rw [if_pos top] at busy
      cases busy
    rw [if_neg top, bind_query, bind_fuel ((Plain.hivexNodeParent node).zeroOnError.not_fuel _)] at busy
    obtain ⟨parent, read, busy⟩ := busy
    by_cases none : parent = 0
    · rw [if_pos none] at busy
      cases busy
    rw [if_neg none, bind_query] at busy
    refine ⟨parent, ⟨?_, zeroOnError_parent read none⟩, ?_⟩
    · intro here
      rcases kind with found | ⟨-, absent⟩
      · rw [here] at found
        exact top (Except.ok.inj found)
      · rw [here] at absent
        cases absent
    · by_contra rests
      rw [bind_fuel rests] at busy
      obtain ⟨above, -, busy⟩ := busy
      rw [bind_query, bind_fuel ((Plain.nodeName node).noneOnError.not_fuel _)] at busy
      obtain ⟨name, -, busy⟩ := busy
      cases name <;> cases busy
  · rintro ⟨parent, ⟨notRoot, read⟩, busy⟩
    have low := parent_low read
    have some : parent ≠ 0 := by
      have bounds := valid_bounds (parent_valid read)
      omega
    have top : node ≠ root := by
      rcases kind with found | ⟨rfl, -⟩
      · intro same
        rw [found, same] at notRoot
        exact notRoot rfl
      · omega
    have found : zeroOnError (hivexNodeParent node) h.view = .ok parent := by
      unfold zeroOnError
      rw [read]
    rw [if_neg top, bind_query, found, ok_bind, if_neg some, bind_query, busy]
    rfl

/-- `_node_canonical_path` as long as the path of the next parent is. -/
theorem nodeCanonicalPath_fuel : nodeCanonicalPath (fuel + 1) node h.view = .error .fuel ↔
    ∃ parent, Named h node parent ∧ nodeCanonicalPath fuel parent h.view = .error .fuel := by
  rw [nodeCanonicalPath, bind_query, bind_fuel (Plain.hivexRoot.not_fuel _)]
  constructor
  · rintro ⟨root, rooted, busy⟩
    by_cases top : node = root
    · rw [if_pos top] at busy
      cases busy
    rw [if_neg top, bind_query, bind_fuel ((Plain.nodeName node).not_fuel _)] at busy
    obtain ⟨name, named, busy⟩ := busy
    rw [bind_query, bind_fuel ((Plain.hivexNodeParent node).not_fuel _)] at busy
    obtain ⟨parent, read, busy⟩ := busy
    have full : ∃ name, hivexNodeName node h.view = .ok name := by
      unfold nodeName at named
      rw [bind_query, bind_ok_iff] at named
      obtain ⟨name, read, -⟩ := named
      exact ⟨name, read⟩
    refine ⟨parent, ⟨⟨root, rooted, top⟩, full, read⟩, ?_⟩
    by_contra rests
    rw [bind_query, bind_fuel rests] at busy
    obtain ⟨path, -, busy⟩ := busy
    split at busy <;> cases busy
  · rintro ⟨parent, ⟨⟨root, rooted, top⟩, ⟨name, named⟩, read⟩, busy⟩
    refine ⟨root, rooted, ?_⟩
    have short : nodeName node h.view = .ok (cstr name).bytes := by
      unfold nodeName
      rw [bind_query, named]
      rfl
    rw [if_neg top, bind_query, short, ok_bind, bind_query, read, ok_bind, bind_query, busy]
    rfl

theorem Above.unique : Relator.RightUnique (Above h) := by
  intro node parent parent' first second
  exact Except.ok.inj (first.2.symm.trans second.2)

theorem Named.unique : Relator.RightUnique (Named h) := by
  intro node parent parent' first second
  exact Except.ok.inj (first.2.2.symm.trans second.2.2)

/-- Only the blocks of the image can be reached. -/
theorem reached_finite {R : Nat → Nat → Prop} (valid : ∀ a b, R a b → h.valid b = true) (node : Nat) :
    {m | ReflTransGen R node m}.Finite := by
  apply (Set.finite_Iio h.size).insert node |>.subset
  intro m reached
  rcases ReflTransGen.cases_tail reached with same | ⟨b, -, last⟩
  · exact Or.inl same
  · exact Or.inr (valid_bounds (valid b m last)).2

theorem Above.valid (node parent : Nat) (above : Above h node parent) : h.valid parent = true := parent_valid above.2

theorem Named.valid (node parent : Nat) (named : Named h node parent) : h.valid parent = true :=
  parent_valid named.2.2

/-- The print ends exactly if the parents do not go round in a circle. -/
theorem printNodePath_settles_iff : Settles (fun fuel => printNodePath fuel node h.view) ↔
    ¬∃ m, ReflTransGen (Above h) node m ∧ TransGen (Above h) m m :=
  @rests_iff Nat (Above h) node (fun fuel node => printNodePath fuel node h.view = .error .fuel) Above.unique
    (reached_finite Above.valid node) (fun _ => rfl) fun _ _ => printNodePath_fuel

theorem nodeCanonicalPath_settles_iff : Settles (fun fuel => nodeCanonicalPath fuel node h.view) ↔
    ¬∃ m, ReflTransGen (Named h) node m ∧ TransGen (Named h) m m :=
  @rests_iff Nat (Named h) node (fun fuel node => nodeCanonicalPath fuel node h.view = .error .fuel) Named.unique
    (reached_finite Named.valid node) (fun _ => rfl) fun _ _ => nodeCanonicalPath_fuel

/-- More steps do not take the end away. -/
theorem nodeCanonicalPath_mono {more : Nat} (fewer : fuel ≤ more)
    (ends : nodeCanonicalPath fuel node h.view ≠ .error .fuel) :
    nodeCanonicalPath more node h.view ≠ .error .fuel := fun busy =>
  ends (@busy_of_le Nat (Named h) node (fun fuel node => nodeCanonicalPath fuel node h.view = .error .fuel)
    (fun _ => rfl) (fun _ _ => nodeCanonicalPath_fuel) _ _ fewer busy)

end Walking

/-- The smallest hive with one subkey "kid", whose parent offset is `parent`. -/
def lineage (parent : Nat) : Hive := { minimal with
  addr := [(0x1020 + Nk.nrSubkeys, leBytes 4 1), (0x1020 + Nk.subkeyLf, leBytes 4 0x90),
    (0x1078 + Sk.refcount, leBytes 4 2), (0x1090, leBytes 4 (2 ^ 32 - 16)), (0x1094, Lf.idLh),
    (0x1090 + Lf.nrKeys, leBytes 2 1), (0x1090 + Lf.keyOffset 0, leBytes 4 0xa0),
    (0x10a0, leBytes 4 (2 ^ 32 - 88)), (0x10a4, Nk.id), (0x10a0 + Nk.parent, leBytes 4 parent),
    (0x10a0 + Nk.subkeyLf, leBytes 4 0xffffffff), (0x10a0 + Nk.vallist, leBytes 4 0xffffffff),
    (0x10a0 + Nk.sk, leBytes 4 0x78), (0x10a0 + Nk.classname, leBytes 4 0xffffffff),
    (0x10a0 + Nk.nameLen, leBytes 2 3), (0x10a0 + Nk.name, [0x6b, 0x69, 0x64]),
    (0x10f8, leBytes 4 0xf08)].foldl (fun image (i, bytes) => blit image i bytes) minimalImage }

end Hivex
