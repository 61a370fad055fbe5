import Hivex.RegeditLines

/-! Merging nodes into a hive in which every node's parent is present: paths are
looked up by name, a new path adds one node, and a list of blocks whose parents
come first leaves exactly its blocks. -/
namespace Regedit
open LineText

section Paths

structure NameOk (name : Text) : Prop where
  nonempty : name ≠ []
  noNul : '\x00' ∉ name
  noNewline : '\n' ∉ name
  noBackslash : backslash ∉ name

/-- Names in a path, each after a backslash. -/
def slashed (names : List Text) : Text := names.flatMap (backslash :: ·)

theorem intercalate_slashed (names : List Text) :
    [backslash].intercalate ([] :: names) = slashed names := by
  have general : ∀ first : Text,
      [backslash].intercalate (first :: names) = first ++ slashed names := by
    induction names with
    | nil => simp [slashed]
    | cons name names ih =>
        intro first
        rw [List.intercalate_cons_cons, ih name]
        simp [slashed]
  exact general []

theorem splitOn_slashed {names : List Text} (plain : ∀ name ∈ names, backslash ∉ name) :
    (slashed names).splitOn backslash = [] :: names := by
  rw [← intercalate_slashed]
  apply List.splitOn_intercalate
  · intro name member
    rcases List.mem_cons.mp member with first | later
    · rw [first]
      exact List.not_mem_nil
    · exact plain name later
  · exact List.cons_ne_nil [] names

theorem pathNames_fields {path : Text} {names ending : List Text}
    (fields : path.splitOn backslash = ([] :: names) ++ ending) (empties : ∀ name ∈ ending, name = [])
    (solid : ∀ name ∈ names, name ≠ []) : pathNames path = names := by
  have dropped : split path = ([] :: names).rdropWhile (· == []) := by
    rw [split, fields, List.rdropWhile, List.rdropWhile, List.reverse_append,
      List.dropWhile_append_of_pos]
    intro name member
    simp [empties name (List.mem_reverse.mp member)]
  rcases List.eq_nil_or_concat names with none | ⟨start, last, shape⟩
  · simp [pathNames, dropped, none, List.rdropWhile]
  · have kept : split path = [] :: names := by
      have filled : last ≠ [] := solid last (by simp [shape])
      have whole : [] :: names = ([] :: start) ++ [last] := by simp [shape]
      rw [dropped, whole, List.rdropWhile_concat_neg _ _ _ (by simp [filled])]
    simp [pathNames, kept]

theorem pathNames_slashed {names : List Text} (clean : ∀ name ∈ names, NameOk name) :
    pathNames (slashed names) = names := by
  apply @pathNames_fields _ names []
  · rw [splitOn_slashed fun name member => (clean name member).noBackslash, List.append_nil]
  · intro name member
    contradiction
  · exact fun name member => (clean name member).nonempty

theorem pathNames_slashed_end {names : List Text} (clean : ∀ name ∈ names, NameOk name) :
    pathNames (slashed (names ++ [[]])) = names := by
  apply @pathNames_fields _ names [[]]
  · rw [splitOn_slashed, List.cons_append]
    intro name member
    rcases List.mem_append.mp member with listed | last
    · exact (clean name listed).noBackslash
    · rw [List.mem_singleton.mp last]
      exact List.not_mem_nil
  · exact fun name member => List.mem_singleton.mp member
  · exact fun name member => (clean name member).nonempty

theorem nodeCanonicalPath_cons {name : Text} {parent : Node}
    (clean : ∀ other ∈ parent, NameOk other) :
    nodeCanonicalPath (name :: parent) = slashed (parent.reverse ++ [name]) := by
  induction parent generalizing name with
  | nil => simp [nodeCanonicalPath, slashed]
  | cons other parent ih =>
      have path : nodeCanonicalPath (other :: parent) = slashed (parent.reverse ++ [other]) :=
        ih fun earlier member => clean earlier (List.mem_cons_of_mem other member)
      have filled : other ≠ [] := (clean other (by simp)).nonempty
      have notRoot : slashed (parent.reverse ++ [other]) ≠ [backslash] := by
        intro same
        have long := congrArg List.length same
        have positive : 0 < other.length := List.length_pos_iff.mpr filled
        simp only [slashed, List.flatMap_append, List.length_append, List.flatMap_cons,
          List.flatMap_nil, List.length_cons, List.length_nil] at long
        omega
      rw [nodeCanonicalPath, path, if_neg notRoot]
      simp [slashed]

theorem pathNames_canonical {node : Node} (clean : ∀ name ∈ node, NameOk name) :
    pathNames (nodeCanonicalPath node) = node.reverse := by
  cases node with
  | nil => exact @pathNames_slashed_end [] clean
  | cons name parent =>
      rw [nodeCanonicalPath_cons fun other member => clean other (List.mem_cons_of_mem name member),
        List.reverse_cons]
      apply pathNames_slashed
      intro other member
      exact clean other (by simpa [or_comm] using member)

theorem path_parts {name : Text} {parent : Node} (clean : ∀ other ∈ parent, NameOk other)
    (named : NameOk name) :
    lastName (nodeCanonicalPath (name :: parent)) = name ∧
      parentPath (nodeCanonicalPath (name :: parent)) = slashed (parent.reverse ++ [[]]) := by
  have shape : nodeCanonicalPath (name :: parent) =
      slashed (parent.reverse ++ [[]]) ++ name := by
    rw [nodeCanonicalPath_cons clean]
    simp [slashed]
  have every : ∀ c ∈ name.reverse, decide (c ≠ backslash) = true := by
    intro c member
    apply decide_eq_true
    intro same
    rw [same] at member
    exact named.noBackslash (List.mem_reverse.mp member)
  have before : (slashed (parent.reverse ++ [[]])).reverse =
      backslash :: (slashed parent.reverse).reverse := by
    simp [slashed]
  constructor
  · have taken : (slashed (parent.reverse ++ [[]]) ++ name).rtakeWhile (· ≠ backslash) = name := by
      rw [List.rtakeWhile, List.reverse_append, List.takeWhile_append_of_pos every, before]
      simp
    rw [lastName, shape, taken]
    exact if_neg named.nonempty
  · rw [parentPath, shape, List.rdropWhile, List.reverse_append,
      List.dropWhile_append_of_pos every, before]
    simp [slashed]

end Paths

section Lookup

def fold (node : Node) : Node := node.map lc

/-- A hive whose nodes hang together: no two of them differ in case only, every
node's parent is there, and every name can stand in a path. -/
structure Rooted (h : Hive) : Prop where
  root : ∃ entry ∈ h, entry.node = []
  parents : ∀ entry ∈ h, ∀ name parent, entry.node = name :: parent → ∃ other ∈ h, other.node = parent
  distinct : (h.map fun entry => fold entry.node).Nodup
  clean : ∀ entry ∈ h, ∀ name ∈ entry.node, NameOk name

variable {h : Hive}

theorem Rooted.same_node (rooted : Rooted h) {first second : Entry} (inFirst : first ∈ h)
    (inSecond : second ∈ h) (same : fold first.node = fold second.node) : first = second :=
  List.inj_on_of_nodup_map rooted.distinct inFirst inSecond same

theorem isChild_iff {node other : Node} {name : Text} :
    isChild node name other = true ↔ ∃ listed, other = listed :: node ∧ lc listed = lc name := by
  cases other with
  | nil => simp [isChild]
  | cons listed parent =>
      simp only [isChild, Bool.and_eq_true, beq_iff_eq, List.cons.injEq]
      constructor
      · rintro ⟨same, folded⟩
        exact ⟨listed, ⟨rfl, same⟩, folded⟩
      · rintro ⟨_, ⟨rfl, same⟩, folded⟩
        exact ⟨same, folded⟩

theorem nodeGetChild_some {node child : Node} {name : Text}
    (found : nodeGetChild h node name = some child) :
    ∃ entry ∈ h, entry.node = child ∧ isChild node name child = true := by
  rw [nodeGetChild, Option.map_eq_some_iff] at found
  obtain ⟨entry, listed, rfl⟩ := found
  have passes := List.find?_some listed
  exact ⟨entry, List.mem_of_find?_eq_some listed, rfl, passes⟩

theorem nodeGetChild_none {node : Node} {name : Text}
    (absent : ∀ entry ∈ h, fold entry.node ≠ fold (name :: node)) :
    nodeGetChild h node name = none := by
  rw [nodeGetChild, Option.map_eq_none_iff, List.find?_eq_none]
  intro entry member child
  obtain ⟨listed, shape, folded⟩ := isChild_iff.mp child
  apply absent entry member
  rw [shape]
  simp [fold, folded]

theorem Rooted.nodeGetChild_of_mem (rooted : Rooted h) {entry : Entry} (member : entry ∈ h)
    {name : Text} {parent : Node} (shape : entry.node = name :: parent) :
    nodeGetChild h parent name = some (name :: parent) := by
  cases found : nodeGetChild h parent name with
  | none =>
      rw [nodeGetChild, Option.map_eq_none_iff, List.find?_eq_none] at found
      exact absurd (isChild_iff.mpr ⟨name, shape, rfl⟩) (found entry member)
  | some child =>
      obtain ⟨other, inHive, same, passes⟩ := nodeGetChild_some found
      obtain ⟨listed, split, folded⟩ := isChild_iff.mp passes
      have alike : fold other.node = fold entry.node := by
        rw [same, split, shape]
        simp [fold, folded]
      rw [← same, rooted.same_node inHive member alike, shape]

theorem descend_append {ν : Type} (getChild : ν → Text → Option ν) (start : ν)
    (first second : List Text) :
    descend getChild start (first ++ second) =
      (descend getChild start first).bind fun node => descend getChild node second := by
  induction first generalizing start with
  | nil => rfl
  | cons name first ih =>
      rw [List.cons_append, descend, descend, Option.bind_assoc]
      congr 1
      funext child
      exact ih child

theorem Rooted.descend_mem (rooted : Rooted h) (node : Node) :
    ∀ entry ∈ h, entry.node = node → descend (nodeGetChild h) [] node.reverse = some node := by
  induction node with
  | nil =>
      intro entry member same
      rfl
  | cons name parent ih =>
      intro entry member same
      obtain ⟨other, inHive, above⟩ := rooted.parents entry member name parent same
      rw [List.reverse_cons, descend_append, ih other inHive above]
      simp [descend, rooted.nodeGetChild_of_mem member same]

theorem Rooted.nodeLookup_of_mem (rooted : Rooted h) {entry : Entry} (member : entry ∈ h) {path : Text}
    (names : pathNames path = entry.node.reverse) : nodeLookup h path = some entry.node := by
  rw [nodeLookup, names]
  exact rooted.descend_mem entry.node entry member rfl

theorem Rooted.nodeLookup_fresh (rooted : Rooted h) {above : Entry} (member : above ∈ h) {name : Text}
    (absent : ∀ entry ∈ h, fold entry.node ≠ fold (name :: above.node)) {path : Text}
    (names : pathNames path = above.node.reverse ++ [name]) : nodeLookup h path = none := by
  rw [nodeLookup, names, descend_append, rooted.descend_mem above.node above member rfl]
  simp [descend, nodeGetChild_none absent]

end Lookup

section Merging
variable {h : Hive}

/-- An entry whose node can be added: its parent is there and it is not. -/
structure Attaches (h : Hive) (name : Text) (parent : Node) : Prop where
  above : ∃ entry ∈ h, entry.node = parent
  named : NameOk name
  fresh : ∀ entry ∈ h, fold entry.node ≠ fold (name :: parent)

theorem Rooted.attach (rooted : Rooted h) {name : Text} {parent : Node}
    (attaches : Attaches h name parent) (values : List Value) :
    Rooted (h ++ [⟨name :: parent, values⟩]) := by
  obtain ⟨above, inHive, parentNode⟩ := attaches.above
  constructor
  · obtain ⟨entry, member, root⟩ := rooted.root
    exact ⟨entry, List.mem_append_left _ member, root⟩
  · intro entry member name' parent' shape
    rcases List.mem_append.mp member with earlier | last
    · obtain ⟨other, present, same⟩ := rooted.parents entry earlier name' parent' shape
      exact ⟨other, List.mem_append_left _ present, same⟩
    · rw [List.mem_singleton.mp last] at shape
      obtain ⟨-, rfl⟩ := List.cons.inj shape
      exact ⟨above, List.mem_append_left _ inHive, parentNode⟩
  · rw [List.map_append, List.nodup_append]
    constructor
    · exact rooted.distinct
    · constructor
      · exact List.nodup_singleton _
      · intro earlier listed last single
        obtain ⟨entry, member, rfl⟩ := List.mem_map.mp listed
        rw [List.mem_singleton.mp single]
        exact attaches.fresh entry member
  · intro entry member other listed
    rcases List.mem_append.mp member with earlier | last
    · exact rooted.clean entry earlier other listed
    · rw [List.mem_singleton.mp last] at listed
      rcases List.mem_cons.mp listed with self | higher
      · rw [self]
        exact attaches.named
      · rw [← parentNode] at higher
        exact rooted.clean above inHive other higher

theorem findOrAdd_fresh (rooted : Rooted h) {name : Text} {parent : Node}
    (attaches : Attaches h name parent) :
    findOrAdd h (nodeCanonicalPath (name :: parent)) =
      .ok (name :: parent, h ++ [⟨name :: parent, []⟩]) := by
  obtain ⟨above, inHive, rfl⟩ := attaches.above
  have cleanParent := rooted.clean above inHive
  have clean : ∀ other ∈ name :: above.node, NameOk other := by
    intro other member
    rcases List.mem_cons.mp member with self | higher
    · rw [self]
      exact attaches.named
    · exact cleanParent other higher
  obtain ⟨last, parentText⟩ := path_parts cleanParent attaches.named
  have absent : nodeLookup h (nodeCanonicalPath (name :: above.node)) = none := by
    apply rooted.nodeLookup_fresh inHive attaches.fresh
    rw [pathNames_canonical clean, List.reverse_cons]
  have parentFound : nodeLookup h (slashed (above.node.reverse ++ [[]])) = some above.node := by
    apply rooted.nodeLookup_of_mem inHive
    apply pathNames_slashed_end
    intro other member
    exact cleanParent other (List.mem_reverse.mp member)
  have added : nodeAddChild h above.node name =
      .ok (name :: above.node, h ++ [⟨name :: above.node, []⟩]) := by
    have allowed : ¬(name = [] ∨ ∀ entry ∈ h, entry.node ≠ above.node) := by
      rintro (empty | missing)
      · exact attaches.named.nonempty empty
      · exact missing above inHive rfl
    rw [nodeAddChild, if_neg allowed, nodeGetChild_none attaches.fresh]
    rfl
  simp [findOrAdd, absent, parentText, parentFound, last, added]

theorem mergeNode_fresh (rooted : Rooted h) {name : Text} {parent : Node}
    (attaches : Attaches h name parent) (values : List Value) :
    mergeNode h (nodeCanonicalPath (name :: parent)) values [] =
      .ok (h ++ [⟨name :: parent, values⟩]) := by
  have other : ∀ entry ∈ h, entry.node ≠ name :: parent := by
    intro entry member same
    exact attaches.fresh entry member (by rw [same])
  have none : nodeValues (h ++ [⟨name :: parent, []⟩]) (name :: parent) = [] := by
    have missing : h.find? (fun entry => entry.node == name :: parent) = none := by
      rw [List.find?_eq_none]
      intro entry member same
      exact other entry member (beq_iff_eq.mp same)
    simp [nodeValues, List.find?_append, missing]
  have set : nodeSetValues (h ++ [⟨name :: parent, []⟩]) (name :: parent) values =
      h ++ [⟨name :: parent, values⟩] := by
    have kept : h.map (fun entry => if entry.node = name :: parent then
        { entry with values := values } else entry) = h := by
      have each : ∀ entry ∈ h, (if entry.node = name :: parent then
          { entry with values := values } else entry) = id entry :=
        fun entry member => if_neg (other entry member)
      rw [List.map_congr_left each, List.map_id]
    simp only [nodeSetValues, List.map_append, kept, List.map_cons, List.map_nil, if_true]
  simp [mergeNode, findOrAdd_fresh rooted attaches, none, set]

theorem mergeNode_root (values : List Value) :
    mergeNode emptyHive (nodeCanonicalPath []) values [] = .ok [⟨[], values⟩] := by
  have names : pathNames (nodeCanonicalPath []) = [] := pathNames_canonical (by simp)
  simp [mergeNode, findOrAdd, nodeLookup, names, descend, nodeValues, nodeSetValues, emptyHive]

/-- Entries that can be added one after the other, each parent before its children. -/
inductive Grows : Hive → List Entry → Prop where
  | done (h : Hive) : Grows h []
  | attach {h : Hive} {name : Text} {parent : Node} {values : List Value} {rest : List Entry} :
      Attaches h name parent → Grows (h ++ [⟨name :: parent, values⟩]) rest →
      Grows h (⟨name :: parent, values⟩ :: rest)

theorem importLines_grows (encode : Text → List UInt8) {entries : List Entry}
    (grows : Grows h entries) (rooted : Rooted h)
    (readable : ∀ entry ∈ entries, ¬header <:+: nodeLine entry.node) (lineno : Nat) :
    ((entries.flatMap blockLines).zipIdx lineno).foldlM (importLine encode) (.outer, h) =
      .ok (.outer, h ++ entries) := by
  induction grows generalizing lineno with
  | done h => simp [pure, Except.pure]
  | @attach h name parent values rest attaches grows ih =>
      have block := importLines_block encode (readable ⟨name :: parent, values⟩ (by simp)) h lineno
      have later := ih (rooted.attach attaches values)
        (fun entry member => readable entry (List.mem_cons_of_mem _ member))
        (lineno + (blockLines ⟨name :: parent, values⟩).length)
      rw [mergeNode_fresh rooted attaches values] at block
      rw [List.flatMap_cons, List.zipIdx_append, List.foldlM_append, block]
      simpa [Except.map, bind, Except.bind] using later

theorem rooted_root (values : List Value) : Rooted [⟨[], values⟩] := by
  constructor <;> simp

/-- The root's block and then every other block: the import leaves these blocks. -/
theorem regImport_blocks (encode : Text → List UInt8) {values : List Value} {entries : List Entry}
    (grows : Grows [⟨[], values⟩] entries)
    (free : ∀ entry ∈ ⟨[], values⟩ :: entries, LineFree entry)
    (readable : ∀ entry ∈ ⟨[], values⟩ :: entries, ¬header <:+: nodeLine entry.node) :
    regImport encode ((⟨[], values⟩ :: entries).flatMap printEntry) emptyHive =
      .ok (⟨[], values⟩ :: entries) := by
  have root := importLines_block encode (readable ⟨[], values⟩ (by simp)) emptyHive 1
  have later := importLines_grows encode grows (rooted_root values)
    (fun entry member => readable entry (List.mem_cons_of_mem _ member))
    (1 + (blockLines ⟨[], values⟩).length)
  have whole : ((((⟨[], values⟩ :: entries).flatMap blockLines).zipIdx 1).foldlM (importLine encode)
      (.outer, emptyHive)) = .ok (.outer, ⟨[], values⟩ :: entries) := by
    rw [mergeNode_root values] at root
    rw [List.flatMap_cons, List.zipIdx_append, List.foldlM_append, root]
    simpa [Except.map, bind, Except.bind] using later
  rw [regImport, logicalLines_printed free, whole]
  rfl

end Merging

end Regedit
