import Hivex.RegeditStore
import Hivex.Commands

/-! Export and import of whole trees. The exporter's text is the blocks of a
sorted tree, whose parents come first. The importer's outer state drops a line
that holds the header text, so a key with that text in its name never arrives. -/
namespace Regedit
open LineText

section Blocks

mutual
def Tree.blocks (node : Node) : Tree → List Entry
  | .node _ values children =>
      ⟨node, values.mergeSort fun a b => a.key ≤ b.key⟩ ::
        ((childBlocks node children).mergeSort fun a b => a.1 ≤ b.1).flatMap Prod.snd

def childBlocks (node : Node) : List Tree → List (Text × List Entry)
  | [] => []
  | child :: rest => (child.name, child.blocks (child.name :: node)) :: childBlocks node rest
end

theorem childBlocks_eq (node : Node) (children : List Tree) :
    childBlocks node children =
      children.map fun child => (child.name, child.blocks (child.name :: node)) := by
  induction children with
  | nil => rfl
  | cons child rest ih => rw [childBlocks, ih, List.map_cons]

theorem entriesUnder_eq (node : Node) (children : List Tree) :
    entriesUnder node children =
      children.flatMap fun child => child.entries (child.name :: node) := by
  induction children with
  | nil => rfl
  | cons child rest ih => rw [entriesUnder, ih, List.flatMap_cons]

mutual
theorem regExportNode_eq (node : Node) :
    ∀ tree : Tree, regExportNode {} node tree = (tree.blocks node).flatMap printEntry
  | .node name values children => by
      have printed := exportedChildren_eq node children
      have sorted : (exportedChildren {} node children).mergeSort (fun a b => a.1 ≤ b.1) =
          ((childBlocks node children).mergeSort fun a b => a.1 ≤ b.1).map
            fun child => (child.1, child.2.flatMap printEntry) := by
        rw [printed, List.map_mergeSort]
        exact fun first _ second _ => rfl
      rw [regExportNode, Tree.blocks, printNode_eq, sorted, List.flatMap_cons, List.flatMap_map,
        List.flatMap_assoc]

theorem exportedChildren_eq (node : Node) :
    ∀ children : List Tree, exportedChildren {} node children =
      (childBlocks node children).map fun child => (child.1, child.2.flatMap printEntry)
  | [] => rfl
  | child :: rest => by
      rw [exportedChildren, childBlocks, List.map_cons, regExportNode_eq, exportedChildren_eq node rest]
end

/-- What a hive holds: its nodes, each with its values, in no order. -/
def content (h : Hive) : Multiset (Node × Multiset Value) :=
  Multiset.ofList (h.map fun entry => (entry.node, Multiset.ofList entry.values))

theorem content_cons (entry : Entry) (h : Hive) :
    content (entry :: h) = (entry.node, Multiset.ofList entry.values) ::ₘ content h := by
  simp [content]

theorem content_append (first second : Hive) :
    content (first ++ second) = content first + content second := by
  simp [content]

theorem content_perm {first second : Hive} (perm : first.Perm second) :
    content first = content second :=
  Multiset.coe_eq_coe.mpr (perm.map _)

mutual
theorem content_blocks (node : Node) :
    ∀ tree : Tree, content (tree.blocks node) = content (tree.entries node)
  | .node name values children => by
      have sortedValues : Multiset.ofList (values.mergeSort fun a b => a.key ≤ b.key) =
          Multiset.ofList values :=
        Multiset.coe_eq_coe.mpr (List.mergeSort_perm values _)
      have sortedChildren := (List.mergeSort_perm (childBlocks node children)
        fun a b => a.1 ≤ b.1).flatMap_right Prod.snd
      rw [Tree.blocks, Tree.entries, content_cons, content_cons, sortedValues,
        content_perm sortedChildren, content_childBlocks node children]

theorem content_childBlocks (node : Node) :
    ∀ children : List Tree,
      content ((childBlocks node children).flatMap Prod.snd) = content (entriesUnder node children)
  | [] => rfl
  | child :: rest => by
      rw [childBlocks, entriesUnder, List.flatMap_cons, content_append, content_append,
        content_blocks, content_childBlocks node rest]
end

theorem mem_of_content {first second : Hive} (same : content first = content second) {entry : Entry}
    (member : entry ∈ first) :
    ∃ other ∈ second, other.node = entry.node ∧ other.values.Perm entry.values := by
  have held : (entry.node, Multiset.ofList entry.values) ∈ content second := by
    rw [← same]
    exact Multiset.mem_coe.mpr (List.mem_map.mpr ⟨entry, member, rfl⟩)
  obtain ⟨other, listed, alike⟩ := List.mem_map.mp (Multiset.mem_coe.mp held)
  obtain ⟨sameNode, sameValues⟩ := Prod.mk.inj alike
  exact ⟨other, listed, sameNode, Multiset.coe_eq_coe.mp sameValues⟩

end Blocks

section Exportable

structure KeyOk (key : Text) : Prop where
  noNul : '\x00' ∉ key
  noNewline : '\n' ∉ key

/-- A tree whose names the format can hold; the root's own name is never written. -/
inductive Exportable : Tree → Prop where
  | node {name : Text} {values : List Value} {children : List Tree} :
      (∀ value ∈ values, KeyOk value.key) →
      (children.map fun child => lc child.name).Nodup →
      (∀ child ∈ children, NameOk child.name) →
      (∀ child ∈ children, Exportable child) →
      Exportable (.node name values children)

structure EntryOk (entry : Entry) : Prop where
  names : ∀ name ∈ entry.node, NameOk name
  keys : ∀ value ∈ entry.values, KeyOk value.key

theorem Exportable.entries_ok {tree : Tree} (exportable : Exportable tree) :
    ∀ node : Node, (∀ name ∈ node, NameOk name) → ∀ entry ∈ tree.entries node, EntryOk entry := by
  induction exportable with
  | @node name values children keys distinct named below ih =>
      intro node clean entry member
      rw [Tree.entries, entriesUnder_eq, List.mem_cons, List.mem_flatMap] at member
      rcases member with self | ⟨child, listed, under⟩
      · rw [self]
        exact ⟨clean, keys⟩
      · apply ih child listed (child.name :: node) _ entry under
        intro other higher
        rcases List.mem_cons.mp higher with own | above
        · rw [own]
          exact named child listed
        · exact clean other above

theorem Exportable.entries_under {tree : Tree} (exportable : Exportable tree) :
    ∀ node : Node, ∀ entry ∈ tree.entries node, node <:+ entry.node := by
  induction exportable with
  | @node name values children keys distinct named below ih =>
      intro node entry member
      rw [Tree.entries, entriesUnder_eq, List.mem_cons, List.mem_flatMap] at member
      rcases member with self | ⟨child, listed, under⟩
      · rw [self]
      · exact (List.suffix_cons child.name node).trans (ih child listed (child.name :: node) entry under)

theorem Exportable.blocks_under {tree : Tree} (exportable : Exportable tree) {node : Node}
    {entry : Entry} (member : entry ∈ tree.blocks node) : node <:+ entry.node := by
  obtain ⟨other, listed, same, -⟩ := mem_of_content (content_blocks node tree) member
  rw [← same]
  exact exportable.entries_under node other listed

theorem Exportable.blocks_ok {tree : Tree} (exportable : Exportable tree) {entry : Entry}
    (member : entry ∈ tree.blocks []) : EntryOk entry := by
  obtain ⟨other, listed, same, values⟩ := mem_of_content (content_blocks [] tree) member
  have ok := exportable.entries_ok [] (by simp) other listed
  constructor
  · rw [← same]
    exact ok.names
  · intro value inside
    exact ok.keys value (values.mem_iff.mpr inside)

/-- No node of the hive lies at or below `node`, whatever the case of its names. -/
def Clear (h : Hive) (node : Node) : Prop := ∀ entry ∈ h, ¬fold node <:+ fold entry.node

-- What it takes to write a subtree after a hive that has its parent.
def Plants (node : Node) (blocks : List Entry) : Prop :=
  ∀ (h : Hive) (rest : List Entry), (∃ entry ∈ h, entry.node = node.tail) → Clear h node →
    Grows (h ++ blocks) rest → Grows h (blocks ++ rest)

theorem fold_suffix_apart {node : Node} {first second : Text} {below : Node}
    (under : first :: node <:+ below) (apart : lc first ≠ lc second) :
    ¬fold (second :: node) <:+ fold below := by
  rintro within
  have folded : fold (first :: node) <:+ fold below := under.map lc
  have sameLength : (fold (first :: node)).length = (fold (second :: node)).length := by
    simp [fold]
  have same := (List.suffix_of_suffix_length_le folded within (le_of_eq sameLength)).eq_of_length
    sameLength
  simp [fold, apart] at same

/-- Siblings, in any order, can be written one after the other. -/
theorem grows_siblings {node : Node} {siblings : List (Text × List Entry)}
    (distinct : (siblings.map fun sibling => lc sibling.1).Nodup)
    (plants : ∀ sibling ∈ siblings, Plants (sibling.1 :: node) sibling.2)
    (under : ∀ sibling ∈ siblings, ∀ entry ∈ sibling.2, sibling.1 :: node <:+ entry.node) :
    ∀ (h : Hive) (rest : List Entry), (∃ entry ∈ h, entry.node = node) →
      (∀ sibling ∈ siblings, Clear h (sibling.1 :: node)) →
      Grows (h ++ siblings.flatMap Prod.snd) rest → Grows h (siblings.flatMap Prod.snd ++ rest) := by
  induction siblings with
  | nil =>
      intro h rest parent clear grows
      simpa using grows
  | cons first siblings ih =>
      intro h rest parent clear grows
      obtain ⟨apart, distinctRest⟩ := List.nodup_cons.mp distinct
      rw [List.flatMap_cons, List.append_assoc]
      apply plants first (by simp) h _ parent (clear first (by simp))
      apply ih distinctRest (fun sibling listed => plants sibling (List.mem_cons_of_mem _ listed))
        fun sibling listed => under sibling (List.mem_cons_of_mem _ listed)
      · obtain ⟨entry, member, same⟩ := parent
        exact ⟨entry, List.mem_append_left _ member, same⟩
      · intro sibling listed entry member
        rcases List.mem_append.mp member with earlier | fromFirst
        · exact clear sibling (List.mem_cons_of_mem _ listed) entry earlier
        · apply fold_suffix_apart (under first (by simp) entry fromFirst)
          intro same
          exact apart (List.mem_map.mpr ⟨sibling, listed, same.symm⟩)
      · rw [List.flatMap_cons, ← List.append_assoc] at grows
        exact grows

theorem Exportable.grows_children {name : Text} {values : List Value} {children : List Tree}
    (exportable : Exportable (.node name values children)) (node : Node)
    (plants : ∀ child ∈ children, Plants (child.name :: node) (child.blocks (child.name :: node)))
    (h : Hive) (rest : List Entry) (parent : ∃ entry ∈ h, entry.node = node)
    (clear : ∀ child ∈ children, Clear h (child.name :: node)) :
    let blocks := ((childBlocks node children).mergeSort fun a b => a.1 ≤ b.1).flatMap Prod.snd
    Grows (h ++ blocks) rest → Grows h (blocks ++ rest) := by
  cases exportable with
  | node keys distinct named below =>
  have perm := List.mergeSort_perm (childBlocks node children) fun a b => a.1 ≤ b.1
  have from_child : ∀ sibling ∈ (childBlocks node children).mergeSort fun a b => a.1 ≤ b.1,
      ∃ child ∈ children, sibling = (child.name, child.blocks (child.name :: node)) := by
    intro sibling listed
    have member := perm.mem_iff.mp listed
    rw [childBlocks_eq] at member
    obtain ⟨child, inChildren, same⟩ := List.mem_map.mp member
    exact ⟨child, inChildren, same.symm⟩
  apply grows_siblings _ _ _ h rest parent
  · intro sibling listed
    obtain ⟨child, inChildren, rfl⟩ := from_child sibling listed
    exact clear child inChildren
  · rw [(perm.map _).nodup_iff, childBlocks_eq, List.map_map]
    exact distinct
  · intro sibling listed
    obtain ⟨child, inChildren, rfl⟩ := from_child sibling listed
    exact plants child inChildren
  · intro sibling listed entry member
    obtain ⟨child, inChildren, rfl⟩ := from_child sibling listed
    exact (below child inChildren).blocks_under member

-- Below a node just added nothing is in the way of its children.
theorem Clear.child {h : Hive} {node : Node} (clear : Clear h node) (values : List Value)
    (name : Text) : Clear (h ++ [⟨node, values⟩]) (name :: node) := by
  intro entry member within
  rcases List.mem_append.mp member with earlier | last
  · exact clear entry earlier ((List.suffix_cons (lc name) (fold node)).trans within)
  · rw [List.mem_singleton.mp last] at within
    have long := within.length_le
    simp [fold] at long

theorem Exportable.plants {tree : Tree} (exportable : Exportable tree) :
    ∀ (name : Text) (parent : Node), NameOk name →
      Plants (name :: parent) (tree.blocks (name :: parent)) := by
  induction exportable with
  | @node own values children keys distinct named below ih =>
      intro name parent ok h rest above clear grows
      rw [Tree.blocks] at grows ⊢
      apply Grows.attach
      · constructor
        · exact above
        · exact ok
        · intro entry member same
          exact clear entry member (by rw [same])
      · apply (Exportable.node keys distinct named below : Exportable (.node own values children)).grows_children
        · intro child listed
          exact ih child listed child.name (name :: parent) (named child listed)
        · exact ⟨⟨name :: parent, _⟩, List.mem_append_right _ List.mem_cons_self, rfl⟩
        · intro child listed
          exact clear.child _ child.name
        · simpa using grows

/-- The blocks of a tree below its root can be merged in the order they are written. -/
theorem Exportable.grows_root {name : Text} {values : List Value} {children : List Tree}
    (exportable : Exportable (.node name values children)) (sorted : List Value) :
    Grows [⟨[], sorted⟩]
      (((childBlocks [] children).mergeSort fun a b => a.1 ≤ b.1).flatMap Prod.snd) := by
  have each : ∀ child ∈ children, NameOk child.name ∧ Exportable child := by
    cases exportable with
    | node keys distinct named below => exact fun child listed => ⟨named child listed, below child listed⟩
  rw [← List.append_nil (List.flatMap _ _)]
  apply exportable.grows_children
  · intro child listed
    exact (each child listed).2.plants child.name [] (each child listed).1
  · exact ⟨⟨[], sorted⟩, List.mem_cons_self, rfl⟩
  · intro child listed entry member within
    rw [List.mem_singleton.mp member] at within
    have long := within.length_le
    simp [fold] at long
  · exact Grows.done _

end Exportable

section Header

/-- No name below the root holds the header text. -/
def HeaderFree (h : Hive) : Prop := ∀ entry ∈ h, ∀ name ∈ entry.node, ¬header <:+: name

theorem infix_of_split {part before behind : Text} {c : Char} (outside : c ∉ part)
    (filled : part ≠ []) (within : part <:+: before ++ c :: behind) :
    part <:+: before ∨ part <:+: behind := by
  obtain ⟨start, ending, shape⟩ := within
  rw [List.append_assoc] at shape
  rcases List.append_eq_append_iff.mp shape with ⟨middle, split, rest⟩ | ⟨middle, split, rest⟩
  · left
    rcases List.append_eq_append_iff.mp rest with ⟨later, inner, -⟩ | ⟨later, inner, outer⟩
    · exact ⟨start, later, by rw [split, inner, List.append_assoc]⟩
    · cases later with
      | nil => exact ⟨start, [], by rw [split, inner]; simp⟩
      | cons d later =>
          obtain ⟨rfl, -⟩ := List.cons.inj outer
          exact absurd (by simp [inner]) outside
  · cases middle with
    | nil =>
        cases part with
        | nil => contradiction
        | cons d part =>
            obtain ⟨rfl, -⟩ := List.cons.inj rest
            exact absurd List.mem_cons_self outside
    | cons d middle =>
        right
        obtain ⟨-, tail⟩ := List.cons.inj rest
        exact ⟨middle, ending, by simp [tail]⟩

theorem header_spec : header ≠ [] ∧ '[' ∉ header ∧ ']' ∉ header ∧ backslash ∉ header := by
  decide

theorem header_in_path {node : Node} (within : header <:+: nodeCanonicalPath node) :
    ∃ name ∈ node, header <:+: name := by
  obtain ⟨filled, -, -, notBackslash⟩ := header_spec
  induction node with
  | nil =>
      rcases @infix_of_split header [] [] backslash notBackslash filled within with left | right
      · exact absurd (List.infix_nil.mp left) filled
      · exact absurd (List.infix_nil.mp right) filled
  | cons name parent ih =>
      have cut : ∀ before : Text, header <:+: before ++ backslash :: name →
          header <:+: before ∨ header <:+: name :=
        fun before => infix_of_split notBackslash filled
      have parts : header <:+: nodeCanonicalPath parent ∨ header <:+: name := by
        simp only [nodeCanonicalPath] at within
        split at within
        · next root =>
            rw [root] at within
            rcases cut [] within with left | right
            · exact absurd (List.infix_nil.mp left) filled
            · exact Or.inr right
        · exact cut (nodeCanonicalPath parent) within
      rcases parts with above | own
      · obtain ⟨other, listed, inside⟩ := ih above
        exact ⟨other, List.mem_cons_of_mem name listed, inside⟩
      · exact ⟨name, List.mem_cons_self, own⟩

theorem header_in_nodeLine {node : Node} (within : header <:+: nodeLine node) :
    ∃ name ∈ node, header <:+: name := by
  obtain ⟨filled, notOpen, notClose, -⟩ := header_spec
  have inner : header <:+: nodeCanonicalPath node ++ [']'] := by
    rcases @infix_of_split header [] _ '[' notOpen filled within with left | right
    · exact absurd (List.infix_nil.mp left) filled
    · exact right
  rcases infix_of_split notClose filled inner with path | ending
  · exact header_in_path path
  · exact absurd (List.infix_nil.mp ending) filled

/-- What an import has read so far: its hive, and the node it is in. -/
def StateFree : State × Hive → Prop
  | (.outer, h) => HeaderFree h
  | (.inner newnode _ _, h) => ¬header <:+: newnode ∧ HeaderFree h

theorem lastName_within (path : Text) : lastName path <:+: path := by
  simp only [lastName]
  split
  · exact List.infix_rfl
  · exact (List.rtakeWhile_suffix _ path).isInfix

theorem HeaderFree.findOrAdd {h h' : Hive} {path : Text} {node : Node} (free : HeaderFree h)
    (readable : ¬header <:+: path) (found : Regedit.findOrAdd h path = .ok (node, h')) :
    HeaderFree h' := by
  unfold Regedit.findOrAdd at found
  split at found
  · obtain ⟨-, rfl⟩ := Prod.mk.inj (Except.ok.inj found)
    exact free
  · split at found
    · next parent looked =>
        unfold nodeAddChild at found
        split at found
        · contradiction
        · next allowed =>
            split at found
            · contradiction
            · obtain ⟨-, rfl⟩ := Prod.mk.inj (Except.ok.inj found)
              obtain ⟨-, present⟩ := not_or.mp allowed
              push Not at present
              obtain ⟨above, inHive, same⟩ := present
              intro entry member name listed
              rcases List.mem_append.mp member with earlier | last
              · exact free entry earlier name listed
              · rw [List.mem_singleton.mp last] at listed
                rcases List.mem_cons.mp listed with own | higher
                · intro within
                  rw [own] at within
                  exact readable (within.trans (lastName_within path))
                · rw [← same] at higher
                  exact free above inHive name higher
    · contradiction

theorem HeaderFree.mergeNode {h h' : Hive} {path : Text} {newvalues : List Value}
    {delvalues : List Text} (free : HeaderFree h) (readable : ¬header <:+: path)
    (merged : Regedit.mergeNode h path newvalues delvalues = .ok h') : HeaderFree h' := by
  obtain ⟨⟨node, grown⟩, found, set⟩ := Commands.bind_ok_iff.mp merged
  have grownFree := free.findOrAdd readable found
  obtain rfl := Except.ok.inj set
  intro entry member name listed
  obtain ⟨old, inGrown, rfl⟩ := List.mem_map.mp member
  apply grownFree old inGrown name
  split at listed
  · exact listed
  · exact listed

theorem HeaderFree.deleteNode {h h' : Hive} {path : Text} (free : HeaderFree h)
    (deleted : Regedit.deleteNode h path = .ok h') : HeaderFree h' := by
  unfold Regedit.deleteNode at deleted
  split at deleted
  · rw [← Except.ok.inj deleted]
    exact free
  · contradiction
  · rw [← Except.ok.inj deleted]
    intro entry member
    exact free entry (List.mem_filter.mp member).1

theorem bracketed_within {opening line inside : Text} (found : bracketed opening line = some inside) :
    inside <:+: line := by
  unfold bracketed at found
  split at found
  · contradiction
  · next text after =>
      split at found
      · rw [← Option.some.inj found]
        have within : text <:+: line := by
          have split := after_eq_some after
          have trimmed : trimEnd line <+: line := List.rdropWhile_prefix isSpace line
          rw [split] at trimmed
          exact (List.suffix_append opening text).isInfix.trans trimmed.isInfix
        exact (List.dropLast_prefix text).isInfix.trans within
      · contradiction

theorem outerLine_free {h : Hive} {line : Text} {lineno : Nat} {next : State × Hive}
    (free : HeaderFree h) (read : outerLine h line lineno = .ok next) : StateFree next := by
  unfold outerLine at read
  split at read
  · rw [← Except.ok.inj read]
    exact free
  · next taken =>
      have readable : ¬header <:+: line := by
        intro within
        exact taken (by simp [isIgnored, within])
      split at read
      · next path deletes =>
          cases deleted : deleteNode h path with
          | error reason => simp [deleted, Except.map] at read
          | ok left =>
              rw [deleted] at read
              rw [← Except.ok.inj read]
              exact free.deleteNode deleted
      · split at read
        · next newnode found =>
            rw [← Except.ok.inj read]
            exact ⟨fun within => readable (within.trans (bracketed_within found)), free⟩
        · contradiction

theorem innerLine_free {encode : Text → List UInt8} {newnode : Text} {newvalues : List Value}
    {delvalues : List Text} {h : Hive} {line : Text} {lineno : Nat} {next : State × Hive}
    (readable : ¬header <:+: newnode) (free : HeaderFree h)
    (read : innerLine encode newnode newvalues delvalues h line lineno = .ok next) :
    StateFree next := by
  have wanted : ∀ value, wantedLine newnode newvalues delvalues h line lineno value = .ok next →
      StateFree next := by
    intro value result
    cases value with
    | none => cases result
    | some value =>
        rw [← Except.ok.inj result]
        exact ⟨readable, free⟩
  unfold innerLine at read
  split at read
  · split at read
    · contradiction
    · rw [← Except.ok.inj read]
      exact ⟨readable, free⟩
  · split at read
    · rw [← Except.ok.inj read]
      exact ⟨readable, free⟩
    · split at read
      · exact wanted _ read
      · split at read
        · exact wanted _ read
        · split at read
          · cases merged : mergeNode h newnode newvalues delvalues with
            | error reason => simp [merged, Except.map] at read
            | ok left =>
                rw [merged] at read
                rw [← Except.ok.inj read]
                exact free.mergeNode readable merged
          · contradiction

theorem importLine_free {encode : Text → List UInt8} {state next : State × Hive}
    {line : Text × Nat} (free : StateFree state)
    (read : importLine encode state line = .ok next) : StateFree next := by
  obtain ⟨text, lineno⟩ := line
  match state, free with
  | (.outer, h), free => exact outerLine_free free read
  | (.inner newnode newvalues delvalues, h), free => exact innerLine_free free.1 free.2 read

theorem importLines_free {encode : Text → List UInt8} (lines : List (Text × Nat)) :
    ∀ {state next : State × Hive}, StateFree state →
      lines.foldlM (importLine encode) state = .ok next → StateFree next := by
  induction lines with
  | nil =>
      intro state next free read
      rw [← Except.ok.inj read]
      exact free
  | cons line lines ih =>
      intro state next free read
      rw [List.foldlM_cons] at read
      obtain ⟨middle, first, rest⟩ := Commands.bind_ok_iff.mp read
      exact ih (importLine_free free first) rest

/-- No import, of any text, makes a node whose name holds the header text. -/
theorem regImport_free {encode : Text → List UInt8} {text : Text} {h h' : Hive}
    (free : HeaderFree h) (imported : regImport encode text h = .ok h') : HeaderFree h' := by
  obtain ⟨⟨state, left⟩, read, ending⟩ := Commands.bind_ok_iff.mp imported
  have final := importLines_free _ (show StateFree (.outer, h) from free) read
  match state, final, ending with
  | .outer, final, ending =>
      rw [← Except.ok.inj ending]
      exact final
  | .inner newnode newvalues delvalues, final, ending => exact final.2.mergeNode final.1 ending

end Header

section RoundTrip
variable (encode : Text → List UInt8)

/-- The exported root is read into an empty hive as the same nodes and values. -/
def RoundTrips (tree : Tree) : Prop :=
  ∃ text imported, regExport {} tree [backslash] = .ok text ∧
    regImport encode text emptyHive = .ok imported ∧ content imported = content tree.hive

theorem regExport_root (tree : Tree) :
    regExport {} tree [backslash] = .ok ((tree.blocks []).flatMap printEntry) := by
  have names : pathNames [backslash] = [] := pathNames_canonical (by simp : ∀ name ∈ ([] : Node), _)
  rw [regExport, names, ← regExportNode_eq]
  rfl

theorem headerFree_of_content {first second : Hive} (same : content first = content second)
    (free : HeaderFree first) : HeaderFree second := by
  intro entry member name listed
  obtain ⟨other, inFirst, sameNode, -⟩ := mem_of_content same.symm member
  rw [← sameNode] at listed
  exact free other inFirst name listed

theorem headerFree_of_roundTrips {tree : Tree} (trip : RoundTrips encode tree) :
    HeaderFree tree.hive := by
  obtain ⟨text, imported, -, read, same⟩ := trip
  apply headerFree_of_content same
  apply regImport_free _ read
  intro entry member name listed
  rw [List.mem_singleton.mp member] at listed
  contradiction

theorem roundTrips_of_headerFree {tree : Tree} (exportable : Exportable tree)
    (free : HeaderFree tree.hive) : RoundTrips encode tree := by
  obtain ⟨name, values, children⟩ := tree
  have freeBlocks : HeaderFree ((Tree.node name values children).blocks []) :=
    headerFree_of_content (content_blocks [] _).symm free
  exists ((Tree.node name values children).blocks []).flatMap printEntry
  exists (Tree.node name values children).blocks []
  constructor
  · exact regExport_root (.node name values children)
  · constructor
    · rw [Tree.blocks]
      apply regImport_blocks encode (exportable.grows_root _)
      · intro entry member
        have ok : EntryOk entry := exportable.blocks_ok (by rwa [Tree.blocks])
        exact ⟨fun name listed => (ok.names name listed).noNewline,
          fun value listed => (ok.keys value listed).noNewline⟩
      · intro entry member within
        obtain ⟨name, listed, inside⟩ := header_in_nodeLine within
        exact freeBlocks entry (by rwa [Tree.blocks]) name listed inside
    · exact content_blocks [] _

/-- An exported tree comes back exactly when no key's name holds the text by which
the importer knows a header line. -/
theorem roundTrips_iff {tree : Tree} (exportable : Exportable tree) :
    RoundTrips encode tree ↔ HeaderFree tree.hive := by
  constructor
  · exact headerFree_of_roundTrips encode
  · exact roundTrips_of_headerFree encode exportable

-- A root with a dword, a default value, and two keys, one inside the other.
def sampleTree : Tree :=
  .node [] [⟨['b', backslash, quote], 4, [1, 2, 3, 4]⟩, ⟨[], 1, []⟩]
    [.node [']', '-'] [⟨['a'], 3, [255]⟩] [.node ['x'] [] []]]

theorem sampleTree_exportable : Exportable sampleTree := by
  constructor
  · intro value listed
    constructor
    · revert value
      decide
    · revert value
      decide
  · simp
  · intro child listed
    rw [List.mem_singleton.mp listed]
    constructor <;> decide
  · intro child listed
    rw [List.mem_singleton.mp listed]
    constructor
    · intro value member
      rw [List.mem_singleton.mp member]
      constructor <;> decide
    · simp
    · intro child listed
      rw [List.mem_singleton.mp listed]
      constructor <;> decide
    · intro child listed
      rw [List.mem_singleton.mp listed]
      constructor <;> simp

theorem sampleTree_roundTrips_iff :
    RoundTrips (fun _ => []) sampleTree ↔ HeaderFree sampleTree.hive :=
  roundTrips_iff (fun _ => []) sampleTree_exportable

-- One key, empty, and named as a header line.
def headerTree : Tree := .node [] [] [.node header [] []]

theorem headerTree_lost :
    Exportable headerTree ∧ ∀ encode : Text → List UInt8, ¬RoundTrips encode headerTree := by
  constructor
  · constructor
    · simp
    · simp
    · intro child listed
      rw [List.mem_singleton.mp listed]
      constructor <;> decide
    · intro child listed
      rw [List.mem_singleton.mp listed]
      constructor <;> simp
  · intro encode trip
    have free := headerFree_of_roundTrips encode trip
    exact free ⟨[header], []⟩ (by decide) header (by decide) List.infix_rfl

end RoundTrip

end Regedit
