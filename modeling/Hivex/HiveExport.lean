import Hivex.HivePaths

/-! The walk of `reg_export_node` over the children of a node. What it prints for each key is in
`Regedit.printNode`; here are the keys it gets to, and when it ends. -/
namespace Hivex
open ByteMemory Commands FunctionalWalk Relation

structure ExportedValue where
  key : List UInt8
  t : Nat
  data : List UInt8

structure ExportedKey where
  path : List UInt8
  values : List ExportedValue

def exportedValue (value : Nat) : Reader ExportedValue := do
  let key ← hivexValueKey value
  let (t, data) ← hivexValueValue value
  return ⟨(cstr key).bytes, t, data⟩

def exportedValues (node : Nat) : Reader (List ExportedValue) := do
  let values ← (← hivexNodeValues node).mapM exportedValue
  return values.mergeSort fun a b => a.key ≤ b.key

def namedChild (child : Nat) : Reader (List UInt8 × Nat) := do
  return (← nodeName child, child)

/-- The children by name. An only child is not compared, so its name is not read. -/
def sortedChildren (node : Nat) : Reader (List Nat) := do
  let children ← hivexNodeChildren node
  if children.length ≤ 1 then return children
  let named ← children.mapM namedChild
  return (named.mergeSort fun a b => a.1 ≤ b.1).map Prod.snd

def regExportNode : Nat → Nat → Reader (List ExportedKey)
  | 0, _ => throw .fuel
  | fuel + 1, node => do
      let path ← nodeCanonicalPath fuel node
      let values ← exportedValues node
      let children ← sortedChildren node
      let below ← children.mapM (regExportNode fuel)
      return ⟨path, values⟩ :: below.flatten

section Walks
variable (h : Hive)

/-- The key of `node` is printed, and `children` come next. -/
structure Heads (node : Nat) (children : List Nat) : Prop where
  path : ∃ root, hivexRoot h.view = .ok root ∧ ReflTransGen (Named h) node root
  values : ∃ values, exportedValues node h.view = .ok values
  children : sortedChildren node h.view = .ok children

/-- Everything at and below a node reads. -/
inductive Complete : Nat → Prop where
  | intro {node : Nat} {children : List Nat} (heads : Heads h node children)
      (below : ∀ child ∈ children, Complete child) : Complete node

/-- The export of `node` goes on to `child`: nothing before it fails. -/
def Enters (node child : Nat) : Prop :=
  ∃ before later, Heads h node (before ++ child :: later) ∧ ∀ b ∈ before, Complete h b

/-- Export and path printing end from a node. -/
structure ExportsEnd (node : Nat) : Prop where
  exported : Settles fun fuel => regExportNode fuel node h.view
  path : Settles fun fuel => nodeCanonicalPath fuel node h.view
  printed : Settles fun fuel => printNodePath fuel node h.view

/-- No node is its own ancestor on the way up from `node`, and on the way down no node that the
export enters is below itself or has such an ancestor. -/
structure Loopfree (node : Nat) : Prop where
  up : ¬∃ m, ReflTransGen (Above h) node m ∧ TransGen (Above h) m m
  down : ∀ m, ReflTransGen (Enters h) node m →
    ¬TransGen (Enters h) m m ∧ ¬∃ b, ReflTransGen (Named h) m b ∧ TransGen (Named h) b b

end Walks

section Paths
variable {h : Hive} {node root fuel : Nat} {path : List UInt8}

theorem root_of_path (done : nodeCanonicalPath fuel node h.view = .ok path) :
    ∃ root, hivexRoot h.view = .ok root ∧ ReflTransGen (Named h) node root := by
  induction fuel generalizing node path with
  | zero => cases done
  | succ fuel ih =>
      rw [nodeCanonicalPath, bind_query, bind_ok_iff] at done
      obtain ⟨root, rooted, done⟩ := done
      by_cases top : node = root
      · exact ⟨root, rooted, top ▸ .refl⟩
      · rw [if_neg top, bind_query, bind_ok_iff] at done
        obtain ⟨name, named, done⟩ := done
        rw [bind_query, bind_ok_iff] at done
        obtain ⟨parent, read, done⟩ := done
        rw [bind_query, bind_ok_iff] at done
        obtain ⟨above, found, -⟩ := done
        unfold nodeName at named
        rw [bind_query, bind_ok_iff] at named
        obtain ⟨full, named, -⟩ := named
        obtain ⟨root', rooted', reached⟩ := ih found
        exact ⟨root', rooted', reached.head ⟨⟨root, rooted, top⟩, ⟨full, named⟩, read⟩⟩

/-- A path that leads to the root is only ever short of steps. -/
theorem path_of_root (rooted : hivexRoot h.view = .ok root) (reached : ReflTransGen (Named h) node root) (fuel : Nat) :
    nodeCanonicalPath fuel node h.view = .error .fuel ∨ ∃ path, nodeCanonicalPath fuel node h.view = .ok path := by
  induction reached using ReflTransGen.head_induction_on generalizing fuel with
  | refl =>
      cases fuel with
      | zero => exact Or.inl rfl
      | succ fuel =>
          right
          rw [nodeCanonicalPath, bind_query, rooted, ok_bind, if_pos rfl]
          exact ⟨_, rfl⟩
  | @head node parent step _ ih =>
      obtain ⟨⟨root', rooted', top⟩, ⟨name, named⟩, read⟩ := step
      cases fuel with
      | zero => exact Or.inl rfl
      | succ fuel =>
          have short : nodeName node h.view = .ok (cstr name).bytes := by
            unfold nodeName
            rw [bind_query, named]
            rfl
          rw [nodeCanonicalPath, bind_query, rooted', ok_bind, if_neg top, bind_query, short, ok_bind, bind_query,
            read, ok_bind, bind_query]
          rcases ih fuel with busy | ⟨path, done⟩
          · rw [busy]
            exact Or.inl rfl
          · rw [done, ok_bind]
            right
            split <;> exact ⟨_, rfl⟩

theorem Plain.exportedValues (node : Nat) : Plain (exportedValues node) := by
  apply (Plain.hivexNodeValues node).bind
  intro values
  apply (Plain.mapM _ values).bind fun _ => Plain.pure _
  intro value
  exact (Plain.hivexValueKey value).bind fun _ => (Plain.hivexValueValue value).bind fun _ => Plain.pure _

theorem Plain.sortedChildren (node : Nat) : Plain (sortedChildren node) := by
  apply (Plain.hivexNodeChildren node).bind
  intro children
  split
  · exact Plain.pure _
  · apply (Plain.mapM _ children).bind fun _ => Plain.pure _
    exact fun child => (Plain.nodeName child).bind fun _ => Plain.pure _

end Paths

section Lists
variable {α : Type} {f : Nat → Reader α} {v : View} {x : Nat} {xs before later : List Nat}

theorem mapM_ok_iff : (∃ ys, xs.mapM f v = .ok ys) ↔ ∀ x ∈ xs, ∃ y, f x v = .ok y := by
  induction xs with
  | nil => simp
  | cons x xs ih =>
      rw [mapM_cons_query, List.forall_mem_cons, ← ih]
      constructor
      · rintro ⟨ys, done⟩
        obtain ⟨y, first, done⟩ := bind_ok_iff.mp done
        obtain ⟨rest, others, -⟩ := bind_ok_iff.mp done
        exact ⟨⟨y, first⟩, rest, others⟩
      · rintro ⟨⟨y, first⟩, rest, others⟩
        rw [first, ok_bind, others]
        exact ⟨_, rfl⟩

/-- A loop is short of steps if one of its rounds is and none before it fails. -/
theorem mapM_fuel (early : ∀ b ∈ before, f b v = .error .fuel ∨ ∃ y, f b v = .ok y) (busy : f x v = .error .fuel) :
    (before ++ x :: later).mapM f v = .error .fuel := by
  induction before with
  | nil =>
      rw [List.nil_append, mapM_cons_query, busy]
      rfl
  | cons b before ih =>
      rw [List.cons_append, mapM_cons_query]
      rcases early b (by simp) with short | ⟨y, done⟩
      · rw [short]
        rfl
      · rw [done, ok_bind, ih fun other member => early other (by simp [member])]
        rfl

end Lists

section Exports
variable {h : Hive} {node child m fuel : Nat} {children before : List Nat} {out : List ExportedKey}

theorem regExportNode_fuel : regExportNode (fuel + 1) node h.view = .error .fuel ↔
    nodeCanonicalPath fuel node h.view = .error .fuel ∨
      (∃ path, nodeCanonicalPath fuel node h.view = .ok path) ∧
      (∃ values, exportedValues node h.view = .ok values) ∧
      ∃ children, sortedChildren node h.view = .ok children ∧
        children.mapM (regExportNode fuel) h.view = .error .fuel := by
  rw [regExportNode, bind_query]
  cases read : nodeCanonicalPath fuel node h.view with
  | error stop => simp
  | ok path =>
      rw [ok_bind, bind_query, bind_fuel ((Plain.exportedValues node).not_fuel _)]
      constructor
      · rintro ⟨values, printed, busy⟩
        rw [bind_query, bind_fuel ((Plain.sortedChildren node).not_fuel _)] at busy
        obtain ⟨children, sorted, busy⟩ := busy
        refine Or.inr ⟨⟨path, rfl⟩, ⟨values, printed⟩, children, sorted, ?_⟩
        by_contra rests
        rw [bind_query, bind_fuel rests] at busy
        obtain ⟨below, -, busy⟩ := busy
        cases busy
      · rintro (short | ⟨-, ⟨values, printed⟩, children, sorted, busy⟩)
        · cases short
        · refine ⟨values, printed, ?_⟩
          rw [bind_query, sorted, ok_bind, bind_query, busy]
          rfl

theorem Heads.export_ok (heads : Heads h node children) {path : List UInt8}
    (printed : nodeCanonicalPath fuel node h.view = .ok path) :
    (∃ out, regExportNode (fuel + 1) node h.view = .ok out) ↔
      ∃ below, children.mapM (regExportNode fuel) h.view = .ok below := by
  obtain ⟨values, read⟩ := heads.values
  rw [regExportNode, bind_query, printed, ok_bind, bind_query, read, ok_bind, bind_query, heads.children, ok_bind,
    bind_query]
  constructor
  · rintro ⟨out, done⟩
    obtain ⟨below, done, -⟩ := bind_ok_iff.mp done
    exact ⟨below, done⟩
  · rintro ⟨below, done⟩
    rw [done]
    exact ⟨_, rfl⟩

theorem complete_of_export (done : regExportNode fuel node h.view = .ok out) : Complete h node := by
  induction fuel generalizing node out with
  | zero => cases done
  | succ fuel ih =>
      have whole := done
      rw [regExportNode, bind_query, bind_ok_iff] at done
      obtain ⟨path, printed, done⟩ := done
      rw [bind_query, bind_ok_iff] at done
      obtain ⟨values, read, done⟩ := done
      rw [bind_query, bind_ok_iff] at done
      obtain ⟨children, sorted, done⟩ := done
      have heads : Heads h node children := ⟨root_of_path printed, ⟨values, read⟩, sorted⟩
      apply Complete.intro heads
      intro child member
      obtain ⟨out', below⟩ := mapM_ok_iff.mp ((heads.export_ok printed).mp ⟨out, whole⟩) child member
      exact ih below

/-- The export of what reads completely is only ever short of steps. -/
theorem Complete.export (complete : Complete h node) (fuel : Nat) :
    regExportNode fuel node h.view = .error .fuel ∨ ∃ out, regExportNode fuel node h.view = .ok out := by
  induction complete generalizing fuel with
  | @intro node children heads _ ih =>
      cases fuel with
      | zero => exact Or.inl rfl
      | succ fuel =>
          obtain ⟨root, rooted, reached⟩ := heads.path
          rcases path_of_root rooted reached fuel with short | ⟨path, printed⟩
          · exact Or.inl (regExportNode_fuel.mpr (Or.inl short))
          · by_cases all : ∃ below, children.mapM (regExportNode fuel) h.view = .ok below
            · exact Or.inr ((heads.export_ok printed).mpr all)
            · left
              apply regExportNode_fuel.mpr
              refine Or.inr ⟨⟨path, printed⟩, heads.values, children, heads.children, ?_⟩
              rw [mapM_ok_iff] at all
              simp only [not_forall] at all
              obtain ⟨child, member, failed⟩ := all
              obtain ⟨before, later, rfl⟩ := List.append_of_mem member
              apply mapM_fuel
              · exact fun b inFront => ih b (by simp [inFront]) fuel
              · exact (ih child member fuel).resolve_right failed

/-- An export that ends lets the exports it enters end earlier. -/
theorem Enters.ends (enters : Enters h node child) (ends : regExportNode (fuel + 1) node h.view ≠ .error .fuel) :
    regExportNode fuel child h.view ≠ .error .fuel := by
  intro busy
  obtain ⟨before, later, heads, complete⟩ := enters
  obtain ⟨root, rooted, reached⟩ := heads.path
  apply ends
  apply regExportNode_fuel.mpr
  rcases path_of_root rooted reached fuel with short | printed
  · exact Or.inl short
  · refine Or.inr ⟨printed, heads.values, _, heads.children, ?_⟩
    exact mapM_fuel (fun b member => (complete b member).export fuel) busy

theorem enters_reached (reached : ReflTransGen (Enters h) node m) (ends : regExportNode fuel node h.view ≠ .error .fuel) :
    ∃ less ≤ fuel, regExportNode less m h.view ≠ .error .fuel := by
  induction reached with
  | refl => exact ⟨fuel, Nat.le_refl _, ends⟩
  | tail _ step ih =>
      obtain ⟨less, fewer, rests⟩ := ih
      cases less with
      | zero => exact absurd rfl rests
      | succ less => exact ⟨less, by omega, step.ends rests⟩

theorem no_circle_of_ends (ends : regExportNode fuel node h.view ≠ .error .fuel) : ¬TransGen (Enters h) node node := by
  induction fuel using Nat.strong_induction_on with
  | _ fuel ih =>
      intro circle
      obtain ⟨child, first, rest⟩ := TransGen.head'_iff.mp circle
      cases fuel with
      | zero => exact ends rfl
      | succ fuel =>
          obtain ⟨less, fewer, again⟩ := enters_reached rest (first.ends ends)
          exact ih less (by omega) again circle

/-- For enough steps none of the children is short of them. -/
theorem children_end (heads : Heads h node (before ++ children)) (complete : ∀ b ∈ before, Complete h b)
    (each : ∀ child, Enters h node child → ∃ enough, ∀ fuel ≥ enough, regExportNode fuel child h.view ≠ .error .fuel) :
    ∃ enough, ∀ fuel ≥ enough, children.mapM (regExportNode fuel) h.view ≠ .error .fuel := by
  induction children generalizing before with
  | nil => exact ⟨0, fun fuel _ busy => by cases busy⟩
  | cons child children ih =>
      obtain ⟨first, firstEnds⟩ := each child ⟨before, children, heads, complete⟩
      by_cases whole : Complete h child
      · have shape : Heads h node ((before ++ [child]) ++ children) := by
          rw [List.append_assoc]
          exact heads
        obtain ⟨rest, restEnds⟩ := ih shape fun b member => by
          rcases List.mem_append.mp member with inFront | last
          · exact complete b inFront
          · rw [List.mem_singleton.mp last]
            exact whole
        refine ⟨max first rest, fun fuel enough => ?_⟩
        rw [mapM_cons_query]
        obtain ⟨out, done⟩ := (whole.export fuel).resolve_left (firstEnds fuel (by omega))
        rw [done, ok_bind, Ne, bind_fuel (restEnds fuel (by omega))]
        rintro ⟨_, -, busy⟩
        cases busy
      · refine ⟨first, fun fuel enough => ?_⟩
        rw [mapM_cons_query]
        cases run : regExportNode fuel child h.view with
        | ok out => exact absurd (complete_of_export run) whole
        | error stop =>
            have ends := firstEnds fuel enough
            rw [run] at ends
            rw [error_bind]
            exact fun busy => ends (congrArg Except.error (Except.error.inj busy))

theorem mem_sortedChildren (sorted : sortedChildren node h.view = .ok children) (member : child ∈ children) :
    ∃ listed, hivexNodeChildren node h.view = .ok listed ∧ child ∈ listed := by
  unfold sortedChildren at sorted
  rw [bind_query, bind_ok_iff] at sorted
  obtain ⟨listed, read, sorted⟩ := sorted
  refine ⟨listed, read, ?_⟩
  split at sorted
  · rw [Except.ok.inj sorted]
    exact member
  · rw [bind_query, bind_ok_iff] at sorted
    obtain ⟨named, run, sorted⟩ := sorted
    have kept : Ends (listed.mapM namedChild h.view) (fun named => ∀ pair ∈ named, pair.2 ∈ listed) fun _ => True := by
      apply Ends.mapM_all
      intro x inList
      exact Ends.after fun name _ => inList
    rw [run] at kept
    rw [← Except.ok.inj sorted] at member
    obtain ⟨pair, inSorted, rfl⟩ := List.mem_map.mp member
    exact kept pair (List.mem_mergeSort.mp inSorted)

theorem Enters.valid (node child : Nat) (enters : Enters h node child) : h.valid child = true := by
  obtain ⟨before, later, heads, -⟩ := enters
  obtain ⟨listed, read, member⟩ := @mem_sortedChildren h node child _ heads.children (by simp)
  have valid := @hivexNodeChildren_valid h node
  rw [read] at valid
  exact valid child member

/-- A node ends if the nodes that it enters do and its own path does. -/
theorem export_ends (path : Settles fun fuel => nodeCanonicalPath fuel node h.view)
    (each : ∀ child, Enters h node child → ∃ enough, ∀ fuel ≥ enough, regExportNode fuel child h.view ≠ .error .fuel) :
    ∃ enough, ∀ fuel ≥ enough, regExportNode fuel node h.view ≠ .error .fuel := by
  obtain ⟨first, printed⟩ := path
  have below : ∃ enough, ∀ fuel ≥ enough, ∀ children, Heads h node children →
      children.mapM (regExportNode fuel) h.view ≠ .error .fuel := by
    by_cases some : ∃ children, Heads h node children
    · obtain ⟨children, heads⟩ := some
      obtain ⟨enough, rests⟩ := @children_end h node children [] heads (fun b member => by cases member) each
      refine ⟨enough, fun fuel more other heads' => ?_⟩
      rw [Except.ok.inj (heads'.children.symm.trans heads.children)]
      exact rests fuel more
    · exact ⟨0, fun fuel _ children heads => absurd ⟨children, heads⟩ some⟩
  obtain ⟨second, rests⟩ := below
  refine ⟨max first second + 1, fun fuel enough => ?_⟩
  obtain ⟨less, rfl⟩ : ∃ less, fuel = less + 1 := ⟨fuel - 1, by omega⟩
  intro busy
  rcases regExportNode_fuel.mp busy with short | ⟨⟨path, done⟩, values, children, sorted, busy⟩
  · exact nodeCanonicalPath_mono (by omega) printed short
  · exact rests less (by omega) children ⟨root_of_path done, values, sorted⟩ busy

end Exports

/-- The subkey is its own parent. -/
def ownParent : Except Stop Hive → Bool
  | .ok h => decide (hivexRoot h.view = .ok 0x1020) && decide (hivexNodeChildren 0x1020 h.view = .ok [0x10a0]) &&
      decide (hivexNodeName 0x10a0 h.view = .ok [0x6b, 0x69, 0x64]) &&
      decide (hivexNodeParent 0x10a0 h.view = .ok 0x10a0)
  | .error _ => false

end Hivex
