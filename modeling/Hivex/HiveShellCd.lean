import Hivex.HivePaths
import Hivex.HiveOpenBlocks

/-! The `cd` command of the shell. It follows parent offsets, which `hivex_open` does not check,
and keeps what it gets from `hivex_node_parent` even where that is an error. -/
namespace Hivex
open ByteMemory Commands

abbrev dot : List UInt8 := [0x2e]
abbrev dotDot : List UInt8 := [0x2e, 0x2e]
abbrev promptEnd : List UInt8 := [0x3e, 0x20]

/-- The shell while a hive is loaded. -/
structure Shell where
  loaded : List UInt8
  cwd : Nat
  prompt : List UInt8
deriving DecidableEq

def setPromptString (fuel : Nat) (loaded : List UInt8) (cwd : Nat) : Reader (List UInt8) := do
  if cwd = 0 then throw .abort
  return loaded ++ (← printNodePath fuel cwd) ++ promptEnd

/-- `cmd_load` once `hivex_open` has returned the handle. -/
def cmdLoad (fuel : Nat) (hivefile : CString) : Reader Shell := do
  let loaded := hivefile.bytes.rtakeWhile (· ≠ 0x2f)
  let cwd ← zeroOnError hivexRoot
  let prompt ← setPromptString fuel loaded cwd
  return ⟨loaded, cwd, prompt⟩

/-- What follows the first element of `path` and the backslash behind it. -/
def afterElem (path : List UInt8) : List UInt8 := (path.dropWhile (· ≠ slash)).tail

theorem afterElem_shorter {path : List UInt8} (some : path ≠ []) : (afterElem path).length < path.length := by
  have rest := (List.dropWhile_sublist (· ≠ slash) (l := path)).length_le
  have pos := List.length_pos_iff.mpr some
  rw [afterElem, List.length_tail]
  omega

/-- The loop of `cmd_cd`, `none` where it returns -1. -/
def cdLoop (root newCwd : Nat) (path : List UInt8) : Reader (Option Nat) :=
  if _more : path = [] then return some newCwd
  else
    let elem := path.takeWhile (· ≠ slash)
    if elem = [] then cdLoop root newCwd path.tail
    else if elem = dot then cdLoop root newCwd (afterElem path)
    else if elem = dotDot then do
      let newCwd ← if newCwd ≠ root then zeroOnError (hivexNodeParent newCwd) else pure newCwd
      cdLoop root newCwd (afterElem path)
    else do
      let newCwd ← hivexNodeGetChild newCwd (cstr elem)
      if newCwd = 0 then return none
      cdLoop root newCwd (afterElem path)
termination_by path.length
decreasing_by
  · rw [List.length_tail]
    exact Nat.sub_lt (List.length_pos_iff.mpr _more) Nat.one_pos
  all_goals exact afterElem_shorter _more

/-- How `cmd_cd` ends: with -1 and nothing changed, or at a node and with its prompt. -/
def arrive (fuel : Nat) (shell : Shell) : Option Nat → Reader (Int × Shell)
  | none => return (-1, shell)
  | some newCwd => do
      if newCwd = shell.cwd then return (0, shell)
      let prompt ← setPromptString fuel shell.loaded newCwd
      return (0, { shell with cwd := newCwd, prompt := prompt })

def cmdCd (fuel : Nat) (path : CString) (shell : Shell) : Reader (Int × Shell) := do
  if path.bytes = [] then
    let _ ← printNodePath fuel shell.cwd
    return (0, shell)
  if path.bytes.take 2 = [slash, slash] then return (-1, shell)
  let root ← zeroOnError hivexRoot
  let found ←
    if path.bytes.head? = some slash then cdLoop root root path.bytes.tail
    else cdLoop root shell.cwd path.bytes
  arrive fuel shell found

section Promise
variable (h : Hive)

/-- The first child of `node` whose name is `elem` but for case. -/
def NamedChild (node : Nat) (elem : List UInt8) (child : Nat) : Prop :=
  ∃ before after, hivexNodeChildren node h.view = .ok (before ++ child :: after) ∧
    (∃ name, hivexNodeName child h.view = .ok name ∧ strcasecmp (cstr name) (cstr elem) = 0) ∧
    ∀ b ∈ before, ∃ name, hivexNodeName b h.view = .ok name ∧ strcasecmp (cstr name) (cstr elem) ≠ 0

/-- Where one component of a path leads from a node. -/
inductive Component : List UInt8 → Nat → Nat → Prop
  | empty (node : Nat) : Component [] node node
  | here (node : Nat) : Component dot node node
  | top : Component dotDot h.rootoffs h.rootoffs
  | up {node parent : Nat} (below : node ≠ h.rootoffs) (read : hivexNodeParent node h.view = .ok parent) :
      Component dotDot node parent
  | down {elem : List UInt8} {node child : Nat} (full : elem ≠ []) (notHere : elem ≠ dot) (notUp : elem ≠ dotDot)
      (named : NamedChild h node elem child) : Component elem node child

inductive Leads : List (List UInt8) → Nat → Nat → Prop
  | nil (node : Nat) : Leads [] node node
  | cons {elem : List UInt8} {elems : List (List UInt8)} {node next last : Nat}
      (first : Component h elem node next) (rest : Leads elems next last) : Leads (elem :: elems) node last

def elements (path : CString) : List (List UInt8) := path.bytes.splitOn slash

def Doubled (path : CString) : Prop := path.bytes.take 2 = [slash, slash]

def cdStart (cwd : Nat) (path : CString) : Nat := if path.bytes.head? = some slash then h.rootoffs else cwd

def IsNk (node : Nat) : Prop := requireBlock node Nk.id h.view = .ok ()

/-- What `cd` may have done when it returns. -/
structure Moved (shell : Shell) (path : CString) (r : Int) (shell' : Shell) : Prop where
  usable : IsNk h shell'.cwd
  outcome : r = 0 ∧ Leads h (elements path) (cdStart h shell.cwd path) shell'.cwd ∨
    r = -1 ∧ shell' = shell ∧ (Doubled path ∨ ∀ last, ¬Leads h (elements path) (cdStart h shell.cwd path) last)

def KeepsPromise (shell : Shell) (path : CString) : Prop :=
  ∀ fuel, cmdCd fuel path shell h.view ≠ .error .abort ∧
    ∀ r shell', cmdCd fuel path shell h.view = .ok (r, shell') → Moved h shell path r shell'

/-- `hivex_node_parent` fails at `node` or returns a block that is no nk-block. -/
def Unusable (node : Nat) : Prop :=
  (∃ code, hivexNodeParent node h.view = .error (.errno code)) ∨
    ∃ parent code, hivexNodeParent node h.view = .ok parent ∧ requireBlock parent Nk.id h.view = .error (.errno code)

def Idle (elem : List UInt8) : Prop := elem = [] ∨ elem = dot ∨ elem = dotDot

/-- The components pass a dot-dot at a node without a usable parent, and name no child after it. -/
def StraysFrom (elems : List (List UInt8)) (start : Nat) : Prop :=
  ∃ before after node, elems = before ++ dotDot :: after ∧ Leads h before start node ∧ node ≠ h.rootoffs ∧
    Unusable h node ∧ ∀ elem ∈ after, Idle elem

def Strays (cwd : Nat) (path : CString) : Prop :=
  ¬Doubled path ∧ StraysFrom h (elements path) (cdStart h cwd path)

/-- The shell at a prompt, after the `cd` commands with the given paths. -/
inductive AtPrompt (hivefile : CString) : List CString → Shell → Prop
  | loaded {fuel : Nat} {shell : Shell} (done : cmdLoad fuel hivefile h.view = .ok shell) : AtPrompt hivefile [] shell
  | moved {fuel : Nat} {paths : List CString} {path : CString} {shell shell' : Shell} {r : Int}
      (before : AtPrompt hivefile paths shell) (done : cmdCd fuel path shell h.view = .ok (r, shell')) :
      AtPrompt hivefile (paths ++ [path]) shell'

/-- At every prompt of the session the current node is an nk-block, and every `cd` does what it promises. -/
structure Usable (hivefile : CString) (paths : List CString) : Prop where
  loads : ∀ fuel, cmdLoad fuel hivefile h.view ≠ .error .abort
  prompts : ∀ done, done <+: paths → ∀ shell, AtPrompt h hivefile done shell → IsNk h shell.cwd
  commands : ∀ done path, done ++ [path] <+: paths → ∀ shell, AtPrompt h hivefile done shell → KeepsPromise h shell path

end Promise

section Rooted
variable {file : File} {write : Bool} {h : Hive}

/-- The root of an accepted hive is an nk-block wherever `hivex_root` returns it. -/
theorem Accepts.isNk (accepted : Accepts file write h) (valid : h.valid h.rootoffs = true) : IsNk h h.rootoffs := by
  have readFrom := accepted.readFrom
  have whole : h.rootoffs + 4 + 2 ≤ h.size := by
    rw [readFrom.rootoffs, readFrom.size]
    exact accepted.rootInside
  have id : slice h.addr (h.rootoffs + 4) 2 = Nk.id := by
    rw [readFrom.addr, readFrom.rootoffs]
    exact readFrom.goodRoot.2.2
  rw [IsNk, requireBlock, bind_query, isValidBlock_view, ok_bind, valid, if_pos rfl]
  beta_reduce
  rw [bind_query, blockIdEq, bind_query, rdBytes_view whole, ok_bind, id]
  rfl

end Rooted

section Lookup
variable {h : Hive} {node child : Nat} {elem : List UInt8}

/-- What `hivex_node_children` lists can be the offset of a block. -/
theorem zeroOnError_ok {query : Reader Nat} {v : View} {value : Nat} (done : zeroOnError query v = .ok value) :
    query v = .ok value ∨ value = 0 ∧ ∃ code, query v = .error (.errno code) := by
  unfold zeroOnError at done
  split at done
  · rename_i code failed
    exact Or.inr ⟨(Except.ok.inj done).symm, code, failed⟩
  · exact Or.inl done

theorem zeroOnError_of_ok {query : Reader Nat} {v : View} {value : Nat} (done : query v = .ok value) :
    zeroOnError query v = .ok value := by
  unfold zeroOnError
  rw [done]

theorem zeroOnError_of_errno {query : Reader Nat} {v : View} {code : Errno} (failed : query v = .error (.errno code)) :
    zeroOnError query v = .ok 0 := by
  unfold zeroOnError
  rw [failed]

/-- The lookup stops at the first entry with the wanted name. -/
theorem firstNamed_iff {nameOf : Nat → Reader (List UInt8)} {wanted : CString} {v : View} {xs : List Nat} {x : Nat}
    (some : x ≠ 0) : firstNamed nameOf wanted xs v = .ok x ↔ ∃ before after, xs = before ++ x :: after ∧
      (∃ name, nameOf x v = .ok name ∧ strcasecmp (cstr name) wanted = 0) ∧
      ∀ b ∈ before, ∃ name, nameOf b v = .ok name ∧ strcasecmp (cstr name) wanted ≠ 0 := by
  induction xs with
  | nil =>
      constructor
      · intro found
        exact absurd (Except.ok.inj found).symm some
      · rintro ⟨before, after, empty, -⟩
        simp at empty
  | cons y ys ih =>
      rw [firstNamed, bind_query, bind_ok_iff]
      constructor
      · rintro ⟨name, read, found⟩
        by_cases same : strcasecmp (cstr name) wanted = 0
        · rw [if_pos same] at found
          obtain rfl := Except.ok.inj found
          exact ⟨[], ys, rfl, ⟨name, read, same⟩, by simp⟩
        · rw [if_neg same] at found
          obtain ⟨before, after, rfl, named, others⟩ := ih.mp found
          refine ⟨y :: before, after, rfl, named, ?_⟩
          intro b member
          rcases List.mem_cons.mp member with rfl | member
          · exact ⟨name, read, same⟩
          · exact others b member
      · rintro ⟨before, after, split, ⟨name, read, same⟩, others⟩
        cases before with
        | nil =>
            obtain ⟨rfl, rfl⟩ := List.cons.inj split
            refine ⟨name, read, ?_⟩
            rw [if_pos same]
            rfl
        | cons b before =>
            obtain ⟨rfl, rfl⟩ := List.cons.inj split
            obtain ⟨name', read', differs⟩ := others y (by simp)
            refine ⟨name', read', ?_⟩
            rw [if_neg differs]
            exact ih.mpr ⟨before, after, rfl, ⟨name, read, same⟩, fun b member => others b (by simp [member])⟩

theorem hivexNodeGetChild_iff : hivexNodeGetChild node (cstr elem) h.view = .ok child ∧ child ≠ 0 ↔
    NamedChild h node elem child := by
  constructor
  · rintro ⟨found, some⟩
    rcases zeroOnError_ok found with found | ⟨none, -⟩
    · obtain ⟨children, listed, found⟩ := bind_ok_iff.mp found
      obtain ⟨before, after, rfl, named, others⟩ := (firstNamed_iff some).mp found
      exact ⟨before, after, listed, named, others⟩
    · exact absurd none some
  · rintro ⟨before, after, listed, ⟨name, read, same⟩, others⟩
    have some : child ≠ 0 := by
      obtain ⟨_, block, -⟩ := bind_ok_iff.mp read
      have low := requireBlock_low block
      omega
    refine ⟨zeroOnError_of_ok ?_, some⟩
    rw [bind_query, listed, ok_bind]
    exact (firstNamed_iff some).mpr ⟨before, after, rfl, ⟨name, read, same⟩, others⟩

end Lookup

/-- The loop of `cmd_cd` over the components of the path. -/
def cdElements (root : Nat) : Nat → List (List UInt8) → Reader (Option Nat)
  | node, [] => return some node
  | node, elem :: elems =>
      if elem = [] ∨ elem = dot then cdElements root node elems
      else if elem = dotDot then do
        let node ← if node ≠ root then zeroOnError (hivexNodeParent node) else pure node
        cdElements root node elems
      else do
        let child ← hivexNodeGetChild node (cstr elem)
        if child = 0 then return none
        cdElements root child elems

section Splitting
variable {root node : Nat} {path : List UInt8}

/-- The first element and what follows it, as the components of the whole path. -/
theorem splitOn_slash : path.splitOn slash = path.takeWhile (· ≠ slash) ::
    if path.dropWhile (· ≠ slash) = [] then [] else (afterElem path).splitOn slash := by
  have front : slash ∉ path.takeWhile (· ≠ slash) := fun member => by
    simpa using List.mem_takeWhile_imp member
  have parts := List.takeWhile_append_dropWhile (p := (· ≠ slash)) (l := path)
  cases rest : path.dropWhile (· ≠ slash) with
  | nil =>
      rw [rest, List.append_nil] at parts
      rw [if_pos rfl, ← List.splitOn_eq_singleton front, parts]
  | cons c cs =>
      have isSlash : c = slash := by
        have stops := List.head?_dropWhile_not (· ≠ slash) path
        rw [rest] at stops
        simpa using stops
      rw [rest] at parts
      rw [if_neg (List.cons_ne_nil c cs), afterElem, rest, List.tail_cons]
      conv_lhs => rw [← parts, isSlash]
      exact List.splitOn_append_cons_self_of_not_mem front cs

theorem cdLoop_elements : cdLoop root node path = cdElements root node (path.splitOn slash) := by
  induction hn : path.length using Nat.strong_induction_on generalizing path node with
  | _ n ih =>
      subst hn
      by_cases ends : path = []
      · rw [cdLoop, dif_pos ends, ends]
        rfl
      -- The loop goes on behind the first element and ends with the string, as the components do.
      have next : ∀ node, cdLoop root node (afterElem path) = cdElements root node
          (if path.dropWhile (· ≠ slash) = [] then [] else (afterElem path).splitOn slash) := by
        intro node
        by_cases last : path.dropWhile (· ≠ slash) = []
        · rw [if_pos last, afterElem, last, cdLoop]
          rfl
        · rw [if_neg last]
          exact ih _ (afterElem_shorter ends) rfl
      rw [cdLoop, dif_neg ends, splitOn_slash, cdElements]
      simp only [← next]
      by_cases empty : path.takeWhile (· ≠ slash) = []
      · have whole : path.dropWhile (· ≠ slash) = path := by
          have parts := List.takeWhile_append_dropWhile (p := (· ≠ slash)) (l := path)
          rwa [empty, List.nil_append] at parts
        rw [if_pos empty, if_pos (Or.inl empty), afterElem, whole]
      · by_cases here : path.takeWhile (· ≠ slash) = dot
        · rw [if_neg empty, if_pos here, if_pos (Or.inr here)]
        · rw [if_neg empty, if_neg here, if_neg (not_or.mpr ⟨empty, here⟩)]

end Splitting

section Walk
variable {h : Hive} {node parent last : Nat} {elem : List UInt8} {elems before rest : List (List UInt8)}

def Spoiled (h : Hive) (node : Nat) : Prop := ∃ code, requireBlock node Nk.id h.view = .error (.errno code)

theorem zero_spoiled : Spoiled h 0 := by
  refine ⟨.EINVAL, ?_⟩
  rw [requireBlock, bind_query, isValidBlock_view, ok_bind]
  rfl

theorem Spoiled.ne_root (spoiled : Spoiled h node) (root : IsNk h h.rootoffs) : node ≠ h.rootoffs := by
  rintro rfl
  obtain ⟨code, failed⟩ := spoiled
  rw [IsNk, failed] at root
  cases root

theorem Spoiled.noParent (spoiled : Spoiled h node) : zeroOnError (hivexNodeParent node) h.view = .ok 0 := by
  obtain ⟨code, failed⟩ := spoiled
  apply @zeroOnError_of_errno _ _ code
  rw [hivexNodeParent, bind_query, failed]
  rfl

theorem Spoiled.noChild (spoiled : Spoiled h node) (elem : CString) : hivexNodeGetChild node elem h.view = .ok 0 := by
  obtain ⟨code, failed⟩ := spoiled
  apply @zeroOnError_of_errno _ _ code
  rw [bind_query, hivexNodeChildren, bind_query, getChildren, bind_query, failed]
  rfl

/-- From what is no nk-block the loop gets nowhere, but only a named component tells. -/
theorem Spoiled.walk (spoiled : Spoiled h node) (root : IsNk h h.rootoffs) :
    (∃ last, cdElements h.rootoffs node elems h.view = .ok (some last) ∧ Spoiled h last) ∧ (∀ elem ∈ elems, Idle elem) ∨
      cdElements h.rootoffs node elems h.view = .ok none ∧ ∃ elem ∈ elems, ¬Idle elem := by
  induction elems generalizing node with
  | nil => exact Or.inl ⟨⟨node, rfl, spoiled⟩, by simp⟩
  | cons elem elems ih =>
      rw [cdElements]
      by_cases skipped : elem = [] ∨ elem = dot
      · rw [if_pos skipped]
        have idle : Idle elem := by
          rcases skipped with empty | here
          · exact Or.inl empty
          · exact Or.inr (Or.inl here)
        simpa [idle] using ih spoiled
      · rw [if_neg skipped]
        by_cases up : elem = dotDot
        · rw [if_pos up, if_pos (spoiled.ne_root root), bind_query, spoiled.noParent, ok_bind]
          have idle : Idle elem := Or.inr (Or.inr up)
          simpa [idle] using ih zero_spoiled
        · rw [if_neg up, bind_query, spoiled.noChild, ok_bind, if_pos rfl]
          refine Or.inr ⟨rfl, elem, by simp, ?_⟩
          rintro (empty | here | above)
          · exact skipped (Or.inl empty)
          · exact skipped (Or.inr here)
          · exact up above

theorem Component.walk (component : Component h elem node last) :
    cdElements h.rootoffs node (elem :: elems) h.view = cdElements h.rootoffs last elems h.view := by
  rw [cdElements]
  cases component with
  | empty => rw [if_pos (Or.inl rfl)]
  | here => rw [if_pos (Or.inr rfl)]
  | top =>
      rw [if_neg (by decide), if_pos rfl, if_neg (by simp)]
      rfl
  | up below read =>
      rw [if_neg (by decide), if_pos rfl, if_pos below, bind_query, zeroOnError_of_ok read, ok_bind]
  | down full notHere notUp named =>
      obtain ⟨found, some⟩ := hivexNodeGetChild_iff.mpr named
      rw [if_neg (not_or.mpr ⟨full, notHere⟩), if_neg notUp, bind_query, found, ok_bind, if_neg some]

theorem Leads.walk (leads : Leads h before node last) :
    cdElements h.rootoffs node (before ++ rest) h.view = cdElements h.rootoffs last rest h.view := by
  induction leads with
  | nil => rfl
  | cons first _ ih => rw [List.cons_append, first.walk, ih]

theorem StraysFrom.cons {next : Nat} (first : Component h elem node next) (strays : StraysFrom h elems next) :
    StraysFrom h (elem :: elems) node := by
  obtain ⟨before, after, below, rfl, leads, notRoot, unusable, idle⟩ := strays
  exact ⟨elem :: before, after, below, rfl, .cons first leads, notRoot, unusable, idle⟩

theorem StraysFrom.walk (strays : StraysFrom h elems node) (root : IsNk h h.rootoffs) :
    ∃ last, cdElements h.rootoffs node elems h.view = .ok (some last) ∧ Spoiled h last := by
  obtain ⟨before, after, below, rfl, leads, notRoot, unusable, idle⟩ := strays
  have wrong : ∃ next, zeroOnError (hivexNodeParent below) h.view = .ok next ∧ Spoiled h next := by
    rcases unusable with ⟨code, failed⟩ | ⟨parent, code, read, failed⟩
    · exact ⟨0, zeroOnError_of_errno failed, zero_spoiled⟩
    · exact ⟨parent, zeroOnError_of_ok read, code, failed⟩
  obtain ⟨next, read, spoiled⟩ := wrong
  rw [leads.walk, cdElements, if_neg (by decide), if_pos rfl, if_pos notRoot, bind_query, read, ok_bind]
  rcases spoiled.walk root with ⟨result, -⟩ | ⟨-, elem, member, named⟩
  · exact result
  · exact absurd (idle elem member) named

/-- The loop ends at the node that the components lead to, unless it has strayed. -/
theorem cdElements_some (root : IsNk h h.rootoffs) (sturdy : ¬Spoiled h node)
    (done : cdElements h.rootoffs node elems h.view = .ok (some last)) :
    Leads h elems node last ∧ ¬Spoiled h last ∨ StraysFrom h elems node := by
  induction elems generalizing node with
  | nil =>
      obtain rfl := Option.some.inj (Except.ok.inj done)
      exact Or.inl ⟨.nil _, sturdy⟩
  | cons elem elems ih =>
      have goOn : ∀ {next}, Component h elem node next → ¬Spoiled h next →
          Leads h (elem :: elems) node last ∧ ¬Spoiled h last ∨ StraysFrom h (elem :: elems) node := by
        intro next first sound
        rw [first.walk] at done
        rcases ih sound done with ⟨leads, ends⟩ | strays
        · exact Or.inl ⟨.cons first leads, ends⟩
        · exact Or.inr (strays.cons first)
      by_cases empty : elem = []
      · subst empty
        exact goOn (.empty node) sturdy
      by_cases here : elem = dot
      · subst here
        exact goOn (.here node) sturdy
      rw [cdElements, if_neg (not_or.mpr ⟨empty, here⟩)] at done
      by_cases up : elem = dotDot
      · subst up
        by_cases top : node = h.rootoffs
        · subst top
          exact goOn .top sturdy
        rw [if_pos rfl, if_pos top, bind_query, bind_ok_iff] at done
        obtain ⟨next, read, done⟩ := done
        by_cases spoiled : Spoiled h next
        · right
          refine ⟨[], elems, node, rfl, .nil node, top, ?_, ?_⟩
          · rcases zeroOnError_ok read with read | ⟨-, code, failed⟩
            · obtain ⟨code, failed⟩ := spoiled
              exact Or.inr ⟨next, code, read, failed⟩
            · exact Or.inl ⟨code, failed⟩
          · rcases spoiled.walk root with ⟨-, idle⟩ | ⟨stuck, -⟩
            · exact idle
            · have ends : cdElements h.rootoffs next elems h.view = .ok (some last) := done
              rw [stuck] at ends
              cases ends
        · rcases zeroOnError_ok read with read | ⟨rfl, -⟩
          · exact goOn (.up top read) spoiled
          · exact absurd zero_spoiled spoiled
      · rw [if_neg up, bind_query, bind_ok_iff] at done
        obtain ⟨child, found, done⟩ := done
        by_cases none : child = 0
        · rw [if_pos none] at done
          cases done
        · have named := hivexNodeGetChild_iff.mp ⟨found, none⟩
          apply goOn (.down empty here up named)
          obtain ⟨_, _, _, ⟨name, read, -⟩, -⟩ := named
          obtain ⟨_, block, -⟩ := bind_ok_iff.mp read
          rintro ⟨code, failed⟩
          rw [failed] at block
          cases block

end Walk

section Steps
variable {h : Hive} {fuel node : Nat} {path : CString} {shell shell' : Shell} {r : Int}

theorem Plain.firstNamed (wanted : CString) (xs : List Nat) : Plain (Hivex.firstNamed Hivex.hivexNodeName wanted xs) := by
  induction xs with
  | nil => exact Plain.pure 0
  | cons x xs ih =>
      rw [Hivex.firstNamed]
      apply (Plain.hivexNodeName x).bind
      intro name
      split
      · exact Plain.pure x
      · exact ih

theorem Plain.hivexNodeGetChild (node : Nat) (name : CString) : Plain (Hivex.hivexNodeGetChild node name) :=
  ((Plain.hivexNodeChildren node).bind (Plain.firstNamed name)).zeroOnError

theorem Plain.cdElements (root node : Nat) (elems : List (List UInt8)) : Plain (Hivex.cdElements root node elems) := by
  induction elems generalizing node with
  | nil => exact Plain.pure _
  | cons elem elems ih =>
      rw [Hivex.cdElements]
      split
      · exact ih node
      · split
        · split
          · exact (Plain.hivexNodeParent node).zeroOnError.bind ih
          · exact (Plain.pure node).bind ih
        · apply (Plain.hivexNodeGetChild node _).bind
          intro child
          split
          · exact Plain.pure _
          · exact ih child

theorem Plain.not_abort {α : Type} {query : Reader α} (plain : Plain query) (v : View) : query v ≠ .error .abort := by
  intro stopped
  have ends := plain v
  rw [stopped] at ends
  rcases ends with ⟨code, other⟩ | other <;> cases other

theorem bind_abort {α β : Type} {first : Except Stop α} {next : α → Except Stop β} (ends : first ≠ .error .abort)
    (later : ∀ value, first = .ok value → next value ≠ .error .abort) : first.bind next ≠ .error .abort := by
  cases first with
  | ok value => exact later value rfl
  | error stop =>
      intro stopped
      exact ends (congrArg Except.error (Except.error.inj stopped))

theorem printNodePath_abort : printNodePath fuel node h.view ≠ .error .abort := by
  induction fuel generalizing node with
  | zero => exact fun stopped => by cases stopped
  | succ fuel ih =>
      apply bind_abort (Plain.hivexRoot.zeroOnError.not_abort _)
      intro root _
      beta_reduce
      split
      · exact fun stopped => by cases stopped
      apply bind_abort ((Plain.hivexNodeParent node).zeroOnError.not_abort _)
      intro parent _
      beta_reduce
      split
      · exact fun stopped => by cases stopped
      apply bind_abort ih
      intro above _
      apply bind_abort ((Plain.nodeName node).noneOnError.not_abort _)
      intro name _
      cases name <;> exact fun stopped => by cases stopped

/-- The prompt of an nk-block only fails as its path does. -/
theorem setPromptString_abort (some : node ≠ 0) : setPromptString fuel shell.loaded node h.view ≠ .error .abort := by
  rw [setPromptString, if_neg some]
  apply bind_abort printNodePath_abort
  intro path _ stopped
  cases stopped

/-- What gets a prompt is readable. -/
theorem isNk_of_prompt {prompt : List UInt8} (rooted : h.valid h.rootoffs = true) (root : IsNk h h.rootoffs)
    (sturdy : ¬Spoiled h node) (done : setPromptString fuel shell.loaded node h.view = .ok prompt) : IsNk h node := by
  by_cases none : node = 0
  · rw [setPromptString, if_pos none] at done
    cases done
  rw [setPromptString, if_neg none] at done
  obtain ⟨path, printed, -⟩ := bind_ok_iff.mp done
  cases fuel with
  | zero => cases printed
  | succ fuel =>
      by_cases top : node = h.rootoffs
      · rw [top]
        exact root
      have read := @hivexRoot_view h
      rw [if_pos rooted] at read
      rw [printNodePath, bind_query, zeroOnError_of_ok read, ok_bind, if_neg top, bind_query, bind_ok_iff] at printed
      obtain ⟨parent, found, -⟩ := printed
      rw [IsNk]
      cases block : requireBlock node Nk.id h.view with
      | ok => rfl
      | error stop =>
          cases stop with
          | errno code => exact absurd ⟨code, block⟩ sturdy
          | _ =>
              rw [zeroOnError, hivexNodeParent, bind_query, block] at found
              cases found

theorem Spoiled.prompt (spoiled : Spoiled h node) (some : node ≠ 0) (rooted : h.valid h.rootoffs = true)
    (root : IsNk h h.rootoffs) : ∃ prompt, setPromptString 1 shell.loaded node h.view = .ok prompt := by
  have read := @hivexRoot_view h
  rw [if_pos rooted] at read
  refine ⟨shell.loaded ++ [] ++ promptEnd, ?_⟩
  have path : printNodePath 1 node h.view = .ok [] := by
    rw [printNodePath, bind_query, zeroOnError_of_ok read, ok_bind, if_neg (spoiled.ne_root root), bind_query,
      spoiled.noParent]
    rfl
  rw [setPromptString, if_neg some]
  beta_reduce
  rw [bind_query, path]
  rfl

/-- `cmd_cd` walks over the components of its path from the start it takes. -/
theorem cmdCd_walks (rooted : h.valid h.rootoffs = true) (full : path.bytes ≠ []) (single : ¬Doubled path) :
    cmdCd fuel path shell h.view = (cdElements h.rootoffs (cdStart h shell.cwd path) (elements path) h.view).bind
      fun found => arrive fuel shell found h.view := by
  have read := @hivexRoot_view h
  rw [if_pos rooted] at read
  have notDoubled : ¬path.bytes.take 2 = [slash, slash] := single
  rw [cmdCd, if_neg full, if_neg notDoubled, bind_query, zeroOnError_of_ok read, ok_bind]
  by_cases absolute : path.bytes.head? = some slash
  · obtain ⟨rest, split⟩ := List.head?_eq_some_iff.mp absolute
    have skipped : elements path = [] :: rest.splitOn slash := by
      rw [elements, split]
      exact List.splitOn_append_cons_self_of_not_mem (List.not_mem_nil : slash ∉ []) rest
    rw [if_pos absolute, bind_query, cdLoop_elements, cdStart, if_pos absolute, skipped, split, List.tail_cons,
      Component.walk (.empty _)]
  · rw [if_neg absolute, bind_query, cdLoop_elements, cdStart, if_neg absolute]
    rfl

theorem IsNk.not_spoiled (nk : IsNk h node) : ¬Spoiled h node := by
  rintro ⟨code, failed⟩
  rw [IsNk, failed] at nk
  cases nk

/-- `cd` without a path prints and changes nothing. -/
theorem keepsPromise_empty (nk : IsNk h shell.cwd) (empty : path.bytes = []) : KeepsPromise h shell path := by
  intro fuel
  rw [cmdCd, if_pos empty, bind_query]
  constructor
  · apply bind_abort printNodePath_abort
    intro printed _ stopped
    cases stopped
  · intro r shell' done
    obtain ⟨printed, _, done⟩ := bind_ok_iff.mp done
    obtain ⟨rfl, rfl⟩ := Prod.mk.inj (Except.ok.inj done)
    have parts : elements path = [[]] := by
      rw [elements, empty]
      rfl
    have start : cdStart h shell.cwd path = shell.cwd := by
      rw [cdStart, empty]
      rfl
    refine ⟨nk, Or.inl ⟨rfl, ?_⟩⟩
    rw [parts, start]
    exact .cons (.empty _) (.nil _)

theorem keepsPromise_doubled (nk : IsNk h shell.cwd) (full : path.bytes ≠ []) (doubled : Doubled path) :
    KeepsPromise h shell path := by
  intro fuel
  have twice : path.bytes.take 2 = [slash, slash] := doubled
  rw [cmdCd, if_neg full, if_pos twice]
  constructor
  · intro stopped
    cases stopped
  · intro r shell' done
    obtain ⟨rfl, rfl⟩ := Prod.mk.inj (Except.ok.inj done)
    exact ⟨nk, Or.inr ⟨rfl, rfl, Or.inl doubled⟩⟩

theorem Strays.names_parent (strays : Strays h node path) : dotDot ∈ elements path := by
  obtain ⟨-, before, after, below, split, -⟩ := strays
  rw [split]
  simp

theorem Strays.full (strays : Strays h node path) : path.bytes ≠ [] := by
  intro empty
  have named := strays.names_parent
  rw [elements, empty] at named
  exact absurd named (by decide)

/-- A `cd` that strays aborts or ends at what is no nk-block. -/
theorem Strays.breaks (strays : Strays h shell.cwd path) (rooted : h.valid h.rootoffs = true)
    (root : IsNk h h.rootoffs) (nk : IsNk h shell.cwd) : ¬KeepsPromise h shell path := by
  intro keeps
  obtain ⟨last, walked, spoiled⟩ := strays.2.walk root
  have moved : last ≠ shell.cwd := by
    rintro rfl
    exact nk.not_spoiled spoiled
  by_cases none : last = 0
  · apply (keeps 0).1
    rw [cmdCd_walks rooted strays.full strays.1, walked, ok_bind, arrive, if_neg moved, bind_query, setPromptString,
      if_pos none]
    rfl
  · obtain ⟨prompt, printed⟩ := @Spoiled.prompt h last shell spoiled none rooted root
    have done : cmdCd 1 path shell h.view = .ok (0, { shell with cwd := last, prompt := prompt }) := by
      rw [cmdCd_walks rooted strays.full strays.1, walked, ok_bind, arrive, if_neg moved, bind_query, printed]
      rfl
    have usable : IsNk h last := ((keeps 1).2 _ _ done).usable
    exact usable.not_spoiled spoiled

/-- Where the components lead is where `cmd_cd` arrives. -/
theorem arrive_moved {last : Nat} (rooted : h.valid h.rootoffs = true) (root : IsNk h h.rootoffs)
    (nk : IsNk h shell.cwd) (leads : Leads h (elements path) (cdStart h shell.cwd path) last)
    (sturdy : ¬Spoiled h last) : arrive fuel shell (some last) h.view ≠ .error .abort ∧
      ∀ r shell', arrive fuel shell (some last) h.view = .ok (r, shell') → Moved h shell path r shell' := by
  rw [arrive]
  by_cases stays : last = shell.cwd
  · rw [if_pos stays]
    constructor
    · intro stopped
      cases stopped
    · intro r shell' done
      obtain ⟨rfl, rfl⟩ := Prod.mk.inj (Except.ok.inj done)
      rw [stays] at leads
      exact ⟨nk, Or.inl ⟨rfl, leads⟩⟩
  · have some : last ≠ 0 := by
      rintro rfl
      exact sturdy zero_spoiled
    rw [if_neg stays]
    constructor
    · apply bind_abort (setPromptString_abort some)
      intro prompt _ stopped
      cases stopped
    · intro r shell' done
      obtain ⟨prompt, printed, done⟩ := bind_ok_iff.mp done
      obtain ⟨rfl, rfl⟩ := Prod.mk.inj (Except.ok.inj done)
      exact ⟨isNk_of_prompt rooted root sturdy printed, Or.inl ⟨rfl, leads⟩⟩

/-- One `cd` from an nk-block does what it promises exactly if it does not stray. -/
theorem keepsPromise_iff (rooted : h.valid h.rootoffs = true) (root : IsNk h h.rootoffs) (nk : IsNk h shell.cwd) :
    KeepsPromise h shell path ↔ ¬Strays h shell.cwd path := by
  constructor
  · exact fun keeps strays => strays.breaks rooted root nk keeps
  intro straight
  by_cases full : path.bytes = []
  · exact keepsPromise_empty nk full
  by_cases single : Doubled path
  · exact keepsPromise_doubled nk full single
  have start : ¬Spoiled h (cdStart h shell.cwd path) := by
    rw [cdStart]
    split
    · exact root.not_spoiled
    · exact nk.not_spoiled
  intro fuel
  rw [cmdCd_walks rooted full single]
  have ends := (Plain.cdElements h.rootoffs (cdStart h shell.cwd path) (elements path)).not_abort h.view
  cases walked : cdElements h.rootoffs (cdStart h shell.cwd path) (elements path) h.view with
  | error stop =>
      rw [walked] at ends
      rw [error_bind]
      constructor
      · intro stopped
        exact ends (congrArg Except.error (Except.error.inj stopped))
      · intro r shell' done
        cases done
  | ok found =>
      rw [ok_bind]
      cases found with
      | none =>
          constructor
          · intro stopped
            cases stopped
          · intro r shell' done
            obtain ⟨rfl, rfl⟩ := Prod.mk.inj (Except.ok.inj done)
            refine ⟨nk, Or.inr ⟨rfl, rfl, Or.inr fun last leads => ?_⟩⟩
            have reached : cdElements h.rootoffs _ (elements path ++ []) h.view = .ok (some last) := leads.walk
            rw [List.append_nil, walked] at reached
            cases reached
      | some last =>
          obtain ⟨leads, sturdy⟩ := (cdElements_some root start walked).resolve_right
            fun strays => straight ⟨single, strays⟩
          exact arrive_moved rooted root nk leads sturdy

end Steps

section Sessions
variable {h : Hive} {file : File} {write : Bool} {hivefile : CString} {paths done : List CString} {shell : Shell}

theorem cmdLoad_cwd {fuel : Nat} (rooted : h.valid h.rootoffs = true) (loaded : cmdLoad fuel hivefile h.view = .ok shell) :
    shell.cwd = h.rootoffs := by
  have read := @hivexRoot_view h
  rw [if_pos rooted] at read
  rw [cmdLoad, bind_query, zeroOnError_of_ok read, ok_bind, bind_query, bind_ok_iff] at loaded
  obtain ⟨prompt, -, loaded⟩ := loaded
  cases loaded
  rfl

theorem cmdLoad_abort {fuel : Nat} : cmdLoad fuel hivefile h.view = .error .abort ↔ h.valid h.rootoffs = false := by
  have read := @hivexRoot_view h
  cases rooted : h.valid h.rootoffs with
  | false =>
      rw [rooted] at read
      rw [cmdLoad, bind_query, zeroOnError_of_errno read]
      exact ⟨fun _ => rfl, fun _ => rfl⟩
  | true =>
      rw [if_pos rooted] at read
      have some : h.rootoffs ≠ 0 := by
        have bounds := valid_bounds rooted
        omega
      constructor
      · intro stopped
        rw [cmdLoad, bind_query, zeroOnError_of_ok read, ok_bind, bind_query] at stopped
        refine absurd stopped (bind_abort ?_ fun prompt _ later => by cases later)
        exact @setPromptString_abort h fuel _ ⟨_, 0, []⟩ some
      · intro wrong
        cases wrong

/-- In a session without straying every prompt is at an nk-block. -/
theorem AtPrompt.isNk (before : AtPrompt h hivefile done shell) (rooted : h.valid h.rootoffs = true)
    (root : IsNk h h.rootoffs)
    (straight : ∀ early path, early ++ [path] <+: done → ∀ shell, AtPrompt h hivefile early shell →
      ¬Strays h shell.cwd path) : IsNk h shell.cwd := by
  induction before with
  | loaded loaded =>
      rw [cmdLoad_cwd rooted loaded]
      exact root
  | @moved fuel paths path shell shell' r before moved ih =>
      have nk := ih fun early path' front =>
        straight early path' (front.trans (List.prefix_append _ _))
      have keeps := (keepsPromise_iff rooted root nk).mpr (straight paths path (List.prefix_rfl) shell before)
      exact ((keeps fuel).2 r shell' moved).usable

end Sessions

abbrev kidPath : CString := cstr [0x4b, 0x49, 0x44]

def rootIsValid : Except Stop Hive → Bool
  | .error _ => false
  | .ok h => h.valid h.rootoffs

theorem rootIsValid_run {result : Except Stop Hive} (rooted : rootIsValid result = true) :
    ∃ h, result = .ok h ∧ h.valid h.rootoffs = true := by
  cases result with
  | error stop => cases rooted
  | ok h => exact ⟨h, rfl, rooted⟩

/-- `cd KID` and then `cd ..` abort the shell. -/
def abortsBehindKid : Except Stop Hive → Bool
  | .error _ => false
  | .ok h =>
      match cmdLoad 1 (cstr []) h.view with
      | .error _ => false
      | .ok shell =>
          match cmdCd 2 kidPath shell h.view with
          | .error _ => false
          | .ok (r, shell') => decide (r = 0) && decide (cmdCd 2 (cstr dotDot) shell' h.view = .error .abort)

theorem abortsBehindKid_run {result : Except Stop Hive} (aborts : abortsBehindKid result = true) :
    ∃ h, result = .ok h ∧ ∃ shell shell', cmdLoad 1 (cstr []) h.view = .ok shell ∧
      cmdCd 2 kidPath shell h.view = .ok (0, shell') ∧ cmdCd 2 (cstr dotDot) shell' h.view = .error .abort := by
  unfold abortsBehindKid at aborts
  split at aborts
  · cases aborts
  · rename_i h
    split at aborts
    · cases aborts
    · rename_i shell loaded
      split at aborts
      · cases aborts
      · rename_i r shell' moved
        simp only [Bool.and_eq_true, decide_eq_true_eq] at aborts
        obtain ⟨rfl, aborts⟩ := aborts
        exact ⟨h, rfl, shell, shell', loaded, moved, aborts⟩

end Hivex
