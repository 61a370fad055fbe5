import Hivex.HiveDeleteCall
import Hivex.HiveCommitCall
import Hivex.CallHistories

/-! Sessions: any calls in any order on the handles that earlier calls gave back, also on
those of keys and values that are gone, with commits and openings of the file in between. -/
namespace Hivex

open ByteMemory Commands StoreTyping GhostRuns CallHistories

/-- The calls on an open handle. -/
inductive Call where
  | root
  | lastModified
  | nodeStructLength (node : Nat)
  | nodeName (node : Nat)
  | nodeTimestamp (node : Nat)
  | nodeChildren (node : Nat)
  | nodeGetChild (node : Nat) (nname : CString)
  | nodeParent (node : Nat)
  | nodeValues (node : Nat)
  | nodeGetValue (node : Nat) (key : CString)
  | valueStructLength (value : Nat)
  | valueKeyLen (value : Nat)
  | valueKey (value : Nat)
  | valueType (value : Nat)
  | valueValue (value : Nat)
  | valueString (value : Nat)
  | valueMultipleStrings (value : Nat)
  | valueDword (value : Nat)
  | valueQword (value : Nat)
  | nodeAddChild (parent : Nat) (name : CString)
  | nodeDeleteChild (node : Nat)
  | nodeSetValues (node : Nat) (values : List SetValue)
  | nodeSetValue (node : Nat) (val : SetValue)
  | commit (io : CommitIo) (flags : Nat)
  | reopen (io : CommitIo)

namespace Call

/-- The handles that a call takes. -/
def uses : Call → List Nat
  | root | lastModified | commit _ _ | reopen _ => []
  | nodeStructLength node | nodeName node | nodeTimestamp node | nodeChildren node | nodeGetChild node _
  | nodeParent node | nodeValues node | nodeGetValue node _ | nodeAddChild node _ | nodeDeleteChild node
  | nodeSetValues node _ | nodeSetValue node _ => [node]
  | valueStructLength value | valueKeyLen value | valueKey value | valueType value | valueValue value
  | valueString value | valueMultipleStrings value | valueDword value | valueQword value => [value]

-- The lookups return 0 where they find nothing.
def found (n : Nat) : List Nat := if n = 0 then [] else [n]

def asks {α : Type} (query : Reader α) (gives : α → List Nat) : Command (List Nat) := do
  let answer ← read query
  return gives answer

/-- The call, with the handles that it gives back. -/
def run (host : Host) : Call → Command (List Nat)
  | root => asks hivexRoot fun node => [node]
  | lastModified => asks hivexLastModified fun _ => []
  | nodeStructLength node => asks (hivexNodeStructLength node) fun _ => []
  | nodeName node => asks (hivexNodeName node) fun _ => []
  | nodeTimestamp node => asks (hivexNodeTimestamp node) fun _ => []
  | nodeChildren node => asks (hivexNodeChildren node) fun children => children
  | nodeGetChild node nname => asks (hivexNodeGetChild node nname) found
  | nodeParent node => asks (hivexNodeParent node) fun parent => [parent]
  | nodeValues node => asks (hivexNodeValues node) fun values => values
  | nodeGetValue node key => asks (hivexNodeGetValue node key) found
  | valueStructLength value => asks (hivexValueStructLength value) fun _ => []
  | valueKeyLen value => asks (hivexValueKeyLen value) fun _ => []
  | valueKey value => asks (hivexValueKey value) fun _ => []
  | valueType value => asks (hivexValueType value) fun _ => []
  | valueValue value => asks (hivexValueValue value) fun _ => []
  | valueString value => asks (hivexValueString host value) fun _ => []
  | valueMultipleStrings value => asks (hivexValueMultipleStrings host value) fun _ => []
  | valueDword value => asks (hivexValueDword value) fun _ => []
  | valueQword value => asks (hivexValueQword value) fun _ => []
  | nodeAddChild parent name => do
      let node ← hivexNodeAddChild host parent name
      return [node]
  | nodeDeleteChild node => do
      hivexNodeDeleteChild host node
      return []
  | nodeSetValues node values => do
      hivexNodeSetValues host node values
      return []
  | nodeSetValue node val => do
      hivexNodeSetValue host node val
      return []
  | commit io flags => do
      let _ ← hivexCommit io flags
      return []
  | reopen io => do
      commitReopen io
      return []

/-- What the call may touch, while the next new block is at `fresh` or behind. -/
def scope (roles : Roles) (fresh : Nat) : Call → Scope
  | nodeAddChild parent _ => childScope fresh parent
  | nodeDeleteChild node => deleteScope roles node
  | nodeSetValues node _ | nodeSetValue node _ => valueScope fresh node
  | _ => ⟨fun _ _ => False, fun _ _ => False, fun _ => False, fun _ => False, fun _ => False⟩

end Call

/-- The library as its callers see it. -/
abbrev library (host : Host) : Interface Stop Hive Call Nat := ⟨Call.run host, Call.uses, fun _ reason _ _ => Coded reason⟩

/-- The calls `made` from `start`, the handles held after them and the hive. -/
abbrev Session (host : Host) (given : List Nat) (start : Hive) : List Call → List Nat → Hive → Prop :=
  History (library host) given start

/-- Handles of records in use. -/
def InUse (roles : Roles) (h : Hive) (nodes : List Nat) : Prop :=
  ∀ n ∈ nodes, IsHandle roles n ∧ (h.cell n).isSome

section Readers
variable {host : Host} {h : Hive} {roles : Roles} {node value : Nat} {parent : Option Nat}

theorem hivexRoot_there : Ends (hivexRoot h.view) (fun n => n = h.rootoffs ∧ (h.cell n).isSome) Coded := by
  unfold hivexRoot
  apply Ends.known (isValidBlock_view h.rootoffs)
  split
  · next there =>
    rw [valid_eq_isSome] at there
    exact ⟨rfl, there⟩
  · exact coded _

theorem timestampCheck_ends (timestamp : Nat) : Ends (timestampCheck timestamp h.view) (fun _ => True) Coded := by
  unfold timestampCheck
  split
  · exact coded _
  · trivial

theorem hivexNodeStructLength_handle (typed : Typed h roles) (handle : IsHandle roles node) :
    Ends (hivexNodeStructLength node h.view) (fun _ => True) Coded := by
  apply (requireBlock_handle typed handle).seq
  rintro _ ⟨⟨parent, tagged⟩, there⟩
  obtain ⟨c, found⟩ := Option.isSome_iff_exists.mp there
  have long := (typed.nk tagged found).len
  apply Ends.known (rd16_cell (i := Nk.nameLen) typed.sound found (by simp only [Nk.nameLen]; omega))
  apply Ends.known (blockLen_cell typed.sound found)
  split
  · exact coded _
  · trivial

theorem hivexNodeTimestamp_handle (typed : Typed h roles) (handle : IsHandle roles node) :
    Ends (hivexNodeTimestamp node h.view) (fun _ => True) Coded := by
  apply (requireBlock_handle typed handle).seq
  rintro _ ⟨⟨parent, tagged⟩, there⟩
  obtain ⟨c, found⟩ := Option.isSome_iff_exists.mp there
  have long := (typed.nk tagged found).len
  apply Ends.known (rd64_cell (i := Nk.timestamp) typed.sound found (by simp only [Nk.timestamp]; omega))
  exact timestampCheck_ends _

theorem hivexNodeName_handle (typed : Typed h roles) (handle : IsHandle roles node) :
    Ends (hivexNodeName node h.view) (fun _ => True) Coded := by
  apply (requireBlock_handle typed handle).checked
  rintro ⟨⟨parent, tagged⟩, -⟩
  exact hivexNodeName_tagged typed tagged

theorem hivexNodeParent_handle (typed : Typed h roles) (handle : IsHandle roles node) :
    Ends (hivexNodeParent node h.view) (fun p => InUse roles h [p]) Coded := by
  apply (requireBlock_handle typed handle).checked
  rintro ⟨⟨up, tagged⟩, there⟩
  apply (hivexNodeParent_tagged typed tagged there).mono
  · rintro p ⟨rfl, alive⟩
    obtain ⟨g, isNk⟩ := typed.parents node p tagged
    intro n member
    cases List.mem_singleton.mp member
    exact ⟨Or.inl ⟨_, isNk⟩, alive⟩
  · exact fun _ stopped => stopped

-- A handle of a value is no handle of a key.
theorem hivexNodeChildren_handle (typed : Typed h roles) (handle : IsHandle roles node) :
    Ends (hivexNodeChildren node h.view) (fun children => ∀ k ∈ children, IsHandle roles k ∧ (h.cell k).isSome)
      Coded := by
  rcases handle with ⟨parent, tagged⟩ | ⟨owner, isVk⟩
  · apply (hivexNodeChildren_tagged typed tagged).mono
    · exact fun children each k member => ⟨Or.inl ⟨_, (each k member).1⟩, (each k member).2⟩
    · exact fun _ stopped => stopped
  · have refused : Ends (getChildren node false h.view) (fun _ => False) Coded := refused_handle typed isVk
    exact refused.seq fun _ never => never.elim

theorem hivexNodeValues_inUse (typed : Typed h roles) (handle : IsHandle roles node) :
    Ends (hivexNodeValues node h.view) (fun values => ∀ v ∈ values, IsHandle roles v ∧ (h.cell v).isSome) Coded := by
  apply (hivexNodeValues_handle typed handle).mono
  · exact fun values each v member => ⟨Or.inr ⟨_, (each v member).1⟩, (each v member).2⟩
  · exact fun _ stopped => stopped

theorem hivexValueKey_handle (typed : Typed h roles) (handle : IsHandle roles value) :
    Ends (hivexValueKey value h.view) (fun _ => True) Coded := by
  apply (requireBlock_value typed handle).checked
  rintro ⟨owner, tagged⟩
  exact hivexValueKey_tagged typed tagged

theorem hivexValueType_handle (typed : Typed h roles) (handle : IsHandle roles value) :
    Ends (hivexValueType value h.view) (fun _ => True) Coded := by
  apply (requireBlock_value typed handle).checked
  rintro ⟨owner, tagged⟩
  exact hivexValueType_tagged typed tagged

theorem hivexValueKeyLen_handle (typed : Typed h roles) (handle : IsHandle roles value) :
    Ends (hivexValueKeyLen value h.view) (fun _ => True) Coded := by
  apply (requireBlock_value typed handle).checked
  rintro ⟨owner, tagged⟩
  exact (hivexValueKeyLen_tagged typed tagged).mono (fun _ _ => trivial) fun _ stopped => stopped

/-- A lookup gives back a member of the list, or nothing. -/
theorem lookup_inUse {list : Reader (List Nat)} {nameOf : Nat → Reader (List UInt8)} {wanted : CString}
    (listed : Ends (list h.view) (fun xs => ∀ x ∈ xs, IsHandle roles x ∧ (h.cell x).isSome) Coded)
    (named : ∀ x, IsHandle roles x → Ends (nameOf x h.view) (fun _ => True) Coded) :
    Ends (zeroOnError (list >>= firstNamed nameOf wanted) h.view) (fun n => InUse roles h (Call.found n)) Coded := by
  have found : Ends ((list >>= firstNamed nameOf wanted) h.view) (fun n => InUse roles h (Call.found n)) Coded := by
    apply listed.seq
    intro xs each
    apply (firstNamed_tagged fun x member => named x (each x member).1).mono
    · intro n found x member
      unfold Call.found at member
      split at member
      · cases member
      · next present =>
        cases List.mem_singleton.mp member
        exact each n (found.resolve_left present)
    · exact fun _ stopped => stopped
  apply (zeroOnError_ends found).mono
  · rintro n (rfl | inUse)
    · exact fun x member => by cases member
    · exact inUse
  · exact fun _ stopped => stopped

end Readers

section Calls
variable {host : Host} {h : Hive} {roles : Roles} {call : Call} {scope : Scope}

theorem Kept.asks {α : Type} {query : Reader α} {gives : α → List Nat} {values : α → Prop} (kept : Kept h roles)
    (result : Ends (query h.view) values Coded) (inUse : ∀ answer, values answer → InUse roles h (gives answer)) :
    Abides host scope roles (Call.asks query gives) (fun nodes roles' h' => InUse roles' h' nodes) h := by
  unfold Call.asks
  apply kept.query result
  intro answer holds
  exact kept.done _ (inUse answer holds)

theorem Rooted.calls (opened : Rooted h roles) (below : host.Below4G) (uses : ∀ n ∈ call.uses, IsHandle roles n) :
    Abides host (call.scope roles h.frontier) roles (call.run host) (fun nodes roles' h' => InUse roles' h' nodes) h := by
  have kept := opened.toKept
  have typed := kept.toTyped
  have nothing : ∀ {α : Type} (answer : α), True → InUse roles h [] := fun _ _ n member => by cases member
  have done : ∀ {program : Command Unit} {scope : Scope}, Abides host scope roles program (fun _ _ _ => True) h →
      Abides host scope roles (program >>= fun _ => pure []) (fun nodes roles' h' => InUse roles' h' nodes) h := by
    intro program scope runs
    apply runs.bind
    intro _ roles' h' kept' _ _
    exact kept'.done _ fun n member => by cases member
  cases call with
  | root =>
      apply kept.asks hivexRoot_there
      rintro node ⟨rfl, there⟩ n member
      cases List.mem_singleton.mp member
      exact ⟨Or.inl ⟨_, opened.root⟩, there⟩
  | lastModified => exact kept.asks (timestampCheck_ends _) nothing
  | nodeStructLength node => exact kept.asks (hivexNodeStructLength_handle typed (uses node (by simp [Call.uses]))) nothing
  | nodeName node => exact kept.asks (hivexNodeName_handle typed (uses node (by simp [Call.uses]))) nothing
  | nodeTimestamp node => exact kept.asks (hivexNodeTimestamp_handle typed (uses node (by simp [Call.uses]))) nothing
  | nodeChildren node =>
      exact kept.asks (hivexNodeChildren_handle typed (uses node (by simp [Call.uses]))) fun _ each => each
  | nodeGetChild node nname =>
      apply kept.asks (lookup_inUse (hivexNodeChildren_handle typed (uses node (by simp [Call.uses]))) _)
      · exact fun _ inUse => inUse
      · exact fun x handle => hivexNodeName_handle typed handle
  | nodeParent node =>
      exact kept.asks (hivexNodeParent_handle typed (uses node (by simp [Call.uses]))) fun _ inUse => inUse
  | nodeValues node =>
      exact kept.asks (hivexNodeValues_inUse typed (uses node (by simp [Call.uses]))) fun _ each => each
  | nodeGetValue node key =>
      apply kept.asks (lookup_inUse (hivexNodeValues_inUse typed (uses node (by simp [Call.uses]))) _)
      · exact fun _ inUse => inUse
      · exact fun x handle => hivexValueKey_handle typed handle
  | valueStructLength value =>
      apply kept.asks ((hivexValueKeyLen_handle typed (uses value (by simp [Call.uses]))).seq _) nothing
      exact fun _ _ => trivial
  | valueKeyLen value => exact kept.asks (hivexValueKeyLen_handle typed (uses value (by simp [Call.uses]))) nothing
  | valueKey value => exact kept.asks (hivexValueKey_handle typed (uses value (by simp [Call.uses]))) nothing
  | valueType value => exact kept.asks (hivexValueType_handle typed (uses value (by simp [Call.uses]))) nothing
  | valueValue value => exact kept.asks (hivexValueValue_handle typed (uses value (by simp [Call.uses]))) nothing
  | valueString value => exact kept.asks (hivexValueString_handle typed (uses value (by simp [Call.uses]))) nothing
  | valueMultipleStrings value =>
      exact kept.asks (hivexValueMultipleStrings_handle typed (uses value (by simp [Call.uses]))) nothing
  | valueDword value => exact kept.asks (hivexValueDword_handle typed (uses value (by simp [Call.uses]))) nothing
  | valueQword value => exact kept.asks (hivexValueQword_handle typed (uses value (by simp [Call.uses]))) nothing
  | nodeAddChild parent name =>
      apply (Runs.mono (kept.hivexNodeAddChild below (uses parent (by simp [Call.uses]))) (fun _ _ _ _ _ holds => holds)
        fun _ _ _ _ _ => trivial).bind
      intro node roles' h' kept' _ added
      apply kept'.done
      intro n member
      cases List.mem_singleton.mp member
      exact ⟨Or.inl ⟨_, added.role⟩, added.alive⟩
  | nodeDeleteChild node =>
      exact done ((kept.deletesChild (uses node (by simp [Call.uses]))).mono fun _ _ _ _ _ _ => trivial)
  | nodeSetValues node values => exact done (kept.hivexNodeSetValues below (uses node (by simp [Call.uses])))
  | nodeSetValue node val => exact done (kept.hivexNodeSetValue below (uses node (by simp [Call.uses])))
  | commit io flags =>
      apply (kept.commits opened.rootThere io flags).bind
      intro _ roles' h' kept' _ _
      exact kept'.done _ fun n member => by cases member
  | reopen io => exact done ((opened.reopens io).mono fun _ _ _ _ _ _ => trivial)

end Calls

section Sessions
variable {host : Host} {start h g : Hive} {roles : Roles} {given held held' : List Nat} {made later : List Call}
  {call : Call} {scope : Scope} {node : Nat}

/-- The scope, with all blocks from `fresh` on. -/
def Scope.since (scope : Scope) (fresh : Nat) : Scope where
  writes := fun b role => fresh ≤ b ∨ scope.writes b role
  frees := fun b role => fresh ≤ b ∨ scope.frees b role
  makes := fun b => fresh ≤ b
  bears := scope.bears
  fields := scope.fields

/-- Wherever the call is made after `start`, it touches of the blocks before those in the scope at most, and
it gives children to the keys in the scope only. -/
structure Call.Within (start : Hive) (roles : Roles) (scope : Scope) (call : Call) : Prop where
  blocks : ∀ now h, Rooted h now → Moves (scope.since start.frontier) roles start now h →
    ∀ b < start.frontier, ∀ role, roles b = some role →
      ((call.scope now h.frontier).writes b role → scope.writes b role) ∧
        ((call.scope now h.frontier).frees b role → scope.frees b role)
  bears : ∀ now next p, (call.scope now next).bears p → scope.bears p
  fields : ∀ now next i, (call.scope now next).fields i → scope.fields i

theorem Call.makes_new {fresh b : Nat} (call : Call) (makes : (call.scope roles fresh).makes b) : fresh ≤ b := by
  cases call with
  | nodeAddChild parent name => exact makes
  | nodeSetValues node values => exact makes
  | nodeSetValue node val => exact makes
  | _ => exact makes.elim

theorem Call.changes_links {fresh i : Nat} (call : Call) (changes : (call.scope roles fresh).fields i) :
    linkFields i := by
  cases call with
  | nodeAddChild parent name => exact childWords_link changes
  | nodeDeleteChild node => exact changes
  | nodeSetValues node values => exact valueScope_link changes
  | nodeSetValue node val => exact valueScope_link changes
  | _ => exact changes.elim

theorem Under.parent_above {top n : Nat} (under : Under roles top n) :
    n = top ∨ ∃ p, roles n = some (.nk (some p)) := by
  cases under with
  | refl => exact Or.inl rfl
  | tail _ isParent => exact Or.inr ⟨_, isParent⟩

theorem Under.up {top n p : Nat} (under : Under roles top n) (isParent : roles n = some (.nk (some p))) :
    n = top ∨ Under roles top p := by
  cases under with
  | refl => exact Or.inl rfl
  | tail above isParent' =>
      rw [isParent] at isParent'
      cases isParent'
      exact Or.inr above

-- A root key is in no scope that frees.
theorem Call.root_stays {fresh b : Nat} (call : Call) (root : roles b = some (.nk none)) :
    ¬(call.scope roles fresh).frees b (.nk none) := by
  cases call with
  | nodeDeleteChild top =>
      rintro ⟨p, tagged, isSk | ⟨n, under, owned⟩⟩
      · cases isSk
      · cases owned
        rcases under.parent_above with rfl | ⟨q, isParent⟩
        · rw [root] at tagged
          cases tagged
        · rw [root] at isParent
          cases isParent
  | nodeAddChild parent name => exact Role.noConfusion
  | _ => exact fun never => never.elim

theorem IsHandle.mono {roles' : Roles} {n : Nat} (handle : IsHandle roles n) (grows : Extends roles roles') :
    IsHandle roles' n := by
  rcases handle with ⟨parent, tagged⟩ | ⟨owner, tagged⟩
  · exact Or.inl ⟨parent, grows _ _ tagged⟩
  · exact Or.inr ⟨owner, grows _ _ tagged⟩

section OneCall
variable {now next : Roles} {k : Hive}

theorem Rooted.stays (rooted : Rooted h now) (kept : Kept k next) (moved : Moves (call.scope now h.frontier) now h next k) :
    Rooted k next := by
  constructor
  · exact kept
  · rw [moved.keeps.rootoffs]
    exact moved.grows _ _ rooted.root
  · rw [moved.keeps.rootoffs, moved.alive rooted.toTyped rooted.root (call.root_stays rooted.root)]
    exact rooted.rootThere
  · exact rooted.headed.same moved.header moved.keeps.rootoffs

theorem Moves.andCall (moves : Moves (scope.since start.frontier) roles start now h) (rootedNow : Rooted h now)
    (inside : call.Within start roles scope) (moved : Moves (call.scope now h.frontier) now h next k) :
    Moves (scope.since start.frontier) roles start next k := by
  have frontier := moves.keeps.frontier
  apply moves.trans
  apply moved.widen
  · intro b _ role tagged
    by_cases new : start.frontier ≤ b
    · exact ⟨fun _ => Or.inl new, fun _ => Or.inl new⟩
    · have old : b < start.frontier := by omega
      rw [moves.tags b old] at tagged
      obtain ⟨writes, frees⟩ := inside.blocks now h rootedNow moves b old role tagged
      exact ⟨fun written => Or.inr (writes written), fun freed => Or.inr (frees freed)⟩
  · intro b _ makes
    exact frontier.trans (call.makes_new makes)
  · exact inside.bears now h.frontier
  · exact inside.fields now h.frontier

end OneCall

/-- What a session keeps: the roles, and every block before its start that none of its calls touches. -/
theorem Session.keeps (session : Session host given start made held h) (below : host.Below4G)
    (rooted : Rooted start roles) (handles : ∀ n ∈ given, IsHandle roles n)
    (within : ∀ call ∈ made, call.Within start roles scope) :
    ∃ roles', Rooted h roles' ∧ Moves (scope.since start.frontier) roles start roles' h ∧
      ∀ n ∈ held, IsHandle roles' n := by
  apply session.invariant within
  · exact ⟨roles, rooted, Moves.refl _ roles start, handles⟩
  rintro held h call inside ⟨now, rootedNow, moves, isHandle⟩ uses
  apply wp_mono (rootedNow.calls below fun n member => isHandle n (uses n member))
  · rintro more k ⟨next, kept, moved, inUse⟩
    refine ⟨next, rootedNow.stays kept moved, moves.andCall rootedNow inside moved, fun n member => ?_⟩
    rcases List.mem_append.mp member with new | before
    · exact (inUse n new).1
    · exact (isHandle n before).mono moved.grows
  · rintro reason k (ended | ⟨-, next, kept, moved, -⟩) returned
    · obtain ⟨code, rfl⟩ : Coded reason := returned
      rcases ended with ⟨never, -⟩ | never <;> cases never
    · exact ⟨next, rootedNow.stays kept moved, moves.andCall rootedNow inside moved,
        fun n member => (isHandle n member).mono moved.grows⟩

end Sessions

section Dead
variable {host : Host} {h : Hive} {node value n : Nat}

-- The lookups have no error of their own.
def Call.looksUp : Call → Bool
  | nodeGetChild _ _ | nodeGetValue _ _ => true
  | _ => false

theorem requireBlock_refuses {α : Type} {eqid : List UInt8} {next : Unit → Reader α} (gone : h.cell n = none) :
    (requireBlock n eqid >>= next) h.view = .error (.errno .EINVAL) := by
  rw [bind_query, requireBlock_none gone]
  rfl

theorem refuses_first {α β : Type} {first : Reader α} {next : α → Reader β} {reason : Stop}
    (refused : first h.view = .error reason) : (first >>= next) h.view = .error reason := by
  rw [bind_query, refused]
  rfl

theorem asks_refuses {α : Type} {query : Reader α} {gives : α → List Nat} {reason : Stop}
    (refused : query h.view = .error reason) : Call.asks query gives h = .error reason h := by
  unfold Call.asks
  apply run_error
  simp only [read, look, refused]

theorem asks_nothing {query : Reader (List Nat)} {nameOf : Nat → Reader (List UInt8)} {wanted : CString} {code : Errno}
    (refused : query h.view = .error (.errno code)) :
    Call.asks (zeroOnError (query >>= firstNamed nameOf wanted)) Call.found h = .ok [] h := by
  have zero : zeroOnError (query >>= firstNamed nameOf wanted) h.view = .ok 0 := by
    unfold zeroOnError
    rw [refuses_first refused]
  have answer : read (zeroOnError (query >>= firstNamed nameOf wanted)) h = .ok 0 h := by
    simp only [read, look, zero]
  unfold Call.asks
  rw [run_ok answer]
  rfl

theorem read_refuses (gone : h.cell n = none) (eqid : List UInt8) :
    read (requireBlock n eqid) h = .error (.errno .EINVAL) h := by
  simp only [read, look, requireBlock_none gone]

/-- A call on the handle of a record that is gone fails and changes nothing. -/
theorem Call.run_gone {call : Call} (writable : h.writable = true) (gone : h.cell n = none) (uses : n ∈ call.uses) :
    call.run host h = if call.looksUp then .ok [] h else .error (.errno .EINVAL) h := by
  cases call <;> simp only [Call.uses, List.mem_singleton, List.not_mem_nil] at uses <;> subst uses
  case nodeStructLength => exact asks_refuses (requireBlock_refuses gone)
  case nodeName => exact asks_refuses (requireBlock_refuses gone)
  case nodeTimestamp => exact asks_refuses (requireBlock_refuses gone)
  case nodeChildren => exact asks_refuses (refuses_first (requireBlock_refuses gone))
  case nodeGetChild => exact asks_nothing (refuses_first (requireBlock_refuses gone))
  case nodeParent => exact asks_refuses (requireBlock_refuses gone)
  case nodeValues => exact asks_refuses (refuses_first (requireBlock_refuses gone))
  case nodeGetValue => exact asks_nothing (refuses_first (requireBlock_refuses gone))
  case valueStructLength => exact asks_refuses (refuses_first (requireBlock_refuses gone))
  case valueKeyLen => exact asks_refuses (requireBlock_refuses gone)
  case valueKey => exact asks_refuses (requireBlock_refuses gone)
  case valueType => exact asks_refuses (requireBlock_refuses gone)
  case valueValue => exact asks_refuses (requireBlock_refuses gone)
  case valueString => exact asks_refuses (refuses_first (requireBlock_refuses gone))
  case valueMultipleStrings => exact asks_refuses (refuses_first (requireBlock_refuses gone))
  case valueDword => exact asks_refuses (refuses_first (requireBlock_refuses gone))
  case valueQword => exact asks_refuses (refuses_first (requireBlock_refuses gone))
  case nodeAddChild =>
    apply run_error
    unfold hivexNodeAddChild
    rw [get_then, writable]
    exact run_error (read_refuses gone Nk.id)
  case nodeDeleteChild =>
    apply run_error
    unfold hivexNodeDeleteChild
    rw [get_then, writable]
    exact run_error (read_refuses gone Nk.id)
  case nodeSetValues =>
    apply run_error
    unfold hivexNodeSetValues
    rw [get_then, writable]
    exact run_error (read_refuses gone Nk.id)
  case nodeSetValue =>
    have refused : hivexNodeValues n h.view = .error (.errno .EINVAL) := refuses_first (requireBlock_refuses gone)
    apply run_error
    unfold hivexNodeSetValue
    apply run_error
    simp only [read, look, refused]

end Dead

section Results
variable {host : Host} {start h k : Hive} {roles : Roles} {given held held' : List Nat} {made later : List Call} {call : Call}
  {n : Nat}

/-- Everything, for calls on which nothing is known. -/
def Scope.all : Scope := ⟨fun _ _ => True, fun _ _ => True, fun _ => True, fun _ => True, linkFields⟩

theorem Call.within_all (call : Call) : call.Within start roles Scope.all :=
  ⟨fun _ _ _ _ _ _ _ _ => ⟨fun _ => trivial, fun _ => trivial⟩, fun _ _ _ _ => trivial,
    fun _ _ _ changed => call.changes_links changed⟩

/-- The handle of a record that is gone stays one. No call gives it back, and every call that takes it
fails and leaves the hive as it is. -/
theorem Session.stays_gone (session : Session host [] start made held h) (after : Session host held h later held' k)
    (below : host.Below4G) (rooted : Rooted start roles) (member : n ∈ held) (gone : h.valid n = false) :
    k.valid n = false ∧
      (∀ call : Call, n ∈ call.uses →
        call.run host k = if call.looksUp then .ok [] k else .error (.errno .EINVAL) k) ∧
      ∀ (call : Call) more t, (∀ m ∈ call.uses, m ∈ held') → call.run host k = .ok more t → n ∉ more := by
  obtain ⟨now, rootedNow, -, handles⟩ :=
    Session.keeps session below rooted (by simp) fun call _ => call.within_all
  obtain ⟨next, rootedNext, moves, handles'⟩ :=
    Session.keeps after below rootedNow handles fun call _ => call.within_all
  have old : n < h.frontier := by
    rcases handles n member with ⟨parent, tagged⟩ | ⟨owner, tagged⟩
    · exact (rootedNow.bounds _ _ tagged).2
    · exact (rootedNow.bounds _ _ tagged).2
  rw [valid_eq_isSome, Option.isSome_eq_false_iff, Option.isNone_iff_eq_none] at gone
  have absent := moves.gone n old gone
  refine ⟨?_, fun call uses => Call.run_gone rootedNext.writable absent uses, fun call more t uses run given => ?_⟩
  · rw [valid_eq_isSome, absent]
    rfl
  · have ends := rootedNext.calls below fun m member => handles' m (uses m member)
    unfold Abides Promises Runs wp at ends
    rw [run] at ends
    obtain ⟨last, -, moves', inUse⟩ := ends
    have there := (inUse n given).2
    rw [moves'.gone n (by have := moves.keeps.frontier; omega) absent] at there
    cases there

/-- After any session the hive can be written out. The file opens again, and all that can be read of the new
handle is as before. Where the file cannot be written the old handle reads as before. -/
theorem Session.survives_reopening (session : Session host [] start made held h) (below : host.Below4G)
    (rooted : Rooted start roles) (io : CommitIo) :
    (∀ nodes g, (Call.reopen io).run host h = .ok nodes g → ReadsAlike h g) ∧
      (∀ reason g, (Call.reopen io).run host h = .error reason g → Coded reason ∧ ReadsAlike h g) ∧
      (io.openOk = true → io.writeOk = true → io.closeOk = true → ∃ g, (Call.reopen io).run host h = .ok [] g) := by
  obtain ⟨now, rootedNow, -, -⟩ :=
    Session.keeps session below rooted (by simp) fun call _ => call.within_all
  have ends := rootedNow.reopens_alike io
  unfold wp at ends
  refine ⟨fun nodes g run => ?_, fun reason g run => ?_, fun opens writes closes => ?_⟩
  · cases result : commitReopen io h with
    | ok value k =>
        rw [result] at ends
        have same : (Call.reopen io).run host h = .ok [] k := run_ok result
        rw [same] at run
        cases run
        exact ends.readsAlike
    | error reason k =>
        have same : (Call.reopen io).run host h = .error reason k := run_error result
        rw [same] at run
        cases run
  · cases result : commitReopen io h with
    | ok value k =>
        have same : (Call.reopen io).run host h = .ok [] k := run_ok result
        rw [same] at run
        cases run
    | error reason k =>
        rw [result] at ends
        have same : (Call.reopen io).run host h = .error reason k := run_error result
        rw [same] at run
        cases run
        exact ⟨ends.1, ends.2.readsAlike⟩
  · obtain ⟨openOk, writeOk, closeOk⟩ := io
    cases opens
    cases writes
    cases closes
    obtain ⟨g, run⟩ := rootedNow.reopens_run
    exact ⟨g, run_ok run⟩

end Results

section Sample
variable {α : Type}

/-- The run succeeds and its last state passes the test. -/
def endsIn (test : Hive → Bool) : EStateM.Result Stop Hive α → Bool
  | .ok _ h => test h
  | .error _ _ => false

theorem run_endsIn {test : Hive → Bool} {program : Command α} {h : Hive} (ends : endsIn test (program h) = true) :
    ∃ value k, program h = .ok value k ∧ test k = true := by
  cases run : program h with
  | ok value k =>
      rw [run] at ends
      exact ⟨value, k, rfl, ends⟩
  | error reason k =>
      rw [run] at ends
      cases ends

theorem family_rooted : Rooted family familyRoles := by
  refine ⟨family_kept, rfl, ?_, ?_⟩
  · rw [← valid_eq_isSome]
    decide +kernel
  · exact ⟨by decide +kernel, by decide +kernel, by decide +kernel⟩

/-- A program asks for the root key and its children. -/
theorem family_listed : Session ampleHost [] family [.root, .nodeChildren 0x1020] [0x10a0, 0x1020] family := by
  have root : (library ampleHost).run .root family = .ok [0x1020] family := by rfl
  have children : (library ampleHost).run (.nodeChildren 0x1020) family = .ok [0x10a0] family := by rfl
  have first : Session ampleHost [] family [.root] [0x1020] family :=
    History.opened.returned (fun n member => by cases member) root
  have uses : ∀ n ∈ (library ampleHost).uses (.nodeChildren 0x1020), n ∈ [0x1020] := fun n member => member
  exact first.returned uses children

theorem family_gone : ∃ h k held, Session ampleHost [] family [.root, .nodeChildren 0x1020, .nodeDeleteChild 0x10a0] held h ∧
    Session ampleHost held h [.nodeName 0x10a0] held k ∧ k.valid 0x10a0 = false ∧
    (∀ call : Call, 0x10a0 ∈ call.uses →
      call.run ampleHost k = if call.looksUp then .ok [] k else .error (.errno .EINVAL) k) ∧
    ∀ (call : Call) more t, (∀ m ∈ call.uses, m ∈ held) → call.run ampleHost k = .ok more t → 0x10a0 ∉ more := by
  have deletes : endsIn (fun k => !k.valid 0x10a0)
      ((library ampleHost).run (.nodeDeleteChild 0x10a0) family) = true := by decide +kernel
  obtain ⟨more, h, run, gone⟩ := run_endsIn deletes
  have dead : h.valid 0x10a0 = false := by simpa using gone
  have deleted := family_listed.returned (by simp [Call.uses]) run
  have refused : (library ampleHost).run (.nodeName 0x10a0) h = .error (.errno .EINVAL) h := by
    apply asks_refuses
    apply requireBlock_refuses
    rw [valid_eq_isSome] at dead
    simpa using dead
  have after : Session ampleHost (more ++ [0x10a0, 0x1020]) h [.nodeName 0x10a0] (more ++ [0x10a0, 0x1020]) h :=
    History.opened.refused (by simp [Call.uses]) refused (coded _)
  exact ⟨h, h, _, deleted, after, Session.stays_gone deleted after ampleHost_ample.below4G family_rooted (by simp) dead⟩

theorem family_survives_reopening :
    ∃ g, (Call.reopen ⟨true, true, true⟩).run ampleHost family = .ok [] g ∧ ReadsAlike family g := by
  obtain ⟨alike, -, succeeds⟩ :=
    Session.survives_reopening family_listed ampleHost_ample.below4G family_rooted ⟨true, true, true⟩
  obtain ⟨g, run⟩ := succeeds rfl rfl rfl
  exact ⟨g, run, alike [] g run⟩

end Sample

end Hivex
