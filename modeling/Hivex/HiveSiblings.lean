import Hivex.HiveAgreement
import Hivex.HiveEndian

/-! The existence test of `hivex_node_add_child`. The lookup returns 0 both for a name
that is not there and for one that it could not look for. -/
namespace Hivex

open ByteMemory Commands

/-- The names of all children can be read. -/
def ReadsSiblings (h : Hive) (parent : Nat) : Prop :=
  ∃ children, hivexNodeChildren parent h.view = .ok children ∧
    ∀ k ∈ children, ∃ bytes, hivexNodeName k h.view = .ok bytes

/-- The key has a readable name that differs from `name` in more than case. -/
def NamedOtherwise (h : Hive) (name : CString) (k : Nat) : Prop :=
  ∃ bytes, hivexNodeName k h.view = .ok bytes ∧ strcasecmp (cstr bytes) name ≠ 0

/-- No child has the name, and every name on the way to a child that has it can be read. -/
def NoTwin (h : Hive) (parent : Nat) (name : CString) : Prop :=
  ∃ children, hivexNodeChildren parent h.view = .ok children ∧
    (∀ k ∈ children, ∀ bytes, hivexNodeName k h.view = .ok bytes → strcasecmp (cstr bytes) name ≠ 0) ∧
    ∀ front k back, children = front ++ k :: back → (∀ m ∈ front, NamedOtherwise h name m) →
      ∃ bytes, hivexNodeName k h.view = .ok bytes

section Lookup
variable {h : Hive} {host : Host} {parent node : Nat} {name : CString}

theorem fail_ne_ok {α : Type} {code : Errno} {next : Unit → Command α} {value : α} {g : Hive} :
    (fail code >>= next) h ≠ .ok value g := by
  intro run
  cases run

/-- A child that is created was not found by the lookup. -/
theorem hivexNodeAddChild_absent {g : Hive} (run : hivexNodeAddChild host parent name h = .ok node g) :
    hivexNodeGetChild parent name h.view = .ok 0 := by
  unfold hivexNodeAddChild at run
  rw [get_then] at run
  split at run
  · exact absurd run fail_ne_ok
  · cases nk : requireBlock parent Nk.id h.view with
    | error reason =>
        have stops : read (requireBlock parent Nk.id) h = .error reason h := by simp [read, look, nk]
        have same := (run_error stops).symm.trans run
        cases same
    | ok checked =>
        have passes : read (requireBlock parent Nk.id) h = .ok checked h := by simp [read, look, nk]
        have rest := (run_ok passes).symm.trans run
        split at rest
        · exact absurd rest fail_ne_ok
        · cases searched : hivexNodeGetChild parent name h.view with
          | error reason =>
              have stops : read (hivexNodeGetChild parent name) h = .error reason h := by
                simp [read, look, searched]
              have same := (run_error stops).symm.trans rest
              cases same
          | ok found =>
              have looks : read (hivexNodeGetChild parent name) h = .ok found h := by
                simp [read, look, searched]
              have later := (run_ok looks).symm.trans rest
              split at later
              · exact absurd later fail_ne_ok
              · next absent => exact congrArg _ (not_not.mp absent)

theorem hivexNodeName_low {bytes : List UInt8} (named : hivexNodeName node h.view = .ok bytes) :
    0x1000 ≤ node := by
  unfold hivexNodeName at named
  rw [bind_query] at named
  cases nk : requireBlock node Nk.id h.view with
  | error reason =>
      rw [nk] at named
      contradiction
  | ok checked => exact requireBlock_low nk

/-- A search that ends with 0 has read every name. -/
theorem firstNamed_zero {keys : List Nat} (searched : firstNamed hivexNodeName name keys h.view = .ok 0) :
    ∀ k ∈ keys, NamedOtherwise h name k := by
  induction keys with
  | nil => exact fun k member => by cases member
  | cons first rest ih =>
      rw [firstNamed, bind_query] at searched
      cases named : hivexNodeName first h.view with
      | error reason =>
          rw [named] at searched
          contradiction
      | ok bytes =>
          rw [named, ok_bind] at searched
          split at searched
          · have isZero : first = 0 := Except.ok.inj searched
            have low := hivexNodeName_low named
            omega
          · next other =>
              intro k member
              rcases List.mem_cons.mp member with rfl | later
              · exact ⟨bytes, named, other⟩
              · exact ih searched k later

/-- Where every name can be read, the search does not fail. -/
theorem firstNamed_reads {keys : List Nat} (reads : ∀ k ∈ keys, ∃ bytes, hivexNodeName k h.view = .ok bytes) :
    ∃ found, firstNamed hivexNodeName name keys h.view = .ok found := by
  induction keys with
  | nil => exact ⟨0, rfl⟩
  | cons first rest ih =>
      obtain ⟨bytes, named⟩ := reads first (by simp)
      rw [firstNamed, bind_query, named, ok_bind]
      split
      · exact ⟨first, rfl⟩
      · exact ih fun k member => reads k (by simp [member])

theorem ReadsSiblings.searched (reads : ReadsSiblings h parent)
    (absent : hivexNodeGetChild parent name h.view = .ok 0) :
    ∃ children, hivexNodeChildren parent h.view = .ok children ∧ ∀ k ∈ children, NamedOtherwise h name k := by
  obtain ⟨children, listed, names⟩ := reads
  obtain ⟨found, search⟩ := @firstNamed_reads h name children names
  have result : hivexNodeGetChild parent name h.view = .ok found := by
    unfold hivexNodeGetChild zeroOnError
    rw [bind_query, listed, ok_bind, search]
  rw [result] at absent
  rw [Except.ok.inj absent] at search
  exact ⟨children, listed, firstNamed_zero search⟩

/-- Names read up to a match are all names where nothing matches. -/
theorem all_named {children front : List Nat}
    (otherwise : ∀ k ∈ children, ∀ bytes, hivexNodeName k h.view = .ok bytes → strcasecmp (cstr bytes) name ≠ 0)
    (reads : ∀ front k back, children = front ++ k :: back → (∀ m ∈ front, NamedOtherwise h name m) →
      ∃ bytes, hivexNodeName k h.view = .ok bytes) :
    ∀ back, children = front ++ back → (∀ m ∈ front, NamedOtherwise h name m) →
      ∀ m ∈ back, NamedOtherwise h name m := by
  intro back
  induction back generalizing front with
  | nil => exact fun _ _ m member => by cases member
  | cons k back ih =>
      intro split before m member
      obtain ⟨bytes, named⟩ := reads front k back split before
      have here : NamedOtherwise h name k := ⟨bytes, named, otherwise k (by simp [split]) bytes named⟩
      rcases List.mem_cons.mp member with rfl | later
      · exact here
      · apply @ih (front ++ [k])
        · simpa using split
        · intro m' member'
          rcases List.mem_append.mp member' with inFront | isK
          · exact before m' inFront
          · rw [List.mem_singleton.mp isK]
            exact here
        · exact later

end Lookup

def nameA : CString := ⟨[0x61], nulFree_a⟩

/-- The smallest hive with two subkeys: the first has a name length that exceeds its
block, the second is named "a". -/
def damagedImage : Mem :=
  [(0x1020 + Nk.nrSubkeys, leBytes 4 2), (0x1020 + Nk.subkeyLf, leBytes 4 0x90),
    (0x1090, leBytes 4 (2 ^ 32 - 24)), (0x1094, Lf.idLh), (0x1090 + Lf.nrKeys, leBytes 2 2),
    (0x1090 + Lf.keyOffset 0, leBytes 4 0xa8), (0x1090 + Lf.keyOffset 1, leBytes 4 0x100),
    (0x10a8, leBytes 4 (2 ^ 32 - 88)), (0x10ac, Nk.id), (0x10a8 + Nk.parent, leBytes 4 0x20),
    (0x10a8 + Nk.subkeyLf, leBytes 4 0xffffffff), (0x10a8 + Nk.vallist, leBytes 4 0xffffffff),
    (0x10a8 + Nk.sk, leBytes 4 0x78), (0x10a8 + Nk.classname, leBytes 4 0xffffffff),
    (0x10a8 + Nk.nameLen, leBytes 2 0x100),
    (0x1100, leBytes 4 (2 ^ 32 - 88)), (0x1104, Nk.id), (0x1100 + Nk.parent, leBytes 4 0x20),
    (0x1100 + Nk.subkeyLf, leBytes 4 0xffffffff), (0x1100 + Nk.vallist, leBytes 4 0xffffffff),
    (0x1100 + Nk.sk, leBytes 4 0x78), (0x1100 + Nk.classname, leBytes 4 0xffffffff),
    (0x1100 + Nk.nameLen, leBytes 2 1), (0x1100 + Nk.name, [0x61]), (0x1078 + Sk.refcount, leBytes 4 3),
    (0x1158, leBytes 4 0xea8)].foldl (fun image (i, bytes) => blit image i bytes) minimalImage

def damaged : Hive := { minimal with addr := damagedImage }

/-- The call succeeds although the name of the child at 0x1100 is the new name. -/
def twinAdded : Except Stop Hive → Bool
  | .ok h => succeeds (hivexNodeAddChild ampleHost 0x1020 nameA h) &&
      decide (hivexNodeChildren 0x1020 h.view = .ok [0x10a8, 0x1100]) &&
      decide (hivexNodeName 0x1100 h.view = .ok [0x61])
  | .error _ => false

end Hivex
