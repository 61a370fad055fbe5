import Hivex.HivePlatform
import Hivex.HiveSetValues
import Hivex.HiveReopen

/-! The same calls on a little-endian and on a big-endian host. A converted access is
the same on both. A call that reaches no unconverted one does the same on both:
the probe that stops at the first of them agrees with either host until it stops. -/
namespace Hivex

open ByteMemory Commands

section Conversions

theorem getLe_bytes (bytes : List UInt8) :
    leBytes bytes.length (getLe (fun i => bytes.getD i 0) 0 bytes.length) = bytes := by
  rw [leBytes_getLe]
  apply List.ext_getElem (by simp)
  intro k _ inside
  simp [slice, inside]

theorem bswap_bytes (n v : Nat) : leBytes n (bswap n v) = (leBytes n v).reverse := by
  have swapped := getLe_bytes (leBytes n v).reverse
  rw [List.length_reverse, leBytes_length] at swapped
  rw [bswap, swapped]

/-- A load with its conversion is the little-endian value of the bytes. -/
theorem Endian.convert_load (endian : Endian) (bytes : List UInt8) :
    endian.convert bytes.length (endian.load bytes) =
      getLe (fun i => bytes.getD i 0) 0 bytes.length := by
  cases endian with
  | little => rfl
  | big =>
      have loaded := getLe_bytes bytes.reverse
      rw [List.length_reverse] at loaded
      rw [Endian.convert, Endian.load, bswap, loaded, List.reverse_reverse]

/-- A store with its conversion writes the little-endian bytes. -/
theorem Endian.store_convert (endian : Endian) (n v : Nat) :
    endian.store n (endian.convert n v) = leBytes n v := by
  cases endian with
  | little => rfl
  | big => rw [Endian.store, Endian.convert, bswap_bytes, List.reverse_reverse]

/-- A load without a conversion, from the little-endian value. -/
theorem Endian.load_raw (endian : Endian) (bytes : List UInt8) :
    endian.load bytes =
      endian.convert bytes.length (getLe (fun i => bytes.getD i 0) 0 bytes.length) := by
  cases endian with
  | little => rfl
  | big => rw [Endian.convert, bswap, getLe_bytes, Endian.load]

/-- A store without a conversion, as a little-endian one. -/
theorem Endian.store_raw (endian : Endian) (n v : Nat) :
    endian.store n v = leBytes n (endian.convert n v) := by
  cases endian with
  | little => rfl
  | big => rw [Endian.store, Endian.convert, bswap_bytes]

end Conversions

section Probes

/-- Stops with `stop` before the first access without a conversion. -/
def forbid (stop : Stop) : Platform where
  word := id
  half := id
  raw := throw stop
  offset := fun _ => pure ()

/-- What makes `probe` a watcher of `p`: it stops with `alarm` or does the same. -/
structure Watches (alarm : Stop) (probe p : Platform) : Prop where
  raw : probe.raw = throw alarm ∨ probe.raw = p.raw ∧ probe.word = p.word ∧ probe.half = p.half
  offset : ∀ v, probe.offset v = throw alarm ∨ probe.offset v = p.offset v

theorem forbid_watches (alarm : Stop) (endian : Endian) : Watches alarm (forbid alarm) endian.platform :=
  ⟨Or.inl rfl, fun _ => Or.inr rfl⟩

-- The visitor of a delete has no callback but the one at the end of a node.
theorem visitValue_delete (probe p : Platform) (host : Host) (node value : Nat) :
    visitValue id host probe.deleteVisitor false node value =
      visitValue id host p.deleteVisitor false node value := by
  simp only [visitValue, visitTyped, visitInvalid, Platform.deleteVisitor]

theorem visitValues_delete (probe p : Platform) (host : Host) (node : Nat) (values : List Nat) :
    visitValues id host probe.deleteVisitor false node values =
      visitValues id host p.deleteVisitor false node values := by
  induction values with
  | nil => simp only [visitValues]
  | cons value rest ih => simp only [visitValues, ih, visitValue_delete probe p]

namespace Watches
variable {alarm : Stop} {probe p : Platform} (watches : Watches alarm probe p)
include watches

theorem storeOffset (i v : Nat) : Until alarm (probe.storeOffset i v) (p.storeOffset i v) := by
  unfold Platform.storeOffset
  rcases watches.offset v with stops | same
  · rw [stops]
    exact Until.raise _ _
  · rw [same]
    exact Until.refl _

theorem writePage (pages : Nat) : Until alarm (probe.writePage pages) (p.writePage pages) := by
  unfold Platform.writePage
  apply Until.after
  intro h
  apply Until.after
  intro _
  apply Until.after
  intro _
  apply (watches.storeOffset _ _).bind
  exact fun _ => Until.refl _

theorem allocatePage (host : Host) (hint : Nat) :
    Until alarm (probe.allocatePage host hint) (p.allocatePage host hint) := by
  unfold Platform.allocatePage
  apply Until.after
  intro h
  apply Until.ite
  · exact Until.after _ fun _ => watches.writePage _
  · exact watches.writePage _

theorem allocateBlock (host : Host) (segLen : Nat) (id : List UInt8) :
    Until alarm (probe.allocateBlock host segLen id) (p.allocateBlock host segLen id) := by
  unfold Platform.allocateBlock
  apply Until.after
  intro h
  apply Until.branch
  intro _
  apply Until.branch
  intro _
  apply Until.branch
  intro _
  apply Until.after
  intro h
  apply Until.ite
  · exact (watches.allocatePage host _).bind fun _ => Until.refl _
  · exact Until.refl _

theorem newNkRecord (host : Host) (parent : Nat) (name : CString) :
    Until alarm (probe.newNkRecord host parent name) (p.newNkRecord host parent name) := by
  unfold Platform.newNkRecord
  apply (watches.allocateBlock host _ _).bind
  intro node
  apply Until.after
  intro _
  exact (watches.storeOffset _ _).bind fun _ => Until.refl _

theorem newLhRecord (host : Host) (name : CString) (node : Nat) :
    Until alarm (probe.newLhRecord host name node) (p.newLhRecord host name node) := by
  unfold Platform.newLhRecord
  apply (watches.allocateBlock host _ _).bind
  intro offset
  apply Until.after
  intro _
  exact (watches.storeOffset _ _).bind fun _ => Until.refl _

theorem insertLfRecord (host : Host) (oldOffs posn : Nat) (name : CString) (node : Nat) :
    Until alarm (probe.insertLfRecord host oldOffs posn name node)
      (p.insertLfRecord host oldOffs posn name node) := by
  unfold Platform.insertLfRecord
  apply Until.after
  intro _
  apply Until.after
  intro id
  apply Until.after
  intro _
  apply Until.after
  intro nrKeys
  apply (watches.allocateBlock host _ _).bind
  intro newOffs
  apply Until.after
  intro _
  apply Until.after
  intro _
  exact (watches.storeOffset _ _).bind fun _ => Until.refl _

theorem relinkEntry (ri oldOffs newOffs : Nat) (entries : List Nat) :
    Until alarm (probe.relinkEntry ri oldOffs newOffs entries)
      (p.relinkEntry ri oldOffs newOffs entries) := by
  induction entries with
  | nil => exact Until.refl _
  | cons j rest ih =>
      unfold Platform.relinkEntry
      rcases watches.raw with stops | ⟨raw, word, half⟩
      · rw [stops]
        exact Until.raise _ _
      · rw [raw, word]
        apply Until.after
        intro _
        apply Until.after
        intro offset
        apply Until.ite
        · exact (watches.storeOffset _ _).bind fun _ => Until.refl _
        · exact ih

theorem relinkRi (oldOffs newOffs : Nat) (blocks : List Nat) :
    Until alarm (probe.relinkRi oldOffs newOffs blocks) (p.relinkRi oldOffs newOffs blocks) := by
  induction blocks with
  | nil => exact Until.refl _
  | cons block rest ih =>
      unfold Platform.relinkRi
      apply Until.after
      intro isRi
      apply Until.ite
      · apply Until.after
        intro nrOffsets
        apply (watches.relinkEntry _ _ _ _).bind
        intro found
        apply Until.ite
        · exact Until.refl _
        · exact ih
      · exact ih

theorem linkChild (host : Host) (parent node : Nat) (name : CString) (nrSubkeys : Nat)
    (blocks : List Nat) : Until alarm (probe.linkChild host parent node name nrSubkeys blocks)
      (p.linkChild host parent node name nrSubkeys blocks) := by
  unfold Platform.linkChild
  apply Until.ite
  · apply Until.after
    intro _
    apply (watches.newLhRecord host name node).bind
    exact fun lhOffs => watches.storeOffset _ _
  · apply Until.after
    intro found
    apply (watches.insertLfRecord host _ _ name node).bind
    intro newOffs
    apply Until.after
    intro subkeyLf
    apply Until.ite
    · exact watches.storeOffset _ _
    · exact watches.relinkRi _ _ _

theorem hivexNodeAddChild (host : Host) (parent : Nat) (name : CString) :
    Until alarm (probe.hivexNodeAddChild host parent name) (p.hivexNodeAddChild host parent name) := by
  unfold Platform.hivexNodeAddChild
  apply Until.after
  intro h
  apply Until.branch
  intro _
  apply Until.after
  intro _
  apply Until.branch
  intro _
  apply Until.after
  intro existing
  apply Until.branch
  intro _
  apply (watches.newNkRecord host parent name).bind
  intro node
  apply Until.after
  intro _
  apply Until.after
  intro children
  apply Until.after
  intro nrSubkeys
  exact (watches.linkChild host parent node name nrSubkeys _).bind fun _ => Until.refl _

theorem deleteSk (skOffset : Nat) :
    Until alarm (probe.deleteSk skOffset) (p.deleteSk skOffset) := by
  unfold Platform.deleteSk
  apply Until.after
  intro valid
  apply Until.branch_back
  intro _
  apply Until.after
  intro isSk
  apply Until.branch_back
  intro _
  rcases watches.raw with stops | ⟨raw, word, half⟩
  · rw [stops]
    exact Until.raise _ _
  · rw [raw, word]
    apply Until.after
    intro _
    apply Until.after
    intro refcount
    apply Until.branch
    intro _
    apply Until.after
    intro _
    apply Until.ite
    · have sameLinks : probe.unlinkSk skOffset = p.unlinkSk skOffset := by
        unfold Platform.unlinkSk
        rw [word]
      rw [sameLinks]
      exact Until.refl _
    · exact Until.refl _

theorem releaseSk (node : Nat) : Until alarm (probe.releaseSk node) (p.releaseSk node) := by
  unfold Platform.releaseSk
  apply Until.after
  intro skOffs
  apply Until.ite
  · exact (watches.deleteSk _).bind fun _ => Until.refl _
  · exact Until.refl _

theorem deleteNode (node : Nat) : Until alarm (probe.deleteNode node) (p.deleteNode node) := by
  unfold Platform.deleteNode
  apply Until.after
  intro children
  apply Until.after
  intro _
  apply Until.after
  intro _
  exact (watches.releaseSk node).bind fun _ => Until.refl _

theorem visitContents (host : Host) {descend descend' : Mem → Nat → Command Mem}
    (below : ∀ unvisited child, Until alarm (descend unvisited child) (descend' unvisited child))
    (node : Nat) (name : List UInt8) (unvisited : Mem) :
    Until alarm (Hivex.visitContents id host probe.deleteVisitor false descend node name unvisited)
      (Hivex.visitContents id host p.deleteVisitor false descend' node name unvisited) := by
  unfold Hivex.visitContents
  rw [funext (visitValues_delete probe p host node)]
  apply Until.after
  intro values
  cases values with
  | error code => exact Until.after (internalError false code) fun _ => Until.refl _
  | ok values =>
      apply Until.after (visitValues id host p.deleteVisitor false node values)
      intro whole
      apply Until.ite
      · exact Until.refl _
      · apply Until.after
        intro children
        cases children with
        | error code => exact Until.after (internalError false code) fun _ => Until.refl _
        | ok children =>
            apply (Until.foldlM below children unvisited).bind
            intro unvisited
            exact (watches.deleteNode node).bind fun _ => Until.refl _

theorem visitNode (host : Host) (len : Nat) : ∀ (fuel node : Nat) (unvisited : Mem),
    Until alarm (Hivex.visitNode id host probe.deleteVisitor false len fuel node unvisited)
      (Hivex.visitNode id host p.deleteVisitor false len fuel node unvisited) := by
  intro fuel
  induction fuel with
  | zero =>
      intro node unvisited
      simp only [Hivex.visitNode]
      exact Until.refl _
  | succ fuel ih =>
      intro node unvisited
      unfold Hivex.visitNode
      apply Until.after
      intro fresh
      apply Until.ite
      · exact Until.refl _
      · apply Until.after
        intro unvisited
        apply Until.after
        intro name
        cases name with
        | error code => exact Until.after (internalError false code) fun _ => Until.refl _
        | ok name => exact watches.visitContents host (fun unvisited child => ih child unvisited) node name _

theorem hivexNodeDeleteChild (host : Host) (node : Nat) :
    Until alarm (probe.hivexNodeDeleteChild host node) (p.hivexNodeDeleteChild host node) := by
  unfold Platform.hivexNodeDeleteChild
  apply Until.after
  intro h
  apply Until.branch
  intro _
  apply Until.after
  intro _
  apply Until.after
  intro root
  apply Until.branch
  intro _
  apply Until.after
  intro parent
  apply Until.bind _ fun _ => Until.refl _
  unfold hivexVisitNode
  apply Until.after
  intro h
  exact (watches.visitNode host _ _ _ _).bind fun _ => Until.refl _

theorem storeFlags (vkOffs nameLen : Nat) :
    Until alarm (probe.storeFlags vkOffs nameLen) (p.storeFlags vkOffs nameLen) := by
  unfold Platform.storeFlags
  apply Until.ite
  · exact Until.refl _
  · rcases watches.raw with stops | ⟨raw, word, half⟩
    · rw [stops]
      exact Until.raise _ _
    · rw [raw, half]
      exact Until.refl _

theorem newVkRecord (host : Host) (vallistOffs i : Nat) (val : SetValue) :
    Until alarm (probe.newVkRecord host vallistOffs i val) (p.newVkRecord host vallistOffs i val) := by
  unfold Platform.newVkRecord
  apply (watches.allocateBlock host _ _).bind
  intro vkOffs
  apply (watches.storeOffset _ _).bind
  intro _
  apply Until.after
  intro _
  apply Until.after
  intro _
  apply Until.after
  intro _
  apply Until.after
  intro _
  exact (watches.storeFlags _ _).bind fun _ => Until.refl _

theorem storeData (host : Host) (vkOffs : Nat) (value : List UInt8) :
    Until alarm (probe.storeData host vkOffs value) (p.storeData host vkOffs value) := by
  unfold Platform.storeData
  apply Until.ite
  · exact Until.refl _
  · apply (watches.allocateBlock host _ _).bind
    intro offs
    apply Until.after
    exact fun _ => watches.storeOffset _ _

theorem setOneValue (host : Host) (node vallistOffs i : Nat) (val : SetValue) :
    Until alarm (probe.setOneValue host node vallistOffs i val)
      (p.setOneValue host node vallistOffs i val) := by
  unfold Platform.setOneValue
  apply (watches.newVkRecord host vallistOffs i val).bind
  intro vkOffs
  exact (watches.storeData host vkOffs val.value).bind fun _ => Until.refl _

theorem storeValues (host : Host) (node : Nat) (values : List SetValue) :
    Until alarm (probe.storeValues host node values) (p.storeValues host node values) := by
  unfold Platform.storeValues
  apply (watches.allocateBlock host _ _).bind
  intro vallistOffs
  apply Until.after
  intro _
  apply (watches.storeOffset _ _).bind
  intro _
  apply Until.forM
  exact fun entry => watches.setOneValue host node vallistOffs entry.2 entry.1

theorem hivexNodeSetValues (host : Host) (node : Nat) (values : List SetValue) :
    Until alarm (probe.hivexNodeSetValues host node values) (p.hivexNodeSetValues host node values) := by
  unfold Platform.hivexNodeSetValues
  apply Until.after
  intro h
  apply Until.branch
  intro _
  apply Until.after
  intro _
  apply Until.after
  intro _
  apply Until.ite
  · exact Until.refl _
  · exact watches.storeValues host node values

theorem hivexNodeSetValue (host : Host) (node : Nat) (val : SetValue) :
    Until alarm (probe.hivexNodeSetValue host node val) (p.hivexNodeSetValue host node val) := by
  unfold Platform.hivexNodeSetValue
  apply Until.after
  intro values
  apply Until.after
  exact fun prev => watches.hivexNodeSetValues host node _

theorem hivexCommit (io : CommitIo) (flags : Nat) :
    Until alarm (probe.hivexCommit io flags) (p.hivexCommit io flags) := by
  unfold Platform.hivexCommit
  apply Until.branch
  intro _
  apply Until.after
  intro h
  apply Until.branch
  intro _
  apply Until.branch
  intro _
  apply Until.bind _ fun _ => Until.refl _
  unfold Platform.updateHeader
  apply Until.after
  intro sequence
  apply Until.after
  intro _
  apply Until.after
  intro _
  apply Until.after
  exact fun h => watches.storeOffset _ _

end Watches

end Probes

section Runs

inductive WriteCall where
  | addChild (parent : Nat) (name : CString)
  | deleteChild (node : Nat)
  | setValues (node : Nat) (values : List SetValue)
  | setValue (node : Nat) (val : SetValue)
  | commit (io : CommitIo) (flags : Nat)

/-- What a call returns when it does not fail; a commit its output file. -/
inductive Answer where
  | node (offset : Nat)
  | done
  | file (content : File)

def WriteCall.run (p : Platform) (host : Host) : WriteCall → Command Answer
  | .addChild parent name => do return .node (← p.hivexNodeAddChild host parent name)
  | .deleteChild node => do
      p.hivexNodeDeleteChild host node
      return .done
  | .setValues node values => do
      p.hivexNodeSetValues host node values
      return .done
  | .setValue node val => do
      p.hivexNodeSetValue host node val
      return .done
  | .commit io flags => do return .file (← p.hivexCommit io flags)

-- A call that returns, with an error or without, leaves a handle to go on with.
def handleAfter : EStateM.Result Stop Hive Answer → Option Hive
  | .ok _ h => some h
  | .error (.errno _) h => some h
  | .error _ _ => none

/-- The results of the calls, each with the handle and the image it leaves. -/
def runCalls (p : Platform) (host : Host) : List WriteCall → Hive → List (EStateM.Result Stop Hive Answer)
  | [], _ => []
  | call :: rest, h =>
      let result := call.run p host h
      result :: match handleAfter result with
        | some h => runCalls p host rest h
        | none => []

/-- `condition` holds before every call of the run. -/
def EachMeets (host : Host) (condition : WriteCall → Hive → Prop) : List WriteCall → Hive → Prop
  | [], _ => True
  | call :: rest, h => condition call h ∧
      ∀ g, handleAfter (call.run onLittle host h) = some g → EachMeets host condition rest g

/-- The call gets to an access without a conversion: a run that stops there for any
reason stops for that reason. -/
def ReachesRaw (host : Host) (call : WriteCall) (h : Hive) : Prop :=
  ∀ stop, ∃ g, call.run (forbid stop) host h = .error stop g

theorem Watches.run {alarm : Stop} {probe p : Platform} (watches : Watches alarm probe p)
    (host : Host) (call : WriteCall) : Until alarm (call.run probe host) (call.run p host) := by
  cases call with
  | addChild parent name => exact (watches.hivexNodeAddChild host parent name).bind fun _ => Until.refl _
  | deleteChild node => exact (watches.hivexNodeDeleteChild host node).bind fun _ => Until.refl _
  | setValues node values => exact (watches.hivexNodeSetValues host node values).bind fun _ => Until.refl _
  | setValue node val => exact (watches.hivexNodeSetValue host node val).bind fun _ => Until.refl _
  | commit io flags => exact (watches.hivexCommit io flags).bind fun _ => Until.refl _

theorem run_alike {host : Host} {call : WriteCall} {h : Hive} (converted : ¬ReachesRaw host call h) :
    call.run onBig host h = call.run onLittle host h := by
  obtain ⟨stop, passes⟩ := not_forall.mp converted
  have sameAs : ∀ endian : Endian, call.run endian.platform host h = call.run (forbid stop) host h := by
    intro endian
    rcases (forbid_watches stop endian).run host call h with stopped | same
    · exact absurd stopped passes
    · exact same
  exact (sameAs .big).trans (sameAs .little).symm

-- The default value of a key, of type binary and without data.
def unnamedValue : SetValue := ⟨⟨[], nulFree_nil⟩, 3, []⟩

def succeeds {ε σ α : Type} : EStateM.Result ε σ α → Bool
  | .ok _ _ => true
  | .error _ _ => false

theorem unnamed_converted :
    ¬ReachesRaw ampleHost (.setValues 0x1020 [unnamedValue]) minimal := by
  intro reaches
  obtain ⟨g, stopped⟩ := reaches .abort
  have passes : succeeds (WriteCall.run (forbid .abort) ampleHost
      (.setValues 0x1020 [unnamedValue]) minimal) = true := by decide +kernel
  have fails := congrArg succeeds stopped
  exact Bool.false_ne_true (fails.symm.trans passes)

def namedValue : SetValue := ⟨⟨[0x61], nulFree_a⟩, 3, []⟩

/-- The byte at `i` of the image that the first call leaves. -/
def firstByte (i : Nat) : List (EStateM.Result Stop Hive Answer) → Option UInt8
  | .ok _ h :: _ => some (h.addr i)
  | _ => none

/-- The smallest hive as it is opened for writing. -/
def writableMinimal : Hive :=
  minimal.committed.reopened [⟨0x1000, [0x1020, 0x1078, 0x1090]⟩] true

theorem named_flags :
    firstByte 0x203c (runCalls onBig ampleHost [.setValues 0x1020 [namedValue]] writableMinimal) =
        some 0 ∧
      firstByte 0x203c (runCalls onLittle ampleHost [.setValues 0x1020 [namedValue]] writableMinimal) =
        some 1 := by
  decide +kernel

end Runs

end Hivex
