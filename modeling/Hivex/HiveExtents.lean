import Hivex.HiveOpenBlocks
import Hivex.HiveVisitWalk
import Hivex.HiveSetValues

/-! Which bytes the read functions look at. A handle is read through a view that shows
the bytes of each valid block, and those only; a query that leaves them ends `outside`. -/
namespace Hivex

open ByteMemory Commands

/-- The bytes that may be touched through a valid block are those below its length. -/
def Hive.extents (h : Hive) : View := ⟨h, fun b i => h.valid b && decide (i < h.blockLength b)⟩

/-- The query looks at bytes of valid blocks and at marks within the bitmap only. -/
def StaysInside {α : Type} (h : Hive) (query : Reader α) : Prop := query h.extents ≠ .error .outside

/-- A valid block with this id. -/
def IsRecord (h : Hive) (id : List UInt8) (b : Nat) : Prop := h.valid b = true ∧ slice h.addr (b + 4) 2 = id

def Hive.word16 (h : Hive) (b i : Nat) : Nat := getLe h.addr (b + i) 2
def Hive.word32 (h : Hive) (b i : Nat) : Nat := getLe h.addr (b + i) 4

/-- The parts of records that are read without a look at the length of their block. -/
structure WholeRecords (h : Hive) : Prop where
  nk : ∀ b, IsRecord h Nk.id b → Nk.nameLen + 2 ≤ h.blockLength b
  vk : ∀ b, IsRecord h Vk.id b → Vk.dataType + 4 ≤ h.blockLength b
  ri : ∀ node ri, IsRecord h Nk.id node → ri = h.word32 node Nk.subkeyLf + 0x1000 → IsRecord h Ri.id ri →
    8 + 4 * h.word16 ri Ri.nrOffsets ≤ h.blockLength ri ∧
      ∀ i < h.word16 ri Ri.nrOffsets, ∀ lf, lf = h.word32 ri (Ri.offset i) + 0x1000 →
        IsRecord h Lf.idLf lf ∨ IsRecord h Lf.idLh lf → 8 + 8 * h.word16 lf Lf.nrKeys ≤ h.blockLength lf

section Visit
variable (host : Host) (given : Callbacks) (skipBad : Bool) (len : Nat)

-- What becomes of a visit where a reader fails.
def skipped {α : Type} (code : Errno) (value : α) : Reader α :=
  if skipBad then pure value else throw (.errno code)

/-- The reads of `hivex__visit_node` while the callbacks return 0. -/
def visitReads : Nat → Nat → Mem → Reader Mem
  | 0, _, _ => throw .fuel
  | fuel + 1, node, unvisited => do
      let fresh ← fun _ => bitmapTst unvisited len node
      if !fresh then skipped skipBad .ELOOP unvisited
      else
      let unvisited ← fun _ => bitmapClr unvisited len node
      match ← tried (hivexNodeName node) with
      | .error code => skipped skipBad code unvisited
      | .ok _ =>
      match ← tried (contents host given node) with
      | .error code => skipped skipBad code unvisited
      | .ok (_, children) => children.foldlM (fun bits child => visitReads fuel child bits) unvisited

/-- The reads of `hivex_visit_node`. -/
def hivexVisitReads (node : Nat) : Reader Unit := do
  let v ← readThe View
  let len := bitmapLen v.hive.size
  let _ ← visitReads host given skipBad len (8 * len + 1) node v.hive.bitmap

end Visit

/-- The read functions on the handle `off`. -/
structure ReadsInside (h : Hive) (off : Nat) : Prop where
  name : StaysInside h (hivexNodeName off)
  timestamp : StaysInside h (hivexNodeTimestamp off)
  children : StaysInside h (hivexNodeChildren off)
  getChild : ∀ nname, StaysInside h (hivexNodeGetChild off nname)
  parent : StaysInside h (hivexNodeParent off)
  values : StaysInside h (hivexNodeValues off)
  getValue : ∀ key, StaysInside h (hivexNodeGetValue off key)
  key : StaysInside h (hivexValueKey off)
  type : StaysInside h (hivexValueType off)
  value : StaysInside h (hivexValueValue off)

def VisitInside (h : Hive) (off : Nat) : Prop :=
  ∀ host given skipBad, StaysInside h (hivexVisitReads host given skipBad off)

/-- What becomes of a declared count or length that goes beyond its block. The names, the direct lists
and the inline data are refused; data out of line is cut to its block. -/
structure DeclaredChecked (h : Hive) (off : Nat) : Prop where
  name : IsRecord h Nk.id off → h.blockLength off < Nk.name + h.word16 off Nk.nameLen →
    hivexNodeName off h.extents = .error (.errno .EFAULT)
  children : ∀ lf, IsRecord h Nk.id off → h.word32 off Nk.nrSubkeys ≠ 0 →
    lf = h.word32 off Nk.subkeyLf + 0x1000 → IsRecord h Lf.idLf lf ∨ IsRecord h Lf.idLh lf →
    h.blockLength lf < 8 + 8 * h.word16 lf Lf.nrKeys →
      (∃ code, hivexNodeChildren off h.extents = .error (.errno code)) ∧
        ∀ nname, hivexNodeGetChild off nname h.extents = .ok 0
  values : ∀ vlist, IsRecord h Nk.id off → h.word32 off Nk.nrValues ≠ 0 →
    vlist = h.word32 off Nk.vallist + 0x1000 → h.valid vlist = true →
    h.blockLength vlist < 4 + 4 * h.word32 off Nk.nrValues →
      (∃ code, hivexNodeValues off h.extents = .error (.errno code)) ∧
        ∀ key, hivexNodeGetValue off key h.extents = .ok 0
  key : IsRecord h Vk.id off → h.blockLength off < Vk.name + h.word16 off Vk.nameLen →
    hivexValueKey off h.extents = .error (.errno .EFAULT)
  inline : IsRecord h Vk.id off → 2 ^ 31 + 4 < h.word32 off Vk.dataLen →
    hivexValueValue off h.extents = .error (.errno .ENOTSUP)
  data : ∀ data, IsRecord h Vk.id off → h.word32 off Vk.dataLen ≤ hiveMaxValueLen →
    data = h.word32 off Vk.dataOffset + 0x1000 → h.valid data = true →
    h.blockLength data < 4 + h.word32 off Vk.dataLen →
      hivexValueValue off h.extents =
        .ok (h.word32 off Vk.dataType, slice h.addr (data + 4) (h.blockLength data - 4))

/-- Data out of line that goes beyond its block is refused. -/
def DataRefused (h : Hive) (off : Nat) : Prop :=
  ∀ data, IsRecord h Vk.id off → h.word32 off Vk.dataLen ≤ hiveMaxValueLen →
    data = h.word32 off Vk.dataOffset + 0x1000 → h.valid data = true →
    h.blockLength data < 4 + h.word32 off Vk.dataLen →
      ∃ code, hivexValueValue off h.extents = .error (.errno code)

/-- The query stays inside and what it returns is in `post`. -/
def Bounded {α : Type} (h : Hive) (query : Reader α) (post : α → Prop) : Prop :=
  Ends (query h.extents) post (· ≠ .outside)

section Bounded
variable {α β : Type} {h : Hive} {post : α → Prop} {final : β → Prop}

theorem Bounded.inside {query : Reader α} (bounded : Bounded h query post) : StaysInside h query := by
  unfold StaysInside
  intro outside
  unfold Bounded at bounded
  rw [outside] at bounded
  exact bounded rfl

theorem Bounded.pure {value : α} (holds : post value) : Bounded h (pure value) post := holds

theorem Bounded.failed (code : Errno) : Bounded h (throw (.errno code)) post := Stop.noConfusion

theorem Bounded.bind {first : Reader α} {next : α → Reader β} (bounded : Bounded h first post)
    (continues : ∀ value, post value → Bounded h (next value) final) : Bounded h (first >>= next) final :=
  Ends.seq bounded continues

theorem Bounded.known {first : Reader α} {next : α → Reader β} {value : α}
    (result : first h.extents = .ok value) (continues : Bounded h (next value) final) :
    Bounded h (first >>= next) final := Ends.known result continues

theorem Bounded.mapM_all {f : α → Reader β} {xs : List α} (each : ∀ x ∈ xs, Bounded h (f x) final) :
    Bounded h (xs.mapM f) fun ys => ∀ y ∈ ys, final y := Ends.mapM_all f _ xs final each

theorem Bounded.mapM {f : α → Reader β} {xs : List α} (each : ∀ x ∈ xs, Bounded h (f x) fun _ => True) :
    Bounded h (xs.mapM f) fun _ => True :=
  Ends.mono (Ends.mapM_all f _ xs _ each) (fun _ _ => trivial) fun _ stays => stays

theorem Bounded.mono {post' : α → Prop} {query : Reader α} (bounded : Bounded h query post)
    (weaker : ∀ value, post value → post' value) : Bounded h query post' :=
  Ends.mono bounded weaker fun _ stays => stays

-- A failed reader is no reason to look elsewhere.
theorem Bounded.tried {query : Reader α} (bounded : Bounded h query post) :
    Bounded h (tried query) fun result => ∀ value, result = .ok value → post value := by
  unfold Bounded Hivex.tried at *
  cases found : query h.extents with
  | ok value =>
      rw [found] at bounded
      rintro other ⟨⟩
      exact bounded
  | error reason =>
      rw [found] at bounded
      cases reason with
      | errno code => rintro other ⟨⟩
      | outside => exact absurd rfl bounded
      | abort => exact Stop.noConfusion
      | dangling => exact Stop.noConfusion
      | fuel => exact Stop.noConfusion

theorem Bounded.zeroOnError {query : Reader Nat} (bounded : Bounded h query fun _ => True) :
    Bounded h (zeroOnError query) fun _ => True := by
  unfold Bounded Hivex.zeroOnError at *
  cases found : query h.extents with
  | ok value => trivial
  | error reason =>
      rw [found] at bounded
      cases reason with
      | errno code => trivial
      | outside => exact absurd rfl bounded
      | abort => exact Stop.noConfusion
      | dangling => exact Stop.noConfusion
      | fuel => exact Stop.noConfusion

end Bounded

section Extents
variable {h : Hive} {b off i n : Nat}

theorem mayAll_extents (valid : h.valid b = true) (inside : i + n ≤ h.blockLength b) :
    h.extents.mayAll b i n = true := by
  simp only [View.mayAll, List.all_eq_true, List.mem_range, Hive.extents, valid, Bool.true_and,
    decide_eq_true_eq]
  omega

theorem rdLe_extents (valid : h.valid b = true) (inside : i + n ≤ h.blockLength b) :
    rdLe n b i h.extents = .ok (getLe h.addr (b + i) n) := by
  simp only [rdLe, mayAll_extents valid inside, if_true]
  rfl

theorem rd16_extents (valid : h.valid b = true) (inside : i + 2 ≤ h.blockLength b) :
    rd16 b i h.extents = .ok (h.word16 b i) := rdLe_extents valid inside

theorem rd32_extents (valid : h.valid b = true) (inside : i + 4 ≤ h.blockLength b) :
    rd32 b i h.extents = .ok (h.word32 b i) := rdLe_extents valid inside

theorem rdBytes_extents (valid : h.valid b = true) (inside : i + n ≤ h.blockLength b) :
    rdBytes b i n h.extents = .ok (slice h.addr (b + i) n) := by
  simp only [rdBytes, mayAll_extents valid inside, if_true]
  rfl

theorem isValidBlock_extents (off : Nat) : isValidBlock off h.extents = .ok (h.valid off) :=
  isValidBlock_view off

/-- What the scan of an accepted file leaves of the blocks: each is long enough for a header and an id. -/
def LongBlocks (h : Hive) : Prop := ∀ b, h.valid b = true → 8 ≤ h.blockLength b

theorem Accepts.longBlocks {file : File} {write : Bool} (accepted : Accepts file write h) : LongBlocks h := by
  intro b valid
  have good := accepted.goodLength valid
  omega

theorem blockLen_extents (long : LongBlocks h) (valid : h.valid b = true) :
    blockLen b h.extents = .ok (h.blockLength b) := by
  have inside := long b valid
  unfold blockLen
  rw [bind_query, rd32_extents (i := 0) valid (by omega)]
  rfl

theorem blockIdEq_extents (long : LongBlocks h) (valid : h.valid b = true) (eqid : List UInt8) :
    blockIdEq b eqid h.extents = .ok (decide (slice h.addr (b + 4) 2 = eqid)) := by
  have inside := long b valid
  unfold blockIdEq
  rw [bind_query, rdBytes_extents valid (by omega)]
  rfl

theorem Bounded.bytes (valid : h.valid b = true) (inside : i + n ≤ h.blockLength b) :
    Bounded h (rdBytes b i n) fun _ => True := by
  unfold Bounded
  rw [rdBytes_extents valid inside]
  trivial

variable {β : Type} {final : β → Prop}

theorem Bounded.unlessValid {code : Errno} {next : Reader β}
    (continues : h.valid off = true → Bounded h next final) :
    Bounded h (do
      unless (← isValidBlock off) do throw (.errno code)
      next) final := by
  apply Bounded.known (isValidBlock_extents off)
  cases valid : h.valid off with
  | false => exact Bounded.failed _
  | true => exact continues valid

theorem Bounded.record (long : LongBlocks h) {eqid : List UInt8} {next : Unit → Reader β}
    (continues : IsRecord h eqid off → Bounded h (next ()) final) :
    Bounded h (requireBlock off eqid >>= next) final := by
  have checked : Bounded h (requireBlock off eqid) fun _ => IsRecord h eqid off := by
    apply Bounded.unlessValid
    intro valid
    apply Bounded.known (blockIdEq_extents long valid eqid)
    by_cases same : slice h.addr (off + 4) 2 = eqid
    · simp only [same, decide_true, if_true]
      exact ⟨valid, same⟩
    · simp only [same, decide_false, Bool.false_eq_true, if_false]
      exact Bounded.failed _
  exact checked.bind fun _ isRecord => continues isRecord

end Extents

section Readers
variable {h : Hive} {off : Nat}

theorem bounded_nodeName (long : LongBlocks h) (whole : WholeRecords h) :
    Bounded h (hivexNodeName off) fun _ => True := by
  apply Bounded.record long
  intro isNk
  have fixed := whole.nk off isNk
  simp only [Nk.nameLen] at fixed
  apply Bounded.known (rd16_extents (i := Nk.nameLen) isNk.1 fixed)
  apply Bounded.known (blockLen_extents long isNk.1)
  split
  · exact Bounded.failed _
  next fits =>
  simp only [Nk.sizeof] at fits
  exact Bounded.bytes isNk.1 (by simp only [Nk.name]; omega)

theorem bounded_nodeTimestamp (long : LongBlocks h) (whole : WholeRecords h) :
    Bounded h (hivexNodeTimestamp off) fun _ => True := by
  apply Bounded.record long
  intro isNk
  have fixed := whole.nk off isNk
  simp only [Nk.nameLen] at fixed
  apply Bounded.known (rdLe_extents (i := Nk.timestamp) isNk.1 (by simp only [Nk.timestamp]; omega))
  unfold timestampCheck
  split
  · exact Bounded.failed _
  · exact Bounded.pure trivial

theorem bounded_nodeParent (long : LongBlocks h) (whole : WholeRecords h) :
    Bounded h (hivexNodeParent off) fun _ => True := by
  apply Bounded.record long
  intro isNk
  have fixed := whole.nk off isNk
  simp only [Nk.nameLen] at fixed
  apply Bounded.known (rd32_extents (i := Nk.parent) isNk.1 (by simp only [Nk.parent]; omega))
  apply Bounded.unlessValid
  exact fun _ => Bounded.pure trivial

/-- The entries of an lf/lh-record that fits its block. -/
theorem bounded_getSubkeys {lf : Nat} (valid : h.valid lf = true) {nrKeys : Nat}
    (fits : 8 + 8 * nrKeys ≤ h.blockLength lf) :
    Bounded h (getSubkeys false lf nrKeys) fun children => ∀ child ∈ children, h.valid child = true := by
  apply Bounded.mapM_all
  intro j member
  have inside := List.mem_range.mp member
  apply Bounded.known (rd32_extents (i := Lf.keyOffset j) valid (by simp only [Lf.keyOffset]; omega))
  apply Bounded.unlessValid
  exact fun alive => Bounded.pure alive

theorem bounded_getRiOffset (long : LongBlocks h) {ri i : Nat} (valid : h.valid ri = true)
    (inside : 8 + 4 * i + 4 ≤ h.blockLength ri) :
    Bounded h (getRiOffset ri i) fun lf => lf = h.word32 ri (Ri.offset i) + 0x1000 ∧
      (IsRecord h Lf.idLf lf ∨ IsRecord h Lf.idLh lf) := by
  apply Bounded.known (rd32_extents (i := Ri.offset i) valid (by simp only [Ri.offset]; omega))
  apply Bounded.unlessValid
  intro alive
  apply Bounded.known (blockIdEq_extents long alive Lf.idLf)
  by_cases isLf : slice h.addr (h.word32 ri (Ri.offset i) + 0x1000 + 4) 2 = Lf.idLf
  · simp only [isLf, decide_true, if_true]
    exact ⟨rfl, Or.inl ⟨alive, isLf⟩⟩
  · simp only [isLf, decide_false, Bool.false_eq_true, if_false]
    apply Bounded.known (blockIdEq_extents long alive Lf.idLh)
    by_cases isLh : slice h.addr (h.word32 ri (Ri.offset i) + 0x1000 + 4) 2 = Lf.idLh
    · simp only [isLh, decide_true, if_true]
      exact ⟨rfl, Or.inr ⟨alive, isLh⟩⟩
    · simp only [isLh, decide_false, Bool.false_eq_true, if_false]
      exact Bounded.failed _

/-- `get_children` finds the direct list short enough itself; it takes the indirect ones as they are. -/
theorem bounded_getChildren (long : LongBlocks h) (whole : WholeRecords h) :
    Bounded h (getChildren off false) fun result => ∀ child ∈ result.1, h.valid child = true := by
  apply Bounded.record long
  intro isNk
  have fixed := whole.nk off isNk
  simp only [Nk.nameLen] at fixed
  apply Bounded.known (rd32_extents (i := Nk.nrSubkeys) isNk.1 (by simp only [Nk.nrSubkeys]; omega))
  have empty : ∀ child ∈ ([] : List Nat), h.valid child = true := fun child member => by cases member
  split
  · exact Bounded.pure empty
  split
  · exact Bounded.failed _
  apply Bounded.known (rd32_extents (i := Nk.subkeyLf) isNk.1 (by simp only [Nk.subkeyLf]; omega))
  apply Bounded.unlessValid
  intro valid
  have header := long _ valid
  apply Bounded.known (rdBytes_extents (i := 4) (n := 2) valid (by omega))
  split
  · apply Bounded.known (rd16_extents (i := Lf.nrKeys) valid (by simp only [Lf.nrKeys]; omega))
    split
    · exact Bounded.failed _
    apply Bounded.known (blockLen_extents long valid)
    split
    · exact Bounded.failed _
    next fits =>
    apply (bounded_getSubkeys valid (by omega)).bind
    exact fun children alive => Bounded.pure alive
  split
  · next isRi =>
    obtain ⟨room, lists⟩ := whole.ri off _ isNk rfl ⟨valid, isRi⟩
    apply Bounded.known (rd16_extents (i := Ri.nrOffsets) valid (by simp only [Ri.nrOffsets]; omega))
    have counted : Bounded h ((List.range (h.word16 (h.word32 off Nk.subkeyLf + 0x1000) Ri.nrOffsets)).mapM
        fun i => do
          let offset ← getRiOffset (h.word32 off Nk.subkeyLf + 0x1000) i
          let nrKeys ← rd16 offset Lf.nrKeys
          return (offset, nrKeys)) fun _ => True := by
      apply Bounded.mapM
      intro i member
      have inside := List.mem_range.mp member
      apply (bounded_getRiOffset long valid (by omega)).bind
      rintro lf ⟨_, isList⟩
      have alive : h.valid lf = true := isList.elim And.left And.left
      have header := long lf alive
      apply Bounded.known (rd16_extents (i := Lf.nrKeys) alive (by simp only [Lf.nrKeys]; omega))
      exact Bounded.pure trivial
    apply counted.bind
    intro counted _
    split
    · exact Bounded.failed _
    have copied : Bounded h ((List.range (h.word16 (h.word32 off Nk.subkeyLf + 0x1000) Ri.nrOffsets)).mapM
        fun i => do
          let offset ← getRiOffset (h.word32 off Nk.subkeyLf + 0x1000) i
          let nrKeys ← rd16 offset Lf.nrKeys
          getSubkeys false offset nrKeys) fun lists =>
        ∀ children ∈ lists, ∀ child ∈ children, h.valid child = true := by
      apply Bounded.mapM_all
      intro i member
      have inside := List.mem_range.mp member
      apply (bounded_getRiOffset long valid (by omega)).bind
      rintro lf ⟨named, isList⟩
      have alive : h.valid lf = true := isList.elim And.left And.left
      have header := long lf alive
      apply Bounded.known (rd16_extents (i := Lf.nrKeys) alive (by simp only [Lf.nrKeys]; omega))
      exact bounded_getSubkeys alive (lists i inside lf named isList)
    apply copied.bind
    intro lists alive
    apply Bounded.pure
    intro child member
    obtain ⟨children, isList, listed⟩ := List.mem_flatten.mp member
    exact alive children isList child listed
  · exact Bounded.failed _

theorem bounded_nodeChildren (long : LongBlocks h) (whole : WholeRecords h) :
    Bounded h (hivexNodeChildren off) fun children => ∀ child ∈ children, h.valid child = true := by
  apply (bounded_getChildren long whole).bind
  exact fun result alive => Bounded.pure alive

theorem bounded_nodeValues (long : LongBlocks h) (whole : WholeRecords h) :
    Bounded h (hivexNodeValues off) fun _ => True := by
  suffices Bounded h (getValues off) fun _ => True from this.bind fun result _ => Bounded.pure trivial
  apply Bounded.record long
  intro isNk
  have fixed := whole.nk off isNk
  simp only [Nk.nameLen] at fixed
  apply Bounded.known (rd32_extents (i := Nk.nrValues) isNk.1 (by simp only [Nk.nrValues]; omega))
  split
  · exact Bounded.pure trivial
  split
  · exact Bounded.failed _
  apply Bounded.known (rd32_extents (i := Nk.vallist) isNk.1 (by simp only [Nk.vallist]; omega))
  apply Bounded.unlessValid
  intro valid
  apply Bounded.known (blockLen_extents long valid)
  split
  · exact Bounded.failed _
  next fits =>
  have each : Bounded h ((List.range (h.word32 off Nk.nrValues)).mapM
      (getValueOffset (h.word32 off Nk.vallist + 0x1000))) fun _ => True := by
    apply Bounded.mapM
    intro i member
    have inside := List.mem_range.mp member
    apply Bounded.known (rd32_extents (i := ValueList.offset i) valid (by simp only [ValueList.offset]; omega))
    apply Bounded.unlessValid
    exact fun _ => Bounded.pure trivial
  exact each.bind fun _ _ => Bounded.pure trivial

theorem bounded_valueKeyLen (long : LongBlocks h) :
    Bounded h (hivexValueKeyLen off) fun len => Vk.name + len ≤ h.blockLength off := by
  apply Bounded.record long
  intro isVk
  have header := long off isVk.1
  apply Bounded.known (rd16_extents (i := Vk.nameLen) isVk.1 (by simp only [Vk.nameLen]; omega))
  apply Bounded.known (blockLen_extents long isVk.1)
  split
  · exact Bounded.failed _
  next fits =>
  apply Bounded.pure
  simp only [Vk.sizeof, Vk.name] at *
  omega

theorem bounded_valueKey (long : LongBlocks h) : Bounded h (hivexValueKey off) fun _ => True := by
  apply Bounded.record long
  intro isVk
  apply (bounded_valueKeyLen long).bind
  exact fun len fits => Bounded.bytes isVk.1 fits

theorem bounded_valueType (long : LongBlocks h) (whole : WholeRecords h) :
    Bounded h (hivexValueType off) fun _ => True := by
  apply Bounded.record long
  intro isVk
  have fixed := whole.vk off isVk
  simp only [Vk.dataType] at fixed
  apply Bounded.known (rd32_extents (i := Vk.dataType) isVk.1 fixed)
  apply Bounded.known (rd32_extents (i := Vk.dataLen) isVk.1 (by simp only [Vk.dataLen]; omega))
  exact Bounded.pure trivial

theorem bounded_valueValue (long : LongBlocks h) (whole : WholeRecords h) :
    Bounded h (hivexValueValue off) fun _ => True := by
  apply Bounded.record long
  intro isVk
  have fixed := whole.vk off isVk
  simp only [Vk.dataType] at fixed
  apply Bounded.known (rd32_extents (i := Vk.dataType) isVk.1 fixed)
  apply Bounded.known (rd32_extents (i := Vk.dataLen) isVk.1 (by simp only [Vk.dataLen]; omega))
  dsimp only
  split
  · exact Bounded.failed _
  next short =>
  split
  · exact Bounded.failed _
  split
  · next isInline =>
    have few : h.word32 off Vk.dataLen % 2 ^ 31 ≤ 4 := by
      by_contra many
      exact short ⟨isInline, by omega⟩
    apply Bounded.known (rdBytes_extents (i := Vk.dataOffset) isVk.1 (by simp only [Vk.dataOffset]; omega))
    exact Bounded.pure trivial
  apply Bounded.known (rd32_extents (i := Vk.dataOffset) isVk.1 (by simp only [Vk.dataOffset]; omega))
  apply Bounded.unlessValid
  intro valid
  have header := long _ valid
  apply Bounded.known (blockLen_extents long valid)
  apply Bounded.known (rdBytes_extents (i := 4) valid (by split <;> omega))
  exact Bounded.pure trivial

theorem bounded_firstNamed {nameOf : Nat → Reader (List UInt8)}
    (names : ∀ x, Bounded h (nameOf x) fun _ => True) (wanted : CString) (xs : List Nat) :
    Bounded h (firstNamed nameOf wanted xs) fun _ => True := by
  induction xs with
  | nil => exact Bounded.pure trivial
  | cons x xs ih =>
      apply (names x).bind
      intro name _
      split
      · exact Bounded.pure trivial
      · exact ih

theorem bounded_nodeGetChild (long : LongBlocks h) (whole : WholeRecords h) (nname : CString) :
    Bounded h (hivexNodeGetChild off nname) fun _ => True := by
  apply Bounded.zeroOnError
  apply (bounded_nodeChildren long whole).bind
  exact fun children _ => bounded_firstNamed (fun x => bounded_nodeName long whole) nname children

theorem bounded_nodeGetValue (long : LongBlocks h) (whole : WholeRecords h) (key : CString) :
    Bounded h (hivexNodeGetValue off key) fun _ => True := by
  apply Bounded.zeroOnError
  apply (bounded_nodeValues long whole).bind
  exact fun values _ => bounded_firstNamed (fun x => bounded_valueKey long) key values

theorem reads_inside (long : LongBlocks h) (whole : WholeRecords h) (off : Nat) : ReadsInside h off where
  name := (bounded_nodeName long whole).inside
  timestamp := (bounded_nodeTimestamp long whole).inside
  children := (bounded_nodeChildren long whole).inside
  getChild nname := (bounded_nodeGetChild long whole nname).inside
  parent := (bounded_nodeParent long whole).inside
  values := (bounded_nodeValues long whole).inside
  getValue key := (bounded_nodeGetValue long whole key).inside
  key := (bounded_valueKey long).inside
  type := (bounded_valueType long whole).inside
  value := (bounded_valueValue long whole).inside

end Readers

section Course
variable {h : Hive} {host : Host} {given : Callbacks} {answer : Answers} {skipBad : Bool} {len fuel : Nat}
  {bits bits' : Mem} {nodes : List Nat} {new : List Event}

theorem bitmapClr_fresh {node : Nat} (fresh : bitmapTst bits len node = .ok true) :
    bitmapClr bits len node = .ok (PackedBits.clear bits (node / 4)) := by
  unfold bitmapTst at fresh
  split at fresh
  · exact if_pos ‹_›
  · cases fresh

theorem tried_failed {α : Type} {query : Reader α} {code : Errno}
    (failed : query h.view = .error (.errno code)) : tried query h.view = .ok (.error code) := by
  simp only [tried, failed, Stop.code?]

theorem tried_left {α : Type} {query : Reader α} (left : query h.view = .error .outside) :
    tried query h.view = .error .outside := by
  simp only [tried, left, Stop.code?]

theorem tried_found {α : Type} {query : Reader α} {value : α} (found : query h.view = .ok value) :
    tried query h.view = .ok (.ok value) := by
  simp only [tried, found]

theorem foldlM_known {α β : Type} {f : β → α → Reader β} {x : α} {xs : List α} {acc next : β}
    {result : Except Stop β} (first : f acc x h.view = .ok next) (later : xs.foldlM f next h.view = result) :
    (x :: xs).foldlM f acc h.view = result := by
  rw [List.foldlM_cons, bind_query, first]
  exact later

theorem foldlM_stopped {α β : Type} {f : β → α → Reader β} {x : α} {xs : List α} {acc : β} {reason : Stop}
    (first : f acc x h.view = .error reason) : (x :: xs).foldlM f acc h.view = .error reason := by
  rw [List.foldlM_cons, bind_query, first]
  rfl

variable {node : Nat} {name : List UInt8} {code : Errno}

theorem visitReads_seen (unset : bitmapTst bits len node = .ok false) :
    visitReads host given skipBad len (fuel + 1) node bits h.view = skipped skipBad .ELOOP bits h.view := by
  simp only [visitReads, bind_query, unset, ok_bind, Bool.not_false, if_true]

theorem visitReads_unnamed (fresh : bitmapTst bits len node = .ok true)
    (nameless : hivexNodeName node h.view = .error (.errno code)) :
    visitReads host given skipBad len (fuel + 1) node bits h.view =
      skipped skipBad code (PackedBits.clear bits (node / 4)) h.view := by
  simp only [visitReads, bind_query, fresh, ok_bind, Bool.not_true, Bool.false_eq_true, if_false,
    bitmapClr_fresh fresh, tried_failed nameless]

theorem visitReads_broken (fresh : bitmapTst bits len node = .ok true)
    (named : hivexNodeName node h.view = .ok name)
    (failed : contents host given node h.view = .error (.errno code)) :
    visitReads host given skipBad len (fuel + 1) node bits h.view =
      skipped skipBad code (PackedBits.clear bits (node / 4)) h.view := by
  simp only [visitReads, bind_query, fresh, ok_bind, Bool.not_true, Bool.false_eq_true, if_false,
    bitmapClr_fresh fresh, tried_found named, tried_failed failed]

theorem visitReads_deeper {calls : List Event} {children : List Nat} (fresh : bitmapTst bits len node = .ok true)
    (named : hivexNodeName node h.view = .ok name)
    (read : contents host given node h.view = .ok (calls, children)) :
    visitReads host given skipBad len (fuel + 1) node bits h.view =
      children.foldlM (fun bits child => visitReads host given skipBad len fuel child bits)
        (PackedBits.clear bits (node / 4)) h.view := by
  simp only [visitReads, bind_query, fresh, ok_bind, Bool.not_true, Bool.false_eq_true, if_false,
    bitmapClr_fresh fresh, tried_found named, tried_found read]

theorem skipped_ok {α : Type} {value : α} (skips : skipBad = true) :
    skipped skipBad code value h.view = .ok value := by
  simp only [skipped, skips, if_true, pure_query]

theorem skipped_error {α : Type} {value : α} (strict : skipBad = false) :
    skipped skipBad code value h.view = .error (.errno code) := by
  simp only [skipped, strict, Bool.false_eq_true, if_false, throw_query]

/-- A visit that returns 0 has read what `visitReads` reads. -/
theorem Walk.reads (walk : Walk h host given skipBad len bits nodes new bits')
    (enough : (unvisited len bits).card < fuel + 1) :
    nodes.foldlM (fun bits node => visitReads host given skipBad len (fuel + 1) node bits) bits h.view = .ok bits' := by
  induction walk generalizing fuel with
  | nil => rfl
  | seen skips unset later ih =>
      exact foldlM_known ((visitReads_seen unset).trans (skipped_ok skips)) (ih enough)
  | unnamed skips fresh nameless later ih =>
      have fewer := unvisited_clear fresh
      exact foldlM_known ((visitReads_unnamed fresh nameless).trans (skipped_ok skips)) (ih (by omega))
  | broken skips fresh named failed _ later ih =>
      have fewer := unvisited_clear fresh
      exact foldlM_known ((visitReads_broken fresh named failed).trans (skipped_ok skips)) (ih (by omega))
  | whole fresh named read _ deeper later below ih =>
      have fewer := unvisited_clear fresh
      have still := deeper.fewer
      obtain ⟨less, rfl⟩ : ∃ less, fuel = less + 1 := ⟨fuel - 1, by omega⟩
      apply foldlM_known ((visitReads_deeper fresh named read).trans (below (by omega)))
      exact ih (by omega)

/-- A visit that stops for another reason than a callback has read what `visitReads` reads. -/
theorem Halt.reads {reason : Stop} (accepts : ¬Refuses answer)
    (halt : Halt h host given answer skipBad len bits nodes reason new)
    (enough : (unvisited len bits).card < fuel + 1) :
    nodes.foldlM (fun bits node => visitReads host given skipBad len (fuel + 1) node bits) bits h.view =
      .error reason := by
  induction halt generalizing fuel with
  | outside beyond =>
      apply foldlM_stopped
      simp only [visitReads, bind_query, beyond, error_bind]
  | cycle strict unset => exact foldlM_stopped ((visitReads_seen unset).trans (skipped_error strict))
  | unnamed fresh nameless stops =>
      apply foldlM_stopped
      rcases stops with rfl | ⟨strict, code, rfl⟩
      · simp only [visitReads, bind_query, fresh, ok_bind, Bool.not_true, Bool.false_eq_true, if_false,
          bitmapClr_fresh fresh, tried_left nameless, error_bind]
      · exact (visitReads_unnamed fresh nameless).trans (skipped_error strict)
  | refused _ _ _ refuses => exact absurd refuses accepts
  | broken fresh named failed stops _ =>
      apply foldlM_stopped
      rcases stops with rfl | ⟨strict, code, rfl⟩
      · simp only [visitReads, bind_query, fresh, ok_bind, Bool.not_true, Bool.false_eq_true, if_false,
          bitmapClr_fresh fresh, tried_found named, tried_left failed, error_bind]
      · exact (visitReads_broken fresh named failed).trans (skipped_error strict)
  | deeper fresh named read _ _ ih =>
      have fewer := unvisited_clear fresh
      obtain ⟨less, rfl⟩ : ∃ less, fuel = less + 1 := ⟨fuel - 1, by omega⟩
      exact foldlM_stopped ((visitReads_deeper fresh named read).trans (ih (by omega)))
  | unfinished _ _ _ _ _ refuses => exact absurd refuses accepts
  | @later bits bits' node rest new more reason walk _ ih =>
      have still := walk.fewer
      have first := walk.reads enough
      rw [List.foldlM_cons, bind_query] at first
      obtain ⟨next, done, last⟩ := bind_ok_iff.mp first
      obtain rfl := Except.ok.inj last
      apply foldlM_known done
      exact ih (by omega)

/-- The course of `hivex_visit_node` under callbacks that return 0 is that of its reads. -/
theorem visitTrace_reads (accepts : ∀ log e, answer log e = true) (node : Nat) :
    wp (visitTrace h host given answer skipBad node)
      (fun _ _ => hivexVisitReads host given skipBad node h.view = .ok ())
      (fun reason _ => hivexVisitReads host given skipBad node h.view = .error reason) [] := by
  have never : ¬Refuses answer := by
    rintro ⟨log, e, refused⟩
    rw [accepts] at refused
    cases refused
  have enough := unvisited_few (bitmapLen h.size) h.bitmap
  have course : hivexVisitReads host given skipBad node h.view =
      ([node].foldlM (fun bits node => visitReads host given skipBad (bitmapLen h.size)
        (8 * bitmapLen h.size + 1) node bits) h.bitmap h.view).bind fun _ => .ok () := by
    rw [List.foldlM_cons, bind_query]
    show (visitReads host given skipBad (bitmapLen h.size) (8 * bitmapLen h.size + 1) node h.bitmap
      h.view).bind _ = _
    cases visitReads host given skipBad (bitmapLen h.size) (8 * bitmapLen h.size + 1) node h.bitmap h.view <;> rfl
  rw [course]
  apply wp_mono (visitTrace_walks node)
  · rintro _ log ⟨bits', walk⟩
    rw [walk.reads enough]
    rfl
  · intro reason log halt
    rw [halt.reads never enough]
    rfl

end Course

section Visits
variable {h : Hive} {host : Host} {given : Callbacks} {skipBad : Bool} {node value t len : Nat} {key : List UInt8}

theorem bounded_windowsUtf16ToUtf8 (input : List UInt8) :
    Bounded h (windowsUtf16ToUtf8 host input) fun _ => True := by
  unfold Bounded windowsUtf16ToUtf8
  cases host.iconv input with
  | ok out => trivial
  | error code => exact Stop.noConfusion

theorem bounded_multipleStringsFrom (fuel : Nat) (data : List UInt8) :
    Bounded h (multipleStringsFrom host fuel data) fun _ => True := by
  induction fuel generalizing data with
  | zero => exact Bounded.pure trivial
  | succ fuel ih =>
      unfold multipleStringsFrom
      dsimp only
      split
      · exact Bounded.pure trivial
      apply (bounded_windowsUtf16ToUtf8 _).bind
      intro str _
      apply (ih _).bind
      exact fun rest _ => Bounded.pure trivial

/-- A reader that only looks at what `hivex_value_value` has returned. -/
theorem bounded_afterValue (long : LongBlocks h) (whole : WholeRecords h) {α : Type}
    {next : Nat × List UInt8 → Reader α} (continues : ∀ read, Bounded h (next read) fun _ => True) :
    Bounded h (hivexValueValue value >>= next) fun _ => True :=
  (bounded_valueValue long whole).bind fun read _ => continues read

theorem bounded_valueString (long : LongBlocks h) (whole : WholeRecords h) :
    Bounded h (hivexValueString host value) fun _ => True := by
  apply bounded_afterValue long whole
  rintro ⟨t, data⟩
  dsimp only
  split
  · exact Bounded.failed _
  · exact bounded_windowsUtf16ToUtf8 _

theorem bounded_valueMultipleStrings (long : LongBlocks h) (whole : WholeRecords h) :
    Bounded h (hivexValueMultipleStrings host value) fun _ => True := by
  apply bounded_afterValue long whole
  rintro ⟨t, data⟩
  dsimp only
  split
  · exact Bounded.failed _
  · exact bounded_multipleStringsFrom _ _

theorem bounded_valueDword (long : LongBlocks h) (whole : WholeRecords h) :
    Bounded h (hivexValueDword value) fun _ => True := by
  apply bounded_afterValue long whole
  rintro ⟨t, data⟩
  dsimp only
  split
  · exact Bounded.failed _
  · exact Bounded.pure trivial

theorem bounded_valueQword (long : LongBlocks h) (whole : WholeRecords h) :
    Bounded h (hivexValueQword value) fun _ => True := by
  apply bounded_afterValue long whole
  rintro ⟨t, data⟩
  dsimp only
  split
  · exact Bounded.failed _
  · exact Bounded.pure trivial

theorem bounded_dataCalls (long : LongBlocks h) (whole : WholeRecords h) (called : Bool)
    (event : Nat → Nat → Nat → Nat → List UInt8 → List UInt8 → Event) (expected : Option Nat) :
    Bounded h (dataCalls called event expected node value key) fun _ => True := by
  apply bounded_afterValue long whole
  rintro ⟨t, data⟩
  dsimp only
  split
  · exact Bounded.failed _
  · exact Bounded.pure trivial

theorem bounded_invalidCalls (long : LongBlocks h) (whole : WholeRecords h) (code : Errno) :
    Bounded h (invalidCalls given code node value t len key) fun _ => True := by
  unfold invalidCalls
  split
  · exact Bounded.failed _
  split
  · apply (bounded_valueValue long whole).tried.bind
    intro read _
    cases read <;> exact Bounded.pure trivial
  · exact Bounded.pure trivial

theorem bounded_integerCalls {called : Bool} {event : Nat → Nat → Nat → Nat → List UInt8 → Int → Event}
    {reader : Nat → Reader Int} (bounded : Bounded h (reader value) fun _ => True) :
    Bounded h (integerCalls called event reader node value t len key) fun _ => True := by
  apply bounded.tried.bind
  exact fun integer _ => Bounded.pure trivial

theorem bounded_textCalls (long : LongBlocks h) (whole : WholeRecords h) {α : Type} {called : Bool}
    {event : Nat → Nat → Nat → Nat → List UInt8 → α → Event} {reader : Nat → Reader α}
    (bounded : Bounded h (reader value) fun _ => True) :
    Bounded h (textCalls given called event reader node value t len key) fun _ => True := by
  apply bounded.tried.bind
  intro text _
  cases text with
  | error code => exact bounded_invalidCalls long whole code
  | ok text => exact Bounded.pure trivial

theorem bounded_typedCalls (long : LongBlocks h) (whole : WholeRecords h) :
    Bounded h (typedCalls host given node value t len key) fun _ => True := by
  unfold typedCalls
  split_ifs
  · exact bounded_dataCalls long whole _ _ _
  · exact bounded_textCalls long whole (bounded_valueString long whole)
  · exact bounded_integerCalls (bounded_valueDword long whole)
  · exact bounded_integerCalls (bounded_valueQword long whole)
  · exact bounded_dataCalls long whole _ _ _
  · exact bounded_textCalls long whole (bounded_valueMultipleStrings long whole)
  · exact bounded_dataCalls long whole _ _ _

theorem bounded_valueCalls (long : LongBlocks h) (whole : WholeRecords h) :
    Bounded h (valueCalls host given node value) fun _ => True := by
  apply (bounded_valueType long whole).bind
  rintro ⟨t, len⟩ _
  apply (bounded_valueKey long).bind
  intro key _
  split
  · exact bounded_dataCalls long whole _ _ _
  · exact bounded_typedCalls long whole

/-- What a visit reads of one node; its children are valid blocks. -/
theorem bounded_contents (long : LongBlocks h) (whole : WholeRecords h) :
    Bounded h (contents host given node) fun read => ∀ child ∈ read.2, h.valid child = true := by
  apply (bounded_nodeValues long whole).bind
  intro values _
  have calls : Bounded h (valuesCalls host given node values) fun _ => True := by
    apply (Bounded.mapM_all fun value _ => bounded_valueCalls long whole).bind
    exact fun calls _ => Bounded.pure trivial
  apply calls.bind
  intro calls _
  apply (bounded_nodeChildren long whole).bind
  exact fun children alive => Bounded.pure alive

theorem valid_marked {off : Nat} (valid : h.valid off = true) : off / 32 < bitmapLen h.size := by
  simp only [Hive.valid, decide_eq_true_eq] at valid
  unfold bitmapLen
  omega

theorem bounded_skipped {α : Type} (code : Errno) (value : α) :
    Bounded h (skipped skipBad code value) fun _ => True := by
  unfold skipped
  split
  · exact Bounded.pure trivial
  · exact Bounded.failed _

theorem bounded_foldlM {α β : Type} {f : β → α → Reader β} {xs : List α}
    (each : ∀ x ∈ xs, ∀ acc, Bounded h (f acc x) fun _ => True) (acc : β) :
    Bounded h (xs.foldlM f acc) fun _ => True := by
  induction xs generalizing acc with
  | nil => exact Bounded.pure trivial
  | cons x xs ih =>
      rw [List.foldlM_cons]
      apply (each x (by simp) acc).bind
      exact fun next _ => ih (fun z member => each z (by simp [member])) next

/-- A visit goes on to valid blocks, whose marks lie within the bitmap. -/
theorem bounded_visitReads (long : LongBlocks h) (whole : WholeRecords h) (fuel : Nat) {bits : Mem}
    (marked : node / 32 < bitmapLen h.size) :
    Bounded h (visitReads host given skipBad (bitmapLen h.size) fuel node bits) fun _ => True := by
  induction fuel generalizing node bits with
  | zero => exact Stop.noConfusion
  | succ fuel ih =>
      unfold visitReads
      have tested : Bounded h (fun _ => bitmapTst bits (bitmapLen h.size) node) fun _ => True := by
        simp only [Bounded, bitmapTst, marked, if_true]
        trivial
      apply tested.bind
      intro fresh _
      split
      · exact bounded_skipped _ _
      have cleared : Bounded h (fun _ => bitmapClr bits (bitmapLen h.size) node) fun _ => True := by
        simp only [Bounded, bitmapClr, marked, if_true]
        trivial
      apply cleared.bind
      intro bits' _
      apply (bounded_nodeName long whole).tried.bind
      intro name _
      cases name with
      | error code => exact bounded_skipped _ _
      | ok name =>
          apply (bounded_contents long whole).tried.bind
          intro read alive
          cases read with
          | error code => exact bounded_skipped _ _
          | ok read =>
              obtain ⟨calls, children⟩ := read
              apply bounded_foldlM
              intro child member acc
              exact ih (valid_marked (alive _ rfl child member))

theorem visit_inside (long : LongBlocks h) (whole : WholeRecords h) (marked : node / 32 < bitmapLen h.size) :
    VisitInside h node := by
  intro host given skipBad
  have bounded : Bounded h (hivexVisitReads host given skipBad node) fun _ => True := by
    apply Bounded.known (show (readThe View : Reader View) h.extents = .ok h.extents from rfl)
    apply (bounded_visitReads long whole _ marked).bind
    exact fun _ _ => Bounded.pure trivial
  exact bounded.inside

end Visits

section Declared
variable {h : Hive} {off : Nat}

theorem requireBlock_extents (long : LongBlocks h) {eqid : List UInt8} (isRecord : IsRecord h eqid off) :
    requireBlock off eqid h.extents = .ok () := by
  simp only [requireBlock, bind_query, isValidBlock_extents, isRecord.1, ok_bind, if_true,
    blockIdEq_extents long isRecord.1, isRecord.2, decide_true, pure_query]

-- The lookups return 0 where the list cannot be read.
theorem lookup_failed {query : Reader (List Nat)} {v : View} {code : Errno}
    (failed : query v = .error (.errno code)) (search : List Nat → Reader Nat) :
    zeroOnError (query >>= search) v = .ok 0 := by
  unfold zeroOnError
  rw [bind_query, failed]
  rfl

theorem name_refused (long : LongBlocks h) (whole : WholeRecords h) (isNk : IsRecord h Nk.id off)
    (beyond : h.blockLength off < Nk.name + h.word16 off Nk.nameLen) :
    hivexNodeName off h.extents = .error (.errno .EFAULT) := by
  have fixed := whole.nk off isNk
  simp only [Nk.nameLen, Nk.name] at fixed beyond
  unfold hivexNodeName
  rw [bind_query, requireBlock_extents long isNk, ok_bind, bind_query,
    rd16_extents (i := Nk.nameLen) isNk.1 fixed, ok_bind, bind_query, blockLen_extents long isNk.1, ok_bind]
  rw [if_pos (by simp only [Nk.sizeof, Nk.nameLen]; omega)]
  rfl

theorem keyLen_refused (long : LongBlocks h) (isVk : IsRecord h Vk.id off)
    (beyond : h.blockLength off < Vk.name + h.word16 off Vk.nameLen) :
    hivexValueKeyLen off h.extents = .error (.errno .EFAULT) := by
  have header := long off isVk.1
  simp only [Vk.name, Vk.nameLen] at beyond
  unfold hivexValueKeyLen
  rw [bind_query, requireBlock_extents long isVk, ok_bind, bind_query,
    rd16_extents (i := Vk.nameLen) isVk.1 (by simp only [Vk.nameLen]; omega), ok_bind, bind_query,
    blockLen_extents long isVk.1, ok_bind]
  rw [if_pos (by simp only [Vk.sizeof, Vk.nameLen]; omega)]
  rfl

theorem key_refused (long : LongBlocks h) (isVk : IsRecord h Vk.id off)
    (beyond : h.blockLength off < Vk.name + h.word16 off Vk.nameLen) :
    hivexValueKey off h.extents = .error (.errno .EFAULT) := by
  unfold hivexValueKey
  rw [bind_query, requireBlock_extents long isVk, ok_bind, bind_query, keyLen_refused long isVk beyond]
  rfl

-- A reader that cannot succeed and stays inside returns an error code.
theorem Bounded.refused {α : Type} {query : Reader α} (plain : Plain query)
    (bounded : Bounded h query fun _ => False) : ∃ code, query h.extents = .error (.errno code) := by
  have ends := plain h.extents
  unfold Bounded at bounded
  cases found : query h.extents with
  | ok value =>
      rw [found] at bounded
      exact bounded.elim
  | error reason =>
      rw [found] at bounded ends
      rcases ends with ⟨code, rfl⟩ | rfl
      · exact ⟨code, rfl⟩
      · exact absurd rfl bounded

theorem children_refused (long : LongBlocks h) (whole : WholeRecords h) {lf : Nat}
    (proper : h.word32 off Nk.nrSubkeys ≠ 0) (named : lf = h.word32 off Nk.subkeyLf + 0x1000)
    (isLf : IsRecord h Lf.idLf lf ∨ IsRecord h Lf.idLh lf)
    (beyond : h.blockLength lf < 8 + 8 * h.word16 lf Lf.nrKeys) :
    Bounded h (hivexNodeChildren off) fun _ => False := by
  subst named
  suffices Bounded h (getChildren off false) fun _ => False from this.bind fun _ none => none.elim
  apply Bounded.record long
  intro isNk
  have fixed := whole.nk off isNk
  simp only [Nk.nameLen] at fixed
  apply Bounded.known (rd32_extents (i := Nk.nrSubkeys) isNk.1 (by simp only [Nk.nrSubkeys]; omega))
  rw [if_neg proper]
  split
  · exact Bounded.failed _
  apply Bounded.known (rd32_extents (i := Nk.subkeyLf) isNk.1 (by simp only [Nk.subkeyLf]; omega))
  apply Bounded.unlessValid
  intro valid
  have header := long _ valid
  apply Bounded.known (rdBytes_extents (i := 4) (n := 2) valid (by omega))
  rw [if_pos (isLf.imp And.right And.right)]
  apply Bounded.known (rd16_extents (i := Lf.nrKeys) valid (by simp only [Lf.nrKeys]; omega))
  split
  · exact Bounded.failed _
  apply Bounded.known (blockLen_extents long valid)
  rw [if_pos (by omega)]
  exact Bounded.failed _

theorem values_refused (long : LongBlocks h) (whole : WholeRecords h) {vlist : Nat}
    (proper : h.word32 off Nk.nrValues ≠ 0) (named : vlist = h.word32 off Nk.vallist + 0x1000)
    (beyond : h.blockLength vlist < 4 + 4 * h.word32 off Nk.nrValues) :
    Bounded h (hivexNodeValues off) fun _ => False := by
  subst named
  suffices Bounded h (getValues off) fun _ => False from this.bind fun _ none => none.elim
  apply Bounded.record long
  intro isNk
  have fixed := whole.nk off isNk
  simp only [Nk.nameLen] at fixed
  apply Bounded.known (rd32_extents (i := Nk.nrValues) isNk.1 (by simp only [Nk.nrValues]; omega))
  rw [if_neg proper]
  split
  · exact Bounded.failed _
  apply Bounded.known (rd32_extents (i := Nk.vallist) isNk.1 (by simp only [Nk.vallist]; omega))
  apply Bounded.unlessValid
  intro valid
  apply Bounded.known (blockLen_extents long valid)
  rw [if_pos (by omega)]
  exact Bounded.failed _

theorem inline_refused (long : LongBlocks h) (whole : WholeRecords h) (isVk : IsRecord h Vk.id off)
    (beyond : 2 ^ 31 + 4 < h.word32 off Vk.dataLen) :
    hivexValueValue off h.extents = .error (.errno .ENOTSUP) := by
  have fixed := whole.vk off isVk
  simp only [Vk.dataType, Vk.dataLen] at fixed beyond
  have small := ByteMemory.get32_lt h.addr (off + Vk.dataLen)
  have small' : h.word32 off 8 < 2 ^ 32 := small
  unfold hivexValueValue
  rw [bind_query, requireBlock_extents long isVk, ok_bind, bind_query,
    rd32_extents (i := Vk.dataType) isVk.1 fixed, ok_bind, bind_query,
    rd32_extents (i := Vk.dataLen) isVk.1 (by simp only [Vk.dataLen]; omega), ok_bind]
  have isInline : decide (2 ^ 31 ≤ h.word32 off Vk.dataLen) = true :=
    decide_eq_true (by simp only [Vk.dataLen]; omega)
  rw [if_pos ⟨isInline, by simp only [Vk.dataLen]; omega⟩]
  rfl

/-- The reader substitutes the length of the block for the declared one. -/
theorem data_cut (long : LongBlocks h) (whole : WholeRecords h) {data : Nat} (isVk : IsRecord h Vk.id off)
    (few : h.word32 off Vk.dataLen ≤ hiveMaxValueLen) (named : data = h.word32 off Vk.dataOffset + 0x1000)
    (valid : h.valid data = true) (beyond : h.blockLength data < 4 + h.word32 off Vk.dataLen) :
    hivexValueValue off h.extents =
      .ok (h.word32 off Vk.dataType, slice h.addr (data + 4) (h.blockLength data - 4)) := by
  subst named
  have fixed := whole.vk off isVk
  have header := long _ valid
  simp only [Vk.dataType] at fixed
  have few' : h.word32 off Vk.dataLen ≤ 1000000 := few
  have same : h.word32 off Vk.dataLen % 2 ^ 31 = h.word32 off Vk.dataLen := Nat.mod_eq_of_lt (by omega)
  have outOfLine : decide (2 ^ 31 ≤ h.word32 off Vk.dataLen) = false := decide_eq_false (by omega)
  unfold hivexValueValue
  rw [bind_query, requireBlock_extents long isVk, ok_bind, bind_query,
    rd32_extents (i := Vk.dataType) isVk.1 fixed, ok_bind, bind_query,
    rd32_extents (i := Vk.dataLen) isVk.1 (by simp only [Vk.dataLen]; omega), ok_bind]
  simp only [same, outOfLine, Bool.false_eq_true, false_and, if_false]
  rw [if_neg (by omega), bind_query, rd32_extents (i := Vk.dataOffset) isVk.1 (by simp only [Vk.dataOffset]; omega),
    ok_bind, bind_query, isValidBlock_extents, ok_bind, valid]
  simp only [if_true]
  rw [bind_query, blockLen_extents long valid, ok_bind, if_pos (by omega), bind_query,
    rdBytes_extents (i := 4) valid (by omega)]
  rfl

theorem declared_checked (long : LongBlocks h) (whole : WholeRecords h) (off : Nat) : DeclaredChecked h off where
  name := name_refused long whole
  children lf isNk proper named isLf beyond := by
    obtain ⟨code, failed⟩ := (children_refused long whole proper named isLf beyond).refused
      (Plain.hivexNodeChildren off)
    exact ⟨⟨code, failed⟩, fun nname => lookup_failed failed _⟩
  values vlist isNk proper named valid beyond := by
    obtain ⟨code, failed⟩ := (values_refused long whole proper named beyond).refused (Plain.hivexNodeValues off)
    exact ⟨⟨code, failed⟩, fun key => lookup_failed failed _⟩
  key := key_refused long
  inline := inline_refused long whole
  data data isVk few named valid beyond := data_cut long whole isVk few named valid beyond

end Declared

section Minimal
variable {g : Hive} {b : Nat}

theorem minimal_records (agrees : View.Agrees minimal.view g.view) {id : List UInt8} (isRecord : IsRecord g id b) :
    b = 0x1020 ∧ id = Nk.id ∨ b = 0x1078 ∧ id = Sk.id := by
  obtain ⟨valid, same⟩ := isRecord
  have alike := isValidBlock_alike agrees b
  unfold Alike at alike
  rw [isValidBlock_view, isValidBlock_view, valid] at alike
  have there : minimal.valid b = true := Except.ok.inj alike
  have id : slice g.addr (b + 4) 2 = slice minimal.addr (b + 4) 2 := by
    simp only [Hive.valid, decide_eq_true_eq] at valid
    exact slice_congr _ _ _ _ _ fun k _ => agrees.bytes (b + 4 + k) (by omega)
  rw [id] at same
  obtain ⟨member, used⟩ := minimal_laidOut.valid_iff.mp there
  simp only [allBlocks, List.flatMap_cons, List.flatMap_nil, List.append_nil, List.mem_cons, List.not_mem_nil,
    or_false] at member
  rcases member with rfl | rfl | rfl
  · exact Or.inl ⟨rfl, same.symm.trans (by decide +kernel)⟩
  · exact Or.inr ⟨rfl, same.symm.trans (by decide +kernel)⟩
  · exact absurd used (by decide +kernel)

theorem minimal_whole (agrees : View.Agrees minimal.view g.view) : WholeRecords g := by
  constructor
  · intro b isNk
    rcases minimal_records agrees isNk with ⟨rfl, -⟩ | ⟨-, wrong⟩
    · have same : g.blockLength 0x1020 = minimal.blockLength 0x1020 := by
        unfold Hive.blockLength Hive.blockWord
        exact congrArg segLength (getLe_congr _ _ _ _ _ fun k _ => agrees.bytes (0x1020 + k) (by omega))
      rw [same]
      decide +kernel
    · exact absurd wrong (by decide)
  · intro b isVk
    rcases minimal_records agrees isVk with ⟨-, wrong⟩ | ⟨-, wrong⟩ <;> exact absurd wrong (by decide)
  · intro node ri _ _ isRi
    rcases minimal_records agrees isRi with ⟨-, wrong⟩ | ⟨-, wrong⟩ <;> exact absurd wrong (by decide)

end Minimal

/-- A hive of one page: the root key with an ri-record that names more lists than it holds, the list it
names, a value with more data than its block, that block, and the stumps of a key and of a value. -/
def stuntedImage : Mem :=
  [(0x1020 + Nk.nrSubkeys, leBytes 4 1), (0x1020 + Nk.subkeyLf, leBytes 4 0x90),
    (0x1090, leBytes 4 (2 ^ 32 - 16)), (0x1094, Ri.id), (0x1090 + Ri.nrOffsets, leBytes 2 3),
    (0x1090 + Ri.offset 0, leBytes 4 0xa0), (0x1090 + Ri.offset 1, leBytes 4 0xa0),
    (0x10a0, leBytes 4 (2 ^ 32 - 16)), (0x10a4, Lf.idLf),
    (0x10b0, leBytes 4 (2 ^ 32 - 32)), (0x10b4, Vk.id), (0x10b0 + Vk.dataLen, leBytes 4 100),
    (0x10b0 + Vk.dataOffset, leBytes 4 0xd0), (0x10b0 + Vk.dataType, leBytes 4 3),
    (0x10d0, leBytes 4 (2 ^ 32 - 8)), (0x10d8, leBytes 4 (2 ^ 32 - 8)), (0x10dc, Nk.id),
    (0x10e0, leBytes 4 (2 ^ 32 - 8)), (0x10e4, Vk.id),
    (0x10e8, leBytes 4 0xf18)].foldl (fun image (i, bytes) => blit image i bytes) minimalImage

def stunted : Hive :=
  onePage stuntedImage [0x1020, 0x1078, 0x1090, 0x10a0, 0x10b0, 0x10d0, 0x10d8, 0x10e0, 0x10e8]

def silent : Callbacks :=
  ⟨false, false, false, false, false, false, false, false, false, false, false⟩

/-- What the readers do with the records of `stunted` and with a handle far beyond it. -/
def strays : Except Stop Hive → Bool
  | .error _ => false
  | .ok g =>
      decide (hivexNodeChildren 0x1020 g.extents = .error .outside) &&
        decide (hivexNodeName 0x10d8 g.extents = .error .outside) &&
        decide (hivexValueType 0x10e0 g.extents = .error .outside) &&
        decide (hivexVisitReads ampleHost silent false 0x100000 g.extents = .error .outside) &&
        decide (g.valid 0x10b0 ∧ slice g.addr 0x10b4 2 = Vk.id ∧ g.word32 0x10b0 Vk.dataLen = 100 ∧
          g.word32 0x10b0 Vk.dataOffset = 0xd0 ∧ g.valid 0x10d0 ∧ g.blockLength 0x10d0 = 8) &&
        decide (hivexValueValue 0x10b0 g.extents = .ok (3, [0, 0, 0, 0]))

theorem strays_run {result : Except Stop Hive} (stray : strays result = true) : ∃ g, result = .ok g ∧
    ¬ReadsInside g 0x1020 ∧ ¬ReadsInside g 0x10d8 ∧ ¬ReadsInside g 0x10e0 ∧ ¬VisitInside g 0x100000 ∧
      ¬DataRefused g 0x10b0 := by
  cases result with
  | error stop => cases stray
  | ok g =>
      simp only [strays, Bool.and_eq_true, decide_eq_true_eq] at stray
      obtain ⟨⟨⟨⟨⟨children, name⟩, type⟩, visit⟩, valid, id, len, offset, there, short⟩, cut⟩ := stray
      refine ⟨g, rfl, fun reads => reads.children children, fun reads => reads.name name,
        fun reads => reads.type type, fun inside => inside ampleHost silent false visit, fun refused => ?_⟩
      obtain ⟨code, failed⟩ := refused 0x10d0 ⟨valid, id⟩ (by rw [len]; decide) (by rw [offset]) there
        (by rw [short, len]; decide)
      rw [cut] at failed
      cases failed

end Hivex
