import Hivex.HiveVisit

/-! Two handles that agree on the marks of their blocks and on the image behind
the header cannot be told apart by reading. -/
namespace Hivex

open ByteMemory Commands

structure View.Agrees (v v' : View) : Prop where
  size : v'.hive.size = v.hive.size
  rootoffs : v'.hive.rootoffs = v.hive.rootoffs
  marks : ∀ off, bitmapTst v'.hive.bitmap (bitmapLen v.hive.size) off =
    bitmapTst v.hive.bitmap (bitmapLen v.hive.size) off
  bytes : ∀ i, 0x1000 ≤ i → v'.hive.addr i = v.hive.addr i
  may : ∀ b i, 0x1000 ≤ b → v'.may b i = v.may b i

section
variable {v v' : View} {node value off i n : Nat}

theorem mayAll_alike (agrees : View.Agrees v v') (low : 0x1000 ≤ off) :
    v'.mayAll off i n = v.mayAll off i n := by
  unfold View.mayAll
  congr 1
  funext k
  exact agrees.may _ _ low

theorem rdLe_alike (agrees : View.Agrees v v') (low : 0x1000 ≤ off) :
    Alike v v' (rdLe n off i) := by
  have same : getLe v.hive.addr (off + i) n = getLe v'.hive.addr (off + i) n :=
    getLe_congr _ _ _ _ _ fun k _ => (agrees.bytes (off + i + k) (by omega)).symm
  simp only [Alike, rdLe, mayAll_alike agrees low, same]

theorem rdBytes_alike (agrees : View.Agrees v v') (low : 0x1000 ≤ off) :
    Alike v v' (rdBytes off i n) := by
  have same : slice v.hive.addr (off + i) n = slice v'.hive.addr (off + i) n :=
    slice_congr _ _ _ _ _ fun k _ => (agrees.bytes (off + i + k) (by omega)).symm
  simp only [Alike, rdBytes, mayAll_alike agrees low, same]

theorem isValidBlock_alike (agrees : View.Agrees v v') (off : Nat) :
    Alike v v' (isValidBlock off) := by
  simp only [Alike, isValidBlock, agrees.size, agrees.marks]

theorem isValidBlock_low (valid : isValidBlock off v = .ok true) : 0x1000 ≤ off := by
  by_cases low : 0x1000 ≤ off
  · exact low
  · simp [isValidBlock, low] at valid

theorem blockIdEq_alike (agrees : View.Agrees v v') (low : 0x1000 ≤ off) (eqid : List UInt8) :
    Alike v v' (blockIdEq off eqid) :=
  (rdBytes_alike agrees (by omega)).bind fun _ _ => Alike.pure _

theorem blockLen_alike (agrees : View.Agrees v v') (low : 0x1000 ≤ off) :
    Alike v v' (blockLen off) :=
  (rdLe_alike agrees low).bind fun _ _ => Alike.pure _

-- A block that passes the test lies behind the header.
theorem Alike.unlessValid {β : Type} {stop : Errno} {next : Reader β}
    (agrees : View.Agrees v v') (continues : 0x1000 ≤ off → Alike v v' next) :
    Alike v v' (do
      unless (← isValidBlock off) do throw (.errno stop)
      next) := by
  refine (isValidBlock_alike agrees off).bind fun valid found => ?_
  cases valid with
  | false => exact Alike.throw _
  | true => exact continues (isValidBlock_low found)

theorem requireBlock_low {eqid : List UInt8} (found : requireBlock off eqid v = .ok ()) :
    0x1000 ≤ off := by
  unfold requireBlock at found
  rw [bind_query] at found
  cases valid : isValidBlock off v with
  | error stop => simp [valid] at found
  | ok marked =>
      cases marked with
      | false => simp [valid] at found
      | true => exact isValidBlock_low valid

theorem requireBlock_alike (agrees : View.Agrees v v') (off : Nat) (eqid : List UInt8) :
    Alike v v' (requireBlock off eqid) := by
  refine Alike.unlessValid agrees fun low => ?_
  refine (blockIdEq_alike agrees low eqid).bind fun same _ => ?_
  cases same <;> rfl

theorem hivexRoot_alike (agrees : View.Agrees v v') : Alike v v' hivexRoot := by
  have same : ∀ w : View, hivexRoot w =
      (do unless (← isValidBlock w.hive.rootoffs) do throw (.errno .ENOKEY)
          return w.hive.rootoffs : Reader Nat) w := fun _ => rfl
  unfold Alike
  rw [same v, same v', agrees.rootoffs]
  exact Alike.unlessValid agrees fun _ => Alike.pure _

theorem hivexNodeStructLength_alike (agrees : View.Agrees v v') (node : Nat) :
    Alike v v' (hivexNodeStructLength node) := by
  refine (requireBlock_alike agrees node Nk.id).bind fun _ found => ?_
  have low := requireBlock_low found
  refine (rdLe_alike agrees (by omega)).bind fun nameLen _ => ?_
  refine (blockLen_alike agrees low).bind fun segLen _ => ?_
  dsimp only
  split
  · exact Alike.throw _
  · exact Alike.pure _

theorem hivexNodeName_alike (agrees : View.Agrees v v') (node : Nat) :
    Alike v v' (hivexNodeName node) := by
  refine (requireBlock_alike agrees node Nk.id).bind fun _ found => ?_
  have low := requireBlock_low found
  refine (rdLe_alike agrees (by omega)).bind fun len _ => ?_
  refine (blockLen_alike agrees low).bind fun segLen _ => ?_
  split
  · exact Alike.throw _
  · exact rdBytes_alike agrees (by omega)

theorem hivexNodeTimestamp_alike (agrees : View.Agrees v v') (node : Nat) :
    Alike v v' (hivexNodeTimestamp node) := by
  refine (requireBlock_alike agrees node Nk.id).bind fun _ found => ?_
  have low := requireBlock_low found
  refine (rdLe_alike agrees (by omega)).bind fun timestamp _ => ?_
  unfold timestampCheck
  split
  · exact Alike.throw _
  · exact Alike.pure _

theorem getSubkey_alike (agrees : View.Agrees v v') (noCheckNk : Bool) {lf : Nat}
    (low : 0x1000 ≤ lf) (j : Nat) : Alike v v' (getSubkey noCheckNk lf j) := by
  refine (rdLe_alike agrees (by omega)).bind fun subkey _ => ?_
  cases noCheckNk with
  | true => exact Alike.pure _
  | false => exact Alike.unlessValid agrees fun _ => Alike.pure _

theorem getRiOffset_alike (agrees : View.Agrees v v') {ri : Nat} (low : 0x1000 ≤ ri) (i : Nat) :
    Alike v v' (getRiOffset ri i) := by
  refine (rdLe_alike agrees (by omega)).bind fun offset _ => ?_
  refine Alike.unlessValid agrees fun lowLf => ?_
  refine (blockIdEq_alike agrees lowLf _).bind fun isLf _ => ?_
  cases isLf with
  | true => exact Alike.pure _
  | false =>
      refine (blockIdEq_alike agrees lowLf _).bind fun isLh _ => ?_
      cases isLh with
      | true => exact Alike.pure _
      | false => exact Alike.throw _

theorem getRiOffset_low {ri lf : Nat} (found : getRiOffset ri i v = .ok lf) : 0x1000 ≤ lf := by
  have ends : Ends (getRiOffset ri i v) (0x1000 ≤ ·) fun _ => True := by
    refine Ends.after fun offset _ => Ends.after fun valid _ => ?_
    cases valid with
    | false => trivial
    | true =>
        refine Ends.after fun isLf _ => ?_
        cases isLf with
        | true => exact Nat.le_add_left 0x1000 offset
        | false =>
            refine Ends.after fun isLh _ => ?_
            cases isLh with
            | true => exact Nat.le_add_left 0x1000 offset
            | false => trivial
  rw [found] at ends
  exact ends

theorem getChildren_alike (agrees : View.Agrees v v') (node : Nat) (noCheckNk : Bool) :
    Alike v v' (getChildren node noCheckNk) := by
  refine (requireBlock_alike agrees node Nk.id).bind fun _ found => ?_
  have low := requireBlock_low found
  refine (rdLe_alike agrees (by omega)).bind fun nrSubkeys _ => ?_
  split
  · exact Alike.pure _
  split
  · exact Alike.throw _
  refine (rdLe_alike agrees (by omega)).bind fun subkeyLf _ => ?_
  refine Alike.unlessValid agrees fun lowLf => ?_
  refine (rdBytes_alike agrees (by omega)).bind fun id _ => ?_
  split
  · refine (rdLe_alike agrees (by omega)).bind fun nrKeys _ => ?_
    split
    · exact Alike.throw _
    refine (blockLen_alike agrees lowLf).bind fun len _ => ?_
    split
    · exact Alike.throw _
    exact (Alike.mapM fun j _ => getSubkey_alike agrees noCheckNk lowLf j).bind fun _ _ => Alike.pure _
  split
  · refine (rdLe_alike agrees (by omega)).bind fun nrOffsets _ => ?_
    refine (Alike.mapM fun i _ => ?_).bind fun counted _ => ?_
    · refine (getRiOffset_alike agrees lowLf i).bind fun lf lfFound => ?_
      have lowest := getRiOffset_low lfFound
      exact (rdLe_alike agrees (by omega)).bind fun _ _ => Alike.pure _
    split
    · exact Alike.throw _
    refine (Alike.mapM fun i _ => ?_).bind fun _ _ => Alike.pure _
    refine (getRiOffset_alike agrees lowLf i).bind fun lf lfFound => ?_
    have lowest := getRiOffset_low lfFound
    refine (rdLe_alike agrees (by omega)).bind fun nrKeys _ => ?_
    exact Alike.mapM fun j _ => getSubkey_alike agrees noCheckNk lowest j
  · exact Alike.throw _

theorem hivexNodeChildren_alike (agrees : View.Agrees v v') (node : Nat) :
    Alike v v' (hivexNodeChildren node) :=
  (getChildren_alike agrees node false).bind fun _ _ => Alike.pure _

theorem firstNamed_alike {nameOf : Nat → Reader (List UInt8)}
    (names : ∀ x, Alike v v' (nameOf x)) (wanted : CString) (xs : List Nat) :
    Alike v v' (firstNamed nameOf wanted xs) := by
  induction xs with
  | nil => exact Alike.pure _
  | cons x xs ih =>
      refine (names x).bind fun name _ => ?_
      split
      · exact Alike.pure _
      · exact ih

theorem zeroOnError_alike {query : Reader Nat} (same : Alike v v' query) :
    Alike v v' (zeroOnError query) := by
  unfold Alike zeroOnError at *
  rw [same]

theorem hivexNodeGetChild_alike (agrees : View.Agrees v v') (node : Nat) (name : CString) :
    Alike v v' (hivexNodeGetChild node name) :=
  zeroOnError_alike ((hivexNodeChildren_alike agrees node).bind fun children _ =>
    firstNamed_alike (hivexNodeName_alike agrees) name children)

theorem hivexNodeParent_alike (agrees : View.Agrees v v') (node : Nat) :
    Alike v v' (hivexNodeParent node) := by
  refine (requireBlock_alike agrees node Nk.id).bind fun _ found => ?_
  have low := requireBlock_low found
  refine (rdLe_alike agrees (by omega)).bind fun parent _ => ?_
  exact Alike.unlessValid agrees fun _ => Alike.pure _

theorem getValues_alike (agrees : View.Agrees v v') (node : Nat) :
    Alike v v' (getValues node) := by
  refine (requireBlock_alike agrees node Nk.id).bind fun _ found => ?_
  have low := requireBlock_low found
  refine (rdLe_alike agrees (by omega)).bind fun nrValues _ => ?_
  split
  · exact Alike.pure _
  split
  · exact Alike.throw _
  refine (rdLe_alike agrees (by omega)).bind fun vlist _ => ?_
  refine Alike.unlessValid agrees fun lowList => ?_
  refine (blockLen_alike agrees lowList).bind fun len _ => ?_
  split
  · exact Alike.throw _
  refine (Alike.mapM fun i _ => ?_).bind fun _ _ => Alike.pure _
  refine (rdLe_alike agrees (by omega)).bind fun value _ => ?_
  exact Alike.unlessValid agrees fun _ => Alike.pure _

theorem hivexNodeValues_alike (agrees : View.Agrees v v') (node : Nat) :
    Alike v v' (hivexNodeValues node) :=
  (getValues_alike agrees node).bind fun _ _ => Alike.pure _

theorem hivexValueKeyLen_alike (agrees : View.Agrees v v') (value : Nat) :
    Alike v v' (hivexValueKeyLen value) := by
  refine (requireBlock_alike agrees value Vk.id).bind fun _ found => ?_
  have low := requireBlock_low found
  refine (rdLe_alike agrees (by omega)).bind fun ret _ => ?_
  refine (blockLen_alike agrees low).bind fun segLen _ => ?_
  split
  · exact Alike.throw _
  · exact Alike.pure _

theorem hivexValueStructLength_alike (agrees : View.Agrees v v') (value : Nat) :
    Alike v v' (hivexValueStructLength value) :=
  (hivexValueKeyLen_alike agrees value).bind fun _ _ => Alike.pure _

theorem hivexValueKey_alike (agrees : View.Agrees v v') (value : Nat) :
    Alike v v' (hivexValueKey value) := by
  refine (requireBlock_alike agrees value Vk.id).bind fun _ found => ?_
  have low := requireBlock_low found
  exact (hivexValueKeyLen_alike agrees value).bind fun _ _ => rdBytes_alike agrees (by omega)

theorem hivexNodeGetValue_alike (agrees : View.Agrees v v') (node : Nat) (key : CString) :
    Alike v v' (hivexNodeGetValue node key) :=
  zeroOnError_alike ((hivexNodeValues_alike agrees node).bind fun values _ =>
    firstNamed_alike (hivexValueKey_alike agrees) key values)

theorem hivexValueType_alike (agrees : View.Agrees v v') (value : Nat) :
    Alike v v' (hivexValueType value) := by
  refine (requireBlock_alike agrees value Vk.id).bind fun _ found => ?_
  have low := requireBlock_low found
  refine (rdLe_alike agrees (by omega)).bind fun _ _ => ?_
  exact (rdLe_alike agrees (by omega)).bind fun _ _ => Alike.pure _

theorem hivexValueValue_alike (agrees : View.Agrees v v') (value : Nat) :
    Alike v v' (hivexValueValue value) := by
  refine (requireBlock_alike agrees value Vk.id).bind fun _ found => ?_
  have low := requireBlock_low found
  refine (rdLe_alike agrees (by omega)).bind fun t _ => ?_
  refine (rdLe_alike agrees (by omega)).bind fun len _ => ?_
  dsimp only
  split
  · exact Alike.throw _
  split
  · exact Alike.throw _
  split
  · exact (rdBytes_alike agrees (by omega)).bind fun _ _ => Alike.pure _
  refine (rdLe_alike agrees (by omega)).bind fun offset _ => ?_
  refine Alike.unlessValid agrees fun lowData => ?_
  refine (blockLen_alike agrees lowData).bind fun blen _ => ?_
  exact (rdBytes_alike agrees (by omega)).bind fun _ _ => Alike.pure _

theorem windowsUtf16ToUtf8_alike (host : Host) (input : List UInt8) :
    Alike v v' (windowsUtf16ToUtf8 host input) := rfl

theorem hivexValueString_alike (agrees : View.Agrees v v') (host : Host) (value : Nat) :
    Alike v v' (hivexValueString host value) := by
  refine (hivexValueValue_alike agrees value).bind fun read _ => ?_
  dsimp only
  split
  · exact Alike.throw _
  · exact windowsUtf16ToUtf8_alike host _

theorem multipleStringsFrom_alike (host : Host) (fuel : Nat) (data : List UInt8) :
    Alike v v' (multipleStringsFrom host fuel data) := by
  induction fuel generalizing data with
  | zero => exact Alike.pure _
  | succ fuel ih =>
      unfold multipleStringsFrom
      dsimp only
      split
      · exact Alike.pure _
      refine (windowsUtf16ToUtf8_alike host _).bind fun str _ => ?_
      exact (ih _).bind fun _ _ => Alike.pure _

theorem hivexValueMultipleStrings_alike (agrees : View.Agrees v v') (host : Host) (value : Nat) :
    Alike v v' (hivexValueMultipleStrings host value) := by
  refine (hivexValueValue_alike agrees value).bind fun read _ => ?_
  dsimp only
  split
  · exact Alike.throw _
  · exact multipleStringsFrom_alike host _ _

theorem hivexValueDword_alike (agrees : View.Agrees v v') (value : Nat) :
    Alike v v' (hivexValueDword value) := by
  refine (hivexValueValue_alike agrees value).bind fun read _ => ?_
  dsimp only
  split
  · exact Alike.throw _
  · exact Alike.pure _

theorem hivexValueQword_alike (agrees : View.Agrees v v') (value : Nat) :
    Alike v v' (hivexValueQword value) := by
  refine (hivexValueValue_alike agrees value).bind fun read _ => ?_
  dsimp only
  split
  · exact Alike.throw _
  · exact Alike.pure _

end

/-- Two bitmaps with the same bits below `len` bytes. -/
def SameMarks (len : Nat) (bits bits' : Mem) : Prop :=
  ∀ off, bitmapTst bits' len off = bitmapTst bits len off

theorem SameMarks.clear {len off : Nat} {bits bits' cleared cleared' : Mem}
    (same : SameMarks len bits bits') (left : bitmapClr bits len off = .ok cleared)
    (right : bitmapClr bits' len off = .ok cleared') : SameMarks len cleared cleared' := by
  intro x
  have here := same x
  unfold bitmapTst bitmapClr at *
  split at left
  · rw [if_pos ‹_›] at right
    cases left
    cases right
    split
    · rw [if_pos ‹_›, if_pos ‹_›] at here
      simp only [PackedBits.test_clear]
      injection here with same
      rw [same]
    · rfl
  · cases left

section Visiting
variable {σ : Type} {h h' : Hive} (host : Host) (vtor : Visitor σ) (skipBad : Bool)

theorem tryRead_alike {α : Type} {query : Reader α} (same : Alike h.view h'.view query) :
    tryRead (fun _ : σ => h) query = tryRead (fun _ => h') query := by
  funext s
  unfold Alike at same
  simp only [tryRead, attempt, look, same]

theorem visitData_alike (agrees : View.Agrees h.view h'.view)
    (callback : Option (Nat → Nat → Nat → Nat → List UInt8 → List UInt8 → EStateM Stop σ Unit))
    (expected : Option Nat) (node value : Nat) (key : List UInt8) :
    visitData (fun _ => h) skipBad callback expected node value key =
      visitData (fun _ => h') skipBad callback expected node value key := by
  unfold visitData
  rw [tryRead_alike (hivexValueValue_alike agrees value)]

theorem visitInvalid_alike (agrees : View.Agrees h.view h'.view) (code : Errno)
    (node value t len : Nat) (key : List UInt8) :
    visitInvalid (fun _ => h) vtor skipBad code node value t len key =
      visitInvalid (fun _ => h') vtor skipBad code node value t len key := by
  unfold visitInvalid
  rw [tryRead_alike (hivexValueValue_alike agrees value)]

theorem visitInteger_alike
    (callback : Option (Nat → Nat → Nat → Nat → List UInt8 → Int → EStateM Stop σ Unit))
    {reader : Nat → Reader Int} (node value t len : Nat) (key : List UInt8)
    (same : Alike h.view h'.view (reader value)) :
    visitInteger (fun _ => h) callback reader node value t len key =
      visitInteger (fun _ => h') callback reader node value t len key := by
  unfold visitInteger
  rw [tryRead_alike same]

theorem visitTyped_alike (agrees : View.Agrees h.view h'.view) (node value t len : Nat)
    (key : List UInt8) :
    visitTyped (fun _ => h) host vtor skipBad node value t len key =
      visitTyped (fun _ => h') host vtor skipBad node value t len key := by
  unfold visitTyped
  rw [tryRead_alike (hivexValueString_alike agrees host value),
    tryRead_alike (hivexValueMultipleStrings_alike agrees host value),
    visitInteger_alike _ node value t len key (hivexValueDword_alike agrees value),
    visitInteger_alike _ node value t len key (hivexValueQword_alike agrees value)]
  simp only [visitData_alike skipBad agrees, visitInvalid_alike vtor skipBad agrees]

theorem visitValue_alike (agrees : View.Agrees h.view h'.view) (node value : Nat) :
    visitValue (fun _ => h) host vtor skipBad node value =
      visitValue (fun _ => h') host vtor skipBad node value := by
  unfold visitValue
  rw [tryRead_alike (hivexValueType_alike agrees value),
    tryRead_alike (hivexValueKey_alike agrees value)]
  simp only [visitData_alike skipBad agrees, visitTyped_alike host vtor skipBad agrees]

theorem visitValues_alike (agrees : View.Agrees h.view h'.view) (node : Nat) (values : List Nat) :
    visitValues (fun _ => h) host vtor skipBad node values =
      visitValues (fun _ => h') host vtor skipBad node values := by
  induction values with
  | nil => rfl
  | cons value rest ih =>
      unfold visitValues
      rw [visitValue_alike host vtor skipBad agrees, ih]

theorem visitContents_alike (agrees : View.Agrees h.view h'.view) {len : Nat} (node : Nat)
    (name : List UInt8) {bits bits' : Mem} (same : SameMarks len bits bits')
    {descend descend' : Mem → Nat → EStateM Stop σ Mem}
    (below : ∀ child bits bits', SameMarks len bits bits' →
      Sim (SameMarks len) (descend bits child) (descend' bits' child)) :
    Sim (SameMarks len) (visitContents (fun _ => h) host vtor skipBad descend node name bits)
      (visitContents (fun _ => h') host vtor skipBad descend' node name bits') := by
  unfold visitContents
  rw [tryRead_alike (hivexNodeValues_alike agrees node),
    tryRead_alike (hivexNodeChildren_alike agrees node)]
  simp only [visitValues_alike host vtor skipBad agrees]
  refine (Sim.of_eq rfl).bind fun values _ sameValues => ?_
  subst sameValues
  cases values with
  | error code => exact (Sim.of_eq rfl).bind fun _ _ _ => Sim.pure same
  | ok values =>
  refine (Sim.of_eq rfl).bind fun went _ sameWent => ?_
  subst sameWent
  split
  · exact Sim.pure same
  refine (Sim.of_eq rfl).bind fun children _ sameChildren => ?_
  subst sameChildren
  cases children with
  | error code => exact (Sim.of_eq rfl).bind fun _ _ _ => Sim.pure same
  | ok children =>
  refine (Sim.foldlM (fun _ _ child related => below child _ _ related) children same).bind
    fun final final' related => ?_
  split
  · exact (Sim.of_eq rfl).bind fun _ _ _ => Sim.pure related
  · exact Sim.pure related

-- The bitmap of unvisited nodes is carried along by its bits only.
theorem visitNode_alike (agrees : View.Agrees h.view h'.view) (len fuel node : Nat)
    {bits bits' : Mem} (same : SameMarks len bits bits') :
    Sim (SameMarks len) (visitNode (fun _ => h) host vtor skipBad len fuel node bits)
      (visitNode (fun _ => h') host vtor skipBad len fuel node bits') := by
  induction fuel generalizing node bits bits' with
  | zero => exact Sim.throw _
  | succ fuel ih =>
      unfold visitNode
      rw [tryRead_alike (hivexNodeName_alike agrees node)]
      refine Sim.bind (Sim.of_eq ?_) ?_
      · funext s
        simp only [look, same node]
      rintro fresh _ rfl
      split
      · exact (Sim.of_eq rfl).bind fun _ _ _ => Sim.pure same
      have cleared : Sim (SameMarks len)
          (look (fun _ : σ => ()) fun _ => bitmapClr bits len node)
          (look (fun _ => ()) fun _ => bitmapClr bits' len node) := by
        intro s
        simp only [look]
        cases left : bitmapClr bits len node with
        | ok cleared =>
            cases right : bitmapClr bits' len node with
            | ok cleared' => exact ⟨same.clear left right, rfl⟩
            | error stop =>
                unfold bitmapClr at left right
                split at left <;> simp_all
        | error stop =>
            cases right : bitmapClr bits' len node with
            | ok cleared' =>
                unfold bitmapClr at left right
                split at left <;> simp_all
            | error stop' =>
                unfold bitmapClr at left right
                split at left <;> simp_all
      refine cleared.bind fun unvisited unvisited' later => ?_
      refine (Sim.of_eq rfl).bind fun name _ sameName => ?_
      subst sameName
      cases name with
      | error code => exact (Sim.of_eq rfl).bind fun _ _ _ => Sim.pure later
      | ok name =>
      have rest := visitContents_alike host vtor skipBad agrees node name later
        fun child _ _ related => ih child related
      dsimp only
      split
      · exact (Sim.of_eq rfl).bind fun _ _ _ => rest
      · exact rest

theorem hivexVisitNode_alike (agrees : View.Agrees h.view h'.view) (node : Nat) :
    hivexVisitNode (fun _ : σ => h) host vtor skipBad node =
      hivexVisitNode (fun _ => h') host vtor skipBad node := by
  have size : h'.size = h.size := agrees.size
  apply Sim.eq
  refine (Sim.of_eq rfl).bind fun s _ sameState => ?_
  subst sameState
  dsimp only
  rw [size]
  exact (visitNode_alike host vtor skipBad agrees _ _ node agrees.marks).bind fun _ _ _ =>
    Sim.pure rfl

end Visiting

end Hivex
