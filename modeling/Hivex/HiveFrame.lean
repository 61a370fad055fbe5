import Hivex.HiveSession

/-! What the calls on one key leave alone: the readers of a key look at the blocks that it
owns, at the marks of its children and at its parent, so other calls do not show in them. -/
namespace Hivex

open ByteMemory Commands StoreTyping GhostRuns CallHistories

/-- A hive with roles that has become another one. -/
structure Later (h : Hive) (roles : Roles) (k : Hive) (roles' : Roles) : Prop where
  before : Typed h roles
  after : Typed k roles'
  grows : Extends roles roles'

section Blocks
variable {h k : Hive} {b n i w : Nat} {c c' : Cell} {β : Type}

theorem Sound.alike_field {next : Nat → Reader β} (soundH : Sound h) (soundK : Sound k) (found : h.cell b = some c)
    (found' : k.cell b = some c') (inside : i + n ≤ c.len) (len : c'.len = c.len) (same : c'.get n i = c.get n i)
    (continues : Alike h.view k.view (next (c.get n i))) : Alike h.view k.view (rdLe n b i >>= next) := by
  have there : rdLe n b i k.view = .ok (c'.get n i) := rdLe_cell soundK found' (by omega)
  rw [same] at there
  exact Alike.known (rdLe_cell soundH found inside) there continues

theorem Sound.alike_len {next : Nat → Reader β} (soundH : Sound h) (soundK : Sound k) (found : h.cell b = some c)
    (found' : k.cell b = some c') (len : c'.len = c.len) (continues : Alike h.view k.view (next c.len)) :
    Alike h.view k.view (blockLen b >>= next) := by
  have there := blockLen_cell soundK found'
  rw [len] at there
  exact Alike.known (blockLen_cell soundH found) there continues

theorem Sound.alike_bytes (soundH : Sound h) (soundK : Sound k) (found : h.cell b = some c)
    (found' : k.cell b = some c') (inside : i + n ≤ c.len) (len : c'.len = c.len) (same : c'.bytes i n = c.bytes i n) :
    Alike h.view k.view (rdBytes b i n) := by
  unfold Alike
  rw [rdBytes_cell soundH found inside, rdBytes_cell soundK found' (by omega), same]

theorem Sound.alike_id {next : Bool → Reader β} {eqid : List UInt8} (soundH : Sound h) (soundK : Sound k)
    (found : h.cell b = some c) (found' : k.cell b = some c')
    (same : c'.id = c.id) (continues : Alike h.view k.view (next (decide (c.id = eqid)))) :
    Alike h.view k.view (blockIdEq b eqid >>= next) := by
  have there := blockIdEq_cell soundK found' eqid
  rw [same] at there
  exact Alike.known (blockIdEq_cell soundH found eqid) there continues

-- A block that is used in both, or in neither.
theorem alike_unlessValid {stop : Errno} {next : Reader β} (same : (k.cell b).isSome = (h.cell b).isSome)
    (continues : (h.cell b).isSome → Alike h.view k.view next) :
    Alike h.view k.view (do
      unless (← isValidBlock b) do throw (.errno stop)
      next) := by
  have here : isValidBlock b h.view = .ok (h.valid b) := isValidBlock_view b
  have there : isValidBlock b k.view = .ok (k.valid b) := isValidBlock_view b
  rw [valid_eq_isSome] at here there
  rw [same] at there
  apply Alike.known here there
  cases used : (h.cell b).isSome with
  | false => exact Alike.throw _
  | true => exact continues used

theorem firstNamed_same {nameOf : Nat → Reader (List UInt8)} {wanted : CString} {xs : List Nat}
    (each : ∀ x ∈ xs, Alike h.view k.view (nameOf x)) : Alike h.view k.view (firstNamed nameOf wanted xs) := by
  induction xs with
  | nil => exact Alike.pure _
  | cons x xs ih =>
      apply (each x (by simp)).bind
      intro name _
      split
      · exact Alike.pure _
      · exact ih fun y member => each y (List.mem_cons_of_mem x member)

end Blocks

section Readers
variable {host : Host} {h k : Hive} {roles roles' : Roles} {b i n node v w owner : Nat} {c c' l : Cell} {role : Role}
  {up : Option Nat}

-- A stored offset leads to the same block, or nowhere in both.
theorem Later.follows (later : Later h roles k roles') (points : Points roles w role)
    (same : roles (w + 0x1000) = some role → k.cell (w + 0x1000) = h.cell (w + 0x1000)) :
    k.cell (w + 0x1000) = h.cell (w + 0x1000) := by
  rcases points with null | tagged
  · rw [(later.before.null_gone null).1, (later.after.null_gone null).1]
  · exact same tagged

/-- The key `n` has the same name, parent and time in both. -/
structure KeyLater (h : Hive) (roles : Roles) (k : Hive) (roles' : Roles) (n : Nat) (up : Option Nat) (c c' : Cell) :
    Prop extends Later h roles k roles' where
  tagged : roles n = some (.nk up)
  found : h.cell n = some c
  found' : k.cell n = some c'
  same : SameKey linkFields c c'

section Keys
variable (key : KeyLater h roles k roles' n up c c')
include key

theorem KeyLater.long : 80 ≤ c.len := (key.before.nk key.tagged key.found).len

theorem KeyLater.require {β : Type} {next : Unit → Reader β} (continues : Alike h.view k.view (next ())) :
    Alike h.view k.view (requireBlock n Nk.id >>= next) :=
  Alike.known (requireBlock_nk key.before key.tagged key.found)
    (requireBlock_nk key.after (key.grows _ _ key.tagged) key.found') continues

theorem KeyLater.field {β : Type} {next : Nat → Reader β} {m : Nat} (fixed : i + m ≤ Nk.nrSubkeys ∨ 72 ≤ i)
    (inside : i + m ≤ 80) (continues : Alike h.view k.view (next (c.get m i))) :
    Alike h.view k.view (rdLe m n i >>= next) := by
  have long := key.long
  exact key.before.sound.alike_field key.after.sound key.found key.found' (by omega) key.same.len
    (key.same.get (linkFields_outside fixed)) continues

theorem KeyLater.nodeName : Alike h.view k.view (hivexNodeName n) := by
  unfold hivexNodeName
  apply key.require
  apply key.field (by decide) (by decide)
  apply key.before.sound.alike_len key.after.sound key.found key.found' key.same.len
  split
  · exact Alike.throw _
  · next fits =>
    apply key.before.sound.alike_bytes key.after.sound key.found key.found' _ key.same.len
    · exact key.same.slice (linkFields_outside (Or.inr (by decide)))
    · simp only [Nk.sizeof, Nk.name] at fits ⊢
      omega

theorem KeyLater.nodeStructLength : Alike h.view k.view (hivexNodeStructLength n) := by
  unfold hivexNodeStructLength
  apply key.require
  apply key.field (by decide) (by decide)
  apply key.before.sound.alike_len key.after.sound key.found key.found' key.same.len
  split
  · exact Alike.throw _
  · exact Alike.pure _

theorem KeyLater.nodeTimestamp : Alike h.view k.view (hivexNodeTimestamp n) := by
  unfold hivexNodeTimestamp timestampCheck
  apply key.require
  apply key.field (by decide) (by decide)
  split
  · exact Alike.throw _
  · exact Alike.pure _

theorem KeyLater.nodeParent (same : ∀ p, up = some p → (k.cell p).isSome = (h.cell p).isSome) :
    Alike h.view k.view (hivexNodeParent n) := by
  have fits := key.before.nk key.tagged key.found
  unfold hivexNodeParent
  apply key.require
  apply key.field (by decide) (by decide)
  apply alike_unlessValid
  · cases up with
    | none =>
        rcases fits.top rfl with null | isVoid
        · rw [(key.before.null_gone null).1, (key.after.null_gone null).1]
        · have gone : ∀ {g : Hive} {rs : Roles}, Typed g rs → rs (c.get32 Nk.parent + 0x1000) = some .void →
              g.cell (c.get32 Nk.parent + 0x1000) = none := by
            intro g rs typed isVoid
            cases there : g.cell (c.get32 Nk.parent + 0x1000) with
            | none => rfl
            | some d => exact (typed.cells _ _ _ isVoid there).elim
          rw [gone key.before isVoid, gone key.after (key.grows _ _ isVoid)]
    | some p =>
        rcases fits.parent p rfl with zero | leads
        · rw [(key.before.null_gone (Or.inl zero)).1, (key.after.null_gone (Or.inl zero)).1]
        · rw [leads]
          exact same p rfl
  · exact fun _ => Alike.pure _

end Keys

/-- Nothing of the key `n`, of what it owns and of the names of its children has changed. -/
structure Untouched (h : Hive) (roles : Roles) (k : Hive) (roles' : Roles) (n : Nat) (up : Option Nat) (c : Cell) :
    Prop extends Later h roles k roles' where
  tagged : roles n = some (.nk up)
  found : h.cell n = some c
  owned : ∀ b role, roles b = some role → role.owner b = some n → k.cell b = h.cell b
  children : ∀ b, roles b = some (.nk (some n)) → (k.cell b).isSome = (h.cell b).isSome
  names : ∀ b d d', roles b = some (.nk (some n)) → h.cell b = some d → k.cell b = some d' →
    SameKey linkFields d d'
  parent : ∀ p, up = some p → (k.cell p).isSome = (h.cell p).isSome

section Untouched
variable (key : Untouched h roles k roles' n up c)
include key

theorem Untouched.found' : k.cell n = some c := (key.owned n _ key.tagged rfl).trans key.found

theorem Untouched.keyLater : KeyLater h roles k roles' n up c c :=
  ⟨key.toLater, key.tagged, key.found, key.found', SameKey.refl _ c⟩

theorem Untouched.field {β : Type} {next : Nat → Reader β} {m : Nat} (inside : i + m ≤ 80)
    (continues : Alike h.view k.view (next (c.get m i))) : Alike h.view k.view (rdLe m n i >>= next) := by
  have long := (key.before.nk key.tagged key.found).len
  exact key.before.sound.alike_field key.after.sound key.found key.found' (by omega) rfl rfl continues

/-- A test of a stored offset to a block of the key. -/
theorem Untouched.follow {β : Type} {stop : Errno} {next : Reader β}
    (points : Points roles w role) (mine : role.owner (w + 0x1000) = some n)
    (continues : ∀ d, h.cell (w + 0x1000) = some d → k.cell (w + 0x1000) = some d →
      roles (w + 0x1000) = some role → Alike h.view k.view next) :
    Alike h.view k.view (do
      unless (← isValidBlock (w + 0x1000)) do throw (.errno stop)
      next) := by
  have same := key.follows points fun tagged => key.owned _ _ tagged mine
  apply alike_unlessValid (congrArg Option.isSome same)
  intro used
  obtain ⟨d, there⟩ := Option.isSome_iff_exists.mp used
  exact continues d there (same.trans there) (key.before.follow points there).1

theorem Untouched.getValues : Alike h.view k.view (getValues n) := by
  have fits := key.before.nk key.tagged key.found
  unfold Hivex.getValues
  apply key.keyLater.require
  apply key.field (by decide)
  split
  · exact Alike.pure _
  split
  · exact Alike.throw _
  apply key.field (by decide)
  dsimp only
  have points : ∃ slots, Points roles (c.get32 Nk.vallist) (.vallist n slots) ∧
      (¬Null (c.get32 Nk.vallist) → c.get32 Nk.nrValues ≤ slots) := by
    rcases fits.values with null | ⟨slots, tagged, enough⟩
    · exact ⟨0, Or.inl null, fun there => absurd null there⟩
    · exact ⟨slots, Or.inr tagged, fun _ => enough⟩
  obtain ⟨slots, points, enough⟩ := points
  apply key.follow points rfl
  intro l list list' isList
  have listFits : ValueListTyped roles n slots l := key.before.cells _ _ _ isList list
  have few : c.get 4 Nk.nrValues ≤ slots := enough (key.before.there list)
  apply key.before.sound.alike_len key.after.sound list list' rfl
  split
  · exact Alike.throw _
  next room =>
  apply Alike.bind
  · apply Alike.mapM
    intro j member
    have inside := List.mem_range.mp member
    unfold getValueOffset
    apply key.before.sound.alike_field key.after.sound list list' _ rfl rfl
    · apply key.follow (listFits.offsets j (by omega)) rfl
      exact fun _ _ _ _ => Alike.pure _
    · simp only [ValueList.offset] at *
      omega
  · exact fun _ _ => Alike.pure _

theorem Untouched.nodeValues : Alike h.view k.view (hivexNodeValues n) :=
  key.getValues.bind fun _ _ => Alike.pure _

section Value
variable (isVk : roles v = some (.vk n)) {d : Cell} (here : h.cell v = some d)
include isVk here

theorem Untouched.vk : k.cell v = some d := (key.owned v _ isVk rfl).trans here

theorem Untouched.requireVk {β : Type} {next : Unit → Reader β} (continues : Alike h.view k.view (next ())) :
    Alike h.view k.view (requireBlock v Vk.id >>= next) :=
  Alike.known (requireBlock_vk key.before isVk here)
    (requireBlock_vk key.after (key.grows _ _ isVk) (key.vk isVk here)) continues

theorem Untouched.vkField {β : Type} {next : Nat → Reader β} {m : Nat} (inside : i + m ≤ 20)
    (continues : Alike h.view k.view (next (d.get m i))) : Alike h.view k.view (rdLe m v i >>= next) := by
  have fits : VkTyped roles n v d := key.before.cells _ _ _ isVk here
  have long := fits.len
  exact key.before.sound.alike_field key.after.sound here (key.vk isVk here) (by omega) rfl rfl continues

theorem Untouched.valueKeyLen : Alike h.view k.view (hivexValueKeyLen v) := by
  unfold hivexValueKeyLen
  apply key.requireVk isVk here
  apply key.vkField isVk here (by decide)
  apply key.before.sound.alike_len key.after.sound here (key.vk isVk here) rfl
  split
  · exact Alike.throw _
  · exact Alike.pure _

theorem Untouched.valueKey : Alike h.view k.view (hivexValueKey v) := by
  unfold hivexValueKey
  apply key.requireVk isVk here
  apply (key.valueKeyLen isVk here).bind
  intro len read
  have ends := hivexValueKeyLen_tagged key.before isVk
  rw [read] at ends
  exact key.before.sound.alike_bytes key.after.sound here (key.vk isVk here) (ends d here) rfl rfl

theorem Untouched.valueType : Alike h.view k.view (hivexValueType v) := by
  unfold hivexValueType
  apply key.requireVk isVk here
  apply key.vkField isVk here (by decide)
  apply key.vkField isVk here (by decide)
  exact Alike.pure _

theorem Untouched.valueValue : Alike h.view k.view (hivexValueValue v) := by
  have fits : VkTyped roles n v d := key.before.cells _ _ _ isVk here
  have long := fits.len
  unfold hivexValueValue
  apply key.requireVk isVk here
  apply key.vkField isVk here (by decide)
  apply key.vkField isVk here (by decide)
  dsimp only
  split
  · exact Alike.throw _
  next small =>
  split
  · exact Alike.throw _
  split
  · next isInline =>
    have few : d.get 4 Vk.dataLen % 2 ^ 31 ≤ 4 := by
      by_contra more
      exact small ⟨isInline, by omega⟩
    apply Alike.bind
    · apply key.before.sound.alike_bytes key.after.sound here (key.vk isVk here) _ rfl rfl
      simp only [Vk.dataOffset]
      omega
    · exact fun _ _ => Alike.pure _
  · next outOfLine =>
    have points := fits.data.resolve_left (by simpa using outOfLine)
    apply key.vkField isVk here (by decide)
    apply key.follow points rfl
    intro e data data' _
    have bounds := key.before.sound.cell_bounds data
    apply key.before.sound.alike_len key.after.sound data data' rfl
    apply Alike.bind
    · apply key.before.sound.alike_bytes key.after.sound data data' _ rfl rfl
      split <;> omega
    · exact fun _ _ => Alike.pure _

end Value

theorem Untouched.getSubkey (isLf : roles b = some (.lf n)) (list : h.cell b = some l)
    (inside : i < l.get16 Lf.nrKeys) : Alike h.view k.view (Hivex.getSubkey false b i) := by
  have fits : LfTyped roles n l := key.before.cells _ _ _ isLf list
  have long := fits.len
  unfold Hivex.getSubkey
  apply key.before.sound.alike_field key.after.sound list ((key.owned b _ isLf rfl).trans list) _ rfl rfl
  · apply alike_unlessValid
    · rcases fits.keys i inside with null | isNk
      · rw [(key.before.null_gone null).1, (key.after.null_gone null).1]
      · exact key.children _ isNk
    · exact fun _ => Alike.pure _
  · simp only [Lf.keyOffset]
    omega

theorem Untouched.getSubkeys (isLf : roles b = some (.lf n)) (list : h.cell b = some l) {count : Nat}
    (few : count ≤ l.get16 Lf.nrKeys) : Alike h.view k.view (Hivex.getSubkeys false b count) := by
  apply Alike.mapM
  intro j member
  have inside := List.mem_range.mp member
  exact key.getSubkey isLf list (by omega)

theorem Untouched.getRiOffset (isRi : roles b = some (.ri n)) (list : h.cell b = some l)
    (inside : i < l.get16 Ri.nrOffsets) : Alike h.view k.view (Hivex.getRiOffset b i) := by
  have fits : RiTyped roles n l := key.before.cells _ _ _ isRi list
  have long := fits.len
  unfold Hivex.getRiOffset
  apply key.before.sound.alike_field key.after.sound list ((key.owned b _ isRi rfl).trans list) _ rfl rfl
  · apply key.follow (fits.offsets i inside) rfl
    intro m there there' _
    apply key.before.sound.alike_id key.after.sound there there' rfl
    split
    · exact Alike.pure _
    apply key.before.sound.alike_id key.after.sound there there' rfl
    split
    · exact Alike.pure _
    · exact Alike.throw _
  · simp only [Ri.offset]
    omega

/-- Going on at a list of an ri-record. -/
theorem Untouched.atRiOffset {β : Type} {next : Nat → Nat → Reader β} (isRi : roles b = some (.ri n))
    (list : h.cell b = some l) (inside : i < l.get16 Ri.nrOffsets)
    (continues : ∀ lf m, roles lf = some (.lf n) → h.cell lf = some m →
      Alike h.view k.view (next lf (m.get16 Lf.nrKeys))) :
    Alike h.view k.view (do
      let lf ← Hivex.getRiOffset b i
      let nrKeys ← rd16 lf Lf.nrKeys
      next lf nrKeys) := by
  apply (key.getRiOffset isRi list inside).bind
  intro lf read
  have ends := getRiOffset_typed key.before isRi list inside
  rw [read] at ends
  obtain ⟨-, isLf, used⟩ := ends
  obtain ⟨m, there⟩ := Option.isSome_iff_exists.mp used
  have fits : LfTyped roles n m := key.before.cells _ _ _ isLf there
  have long := fits.len
  apply key.before.sound.alike_field key.after.sound there ((key.owned lf _ isLf rfl).trans there) _ rfl rfl
  · exact continues lf m isLf there
  · simp only [Lf.nrKeys]
    omega

theorem Untouched.getChildren : Alike h.view k.view (Hivex.getChildren n false) := by
  have fits := key.before.nk key.tagged key.found
  unfold Hivex.getChildren
  apply key.keyLater.require
  apply key.field (by decide)
  split
  · exact Alike.pure _
  split
  · exact Alike.throw _
  apply key.field (by decide)
  dsimp only
  have idRead : ∀ {g : Hive} {l : Cell} {a : Nat}, Sound g → g.cell a = some l → rdBytes a 4 2 g.view = .ok l.id := by
    intro g l a sound there
    have bounds := sound.cell_bounds there
    exact rdBytes_cell sound there (by omega)
  rcases fits.list with points | points
  · apply key.follow points rfl
    intro l list list' isLf
    have listFits : LfTyped roles n l := key.before.cells _ _ _ isLf list
    have long := listFits.len
    apply Alike.known (idRead key.before.sound list) (idRead key.after.sound list')
    rw [if_pos listFits.id]
    apply key.before.sound.alike_field key.after.sound list list' (by simp only [Lf.nrKeys]; omega) rfl rfl
    split
    · exact Alike.throw _
    apply key.before.sound.alike_len key.after.sound list list' rfl
    split
    · exact Alike.throw _
    exact (key.getSubkeys isLf list (Nat.le_refl _)).bind fun _ _ => Alike.pure _
  · apply key.follow points rfl
    intro l list list' isRi
    have listFits : RiTyped roles n l := key.before.cells _ _ _ isRi list
    have long := listFits.len
    have notLf : ¬(l.id = Lf.idLf ∨ l.id = Lf.idLh) := by
      rw [listFits.id]
      decide
    apply Alike.known (idRead key.before.sound list) (idRead key.after.sound list')
    rw [if_neg notLf, if_pos listFits.id]
    apply key.before.sound.alike_field key.after.sound list list' (by simp only [Ri.nrOffsets]; omega) rfl rfl
    apply Alike.bind
    · apply Alike.mapM
      intro j member
      exact key.atRiOffset isRi list (List.mem_range.mp member) fun _ _ _ _ => Alike.pure _
    intro counted _
    split
    · exact Alike.throw _
    apply Alike.bind
    · apply Alike.mapM
      intro j member
      exact key.atRiOffset isRi list (List.mem_range.mp member) fun lf m isLf there =>
        key.getSubkeys isLf there (Nat.le_refl _)
    · exact fun _ _ => Alike.pure _

theorem Untouched.nodeChildren : Alike h.view k.view (hivexNodeChildren n) :=
  key.getChildren.bind fun _ _ => Alike.pure _

theorem Untouched.nodeGetChild (nname : CString) : Alike h.view k.view (hivexNodeGetChild n nname) := by
  apply zeroOnError_alike
  apply key.nodeChildren.bind
  intro children read
  have each := hivexNodeChildren_tagged key.before key.tagged
  rw [read] at each
  apply firstNamed_same
  intro x member
  obtain ⟨isNk, used⟩ := each x member
  obtain ⟨d, here⟩ := Option.isSome_iff_exists.mp used
  obtain ⟨d', here'⟩ := Option.isSome_iff_exists.mp ((key.children x isNk).trans used)
  exact KeyLater.nodeName ⟨key.toLater, isNk, here, here', key.names x d d' isNk here here'⟩

theorem Untouched.nodeGetValue (wanted : CString) : Alike h.view k.view (hivexNodeGetValue n wanted) := by
  apply zeroOnError_alike
  apply key.nodeValues.bind
  intro values read
  have each := hivexNodeValues_tagged key.before key.tagged
  rw [read] at each
  apply firstNamed_same
  intro x member
  obtain ⟨isVk, used⟩ := each x member
  obtain ⟨d, here⟩ := Option.isSome_iff_exists.mp used
  exact key.valueKey isVk here

end Untouched

end Readers

/-- The readers of a value give the same in both. -/
structure ValueReadsSame (h k : Hive) (v : Nat) : Prop where
  valueStructLength : Alike h.view k.view (hivexValueStructLength v)
  valueKeyLen : Alike h.view k.view (hivexValueKeyLen v)
  valueKey : Alike h.view k.view (hivexValueKey v)
  valueType : Alike h.view k.view (hivexValueType v)
  valueValue : Alike h.view k.view (hivexValueValue v)
  valueString : ∀ host, Alike h.view k.view (hivexValueString host v)
  valueMultipleStrings : ∀ host, Alike h.view k.view (hivexValueMultipleStrings host v)
  valueDword : Alike h.view k.view (hivexValueDword v)
  valueQword : Alike h.view k.view (hivexValueQword v)

/-- The readers of a key and of its values give the same in both. -/
structure KeyReadsSame (h k : Hive) (n : Nat) : Prop where
  nodeStructLength : Alike h.view k.view (hivexNodeStructLength n)
  nodeName : Alike h.view k.view (hivexNodeName n)
  nodeTimestamp : Alike h.view k.view (hivexNodeTimestamp n)
  nodeParent : Alike h.view k.view (hivexNodeParent n)
  nodeChildren : Alike h.view k.view (hivexNodeChildren n)
  nodeGetChild : ∀ nname, Alike h.view k.view (hivexNodeGetChild n nname)
  nodeValues : Alike h.view k.view (hivexNodeValues n)
  nodeGetValue : ∀ wanted, Alike h.view k.view (hivexNodeGetValue n wanted)
  values : ∀ values, hivexNodeValues n h.view = .ok values → ∀ v ∈ values, ValueReadsSame h k v

section Frames
variable {host : Host} {h k start : Hive} {roles roles' : Roles} {n v : Nat} {up : Option Nat} {c d : Cell}
  {given held : List Nat} {made : List Call} {call : Call}

theorem Untouched.valueSame (key : Untouched h roles k roles' n up c) (isVk : roles v = some (.vk n))
    (here : h.cell v = some d) : ValueReadsSame h k v where
  valueStructLength := (key.valueKeyLen isVk here).bind fun _ _ => Alike.pure _
  valueKeyLen := key.valueKeyLen isVk here
  valueKey := key.valueKey isVk here
  valueType := key.valueType isVk here
  valueValue := key.valueValue isVk here
  valueString := fun host => by
    apply (key.valueValue isVk here).bind
    intro read _
    dsimp only
    split
    · exact Alike.throw _
    · exact windowsUtf16ToUtf8_alike host _
  valueMultipleStrings := fun host => by
    apply (key.valueValue isVk here).bind
    intro read _
    dsimp only
    split
    · exact Alike.throw _
    · exact multipleStringsFrom_alike host _ _
  valueDword := by
    apply (key.valueValue isVk here).bind
    intro read _
    dsimp only
    split
    · exact Alike.throw _
    · exact Alike.pure _
  valueQword := by
    apply (key.valueValue isVk here).bind
    intro read _
    dsimp only
    split
    · exact Alike.throw _
    · exact Alike.pure _

theorem Untouched.keySame (key : Untouched h roles k roles' n up c) : KeyReadsSame h k n where
  nodeStructLength := key.keyLater.nodeStructLength
  nodeName := key.keyLater.nodeName
  nodeTimestamp := key.keyLater.nodeTimestamp
  nodeParent := key.keyLater.nodeParent key.parent
  nodeChildren := key.nodeChildren
  nodeGetChild := key.nodeGetChild
  nodeValues := key.nodeValues
  nodeGetValue := key.nodeGetValue
  values := fun values read v member => by
    have each := hivexNodeValues_tagged key.before key.tagged
    rw [read] at each
    obtain ⟨isVk, used⟩ := each v member
    obtain ⟨d, here⟩ := Option.isSome_iff_exists.mp used
    exact key.valueSame isVk here

/-- The call changes the key: it adds a child to it, sets its values or deletes it, a key above it or a
child of it. -/
def Call.About (roles : Roles) (n : Nat) : Call → Prop
  | nodeAddChild parent _ => parent = n
  | nodeSetValues node _ | nodeSetValue node _ => node = n
  | nodeDeleteChild top => Under roles top n ∨ roles top = some (.nk (some n))
  | _ => False

/-- Whatever does not show in the key `n`, whose parent is `up`. -/
def apartScope (n : Nat) (up : Option Nat) : Scope where
  writes := fun b role => role.owner b ≠ some n
  frees := fun b role => role.owner b ≠ some n ∧ role ≠ .nk (some n) ∧ up ≠ some b
  makes := fun _ => False
  bears := fun p => p ≠ n
  fields := linkFields

-- What is above an old key has always been above it.
theorem Under.back {now : Roles} {top : Nat} (typed : Typed start roles) (grows : Extends roles now)
    (tagged : roles n = some (.nk up)) (under : Under now top n) : Under roles top n := by
  induction under generalizing up with
  | refl => exact Relation.ReflTransGen.refl
  | @tail m n _ isParent ih =>
      have same := grows _ _ tagged
      rw [isParent] at same
      cases same
      obtain ⟨g, isNk⟩ := typed.parents n m tagged
      exact (ih isNk).tail tagged

-- The parent of a key is the record of a key.
theorem Typed.not_parent {b : Nat} {role : Role} (typed : Typed start roles) (tagged : roles n = some (.nk up))
    (isRole : roles b = some role) (notKey : ¬role.isKey) : up ≠ some b := by
  intro isParent
  subst isParent
  obtain ⟨g, isNk⟩ := typed.parents n b tagged
  rw [isRole] at isNk
  cases isNk
  exact notKey trivial

theorem Call.delete_within {top : Nat} (rooted : Rooted start roles) (tagged : roles n = some (.nk up))
    (apart : ¬Call.About roles n (.nodeDeleteChild top)) :
    Call.Within start roles (apartScope n up) (.nodeDeleteChild top) := by
  refine ⟨fun now h rootedNow moves b before role isRole => ?_, fun _ _ _ never => never.elim, fun _ _ _ changed => changed⟩
  have notAbove : ¬Under now top n := fun under =>
    apart (Or.inl (under.back rooted.toTyped moves.grows tagged))
  have notChild : now top ≠ some (.nk (some n)) := by
    intro isChild
    cases known : roles top with
    | none =>
        obtain ⟨p, same, apart⟩ := moves.newKey known isChild
        exact apart (Option.some.inj same).symm
    | some r =>
        have same := moves.grows _ _ known
        rw [isChild] at same
        cases same
        exact apart (Or.inr known)
  have isNow : now b = some role := moves.grows _ _ isRole
  constructor
  · rintro ⟨p, isTop, same | isList | isSk | under⟩ owned
    · subst same
      obtain ⟨g, isNk⟩ := rootedNow.parents top b isTop
      rw [isNk] at isNow
      cases isNow
      cases owned
      exact notChild isTop
    · subst isList
      cases owned
      exact notChild isTop
    · subst isSk
      cases owned
    · have isNk : ∃ g, now b = some (.nk g) := by
        rcases under.parent_above with rfl | ⟨q, isParent⟩
        · exact ⟨_, isTop⟩
        · exact ⟨_, isParent⟩
      obtain ⟨g, isNk⟩ := isNk
      rw [isNk] at isNow
      cases isNow
      cases owned
      exact notAbove under
  · rintro ⟨p, isTop, isSk | ⟨m, under, owned⟩⟩
    · subst isSk
      exact ⟨by simp [Role.owner], by simp, rooted.not_parent tagged isRole id⟩
    · refine ⟨fun mine => ?_, fun isChild => ?_, fun isParent => ?_⟩
      · rw [owned] at mine
        cases mine
        exact notAbove under
      · subst isChild
        cases owned
        rcases under.up isNow with rfl | above
        · exact notChild isNow
        · exact notAbove above
      · subst isParent
        obtain ⟨g, isNk⟩ := rooted.parents n b tagged
        rw [isRole] at isNk
        cases isNk
        cases owned
        exact notAbove (under.tail (moves.grows _ _ tagged))

theorem Call.values_within {node : Nat} (isScope : ∀ now next, call.scope now next = valueScope next node)
    (rooted : Rooted start roles) (tagged : roles n = some (.nk up)) (apart : node ≠ n) :
    call.Within start roles (apartScope n up) := by
  constructor
  · intro now h _ moves b before role isRole
    rw [isScope]
    have frontier := moves.keeps.frontier
    constructor
    · rintro (new | ⟨rfl, isKey⟩) owned
      · omega
      · cases role with
        | nk g => exact apart (Option.some.inj owned)
        | _ => exact isKey.elim
    · intro holds
      have owned : role.owner b = some node ∧ ¬role.isKey := by
        cases role with
        | vallist owner slots => exact ⟨congrArg some holds, id⟩
        | vk owner => exact ⟨congrArg some holds, id⟩
        | data owner vk => exact ⟨congrArg some holds, id⟩
        | _ => exact holds.elim
      refine ⟨fun mine => ?_, fun isChild => ?_, rooted.not_parent tagged isRole owned.2⟩
      · rw [owned.1] at mine
        exact apart (Option.some.inj mine)
      · subst isChild
        exact owned.2 trivial
  · intro now next p
    rw [isScope]
    exact fun never => never.elim
  · intro now next i
    exact call.changes_links

theorem Call.apart_within (rooted : Rooted start roles) (tagged : roles n = some (.nk up)) (apart : ¬call.About roles n) :
    call.Within start roles (apartScope n up) := by
  cases call with
  | nodeDeleteChild top => exact Call.delete_within rooted tagged apart
  | nodeAddChild parent name =>
      refine ⟨fun now h _ moves b before role isRole => ⟨?_, ?_⟩, fun _ _ p same => same ▸ apart,
        fun _ _ _ changed => childWords_link changed⟩
      · rintro (new | ⟨rfl, isKey⟩ | rfl | rfl) owned
        · have frontier := moves.keeps.frontier
          omega
        · cases role with
          | nk g => exact apart (Option.some.inj owned)
          | _ => exact isKey.elim
        · exact apart (Option.some.inj owned)
        · cases owned
      · rintro rfl
        exact ⟨fun owned => apart (Option.some.inj owned), by simp, rooted.not_parent tagged isRole id⟩
  | nodeSetValues node values => exact Call.values_within (fun _ _ => rfl) rooted tagged apart
  | nodeSetValue node val => exact Call.values_within (fun _ _ => rfl) rooted tagged apart
  | _ => exact ⟨fun _ _ _ _ _ _ _ _ => ⟨fun never => never.elim, fun never => never.elim⟩, fun _ _ _ never => never.elim,
      fun _ _ _ never => never.elim⟩

/-- No call changes the name, the time or the length of the record of a key while the key is in use. -/
theorem Session.keeps_identity (session : Session host given start made held k) (below : host.Below4G)
    (rooted : Rooted start roles) (handles : ∀ m ∈ given, IsHandle roles m) (tagged : roles n = some (.nk up))
    (used : start.valid n = true) (still : k.valid n = true) :
    Alike start.view k.view (hivexNodeName n) ∧ Alike start.view k.view (hivexNodeTimestamp n) ∧
      Alike start.view k.view (hivexNodeStructLength n) := by
  obtain ⟨now, rootedNow, moves, -⟩ :=
    Session.keeps session below rooted handles fun call _ => call.within_all
  have bounds := rooted.bounds n _ tagged
  rw [valid_eq_isSome] at used still
  obtain ⟨c, found⟩ := Option.isSome_iff_exists.mp used
  obtain ⟨c', found'⟩ := Option.isSome_iff_exists.mp still
  have key : KeyLater start roles k now n up c c' := by
    constructor
    · exact ⟨rooted.toTyped, rootedNow.toTyped, moves.grows⟩
    · exact tagged
    · exact found
    · exact found'
    · apply moves.steady n bounds.2 _ up tagged c c' found found'
      exact fun new => absurd bounds.2 (Nat.not_lt.mpr new)
  exact ⟨key.nodeName, key.nodeTimestamp, key.nodeStructLength⟩

end Frames

section Sample

-- A key is added below the only child of the root.
theorem family_grown : ∃ held k, Session ampleHost [0x10a0] family [.nodeAddChild 0x10a0 nameA] held k ∧
    k.valid 0x10a0 = true := by
  have adds : endsIn (fun k => k.valid 0x10a0) ((library ampleHost).run (.nodeAddChild 0x10a0 nameA) family) = true := by
    decide +kernel
  obtain ⟨more, k, run, used⟩ := run_endsIn adds
  have uses : ∀ n ∈ (library ampleHost).uses (.nodeAddChild 0x10a0 nameA), n ∈ [0x10a0] := fun n member => member
  exact ⟨_, k, History.opened.returned uses run, used⟩

theorem family_handles : ∀ n ∈ [0x10a0], IsHandle familyRoles n := by
  intro n member
  rw [List.mem_singleton.mp member]
  exact Or.inl ⟨some 0x1020, rfl⟩

theorem family_identity : ∃ held k, Session ampleHost [0x10a0] family [.nodeAddChild 0x10a0 nameA] held k ∧
    Alike family.view k.view (hivexNodeName 0x10a0) ∧ Alike family.view k.view (hivexNodeTimestamp 0x10a0) ∧
      Alike family.view k.view (hivexNodeStructLength 0x10a0) := by
  obtain ⟨held, k, session, still⟩ := family_grown
  have used : family.valid 0x10a0 = true := by decide +kernel
  have tagged : familyRoles 0x10a0 = some (.nk (some 0x1020)) := rfl
  exact ⟨held, k, session,
    Session.keeps_identity session ampleHost_ample.below4G family_rooted family_handles tagged used still⟩

theorem nulFree_kid : (0 : UInt8) ∉ ([0x6b, 0x69, 0x64] : List UInt8) := by decide

/-- The name of the child of the root. -/
def nameKid : CString := ⟨[0x6b, 0x69, 0x64], nulFree_kid⟩

/-- The run ends with this stop. -/
def stopsWith {α : Type} (reason : Stop) : EStateM.Result Stop Hive α → Bool
  | .ok _ _ => false
  | .error other _ => other = reason

theorem run_stopsWith {α : Type} {program : Command α} {h : Hive} {reason : Stop}
    (stops : stopsWith reason (program h) = true) : ∃ k, program h = .error reason k := by
  cases run : program h with
  | ok value k =>
      rw [run] at stops
      cases stops
  | error other k =>
      rw [run] at stops
      exact ⟨k, by rw [of_decide_eq_true stops]⟩

end Sample

end Hivex
