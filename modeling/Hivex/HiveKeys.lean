import Hivex.HiveRoles

/-! The keys of a hive as functions of its cells: the subkey lists and subkeys of a
key and its values. On a handle with roles the readers return exactly these or an
error code. -/
namespace Hivex

open ByteMemory Commands StoreTyping

namespace Cell

/-- The subkeys in an lf/lh-record. -/
def keys (c : Cell) : List Nat :=
  (List.range (c.get16 Lf.nrKeys)).map fun i => c.get32 (Lf.keyOffset i) + 0x1000

/-- The lf/lh-records in an ri-record. -/
def lists (c : Cell) : List Nat :=
  (List.range (c.get16 Ri.nrOffsets)).map fun i => c.get32 (Ri.offset i) + 0x1000

/-- The first `count` values in a value list. -/
def values (c : Cell) (count : Nat) : List Nat :=
  (List.range count).map fun i => c.get32 (ValueList.offset i) + 0x1000

def name (c : Cell) : List UInt8 := c.bytes Nk.name (c.get16 Nk.nameLen)

end Cell

namespace Cells

variable (cells : Cells)

def keysOf (b : Nat) : List Nat := ((cells b).map Cell.keys).getD []

/-- The ri-record of a key, if any, and its lf/lh-records in reading order. -/
def listsOf (n : Nat) : List Nat × List Nat :=
  match cells n with
  | none => ([], [])
  | some c =>
      if c.get32 Nk.subkeyLf = 0xffffffff then ([], [])
      else
        let b := c.get32 Nk.subkeyLf + 0x1000
        match cells b with
        | none => ([], [])
        | some l => if l.id = Ri.id then ([b], l.lists) else ([], [b])

/-- The subkeys of a key in reading order. -/
def kids (n : Nat) : List Nat := (cells.listsOf n).2.flatMap cells.keysOf

/-- The value list of a key and its values. -/
def valuesOf (n : Nat) : List Nat × List Nat :=
  match cells n with
  | none => ([], [])
  | some c =>
      if c.get32 Nk.vallist = 0xffffffff then ([], [])
      else
        let b := c.get32 Nk.vallist + 0x1000
        match cells b with
        | none => ([], [])
        | some l => ([b], l.values (c.get32 Nk.nrValues))

end Cells

section Reading
variable {h : Hive} {roles : Roles} {node b i n : Nat} {c l : Cell} {parent : Option Nat}

theorem Typed.nk (typed : Typed h roles) (tagged : roles node = some (.nk parent))
    (found : h.cell node = some c) : NkTyped roles node parent c :=
  typed.cells _ _ _ tagged found

theorem requireBlock_nk (typed : Typed h roles) (tagged : roles node = some (.nk parent))
    (found : h.cell node = some c) : requireBlock node Nk.id h.view = .ok () := by
  rw [requireBlock_cell typed.sound found, if_pos (typed.nk tagged found).id]

theorem requireBlock_vk (typed : Typed h roles) {owner : Nat} (tagged : roles b = some (.vk owner))
    (found : h.cell b = some c) : requireBlock b Vk.id h.view = .ok () := by
  have fits : VkTyped roles owner b c := typed.cells _ _ _ tagged found
  rw [requireBlock_cell typed.sound found, if_pos fits.id]

-- A passed test of a stored offset finds a cell.
theorem valid_cell (valid : h.valid b = true) : ∃ c, h.cell b = some c := cell_of_valid valid

/-- Only error codes stop the query. -/
def Coded (stop : Stop) : Prop := ∃ code, stop = .errno code

theorem coded (code : Errno) : Coded (.errno code) := ⟨code, rfl⟩

theorem hivexNodeName_typed (typed : Typed h roles) (tagged : roles node = some (.nk parent))
    (found : h.cell node = some c) :
    Ends (hivexNodeName node h.view) (fun name => name = c.name) Coded := by
  have len := (typed.nk tagged found).len
  have nameLen := rd16_cell (i := Nk.nameLen) typed.sound found (by
    simp only [Nk.nameLen]; omega)
  simp only [hivexNodeName, bind_query, requireBlock_nk typed tagged found, ok_bind, nameLen,
    blockLen_cell typed.sound found]
  split
  · exact coded _
  · rename_i fits
    have name := rdBytes_cell (i := Nk.name) (n := c.get16 Nk.nameLen) typed.sound found (by
      simp only [Nk.sizeof, Nk.name] at *; omega)
    rw [name]
    rfl

theorem hivexNodeParent_typed (typed : Typed h roles) (tagged : roles node = some (.nk parent))
    (found : h.cell node = some c) :
    Ends (hivexNodeParent node h.view)
      (fun p => p = c.get32 Nk.parent + 0x1000 ∧ (h.cell p).isSome ∧ ∀ q, parent = some q → p = q)
      Coded := by
  have fits := typed.nk tagged found
  have word := rd32_cell (i := Nk.parent) typed.sound found (by
    have := fits.len
    simp only [Nk.parent]; omega)
  simp only [hivexNodeParent]
  rw [bind_query, requireBlock_nk typed tagged found, ok_bind, bind_query, word, ok_bind]
  refine ends_unlessValid (fun _ => coded _) fun p here => ⟨rfl, by rw [here]; rfl, fun q isParent => ?_⟩
  rcases fits.parent q isParent with none | same
  · have gone := (typed.null_gone (Or.inl none)).1
    rw [here] at gone
    cases gone
  · exact same

theorem getSubkey_typed (typed : Typed h roles) {owner : Nat} (tagged : roles b = some (.lf owner))
    (found : h.cell b = some l) (noCheckNk : Bool) (inside : i < l.get16 Lf.nrKeys) :
    Ends (getSubkey noCheckNk b i h.view)
      (fun k => k = l.get32 (Lf.keyOffset i) + 0x1000 ∧ (noCheckNk = false → (h.cell k).isSome))
      Coded := by
  have fits : LfTyped roles owner l := typed.cells _ _ _ tagged found
  have word := rd32_cell (i := Lf.keyOffset i) typed.sound found (by
    have := fits.len
    simp only [Lf.keyOffset]; omega)
  unfold getSubkey
  rw [bind_query, word, ok_bind]
  cases noCheckNk with
  | true => exact ⟨rfl, fun absurd => by cases absurd⟩
  | false => exact ends_unlessValid (fun _ => coded _) fun k here => ⟨rfl, fun _ => by rw [here]; rfl⟩

theorem getSubkeys_typed (typed : Typed h roles) {owner : Nat} (tagged : roles b = some (.lf owner))
    (found : h.cell b = some l) (noCheckNk : Bool) :
    Ends (getSubkeys noCheckNk b (l.get16 Lf.nrKeys) h.view)
      (fun ks => ks = l.keys ∧ ∀ k ∈ ks, noCheckNk = false → (h.cell k).isSome) Coded := by
  refine Ends.mapM_map _ _ _ _ _ fun i member => ?_
  exact getSubkey_typed typed tagged found noCheckNk (List.mem_range.mp member)

theorem getRiOffset_typed (typed : Typed h roles) {owner : Nat} (tagged : roles b = some (.ri owner))
    (found : h.cell b = some l) (inside : i < l.get16 Ri.nrOffsets) :
    Ends (getRiOffset b i h.view)
      (fun lf => lf = l.get32 (Ri.offset i) + 0x1000 ∧ roles lf = some (.lf owner) ∧
        (h.cell lf).isSome) Coded := by
  have fits : RiTyped roles owner l := typed.cells _ _ _ tagged found
  have word := rd32_cell (i := Ri.offset i) typed.sound found (by
    have := fits.len
    simp only [Ri.offset]; omega)
  unfold getRiOffset
  rw [bind_query, word, ok_bind]
  refine ends_unlessValid (fun _ => coded _) fun k here => ?_
  obtain ⟨role, lfFits⟩ := typed.follow (fits.offsets i inside) here
  have both : l.get32 (Ri.offset i) + 0x1000 = l.get32 (Ri.offset i) + 0x1000 ∧
      roles (l.get32 (Ri.offset i) + 0x1000) = some (.lf owner) ∧
      (h.cell (l.get32 (Ri.offset i) + 0x1000)).isSome := ⟨rfl, role, by rw [here]; rfl⟩
  rw [bind_query, blockIdEq_cell typed.sound here, ok_bind]
  rcases LfTyped.id lfFits with isLf | isLh
  · simp only [isLf, decide_true, if_true]
    exact both
  · have notLf : Lf.idLh ≠ Lf.idLf := by decide
    simp only [isLh, notLf, decide_false, Bool.false_eq_true, if_false]
    rw [bind_query, blockIdEq_cell typed.sound here, ok_bind]
    simp only [isLh, decide_true, if_true]
    exact both

theorem listsOf_null (found : h.cell node = some c) (null : c.get32 Nk.subkeyLf = 0xffffffff) :
    h.cell.listsOf node = ([], []) := by
  simp only [Cells.listsOf, found, null, if_true]

theorem listsOf_lf (found : h.cell node = some c) (there : c.get32 Nk.subkeyLf ≠ 0xffffffff)
    (list : h.cell (c.get32 Nk.subkeyLf + 0x1000) = some l) (id : l.id = Lf.idLf ∨ l.id = Lf.idLh) :
    h.cell.listsOf node = ([], [c.get32 Nk.subkeyLf + 0x1000]) := by
  have notRi : l.id ≠ Ri.id := by rcases id with same | same <;> rw [same] <;> decide
  simp only [Cells.listsOf, found, there, list, notRi, if_false]

theorem listsOf_ri (found : h.cell node = some c) (there : c.get32 Nk.subkeyLf ≠ 0xffffffff)
    (list : h.cell (c.get32 Nk.subkeyLf + 0x1000) = some l) (id : l.id = Ri.id) :
    h.cell.listsOf node = ([c.get32 Nk.subkeyLf + 0x1000], l.lists) := by
  simp only [Cells.listsOf, found, there, list, id, if_true, if_false]

theorem Typed.there (typed : Typed h roles) {w : Nat} (found : h.cell (w + 0x1000) = some c) :
    ¬Null w := fun null => by
  rw [(typed.null_gone null).1] at found
  cases found

/-- What `get_children` returns for a key with roles. -/
structure ChildrenRead (h : Hive) (roles : Roles) (node : Nat) (c : Cell) (noCheckNk : Bool)
    (children blocks : List Nat) : Prop where
  count : c.get32 Nk.nrSubkeys ≠ 0
  few : c.get32 Nk.nrSubkeys ≤ hiveMaxSubkeys
  kids : children = h.cell.kids node
  total : children.length = c.get32 Nk.nrSubkeys
  lists : blocks = (h.cell.listsOf node).1 ++ (h.cell.listsOf node).2
  ri : ∀ b ∈ (h.cell.listsOf node).1, roles b = some (.ri node) ∧ (h.cell b).isSome
  lf : ∀ b ∈ (h.cell.listsOf node).2, roles b = some (.lf node) ∧ (h.cell b).isSome
  alive : noCheckNk = false → ∀ k ∈ children, (h.cell k).isSome

theorem keysOf_cell (found : h.cell b = some l) : h.cell.keysOf b = l.keys := by
  simp only [Cells.keysOf, found, Option.map_some, Option.getD_some]

theorem keys_length (l : Cell) : l.keys.length = l.get16 Lf.nrKeys := by simp [Cell.keys]

theorem getChildren_typed (typed : Typed h roles) (tagged : roles node = some (.nk parent))
    (found : h.cell node = some c) (noCheckNk : Bool) :
    Ends (getChildren node noCheckNk h.view)
      (fun r => c.get32 Nk.nrSubkeys = 0 ∧ r = ([], []) ∨
        ChildrenRead h roles node c noCheckNk r.1 r.2) Coded := by
  have fits := typed.nk tagged found
  have len := fits.len
  have count := rd32_cell (i := Nk.nrSubkeys) typed.sound found (by simp only [Nk.nrSubkeys]; omega)
  have pointer := rd32_cell (i := Nk.subkeyLf) typed.sound found (by simp only [Nk.subkeyLf]; omega)
  refine Ends.known (requireBlock_nk typed tagged found) (Ends.known count ?_)
  dsimp only
  split
  · exact Or.inl ⟨‹_›, rfl⟩
  rename_i some_keys
  split
  · exact coded _
  rename_i few
  refine Ends.known pointer ?_
  refine ends_unlessValid (fun _ => coded _) fun l list => ?_
  have there : c.get32 Nk.subkeyLf ≠ 0xffffffff := fun null => typed.there list (Or.inr null)
  have idRead := rdBytes_cell (i := 4) (n := 2) typed.sound list (by
    have := typed.sound.cell_bounds list
    omega)
  refine Ends.known idRead ?_
  have role : roles (c.get32 Nk.subkeyLf + 0x1000) = some (.lf node) ∧ LfTyped roles node l ∨
      roles (c.get32 Nk.subkeyLf + 0x1000) = some (.ri node) ∧ RiTyped roles node l := by
    rcases fits.list with points | points
    · exact Or.inl (typed.follow points list)
    · exact Or.inr (typed.follow points list)
  rcases role with ⟨role, lfFits⟩ | ⟨role, riFits⟩
  · have id := lfFits.id
    have lists := listsOf_lf found there list id
    have isLf : l.bytes 4 2 = Lf.idLf ∨ l.bytes 4 2 = Lf.idLh := id
    rw [if_pos isLf]
    have nrKeys := rd16_cell (i := Lf.nrKeys) typed.sound list (by
      have := lfFits.len
      simp only [Lf.nrKeys]; omega)
    refine Ends.known nrKeys ?_
    split
    · exact coded _
    rename_i same
    refine Ends.known (blockLen_cell typed.sound list) ?_
    split
    · exact coded _
    refine (getSubkeys_typed typed role list noCheckNk).seq fun ks ⟨isKeys, alive⟩ => ?_
    refine Or.inr ⟨some_keys, Nat.not_lt.mp few, ?_, ?_, ?_, ?_, ?_, fun check k member => alive k member check⟩
    · simp only [Cells.kids, lists, List.flatMap_cons, List.flatMap_nil, List.append_nil,
        keysOf_cell list, isKeys]
    · rw [show (ks, [c.get32 Nk.subkeyLf + 0x1000]).1 = ks from rfl, isKeys, keys_length]
      exact (not_ne_iff.mp same).symm
    · simp only [lists, List.nil_append]
    · simp only [lists, List.not_mem_nil, false_imp_iff, implies_true]
    · intro b member
      simp only [lists, List.mem_singleton] at member
      subst member
      exact ⟨role, by rw [list]; rfl⟩
  · have id := riFits.id
    have lists := listsOf_ri found there list id
    have isRi : l.bytes 4 2 = Ri.id := id
    have notLf : ¬(l.bytes 4 2 = Lf.idLf ∨ l.bytes 4 2 = Lf.idLh) := by
      rw [isRi]
      decide
    rw [if_neg notLf, if_pos isRi]
    have nrOffsets := rd16_cell (i := Ri.nrOffsets) typed.sound list (by
      have := riFits.len
      simp only [Ri.nrOffsets]; omega)
    refine Ends.known nrOffsets ?_
    refine (Ends.mapM_map _ (fun i => (l.get32 (Ri.offset i) + 0x1000,
      (h.cell.keysOf (l.get32 (Ri.offset i) + 0x1000)).length)) _ _
      (fun y => roles y.1 = some (.lf node) ∧ (h.cell y.1).isSome) fun i member => ?_).seq ?_
    · refine (getRiOffset_typed typed role list (List.mem_range.mp member)).seq ?_
      rintro lf ⟨rfl, lfRole, alive⟩
      obtain ⟨d, here⟩ := Option.isSome_iff_exists.mp alive
      have keysRead := rd16_cell (i := Lf.nrKeys) typed.sound here (by
        have dFits : LfTyped roles node d := typed.cells _ _ _ lfRole here
        have := dFits.len
        simp only [Lf.nrKeys]; omega)
      refine Ends.known keysRead ⟨?_, lfRole, alive⟩
      rw [keysOf_cell here, keys_length]
    · rintro counted ⟨isCounted, lfs⟩
      have firsts : counted.map Prod.fst = l.lists := by
        rw [isCounted, List.map_map]
        rfl
      have seconds : (counted.map Prod.snd).sum = (h.cell.kids node).length := by
        simp only [Cells.kids, lists, List.length_flatMap, isCounted, List.map_map, Cell.lists]
        rfl
      split
      · exact coded _
      rename_i same
      refine (Ends.mapM_map _ (fun i => h.cell.keysOf (l.get32 (Ri.offset i) + 0x1000)) _ _
        (fun ks => ∀ k ∈ ks, noCheckNk = false → (h.cell k).isSome) fun i member => ?_).seq ?_
      · refine (getRiOffset_typed typed role list (List.mem_range.mp member)).seq ?_
        rintro lf ⟨rfl, lfRole, alive⟩
        obtain ⟨d, here⟩ := Option.isSome_iff_exists.mp alive
        have keysRead := rd16_cell (i := Lf.nrKeys) typed.sound here (by
          have dFits : LfTyped roles node d := typed.cells _ _ _ lfRole here
          have := dFits.len
          simp only [Lf.nrKeys]; omega)
        refine Ends.known keysRead ?_
        rw [keysOf_cell here]
        exact getSubkeys_typed typed lfRole here noCheckNk
      · rintro ks ⟨isKeys, alive⟩
        have flat : ks.flatten = h.cell.kids node := by
          simp only [Cells.kids, lists, Cell.lists, isKeys, List.flatMap_def, List.map_map]
          rfl
        refine Or.inr ⟨some_keys, Nat.not_lt.mp few, flat, ?_, ?_, ?_, ?_, ?_⟩
        · show ks.flatten.length = _
          rw [flat, ← seconds]
          exact (not_ne_iff.mp same).symm
        · show _ :: counted.map Prod.fst = _
          rw [lists, firsts]
          rfl
        · intro b member
          simp only [lists, List.mem_singleton] at member
          subst member
          exact ⟨role, by rw [list]; rfl⟩
        · intro b member
          rw [lists, ← firsts] at member
          obtain ⟨y, inCounted, rfl⟩ := List.mem_map.mp member
          exact lfs y inCounted
        · intro check k member
          obtain ⟨block, inKs, inBlock⟩ := List.mem_flatten.mp member
          exact alive block inKs k inBlock check

end Reading

end Hivex
