import Hivex.HiveKeys

/-! The subkey lists of a node as its records hold them: where the records fit their
blocks, `get_children` returns exactly these. -/
namespace Hivex

open ByteMemory Commands

/-- The subkey lists of the node `c`: one lf/lh-record, or those that an ri-record names. -/
structure HasLists (cells : Cells) (c : Cell) (ris lfs : List Nat) : Prop where
  shape : ris = [] ∧ lfs = [c.get32 Nk.subkeyLf + 0x1000] ∨
    ris = [c.get32 Nk.subkeyLf + 0x1000] ∧ ∃ r, cells (c.get32 Nk.subkeyLf + 0x1000) = some r ∧
      r.id = Ri.id ∧ 8 + 4 * r.get16 Ri.nrOffsets ≤ r.len ∧ lfs = r.lists
  leaves : ∀ lf ∈ lfs, ∃ l, cells lf = some l ∧ (l.id = Lf.idLf ∨ l.id = Lf.idLh) ∧
    8 + 8 * l.get16 Lf.nrKeys ≤ l.len

/-- Every record in the indirect lists of the node fits its block. -/
def ListsFit (cells : Cells) (c : Cell) : Prop :=
  ∀ r, cells (c.get32 Nk.subkeyLf + 0x1000) = some r → r.id = Ri.id →
    8 + 4 * r.get16 Ri.nrOffsets ≤ r.len ∧
      ∀ lf ∈ r.lists, ∀ l, cells lf = some l → l.id = Lf.idLf ∨ l.id = Lf.idLh →
        8 + 8 * l.get16 Lf.nrKeys ≤ l.len

/-- The ri-record of the node names no list twice. -/
def ListsApart (cells : Cells) (c : Cell) : Prop :=
  ∀ r, cells (c.get32 Nk.subkeyLf + 0x1000) = some r → r.id = Ri.id → r.lists.Nodup

/-- The children of the node and its subkey lists as `get_children` returns them. -/
structure HasChildren (cells : Cells) (c : Cell) (ris lfs : List Nat) : Prop extends
    HasLists cells c ris lfs where
  count : (lfs.flatMap cells.keysOf).length = c.get32 Nk.nrSubkeys
  few : c.get32 Nk.nrSubkeys ≤ hiveMaxSubkeys
  proper : c.get32 Nk.nrSubkeys ≠ 0
  alive : ∀ k ∈ lfs.flatMap cells.keysOf, (cells k).isSome

section Frame
variable {cells cells' : Cells} {c c' : Cell} {ris lfs : List Nat}

theorem keysOf_frame (same : ∀ b ∈ lfs, cells' b = cells b) :
    lfs.flatMap cells'.keysOf = lfs.flatMap cells.keysOf := by
  simp only [List.flatMap_def]
  congr 1
  exact List.map_congr_left fun b member => by simp only [Cells.keysOf, same b member]

-- The lists depend on the pointer of the node and on their own blocks.
theorem HasLists.frame (lists : HasLists cells c ris lfs)
    (pointer : c'.get32 Nk.subkeyLf = c.get32 Nk.subkeyLf)
    (same : ∀ b ∈ ris ++ lfs, cells' b = cells b) : HasLists cells' c' ris lfs := by
  constructor
  · rcases lists.shape with direct | ⟨isRi, r, found, rest⟩
    · rw [pointer]
      exact Or.inl direct
    · have kept := same (c.get32 Nk.subkeyLf + 0x1000) (by simp [isRi])
      rw [pointer]
      exact Or.inr ⟨isRi, r, kept.trans found, rest⟩
  · intro lf member
    obtain ⟨l, found, rest⟩ := lists.leaves lf member
    exact ⟨l, (same lf (List.mem_append_right _ member)).trans found, rest⟩

/-- Every list block is one of the three kinds of list records. -/
theorem HasLists.ids (lists : HasLists cells c ris lfs) :
    ∀ b ∈ ris ++ lfs, ∃ l, cells b = some l ∧ (l.id = Ri.id ∨ l.id = Lf.idLf ∨ l.id = Lf.idLh) := by
  intro b member
  rcases List.mem_append.mp member with isRi | isLf
  · rcases lists.shape with ⟨none, -⟩ | ⟨one, r, found, id, -⟩
    · rw [none] at isRi
      cases isRi
    · rw [one] at isRi
      rw [List.mem_singleton.mp isRi]
      exact ⟨r, found, Or.inl id⟩
  · obtain ⟨l, found, id, -⟩ := lists.leaves b isLf
    exact ⟨l, found, Or.inr id⟩

theorem HasLists.notNk (lists : HasLists cells c ris lfs) {b : Nat} {d : Cell} (found : cells b = some d)
    (isNk : d.id = Nk.id) : b ∉ ris ++ lfs := by
  intro member
  obtain ⟨l, there, id⟩ := lists.ids b member
  rw [found] at there
  cases there
  rw [isNk] at id
  revert id
  decide

end Frame

section Lists
variable {h : Hive} {node b i : Nat} {c l r : Cell} {ris lfs : List Nat}

theorem getSubkeys_cell (sound : Sound h) (found : h.cell b = some l)
    (fits : 8 + 8 * l.get16 Lf.nrKeys ≤ l.len) :
    Ends (getSubkeys false b (l.get16 Lf.nrKeys) h.view)
      (fun ks => ks = l.keys ∧ ∀ k ∈ ks, (h.cell k).isSome) fun _ => True := by
  refine Ends.mapM_map _ _ _ _ _ fun i member => ?_
  have inside := List.mem_range.mp member
  have word := rd32_cell (i := Lf.keyOffset i) sound found (by simp only [Lf.keyOffset]; omega)
  unfold getSubkey
  rw [bind_query, word, ok_bind]
  exact ends_unlessValid (fun _ => trivial) fun k here => ⟨rfl, by rw [here]; rfl⟩

theorem getSubkeys_alive (sound : Sound h) (found : h.cell b = some l)
    (fits : 8 + 8 * l.get16 Lf.nrKeys ≤ l.len) (alive : ∀ k ∈ l.keys, (h.cell k).isSome) :
    getSubkeys false b (l.get16 Lf.nrKeys) h.view = .ok l.keys := by
  refine mapM_query_ok _ _ _ _ fun i member => ?_
  have inside := List.mem_range.mp member
  have word := rd32_cell (i := Lf.keyOffset i) sound found (by simp only [Lf.keyOffset]; omega)
  have there := alive _ (List.mem_map_of_mem member)
  rw [← valid_eq_isSome] at there
  simp only [getSubkey, bind_query, word, ok_bind, isValidBlock_view, there, Bool.false_eq_true,
    if_false, if_true, pure_query]

theorem getRiOffset_cell (sound : Sound h) (found : h.cell b = some r)
    (inside : 8 + 4 * i + 4 ≤ r.len) :
    Ends (getRiOffset b i h.view) (fun lf => lf = r.get32 (Ri.offset i) + 0x1000 ∧
      ∃ l, h.cell lf = some l ∧ (l.id = Lf.idLf ∨ l.id = Lf.idLh)) fun _ => True := by
  have word := rd32_cell (i := Ri.offset i) sound found (by simp only [Ri.offset]; omega)
  unfold getRiOffset
  rw [bind_query, word, ok_bind]
  refine ends_unlessValid (fun _ => trivial) fun l here => ?_
  rw [bind_query, blockIdEq_cell sound here, ok_bind]
  by_cases isLf : l.id = Lf.idLf
  · simp only [isLf, decide_true, if_true]
    exact ⟨rfl, l, here, Or.inl isLf⟩
  · simp only [isLf, decide_false, Bool.false_eq_true, if_false]
    rw [bind_query, blockIdEq_cell sound here, ok_bind]
    by_cases isLh : l.id = Lf.idLh
    · simp only [isLh, decide_true, if_true]
      exact ⟨rfl, l, here, Or.inr isLh⟩
    · simp only [isLh, decide_false, Bool.false_eq_true, if_false]
      trivial

theorem getRiOffset_leaf (sound : Sound h) (found : h.cell b = some r)
    (inside : 8 + 4 * i + 4 ≤ r.len) (here : h.cell (r.get32 (Ri.offset i) + 0x1000) = some l)
    (id : l.id = Lf.idLf ∨ l.id = Lf.idLh) :
    getRiOffset b i h.view = .ok (r.get32 (Ri.offset i) + 0x1000) := by
  have word := rd32_cell (i := Ri.offset i) sound found (by simp only [Ri.offset]; omega)
  have valid := (cell_some here).1
  rcases id with isLf | isLh
  · simp only [getRiOffset, bind_query, word, ok_bind, isValidBlock_view, valid, if_true,
      blockIdEq_cell sound here, isLf, decide_true, pure_query]
  · have notLf : ¬Lf.idLh = Lf.idLf := by decide
    simp only [getRiOffset, bind_query, word, ok_bind, isValidBlock_view, valid, if_true,
      blockIdEq_cell sound here, isLh, notLf, decide_false, Bool.false_eq_true, if_false, decide_true,
      pure_query]

/-- What `get_children` returns where the records fit. -/
theorem getChildren_lists (sound : Sound h) (found : h.cell node = some c) (whole : 80 ≤ c.len)
    (fit : ListsFit h.cell c) :
    Ends (getChildren node false h.view) (fun result =>
      c.get32 Nk.nrSubkeys = 0 ∧ result = ([], []) ∨ ∃ ris lfs, HasChildren h.cell c ris lfs ∧
        result = (lfs.flatMap h.cell.keysOf, ris ++ lfs)) fun _ => True := by
  have count := rd32_cell (i := Nk.nrSubkeys) sound found (by simp only [Nk.nrSubkeys]; omega)
  have pointer := rd32_cell (i := Nk.subkeyLf) sound found (by simp only [Nk.subkeyLf]; omega)
  refine Ends.after fun _ _ => Ends.known count ?_
  dsimp only
  split
  · exact Or.inl ⟨‹_›, rfl⟩
  next proper =>
  split
  · trivial
  next few =>
  refine Ends.known pointer (ends_unlessValid (fun _ => trivial) fun l list => ?_)
  have bounds := sound.cell_bounds list
  refine Ends.known (rdBytes_cell (i := 4) (n := 2) sound list (by omega)) ?_
  split
  · next id =>
    have isLf : l.id = Lf.idLf ∨ l.id = Lf.idLh := id
    refine Ends.known (rd16_cell (i := Lf.nrKeys) sound list (by simp only [Lf.nrKeys]; omega)) ?_
    split
    · trivial
    next same =>
    refine Ends.known (blockLen_cell sound list) ?_
    split
    · trivial
    next fits =>
    refine (getSubkeys_cell sound list (by omega)).seq fun ks ⟨isKeys, alive⟩ => ?_
    have kids : [c.get32 Nk.subkeyLf + 0x1000].flatMap h.cell.keysOf = l.keys := by
      rw [List.flatMap_singleton, keysOf_cell list]
    refine Or.inr ⟨[], [c.get32 Nk.subkeyLf + 0x1000], ⟨⟨Or.inl ⟨rfl, rfl⟩, ?_⟩, ?_,
      Nat.not_lt.mp few, proper, ?_⟩, ?_⟩
    · intro lf member
      rw [List.mem_singleton.mp member]
      exact ⟨l, list, isLf, by omega⟩
    · rw [kids, keys_length]
      exact (not_ne_iff.mp same).symm
    · rw [kids]
      exact fun k member => alive k (isKeys ▸ member)
    · rw [kids, isKeys]
      rfl
  · next notLf =>
    split
    swap
    · trivial
    next id =>
    have isRi : l.id = Ri.id := id
    obtain ⟨room, leaves⟩ := fit l list isRi
    refine Ends.known (rd16_cell (i := Ri.nrOffsets) sound list (by simp only [Ri.nrOffsets]; omega)) ?_
    refine (Ends.mapM_map _ (fun i => (l.get32 (Ri.offset i) + 0x1000,
      (h.cell.keysOf (l.get32 (Ri.offset i) + 0x1000)).length)) _ _
      (fun y => ∃ m, h.cell y.1 = some m ∧ (m.id = Lf.idLf ∨ m.id = Lf.idLh)) fun i member => ?_).seq ?_
    · have inside := List.mem_range.mp member
      refine (getRiOffset_cell sound list (by omega)).seq ?_
      rintro lf ⟨rfl, m, here, isLf⟩
      have mBounds := sound.cell_bounds here
      refine Ends.known (rd16_cell (i := Lf.nrKeys) sound here (by simp only [Lf.nrKeys]; omega)) ?_
      refine ⟨?_, m, here, isLf⟩
      rw [keysOf_cell here, keys_length]
    · rintro counted ⟨isCounted, lfs⟩
      have firsts : counted.map Prod.fst = l.lists := by
        rw [isCounted, List.map_map]
        rfl
      have total : (counted.map Prod.snd).sum = (l.lists.flatMap h.cell.keysOf).length := by
        simp only [List.length_flatMap, isCounted, List.map_map, Cell.lists]
        rfl
      have leaf : ∀ lf ∈ l.lists, ∃ m, h.cell lf = some m ∧ (m.id = Lf.idLf ∨ m.id = Lf.idLh) ∧
          8 + 8 * m.get16 Lf.nrKeys ≤ m.len := by
        intro lf member
        rw [← firsts] at member
        obtain ⟨y, inCounted, rfl⟩ := List.mem_map.mp member
        obtain ⟨m, here, isLf⟩ := lfs y inCounted
        refine ⟨m, here, isLf, leaves y.1 ?_ m here isLf⟩
        rw [← firsts]
        exact List.mem_map_of_mem inCounted
      split
      · trivial
      next same =>
      refine (Ends.mapM_map _ (fun i => h.cell.keysOf (l.get32 (Ri.offset i) + 0x1000)) _ _
        (fun ks => ∀ k ∈ ks, (h.cell k).isSome) fun i member => ?_).seq ?_
      · have inside := List.mem_range.mp member
        refine (getRiOffset_cell sound list (by omega)).seq ?_
        rintro lf ⟨rfl, -⟩
        obtain ⟨m, here, isLf, mFits⟩ := leaf _ (List.mem_map_of_mem member)
        refine Ends.known (rd16_cell (i := Lf.nrKeys) sound here (by simp only [Lf.nrKeys]; omega)) ?_
        rw [keysOf_cell here]
        exact getSubkeys_cell sound here mFits
      · rintro ks ⟨isKeys, alive⟩
        have flat : ks.flatten = l.lists.flatMap h.cell.keysOf := by
          simp only [Cell.lists, isKeys, List.flatMap_def, List.map_map]
          rfl
        refine Or.inr ⟨[c.get32 Nk.subkeyLf + 0x1000], l.lists, ⟨⟨Or.inr ⟨rfl, l, list, isRi, room, rfl⟩,
          leaf⟩, ?_, Nat.not_lt.mp few, proper, ?_⟩, ?_⟩
        · rw [← total]
          exact (not_ne_iff.mp same).symm
        · rw [← flat]
          intro k member
          obtain ⟨block, inKs, inBlock⟩ := List.mem_flatten.mp member
          exact alive block inKs k inBlock
        · rw [firsts]
          exact Prod.ext flat rfl

/-- Where the lists are as they should be, `get_children` returns them. -/
theorem HasChildren.read (children : HasChildren h.cell c ris lfs) (sound : Sound h)
    (found : h.cell node = some c) (whole : 80 ≤ c.len) (isNk : c.id = Nk.id) :
    getChildren node false h.view = .ok (lfs.flatMap h.cell.keysOf, ris ++ lfs) := by
  have checked : requireBlock node Nk.id h.view = .ok () := by
    rw [requireBlock_cell sound found, if_pos isNk]
  have count := rd32_cell (i := Nk.nrSubkeys) sound found (by simp only [Nk.nrSubkeys]; omega)
  have pointer := rd32_cell (i := Nk.subkeyLf) sound found (by simp only [Nk.subkeyLf]; omega)
  have few : ¬c.get32 Nk.nrSubkeys > hiveMaxSubkeys := Nat.not_lt.mpr children.few
  have alive := children.alive
  have total := children.count
  rcases children.shape with ⟨rfl, rfl⟩ | ⟨rfl, r, list, isRi, room, rfl⟩
  · obtain ⟨l, list, id, fits⟩ := children.leaves _ (List.mem_singleton_self _)
    rw [List.flatMap_singleton, keysOf_cell list] at alive total ⊢
    rw [keys_length] at total
    have bounds := sound.cell_bounds list
    have valid := (cell_some list).1
    have idRead := rdBytes_cell (i := 4) (n := 2) sound list (by omega)
    have nrKeys := rd16_cell (i := Lf.nrKeys) sound list (by simp only [Lf.nrKeys]; omega)
    have isLf : l.bytes 4 2 = Lf.idLf ∨ l.bytes 4 2 = Lf.idLh := id
    have inside : ¬8 + l.get16 Lf.nrKeys * 8 > l.len := by omega
    have same : ¬c.get32 Nk.nrSubkeys ≠ l.get16 Lf.nrKeys := not_ne_iff.mpr total.symm
    simp only [getChildren, bind_query, checked, ok_bind, count, children.proper, if_false, few,
      pointer, isValidBlock_view, valid, if_true, idRead, isLf, nrKeys, same,
      blockLen_cell sound list, inside, getSubkeys_alive sound list fits alive, pure_query]
    rfl
  · have bounds := sound.cell_bounds list
    have valid := (cell_some list).1
    have idRead := rdBytes_cell (i := 4) (n := 2) sound list (by omega)
    have nrOffsets := rd16_cell (i := Ri.nrOffsets) sound list (by simp only [Ri.nrOffsets]; omega)
    have notLf : ¬(Ri.id = Lf.idLf ∨ Ri.id = Lf.idLh) := by decide
    have id : r.bytes 4 2 = Ri.id := isRi
    have each : ∀ i ∈ List.range (r.get16 Ri.nrOffsets), ∃ l,
        h.cell (r.get32 (Ri.offset i) + 0x1000) = some l ∧ 8 + 8 * l.get16 Lf.nrKeys ≤ l.len ∧
        getRiOffset (c.get32 Nk.subkeyLf + 0x1000) i h.view = .ok (r.get32 (Ri.offset i) + 0x1000) ∧
        rd16 (r.get32 (Ri.offset i) + 0x1000) Lf.nrKeys h.view = .ok (l.get16 Lf.nrKeys) := by
      intro i member
      have inside := List.mem_range.mp member
      obtain ⟨l, here, isLf, fits⟩ := children.leaves _ (List.mem_map_of_mem member)
      refine ⟨l, here, fits, getRiOffset_leaf sound list (by omega) here isLf, ?_⟩
      exact rd16_cell (i := Lf.nrKeys) sound here (by simp only [Lf.nrKeys]; omega)
    have counted := mapM_query_ok (fun i => do
        let offset ← getRiOffset (c.get32 Nk.subkeyLf + 0x1000) i
        let nrKeys ← rd16 offset Lf.nrKeys
        return (offset, nrKeys))
      (fun i => (r.get32 (Ri.offset i) + 0x1000, (h.cell.keysOf (r.get32 (Ri.offset i) + 0x1000)).length))
      h.view (List.range (r.get16 Ri.nrOffsets)) fun i member => by
        obtain ⟨l, here, _, offset, nrKeys⟩ := each i member
        simp only [bind_query, offset, ok_bind, nrKeys, pure_query, keysOf_cell here, keys_length]
    have copied := mapM_query_ok (fun i => do
        let offset ← getRiOffset (c.get32 Nk.subkeyLf + 0x1000) i
        let nrKeys ← rd16 offset Lf.nrKeys
        getSubkeys false offset nrKeys)
      (fun i => h.cell.keysOf (r.get32 (Ri.offset i) + 0x1000))
      h.view (List.range (r.get16 Ri.nrOffsets)) fun i member => by
        obtain ⟨l, here, fits, offset, nrKeys⟩ := each i member
        have kids : ∀ k ∈ l.keys, (h.cell k).isSome := fun k inside => by
          apply alive k
          apply List.mem_flatMap.mpr
          refine ⟨_, List.mem_map_of_mem member, ?_⟩
          rw [keysOf_cell here]
          exact inside
        simp only [bind_query, offset, ok_bind, nrKeys, getSubkeys_alive sound here fits kids,
          keysOf_cell here]
    have same : ¬c.get32 Nk.nrSubkeys ≠ (((List.range (r.get16 Ri.nrOffsets)).map fun i =>
        (r.get32 (Ri.offset i) + 0x1000,
          (h.cell.keysOf (r.get32 (Ri.offset i) + 0x1000)).length)).map Prod.snd).sum := by
      rw [not_ne_iff, ← total, List.length_flatMap, Cell.lists, List.map_map, List.map_map]
      rfl
    have flat : ((List.range (r.get16 Ri.nrOffsets)).map fun i =>
        h.cell.keysOf (r.get32 (Ri.offset i) + 0x1000)).flatten = r.lists.flatMap h.cell.keysOf := by
      rw [Cell.lists, List.flatMap_def, List.map_map]
      rfl
    have firsts : ((List.range (r.get16 Ri.nrOffsets)).map fun i => (r.get32 (Ri.offset i) + 0x1000,
        (h.cell.keysOf (r.get32 (Ri.offset i) + 0x1000)).length)).map Prod.fst = r.lists := by
      rw [List.map_map]
      rfl
    simp only [getChildren, bind_query, checked, ok_bind, count, children.proper, if_false, few,
      pointer, isValidBlock_view, valid, if_true, idRead, id, notLf, nrOffsets, counted, same, copied,
      pure_query, firsts, flat]
    rfl

end Lists

end Hivex
