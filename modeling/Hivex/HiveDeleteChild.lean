import Hivex.HiveDeleteWalk

/-! `hivex_node_delete_child`: the subtree is erased, and the key is taken out of the list of
its parent that names it. -/
namespace Hivex

open ByteMemory Commands StoreTyping

/-- `m` is `l` with the keys from `j + 1` to `i` moved one position down. -/
structure Shifted (l m : Cell) (j i : Nat) : Prop where
  len : m.len = l.len
  id : m.id = l.id
  nrKeys : m.get16 Lf.nrKeys = l.get16 Lf.nrKeys
  moved : ∀ x, j ≤ x → x < i → m.get32 (Lf.keyOffset x) = l.get32 (Lf.keyOffset (x + 1))
  others : ∀ x, x < j ∨ i ≤ x → m.get32 (Lf.keyOffset x) = l.get32 (Lf.keyOffset x)

/-- `m` is the lf/lh-record `l` without the key `node`. -/
structure Dropped (l m : Cell) (node : Nat) : Prop where
  id : m.id = l.id
  room : 8 + 8 * m.get16 Lf.nrKeys ≤ m.len
  keys : ∃ front back, l.keys = front ++ node :: back ∧ m.keys = front ++ back

section Removing
variable {h g : Hive} {b node j i : Nat} {l m : Cell}

theorem Shifted.step (shifted : Shifted l m j i) (behind : j ≤ i) :
    Shifted l (m.blit (Lf.keyOffset i) (m.bytes (Lf.keyOffset (i + 1)) 8)) j (i + 1) := by
  have copied := Copied.blit m m (i + 1) i (fun x => x + 1) rfl
  constructor
  · exact copied.len.trans shifted.len
  · exact copied.id.trans shifted.id
  · exact copied.nrKeys.trans shifted.nrKeys
  · intro x from_j below
    by_cases last : x = i
    · rw [last, copied.copied i (by simp), shifted.others (i + 1) (by omega)]
    · rw [copied.others x (by simp [last]), shifted.moved x from_j (by omega)]
  · intro x outside
    rw [copied.others x (by simp; omega), shifted.others x (by omega)]

theorem Wrote.shiftKeys {stop : Stop → Hive → Prop} (count : Nat) (wrote : Wrote h g b m) (shifted : Shifted l m j i) (behind : j ≤ i)
    (room : 8 + 8 * (i + count) + 8 ≤ l.len) :
    wp ((List.range' i count).forM fun x => Hivex.copyKey b b (x + 1) x)
      (fun _ g' => ∃ m', Wrote h g' b m' ∧ Shifted l m' j (i + count)) stop g := by
  induction count generalizing i g m with
  | zero => exact ⟨m, wrote, shifted⟩
  | succ count ih =>
      have long := shifted.len
      have key := rdBytes_cell (i := Lf.keyOffset (i + 1)) (n := 8) wrote.sound wrote.here
        (by simp only [Lf.keyOffset]; omega)
      have length : (m.bytes (Lf.keyOffset (i + 1)) 8).length = 8 := slice_length _ _ _
      rw [List.range'_succ]
      refine (wp_bind _ _ _).mpr ((wp_bind _ _ _).mpr (wp_read key ?_))
      apply wrote.wp_then (by simp only [Lf.keyOffset]; omega) (by rw [length]; simp only [Lf.keyOffset]; omega)
      intro g₁ wrote₁
      have next := ih wrote₁ (shifted.step behind) (by omega) (by omega)
      rw [show i + 1 + count = i + (count + 1) by omega] at next
      exact next

theorem keys_eq_dropped (inside : j < l.get16 Lf.nrKeys) (total : m.get16 Lf.nrKeys = l.get16 Lf.nrKeys - 1)
    (shifted : ∀ x, x < l.get16 Lf.nrKeys - 1 → m.get32 (Lf.keyOffset x) =
      l.get32 (Lf.keyOffset (if x < j then x else x + 1))) : m.keys = l.keys.take j ++ l.keys.drop (j + 1) := by
  have front : (l.keys.take j).length = j := by
    rw [List.length_take, keys_length]
    omega
  apply List.ext_getElem
  · simp only [List.length_append, front, List.length_drop, keys_length]
    omega
  · intro x inKeys _
    rw [keys_length] at inKeys
    have moved := shifted x (by omega)
    by_cases before : x < j
    · rw [List.getElem_append_left (by omega), List.getElem_take]
      rw [if_pos before] at moved
      simp only [Cell.keys, List.getElem_map, List.getElem_range, moved]
    · rw [List.getElem_append_right (by omega), List.getElem_drop]
      rw [if_neg before] at moved
      have back : j + 1 + (x - (l.keys.take j).length) = x + 1 := by omega
      simp only [Cell.keys, List.getElem_map, List.getElem_range, moved] at back ⊢
      rw [back]

/-- Taking out the key at `j`. -/
theorem Sound.removeKey {stop : Stop → Hive → Prop} (sound : Sound h) (found : h.cell b = some l) (fits : 8 + 8 * l.get16 Lf.nrKeys ≤ l.len)
    (inside : j < l.get16 Lf.nrKeys) (here : l.get32 (Lf.keyOffset j) + 0x1000 = node) :
    wp (Hivex.removeKey b (l.get16 Lf.nrKeys) j) (fun _ g => ∃ m, Wrote h g b m ∧ Dropped l m node) stop h := by
  have start : Wrote h h b l := ⟨sound, Keeps.refl h, found, fun _ _ => rfl⟩
  have still : Shifted l l j j := ⟨rfl, rfl, rfl, fun x from_j below => by omega, fun _ _ => rfl⟩
  have few := l.get16_lt Lf.nrKeys
  refine wp_seq (start.shiftKeys (l.get16 Lf.nrKeys - 1 - j) still (Nat.le_refl j) (by omega)) ?_
  rintro _ g ⟨m, wrote, shifted⟩
  have long := shifted.len
  apply wrote.wp_then (by decide) (by rw [leBytes_length]; simp only [Lf.nrKeys] at fits inside ⊢; omega)
  intro g' wrote'
  have total : (m.put16 Lf.nrKeys (l.get16 Lf.nrKeys - 1)).get16 Lf.nrKeys = l.get16 Lf.nrKeys - 1 := by
    rw [Cell.get16, Cell.get_put_same]
    omega
  refine ⟨m.put16 Lf.nrKeys (l.get16 Lf.nrKeys - 1), wrote', (Cell.id_put m (by decide)).trans shifted.id, ?_, l.keys.take j, l.keys.drop (j + 1), ?_, ?_⟩
  · rw [total, Cell.put_len, long]
    omega
  · have inKeys : j < l.keys.length := by
      rw [keys_length]
      exact inside
    have isNode : l.keys[j] = node := by
      simp only [Cell.keys, List.getElem_map, List.getElem_range, here]
    rw [← isNode, List.cons_getElem_drop_succ, List.take_append_drop]
  · apply keys_eq_dropped inside total
    intro x below
    rw [Cell.get32, Cell.get_put _ (Or.inr (by simp only [Lf.nrKeys, Lf.keyOffset]; omega))]
    split
    · exact shifted.others x (Or.inl ‹_›)
    · exact shifted.moved x (by omega) (by omega)

-- The literal in front: behind it, a unifier would count it down.
theorem findKey_cons (lf node j : Nat) (rest : List Nat) :
    findKey lf node (j :: rest) = (do
      let offset ← rd32 lf (Lf.keyOffset j)
      if (0x1000 + offset) % 2 ^ 32 = node then return some j
      findKey lf node rest) := by
  simp only [findKey, Nat.add_comm _ 0x1000]

theorem findKey_cell (sound : Sound h) (found : h.cell b = some l) (low : 0x1000 ≤ node) (small : node < 2 ^ 32)
    (js : List Nat) (fits : ∀ j ∈ js, 8 + 8 * j + 8 ≤ l.len) :
    (∃ j ∈ js, findKey b node js h.view = .ok (some j) ∧ l.get32 (Lf.keyOffset j) + 0x1000 = node) ∨
      findKey b node js h.view = .ok none ∧ ∀ j ∈ js, l.get32 (Lf.keyOffset j) + 0x1000 ≠ node := by
  induction js with
  | nil => exact Or.inr ⟨rfl, by simp⟩
  | cons j rest ih =>
      have inside := fits j (by simp)
      have word := rd32_cell (i := Lf.keyOffset j) sound found (by simp only [Lf.keyOffset]; omega)
      have limit := l.get32_lt (Lf.keyOffset j)
      rw [findKey_cons, bind_query, word, ok_bind]
      by_cases same : (0x1000 + l.get32 (Lf.keyOffset j)) % 2 ^ 32 = node
      · rw [if_pos same]
        exact Or.inl ⟨j, by simp, rfl, by omega⟩
      · rw [if_neg same]
        have other : l.get32 (Lf.keyOffset j) + 0x1000 ≠ node := by omega
        rcases ih fun k member => fits k (List.mem_cons_of_mem _ member) with ⟨k, member, read, isNode⟩ | ⟨read, none⟩
        · exact Or.inl ⟨k, List.mem_cons_of_mem _ member, read, isNode⟩
        · refine Or.inr ⟨read, fun k member => ?_⟩
          rcases List.mem_cons.mp member with rfl | later
          · exact other
          · exact none k later

/-- One of the lists, `b`, has lost the key `node`; no list before it names the key. -/
structure LeafDropped (h g : Hive) (lfs : List Nat) (node : Nat) (front : List Nat) (b : Nat) (back : List Nat)
    (l m : Cell) : Prop where
  lists : lfs = front ++ b :: back
  before : ∀ x ∈ front, node ∉ h.cell.keysOf x
  found : h.cell b = some l
  wrote : Wrote h g b m
  dropped : Dropped l m node

theorem Sound.unlinkLeaf (sound : Sound h) (low : 0x1000 ≤ node) (small : node < 2 ^ 32) (lfs : List Nat)
    (leaves : ∀ b ∈ lfs, ∃ l, h.cell b = some l ∧ (l.id = Lf.idLf ∨ l.id = Lf.idLh) ∧
      8 + 8 * l.get16 Lf.nrKeys ≤ l.len) :
    wp (unlinkChild node lfs) (fun _ g => ∃ front b back l m, LeafDropped h g lfs node front b back l m)
      (fun _ _ => True) h := by
  induction lfs with
  | nil => trivial
  | cons b rest ih =>
      obtain ⟨l, found, id, fits⟩ := leaves b (by simp)
      have bounds := sound.cell_bounds found
      have isLf : l.bytes 4 2 = Lf.idLf ∨ l.bytes 4 2 = Lf.idLh := id
      unfold Hivex.unlinkChild
      refine (wp_bind _ _ _).mpr (wp_read (rdBytes_cell (i := 4) (n := 2) sound found (by omega)) ?_)
      rw [if_pos isLf]
      refine (wp_bind _ _ _).mpr (wp_read (rd16_cell (i := Lf.nrKeys) sound found (by
        simp only [Lf.nrKeys]; omega)) ?_)
      rcases findKey_cell sound found low small (List.range (l.get16 Lf.nrKeys)) (fun j member => by
        have inside := List.mem_range.mp member
        omega) with ⟨j, member, read, isNode⟩ | ⟨read, none⟩
      · refine (wp_bind _ _ _).mpr (wp_read read ?_)
        refine wp_mono (sound.removeKey found fits (List.mem_range.mp member) isNode) ?_ fun _ _ stopped => stopped
        rintro _ g ⟨m, wrote, dropped⟩
        exact ⟨[], b, rest, l, m, rfl, by simp, found, wrote, dropped⟩
      · refine (wp_bind _ _ _).mpr (wp_read read ?_)
        refine wp_mono (ih fun x member => leaves x (List.mem_cons_of_mem _ member)) ?_ fun _ _ _ => trivial
        rintro _ g ⟨front, x, back, l', m, leaf⟩
        refine ⟨b :: front, x, back, l', m, by rw [leaf.lists]; rfl, fun y member => ?_, leaf.found, leaf.wrote,
          leaf.dropped⟩
        rcases List.mem_cons.mp member with rfl | inFront
        · rw [keysOf_cell found]
          intro inKeys
          obtain ⟨j, inside, isNode⟩ := List.mem_map.mp inKeys
          exact none j inside isNode
        · exact leaf.before y inFront

end Removing

/-- `h` has become `g`, in which the lists of the record `c` name the key `node` no longer. -/
structure KeyDropped (roles : Roles) (h g : Hive) (c : Cell) (ris lfs : List Nat) (node : Nat) : Prop where
  kept : Kept g roles
  keeps : Keeps h g
  lists : HasLists g.cell c ris lfs
  less : ∀ k ∈ lfs.flatMap g.cell.keysOf, k ∈ lfs.flatMap h.cell.keysOf
  keys : (lfs.flatMap h.cell.keysOf).Nodup → ∃ front back,
    lfs.flatMap h.cell.keysOf = front ++ node :: back ∧ lfs.flatMap g.cell.keysOf = front ++ back
  alive : ∀ x, (g.cell x).isSome = (h.cell x).isSome
  others : ∀ x, x ∉ lfs → g.cell x = h.cell x

section Dropping
variable {roles : Roles} {h g : Hive} {p node b : Nat} {c l m : Cell} {parent : Option Nat}
  {ris lfs front back : List Nat}

theorem Dropped.typed (dropped : Dropped l m node) (fits : LfTyped roles p l) : LfTyped roles p m := by
  constructor
  · rw [dropped.id]
    exact fits.id
  · exact dropped.room
  · intro i inside
    obtain ⟨front, back, before, after⟩ := dropped.keys
    have inKeys : m.get32 (Lf.keyOffset i) + 0x1000 ∈ m.keys := List.mem_map.mpr ⟨i, List.mem_range.mpr inside, rfl⟩
    have inOld : m.get32 (Lf.keyOffset i) + 0x1000 ∈ l.keys := by
      rw [after] at inKeys
      rw [before]
      rcases List.mem_append.mp inKeys with first | second
      · exact List.mem_append_left _ first
      · exact List.mem_append_right _ (List.mem_cons_of_mem _ second)
    obtain ⟨j, within, same⟩ := List.mem_map.mp inOld
    have word : m.get32 (Lf.keyOffset i) = l.get32 (Lf.keyOffset j) := by
      omega
    rw [word]
    exact fits.keys j (List.mem_range.mp within)

-- A list that names a key is not among the lists behind it, which name other keys.
theorem LeafDropped.apart (leaf : LeafDropped h g lfs node front b back l m)
    (once : (lfs.flatMap h.cell.keysOf).Nodup) : b ∉ front ∧ b ∉ back := by
  obtain ⟨first, last, keys, -⟩ := leaf.dropped.keys
  have names : node ∈ h.cell.keysOf b := by
    rw [keysOf_cell leaf.found, keys]
    simp
  constructor
  · exact fun member => leaf.before b member names
  · intro member
    rw [leaf.lists, List.flatMap_append, List.flatMap_cons] at once
    have apart := List.disjoint_of_nodup_append (List.nodup_append.mp once).2.1
    exact apart names (List.mem_flatMap.mpr ⟨b, member, names⟩)

theorem LeafDropped.keys (leaf : LeafDropped h g lfs node front b back l m)
    (once : (lfs.flatMap h.cell.keysOf).Nodup) :
    ∃ first last, lfs.flatMap h.cell.keysOf = first ++ node :: last ∧
      lfs.flatMap g.cell.keysOf = first ++ last := by
  obtain ⟨notFront, notBack⟩ := leaf.apart once
  obtain ⟨first, last, before, after⟩ := leaf.dropped.keys
  have same : ∀ xs : List Nat, b ∉ xs → xs.flatMap g.cell.keysOf = xs.flatMap h.cell.keysOf := fun xs apart =>
    keysOf_frame fun x member => leaf.wrote.others x fun here => apart (here ▸ member)
  refine ⟨front.flatMap h.cell.keysOf ++ first, last ++ back.flatMap h.cell.keysOf, ?_, ?_⟩
  · rw [leaf.lists, List.flatMap_append, List.flatMap_cons, keysOf_cell leaf.found, before]
    simp only [List.append_assoc, List.cons_append]
  · rw [leaf.lists, List.flatMap_append, List.flatMap_cons, same front notFront, same back notBack,
      keysOf_cell leaf.wrote.here, after]
    simp only [List.append_assoc]

theorem Dropped.kept (dropped : Dropped l m node) (kept : Kept h roles) (isList : roles b = some (.lf p))
    (found : h.cell b = some l) (wrote : Wrote h g b m) : Kept g roles := by
  apply kept.refit wrote.sound wrote.keeps
  · intro x role d tagged there
    by_cases here : x = b
    · subst here
      rw [wrote.here] at there
      rw [isList] at tagged
      cases there
      cases tagged
      exact dropped.typed (kept.cells _ _ _ isList found)
    · rw [wrote.others x here] at there
      exact kept.cells x role d tagged there
  · intro s isSk
    apply wrote.others
    rintro rfl
    rw [isList] at isSk
    cases isSk

theorem LeafDropped.keyDropped (leaf : LeafDropped h g lfs node front b back l m) (kept : Kept h roles)
    (tagged : roles p = some (.nk parent)) (found : h.cell p = some c) (lists : HasLists h.cell c ris lfs) :
    KeyDropped roles h g c ris lfs node := by
  have typed := kept.toTyped
  have wrote := leaf.wrote
  have inLfs : b ∈ lfs := by
    rw [leaf.lists]
    simp
  have role := (lists.tagged typed tagged found).2 b inLfs
  constructor
  · exact leaf.dropped.kept kept role leaf.found wrote
  · exact wrote.keeps
  · constructor
    · rcases lists.shape with direct | ⟨isRi, r, there, id, rest⟩
      · exact Or.inl direct
      · have apart : c.get32 Nk.subkeyLf + 0x1000 ≠ b := by
          intro same
          obtain ⟨l', here, isLf, -⟩ := lists.leaves b inLfs
          rw [← same, there] at here
          cases here
          rw [id] at isLf
          revert isLf
          decide
        exact Or.inr ⟨isRi, r, (wrote.others _ apart).trans there, id, rest⟩
    · intro x member
      obtain ⟨l', there, isLf, fits⟩ := lists.leaves x member
      by_cases here : x = b
      · rw [here] at there ⊢
        rw [leaf.found] at there
        cases there
        exact ⟨m, wrote.here, by rw [leaf.dropped.id]; exact isLf, leaf.dropped.room⟩
      · exact ⟨l', (wrote.others x here).trans there, isLf, fits⟩
  · intro k member
    obtain ⟨x, isList, inKeys⟩ := List.mem_flatMap.mp member
    apply List.mem_flatMap.mpr ⟨x, isList, _⟩
    by_cases here : x = b
    · obtain ⟨first, last, before, after⟩ := leaf.dropped.keys
      rw [here, keysOf_cell wrote.here, after] at inKeys
      rw [here, keysOf_cell leaf.found, before]
      rcases List.mem_append.mp inKeys with inFirst | inLast
      · exact List.mem_append_left _ inFirst
      · exact List.mem_append_right _ (List.mem_cons_of_mem _ inLast)
    · rw [Cells.keysOf, wrote.others x here] at inKeys
      exact inKeys
  · exact fun once => leaf.keys once
  · intro x
    by_cases here : x = b
    · rw [here, wrote.here, leaf.found]
      rfl
    · rw [wrote.others x here]
  · intro x outside
    apply wrote.others
    rintro rfl
    exact outside inLfs

/-- Taking a key out of the lists of its parent. -/
theorem Kept.unlinkChild (kept : Kept h roles) (tagged : roles p = some (.nk parent)) (found : h.cell p = some c)
    (lists : HasLists h.cell c ris lfs) (low : 0x1000 ≤ node) (small : node < 2 ^ 32) :
    wp (Hivex.unlinkChild node (ris ++ lfs)) (fun _ g => KeyDropped roles h g c ris lfs node)
      (fun _ _ => True) h := by
  have leaves : wp (Hivex.unlinkChild node lfs) (fun _ g => KeyDropped roles h g c ris lfs node)
      (fun _ _ => True) h := by
    refine wp_mono (kept.sound.unlinkLeaf low small lfs lists.leaves) ?_ fun _ _ _ => trivial
    rintro _ g ⟨front, b, back, l, m, leaf⟩
    exact leaf.keyDropped kept tagged found lists
  rcases lists.shape with ⟨rfl, -⟩ | ⟨rfl, r, there, id, -⟩
  · exact leaves
  · have bounds := kept.sound.cell_bounds there
    have notLf : ¬(r.bytes 4 2 = Lf.idLf ∨ r.bytes 4 2 = Lf.idLh) := by
      have isRi : r.bytes 4 2 = Ri.id := id
      rw [isRi]
      decide
    refine (wp_bind _ _ _).mpr (wp_read (rdBytes_cell (i := 4) (n := 2) kept.sound there (by omega)) ?_)
    rw [if_neg notLf]
    exact leaves

end Dropping

/-- The record of a key that has one subkey less. -/
def Cell.countLess (c : Cell) : Cell := c.put32 Nk.nrSubkeys (c.get32 Nk.nrSubkeys + (2 ^ 32 - 1))

section Counting
variable {roles : Roles} {b : Nat} {c c' : Cell} {parent : Option Nat}

theorem Cell.countLess_count (proper : c.get32 Nk.nrSubkeys ≠ 0) :
    c.countLess.get32 Nk.nrSubkeys = c.get32 Nk.nrSubkeys - 1 := by
  have limit := c.get32_lt Nk.nrSubkeys
  have stored : c.countLess.get32 Nk.nrSubkeys = (c.get32 Nk.nrSubkeys + (2 ^ 32 - 1)) % 256 ^ 4 :=
    Cell.get_put_same c 4 Nk.nrSubkeys _
  rw [stored]
  omega

theorem Cell.countLess_get {n i : Nat} (apart : i + n ≤ Nk.nrSubkeys ∨ Nk.nrSubkeys + 4 ≤ i) :
    c.countLess.get n i = c.get n i := Cell.get_put c apart

-- A record of a key fits by its length, its id and six of its words.
theorem NkTyped.alike (fits : NkTyped roles b parent c) (len : c'.len = c.len) (id : c'.id = c.id)
    (same : ∀ i ∈ [Nk.parent, Nk.subkeyLf, Nk.nrValues, Nk.vallist, Nk.sk, Nk.classname],
      c'.get32 i = c.get32 i) : NkTyped roles b parent c' := by
  constructor
  · rw [len]
    exact fits.len
  · rw [id]
    exact fits.id
  · rw [same Nk.parent (by simp)]
    exact fits.top
  · rw [same Nk.parent (by simp)]
    exact fits.parent
  · rw [same Nk.subkeyLf (by simp)]
    exact fits.list
  · rw [same Nk.vallist (by simp), same Nk.nrValues (by simp)]
    exact fits.values
  · rw [same Nk.sk (by simp)]
    exact fits.sk
  · rw [same Nk.classname (by simp)]
    exact fits.classname

theorem NkTyped.countLess (fits : NkTyped roles b parent c) : NkTyped roles b parent c.countLess := by
  have id : c.countLess.id = c.id := Cell.id_put c (by decide)
  have len : c.countLess.len = c.len := rfl
  apply fits.alike len id
  intro i member
  apply Cell.countLess_get
  simp only [List.mem_cons, List.not_mem_nil, or_false] at member
  simp only [Nk.nrSubkeys]
  rcases member with rfl | rfl | rfl | rfl | rfl | rfl <;> decide

end Counting

/-- `h` has become `g` without the key `node` and the other keys in `gone`. The record `c` of the
parent counts one key less, and its lists name one less. -/
structure ChildDeleted (roles : Roles) (h g : Hive) (node p : Nat) (gone : List Nat) (c : Cell)
    (ris lfs : List Nat) : Prop where
  kept : Kept g roles
  keeps : Keeps h g
  parent : hivexNodeParent node h.view = .ok p
  found : h.cell p = some c
  here : g.cell p = some c.countLess
  proper : c.get32 Nk.nrSubkeys ≠ 0
  few : c.get32 Nk.nrSubkeys ≤ hiveMaxSubkeys
  total : (lfs.flatMap h.cell.keysOf).length = c.get32 Nk.nrSubkeys
  before : HasLists h.cell c ris lfs
  after : HasLists g.cell c ris lfs
  less : ∀ k ∈ lfs.flatMap g.cell.keysOf, k ∈ lfs.flatMap h.cell.keysOf
  keys : (lfs.flatMap h.cell.keysOf).Nodup → ∃ front back,
    lfs.flatMap h.cell.keysOf = front ++ node :: back ∧ lfs.flatMap g.cell.keysOf = front ++ back
  parentKept : p ∉ gone
  erased : ∃ k, Walked roles h k gone ∧ (∀ x, (g.cell x).isSome = (k.cell x).isSome) ∧
    ∀ x, x ≠ p → x ∉ lfs → g.cell x = k.cell x
  exactly : Counted h roles → ∀ n, n ∈ gone ↔ InSubtree h.cell node n

section Deleting
variable {roles : Roles} {h k g : Hive} {host : Host} {node p : Nat} {c : Cell} {parent : Option Nat}
  {gone ris lfs children blocks : List Nat} {noCheckNk : Bool}

/-- A list block that is named and in use belongs to the key. -/
theorem Typed.listsTagged (typed : Typed h roles) (tagged : roles node = some (.nk parent)) :
    (∀ b ∈ (h.cell.listsOf node).1, roles b = some (.ri node)) ∧
      ∀ b ∈ (h.cell.listsOf node).2, (h.cell b).isSome → roles b = some (.lf node) := by
  unfold Cells.listsOf
  split
  · simp
  next c found =>
  split
  · simp
  dsimp only
  split
  · simp
  next l there =>
  have fits := typed.nk tagged found
  split
  · next isRi =>
    have role : roles (c.get32 Nk.subkeyLf + 0x1000) = some (.ri node) ∧ RiTyped roles node l := by
      rcases fits.list with points | points
      · have id := (typed.follow points there).2.id
        rw [isRi] at id
        exact absurd id (by decide)
      · exact typed.follow points there
    refine ⟨fun b member => ?_, fun b member alive => ?_⟩
    · rw [List.mem_singleton.mp member]
      exact role.1
    · obtain ⟨i, inside, rfl⟩ := List.mem_map.mp member
      obtain ⟨m, here⟩ := Option.isSome_iff_exists.mp alive
      exact (typed.follow (role.2.offsets i (List.mem_range.mp inside)) here).1
  · next notRi =>
    refine ⟨fun b member => (by cases member), fun b member _ => ?_⟩
    rw [List.mem_singleton.mp member]
    rcases fits.list with points | points
    · exact (typed.follow points there).1
    · exact absurd (typed.follow points there).2.id notRi

theorem Typed.hasLists (typed : Typed h roles) (tagged : roles node = some (.nk parent))
    (found : h.cell node = some c) (listed : h.cell.listsOf node ≠ ([], []))
    (alive : ∀ b ∈ (h.cell.listsOf node).2, (h.cell b).isSome) :
    HasLists h.cell c (h.cell.listsOf node).1 (h.cell.listsOf node).2 := by
  obtain ⟨isRi, isLf⟩ := typed.listsTagged tagged
  constructor
  · by_cases null : c.get32 Nk.subkeyLf = 0xffffffff
    · exact absurd (listsOf_null found null) listed
    cases there : h.cell (c.get32 Nk.subkeyLf + 0x1000) with
    | none =>
        apply absurd _ listed
        simp only [Cells.listsOf, found, null, if_false, there]
    | some l =>
        have whole : h.cell.listsOf node = if l.id = Ri.id then ([c.get32 Nk.subkeyLf + 0x1000], l.lists)
            else ([], [c.get32 Nk.subkeyLf + 0x1000]) := by
          simp only [Cells.listsOf, found, null, if_false, there]
        by_cases indirect : l.id = Ri.id
        · rw [if_pos indirect] at whole
          rw [whole] at isRi ⊢
          have role := isRi _ (List.mem_singleton_self _)
          have fits : RiTyped roles node l := typed.cells _ _ _ role there
          exact Or.inr ⟨rfl, l, rfl, indirect, fits.len, rfl⟩
        · rw [if_neg indirect] at whole
          rw [whole]
          exact Or.inl ⟨rfl, rfl⟩
  · intro lf member
    obtain ⟨l, there⟩ := Option.isSome_iff_exists.mp (alive lf member)
    have fits : LfTyped roles node l := typed.cells _ _ _ (isLf lf member (alive lf member)) there
    exact ⟨l, there, fits.id, fits.len⟩

theorem ChildrenRead.hasLists (read : ChildrenRead h roles node c noCheckNk children blocks)
    (typed : Typed h roles) (tagged : roles node = some (.nk parent)) (found : h.cell node = some c) :
    HasLists h.cell c (h.cell.listsOf node).1 (h.cell.listsOf node).2 := by
  apply typed.hasLists tagged found
  · intro none
    have total := read.total
    rw [read.kids, Cells.kids, none] at total
    exact read.count total.symm
  · exact fun b member => (read.lf b member).2

theorem Walked.hivexVisitNode (kept : Kept h roles) (tagged : roles node = some (.nk parent)) :
    wp (Hivex.hivexVisitNode id host deleteVisitor false node)
      (fun _ g => Erases roles h [] (InSubtree h.cell node) g) (fun _ _ => True) h := by
  unfold Hivex.hivexVisitNode
  rw [wp_bind]
  refine wp_seq (Walked.visitNode kept.toTyped _ node parent _ [] h tagged (Walked.refl kept)) ?_
  exact fun _ g erases => erases

theorem Walked.childDeleted {g₁ : Hive} (walked : Walked roles h k gone)
    (exactly : Counted h roles → ∀ n, n ∈ gone ↔ InSubtree h.cell node n)
    (isParent : hivexNodeParent node h.view = .ok p) (tagged : roles p = some (.nk parent)) (found : k.cell p = some c)
    (read : ChildrenRead k roles p c noCheckNk children blocks)
    (isKids : children = lfs.flatMap k.cell.keysOf) (lists : HasLists k.cell c ris lfs)
    (dropped : KeyDropped roles k g₁ c ris lfs node) (wrote : Wrote g₁ g p c.countLess) :
    ChildDeleted roles h g node p gone c ris lfs := by
  have typedK := walked.kept.toTyped
  have found₀ := walked.found tagged found
  have notGone := walked.alive found
  have fits := typedK.nk tagged found
  have notList : ∀ b ∈ ris ++ lfs, b ≠ p := fun b member same => lists.notNk found fits.id (same ▸ member)
  have asBefore : ∀ b ∈ ris ++ lfs, h.cell b = k.cell b := fun b member =>
    (walked.same notGone (lists.owned typedK tagged found b member)).symm
  have before : lfs.flatMap h.cell.keysOf = lfs.flatMap k.cell.keysOf :=
    keysOf_frame fun b member => asBefore b (List.mem_append_right _ member)
  have after : lfs.flatMap g.cell.keysOf = lfs.flatMap g₁.cell.keysOf :=
    keysOf_frame fun b member => wrote.others b (notList b (List.mem_append_right _ member))
  constructor
  · apply dropped.kept.refit wrote.sound wrote.keeps
    · intro b role d tagged' there
      by_cases here : b = p
      · subst here
        rw [wrote.here] at there
        rw [tagged] at tagged'
        cases there
        cases tagged'
        exact fits.countLess
      · rw [wrote.others b here] at there
        exact dropped.kept.cells b role d tagged' there
    · intro s isSk
      apply wrote.others
      rintro rfl
      rw [tagged] at isSk
      cases isSk
  · exact walked.keeps.trans (dropped.keeps.trans wrote.keeps)
  · exact isParent
  · exact found₀
  · exact wrote.here
  · exact read.count
  · exact read.few
  · rw [before, ← isKids]
    exact read.total
  · exact lists.frame rfl asBefore
  · exact dropped.lists.frame rfl fun b member => wrote.others b (notList b member)
  · rw [before, after]
    exact dropped.less
  · rw [before, after]
    exact dropped.keys
  · exact notGone
  · refine ⟨k, walked, fun x => ?_, fun x other outside => ?_⟩
    · rw [← dropped.alive x]
      by_cases here : x = p
      · have apart : p ∉ lfs := fun member => notList p (List.mem_append_right _ member) rfl
        rw [here, wrote.here, dropped.others p apart, found]
        rfl
      · rw [wrote.others x here]
    · rw [wrote.others x other, dropped.others x outside]
  · exact exactly

/-- What is left to do when the subtree has been erased. -/
theorem Walked.unlinks (walked : Walked roles h k gone)
    (exactly : Counted h roles → ∀ n, n ∈ gone ↔ InSubtree h.cell node n)
    (isParent : hivexNodeParent node h.view = .ok p) (tagged : roles p = some (.nk parent)) (low : 0x1000 ≤ node) (small : node < 2 ^ 32) :
    wp (do
      let (_, blocks) ← read (getChildren p true)
      unlinkChild node blocks
      let nrSubkeysInNk ← read (rd32 p Nk.nrSubkeys)
      wr32 (p + Nk.nrSubkeys) (nrSubkeysInNk + (2 ^ 32 - 1)))
      (fun _ g => ∃ c ris lfs, ChildDeleted roles h g node p gone c ris lfs) (fun _ _ => True) k := by
  have typedK := walked.kept.toTyped
  cases found : k.cell p with
  | none =>
      have refused : getChildren p true k.view = .error (.errno .EINVAL) := by
        rw [getChildren, bind_query, requireBlock_none found]
        rfl
      refine (wp_bind _ _ _).mpr ((wp_look _ _ _).mpr ?_)
      rw [refused]
      trivial
  | some c =>
      have found₀ := walked.found tagged found
      have notGone := walked.alive found
      have fits := typedK.nk tagged found
      have long := fits.len
      refine (wp_bind _ _ _).mpr ((wp_look _ _ _).mpr ((getChildren_typed typedK tagged found true).mono ?_
        fun _ _ => trivial))
      rintro ⟨children, blocks⟩ (⟨-, none⟩ | read)
      · cases none
        exact trivial
      have lists := read.hasLists typedK tagged found
      have isKids : children = (k.cell.listsOf p).2.flatMap k.cell.keysOf := read.kids
      have isLists : blocks = (k.cell.listsOf p).1 ++ (k.cell.listsOf p).2 := read.lists
      rw [isLists]
      refine wp_seq (walked.kept.unlinkChild tagged found lists low small) fun _ g₁ dropped => ?_
      have apart : p ∉ (k.cell.listsOf p).2 := fun member =>
        lists.notNk found fits.id (List.mem_append_right _ member)
      have here₁ : g₁.cell p = some c := (dropped.others p apart).trans found
      have word := rd32_cell (i := Nk.nrSubkeys) dropped.kept.sound here₁ (by simp only [Nk.nrSubkeys]; omega)
      refine (wp_bind _ _ _).mpr (wp_read word ?_)
      apply dropped.kept.sound.wp_wrote here₁ (by decide) (by rw [leBytes_length]; simp only [Nk.nrSubkeys]; omega)
      intro g wrote
      exact ⟨c, _, _, walked.childDeleted exactly isParent tagged found read isKids lists dropped wrote⟩

theorem Kept.hivexNodeDeleteChild (kept : Kept h roles) (tagged : roles node = some (.nk (some p))) :
    wp (Hivex.hivexNodeDeleteChild host node)
      (fun _ g => ∃ gone c ris lfs, ChildDeleted roles h g node p gone c ris lfs) (fun _ _ => True) h := by
  have typed := kept.toTyped
  obtain ⟨q, isNk⟩ := typed.parents node p tagged
  refine (wp_bind _ _ _).mpr ((wp_get _).mpr ?_)
  rw [kept.writable]
  refine (Inert.look _ _).then fun _ => (Inert.look _ _).then fun root => ?_
  by_cases isRoot : node = root
  · rw [if_pos isRoot]
    trivial
  rw [if_neg isRoot]
  cases found : h.cell node with
  | none =>
      have refused : hivexNodeParent node h.view = .error (.errno .EINVAL) := by
        rw [hivexNodeParent, bind_query, requireBlock_none found]
        rfl
      refine (wp_bind _ _ _).mpr ((wp_look _ _ _).mpr ?_)
      rw [refused]
      trivial
  | some c =>
      have bounds := kept.sound.cell_bounds found
      have small := kept.small
      have parents := hivexNodeParent_typed typed tagged found
      refine (wp_bind _ _ _).mpr ((wp_look _ _ _).mpr ?_)
      cases isParent : hivexNodeParent node h.view with
      | error reason => trivial
      | ok p' =>
      rw [isParent] at parents
      obtain ⟨-, -, same⟩ := parents
      rw [same p rfl] at isParent ⊢
      refine wp_seq (Walked.hivexVisitNode kept tagged) fun _ k visited => ?_
      obtain ⟨more, walked, exactly⟩ := visited
      rw [List.append_nil] at walked
      refine wp_mono (walked.unlinks exactly isParent isNk (by omega) (by omega)) ?_ fun _ _ _ => trivial
      exact fun _ g deleted => ⟨more, deleted⟩

end Deleting

end Hivex
