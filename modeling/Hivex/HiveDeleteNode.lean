import Hivex.HiveSecurity
import Hivex.HiveSubkeyLists

/-! `delete_node` on a handle with roles: which blocks go with a node, and that no other
block changes, except for the security records. -/
namespace Hivex

open ByteMemory Commands StoreTyping LinkedRing

/-- The key to which a block with this role belongs. -/
def Role.owner (b : Nat) : Role → Option Nat
  | .nk _ => some b
  | .lf owner => some owner
  | .ri owner => some owner
  | .vallist owner _ => some owner
  | .vk owner => some owner
  | .data owner _ => some owner
  | .classname owner => some owner
  | .sk => none
  | .void => none

def OwnedBy (roles : Roles) (n b : Nat) : Prop := ∃ role, roles b = some role ∧ role.owner b = some n

/-- The blocks that go with the node `n`, apart from its subkey lists. -/
inductive Owns (cells : Cells) (n : Nat) : Nat → Prop
  | node : Owns cells n n
  | vallist {c : Cell} : cells n = some c → c.get32 Nk.nrValues ≠ 0 →
      Owns cells n (c.get32 Nk.vallist + 0x1000)
  | value {c l : Cell} {v : Nat} : cells n = some c → cells (c.get32 Nk.vallist + 0x1000) = some l →
      v ∈ l.values (c.get32 Nk.nrValues) → Owns cells n v
  | data {c l d : Cell} {v : Nat} : cells n = some c → cells (c.get32 Nk.vallist + 0x1000) = some l →
      v ∈ l.values (c.get32 Nk.nrValues) → cells v = some d → d.get32 Vk.dataLen < 2 ^ 31 →
      Owns cells n (d.get32 Vk.dataOffset + 0x1000)
  | classname {c : Cell} : cells n = some c → c.get32 Nk.classname ≠ 0xffffffff →
      Owns cells n (c.get32 Nk.classname + 0x1000)

section Reading
variable {h g : Hive} {roles : Roles} {node b n : Nat} {c : Cell} {parent : Option Nat} {ris lfs : List Nat}

theorem OwnedBy.unique {m : Nat} (owned : OwnedBy roles n b) (owned' : OwnedBy roles m b) : n = m := by
  obtain ⟨role, tagged, owner⟩ := owned
  obtain ⟨role', tagged', owner'⟩ := owned'
  rw [tagged] at tagged'
  cases tagged'
  rw [owner] at owner'
  exact Option.some.inj owner'

theorem OwnedBy.not_sk (owned : OwnedBy roles n b) : roles b ≠ some .sk := by
  obtain ⟨role, tagged, owner⟩ := owned
  intro isSk
  rw [tagged] at isSk
  cases isSk
  cases owner

theorem OwnedBy.nk (tagged : roles node = some (.nk parent)) : OwnedBy roles node node := ⟨_, tagged, rfl⟩

/-- What `get_values` returns for a key with roles. -/
structure ValuesRead (h : Hive) (roles : Roles) (node : Nat) (c : Cell) (values blocks : List Nat) : Prop where
  proper : c.get32 Nk.nrValues ≠ 0
  list : blocks = [c.get32 Nk.vallist + 0x1000]
  tagged : ∃ slots, roles (c.get32 Nk.vallist + 0x1000) = some (.vallist node slots)
  stored : ∃ l, h.cell (c.get32 Nk.vallist + 0x1000) = some l ∧ values = l.values (c.get32 Nk.nrValues)
  each : ∀ v ∈ values, roles v = some (.vk node) ∧ (h.cell v).isSome

theorem getValues_typed (typed : Typed h roles) (tagged : roles node = some (.nk parent))
    (found : h.cell node = some c) :
    Ends (getValues node h.view)
      (fun r => c.get32 Nk.nrValues = 0 ∧ r = ([], []) ∨ ValuesRead h roles node c r.1 r.2) Coded := by
  have fits := typed.nk tagged found
  have len := fits.len
  have count := rd32_cell (i := Nk.nrValues) typed.sound found (by simp only [Nk.nrValues]; omega)
  have pointer := rd32_cell (i := Nk.vallist) typed.sound found (by simp only [Nk.vallist]; omega)
  refine Ends.known (requireBlock_nk typed tagged found) (Ends.known count ?_)
  dsimp only
  split
  · exact Or.inl ⟨‹_›, rfl⟩
  next proper =>
  split
  · exact coded _
  refine Ends.known pointer (ends_unlessValid (fun _ => coded _) fun l list => ?_)
  refine Ends.known (blockLen_cell typed.sound list) ?_
  split
  · exact coded _
  have there : ¬Null (c.get32 Nk.vallist) := typed.there list
  obtain ⟨slots, isList, enough⟩ := fits.values.resolve_left there
  have listFits : ValueListTyped roles node slots l := typed.cells _ _ _ isList list
  have room := listFits.len
  refine (Ends.mapM_map _ (fun i => l.get32 (ValueList.offset i) + 0x1000) _ _
    (fun v => roles v = some (.vk node) ∧ (h.cell v).isSome) fun i member => ?_).seq ?_
  · have inside := List.mem_range.mp member
    have word := rd32_cell (i := ValueList.offset i) typed.sound list (by
      simp only [ValueList.offset]; omega)
    unfold getValueOffset
    rw [bind_query, word, ok_bind]
    refine ends_unlessValid (fun _ => coded _) fun d here => ?_
    exact ⟨rfl, (typed.follow (listFits.offsets i (by omega)) here).1, by rw [here]; rfl⟩
  · rintro values ⟨isValues, each⟩
    exact Or.inr ⟨proper, rfl, ⟨slots, isList⟩, ⟨l, list, isValues⟩, each⟩

/-- The lists of a key belong to the key. -/
theorem HasLists.tagged (lists : HasLists h.cell c ris lfs) (typed : Typed h roles)
    (tagged : roles node = some (.nk parent)) (found : h.cell node = some c) :
    (∀ b ∈ ris, roles b = some (.ri node)) ∧ ∀ b ∈ lfs, roles b = some (.lf node) := by
  have fits := typed.nk tagged found
  rcases lists.shape with ⟨rfl, rfl⟩ | ⟨rfl, r, there, isRi, -, rfl⟩
  · obtain ⟨l, there, id, -⟩ := lists.leaves _ (List.mem_singleton_self _)
    refine ⟨fun b member => (by cases member), fun b member => ?_⟩
    rw [List.mem_singleton.mp member]
    rcases fits.list with points | points
    · exact (typed.follow points there).1
    · have isRi : l.id = Ri.id := (typed.follow points there).2.id
      rw [isRi] at id
      exact absurd id (by decide)
  · have role : roles (c.get32 Nk.subkeyLf + 0x1000) = some (.ri node) ∧ RiTyped roles node r := by
      rcases fits.list with points | points
      · have id := (typed.follow points there).2.id
        rw [isRi] at id
        exact absurd id (by decide)
      · exact typed.follow points there
    refine ⟨fun b member => ?_, fun b member => ?_⟩
    · rw [List.mem_singleton.mp member]
      exact role.1
    · obtain ⟨l, inH, -⟩ := lists.leaves b member
      obtain ⟨i, inside, rfl⟩ := List.mem_map.mp member
      exact (typed.follow (role.2.offsets i (List.mem_range.mp inside)) inH).1

theorem HasLists.owned (lists : HasLists h.cell c ris lfs) (typed : Typed h roles)
    (tagged : roles node = some (.nk parent)) (found : h.cell node = some c) :
    ∀ b ∈ ris ++ lfs, OwnedBy roles node b := by
  obtain ⟨isRi, isLf⟩ := lists.tagged typed tagged found
  intro b member
  rcases List.mem_append.mp member with inRis | inLfs
  · exact ⟨_, isRi b inRis, rfl⟩
  · exact ⟨_, isLf b inLfs, rfl⟩

theorem HasLists.listsOf (lists : HasLists h.cell c ris lfs) (typed : Typed h roles)
    (found : h.cell node = some c) : h.cell.listsOf node = (ris, lfs) := by
  rcases lists.shape with ⟨rfl, rfl⟩ | ⟨rfl, r, there, isRi, -, rfl⟩
  · obtain ⟨l, there, id, -⟩ := lists.leaves _ (List.mem_singleton_self _)
    exact listsOf_lf found (fun null => typed.there there (Or.inr null)) there id
  · exact listsOf_ri found (fun null => typed.there there (Or.inr null)) there isRi

/-- Every block that goes with a key belongs to the key, or is no block at all. -/
theorem Owns.owned (owns : Owns h.cell node b) (typed : Typed h roles) (tagged : roles node = some (.nk parent))
    (alive : (h.cell b).isSome) : OwnedBy roles node b := by
  obtain ⟨d, here⟩ := Option.isSome_iff_exists.mp alive
  have listed : ∀ {c l}, h.cell node = some c → h.cell (c.get32 Nk.vallist + 0x1000) = some l →
      ∃ slots, roles (c.get32 Nk.vallist + 0x1000) = some (.vallist node slots) ∧
        ∀ v ∈ l.values (c.get32 Nk.nrValues), ∀ d, h.cell v = some d → roles v = some (.vk node) := by
    intro c l found list
    obtain ⟨slots, isList, enough⟩ := (typed.nk tagged found).values.resolve_left (typed.there list)
    refine ⟨slots, isList, fun v member d there => ?_⟩
    have listFits : ValueListTyped roles node slots l := typed.cells _ _ _ isList list
    obtain ⟨i, inside, rfl⟩ := List.mem_map.mp member
    have within := List.mem_range.mp inside
    exact (typed.follow (listFits.offsets i (by omega)) there).1
  cases owns with
  | node => exact OwnedBy.nk tagged
  | vallist found _ =>
      obtain ⟨slots, isList, -⟩ := listed found here
      exact ⟨_, isList, rfl⟩
  | value found list member =>
      obtain ⟨_, -, each⟩ := listed found list
      exact ⟨_, each b member d here, rfl⟩
  | @data c l d' v found list member there notInline =>
      obtain ⟨_, -, each⟩ := listed found list
      have isVk := each v member d' there
      have vkFits : VkTyped roles node v d' := typed.cells _ _ _ isVk there
      have points := vkFits.data.resolve_left (by omega)
      exact ⟨_, (typed.follow points here).1, rfl⟩
  | classname found named =>
      exact ⟨_, (typed.follow (typed.nk tagged found).classname here).1, rfl⟩

/-- The values of a key with roles can be told from the key. -/
theorem Typed.detached (typed : Typed h roles) (tagged : roles node = some (.nk parent))
    (found : h.cell node = some c) : Detached h node where
  record := ⟨c, found, (typed.nk tagged found).len⟩
  freed := by
    intro values blocks got
    have read := getValues_typed typed tagged found
    rw [got] at read
    rcases read with ⟨-, none⟩ | read
    · cases none
      simp
    · have vk : ∀ v ∈ values, ∀ d, h.cell v = some d → VkTyped roles node v d :=
        fun v member d there => typed.cells _ _ _ (read.each v member).1 there
      refine ⟨fun v member d there => ?_, fun member => ?_⟩
      · have long := (vk v member d there).len
        omega
      · rcases List.mem_append.mp member with isList | released
        · obtain ⟨slots, isVallist⟩ := read.tagged
          have list : blocks = [c.get32 Nk.vallist + 0x1000] := read.list
          rw [list, List.mem_singleton] at isList
          rw [← isList, tagged] at isVallist
          cases isVallist
        · obtain ⟨v, member', inReleases⟩ := List.mem_flatMap.mp released
          obtain ⟨isVk, alive⟩ := read.each v member'
          obtain ⟨d, there⟩ := Option.isSome_iff_exists.mp alive
          rw [releases_cell there] at inReleases
          have notVk : node ≠ v := by
            rintro rfl
            rw [tagged] at isVk
            cases isVk
          split at inReleases
          · exact notVk (List.mem_singleton.mp inReleases)
          · next notInline =>
            rcases List.mem_cons.mp inReleases with isData | isVk'
            · have points := (vk v member' d there).data.resolve_left notInline
              have role := (typed.follow points (isData ▸ found)).1
              rw [← isData, tagged] at role
              cases role
            · exact notVk (List.mem_singleton.mp isVk')

/-- A handle keeps its roles when the cells that are left fit them and the security records
are as before. -/
theorem Kept.refit (kept : Kept h roles) (sound : Sound g) (keeps : Keeps h g)
    (fits : ∀ b role d, roles b = some role → g.cell b = some d → RoleFits roles b role d)
    (sk : ∀ s, roles s = some .sk → g.cell s = h.cell s) : Kept g roles := by
  have typed : Typed g roles := kept.toTyped.becomes ⟨sound, keeps, rfl⟩ fits
  apply kept.relinked typed
  · intro t isSk
    rw [sk t isSk]
  · intro t isSk
    rw [Cells.skNext, Cells.skNext, sk t isSk]
  · intro t isSk
    rw [Cells.skPrev, Cells.skPrev, sk t isSk]

end Reading

/-- `h` has become `g`: blocks of the key `node` are gone, and its record is now `c`. -/
structure Stripped (roles : Roles) (node : Nat) (h g : Hive) (c : Cell) : Prop where
  kept : Kept g roles
  keeps : Keeps h g
  here : g.cell node = some c
  sk : ∀ s, roles s = some .sk → g.cell s = h.cell s
  sub : ∀ b d, b ≠ node → g.cell b = some d → h.cell b = some d
  others : ∀ b, ¬OwnedBy roles node b → g.cell b = h.cell b

/-- `h` has become `g` without the key `node`, whose record was `c`. -/
structure Erased (roles : Roles) (h g : Hive) (node : Nat) (c : Cell) : Prop where
  kept : Kept g roles
  keeps : Keeps h g
  sub : ∀ b d, roles b ≠ some .sk → g.cell b = some d → h.cell b = some d
  others : ∀ b, roles b ≠ some .sk → ¬OwnedBy roles node b → g.cell b = h.cell b
  owned : ∀ b, Owns h.cell node b → g.cell b = none
  lists : c.get32 Nk.nrSubkeys ≠ 0 → ∀ ris lfs, HasLists h.cell c ris lfs → ∀ b ∈ ris ++ lfs, g.cell b = none
  counts : ∀ t, t ≠ c.get32 Nk.sk + 0x1000 → roles t = some .sk → g.cell.refcount t = h.cell.refcount t
  own : roles (c.get32 Nk.sk + 0x1000) = some .sk → ∃ r,
    h.cell.refcount (c.get32 Nk.sk + 0x1000) = some (r + 1) ∧
    g.cell.refcount (c.get32 Nk.sk + 0x1000) = if r = 0 then none else some r

section Erasing
variable {h g k : Hive} {roles : Roles} {node b : Nat} {c c' : Cell} {parent : Option Nat} {bs : List Nat}

theorem Stripped.refl (kept : Kept h roles) (found : h.cell node = some c) : Stripped roles node h h c :=
  ⟨kept, Keeps.refl h, found, fun _ _ => rfl, fun _ _ _ there => there, fun _ _ => rfl⟩

-- The blocks that go belong to the key, whose record still fits its role.
theorem Stripped.step (stripped : Stripped roles node h g c) (tagged : roles node = some (.nk parent))
    (sound : Sound k) (keeps : Keeps g k) (here : k.cell node = some c') (fits : NkTyped roles node parent c')
    (cells : ∀ x, x ≠ node → k.cell x = g.cell x ∨
      k.cell x = none ∧ ((g.cell x).isSome → OwnedBy roles node x)) : Stripped roles node h k c' := by
  have sub : ∀ b d, b ≠ node → k.cell b = some d → g.cell b = some d := by
    intro b d other there
    rcases cells b other with same | ⟨none, -⟩
    · rw [← same]
      exact there
    · rw [none] at there
      cases there
  have others : ∀ b, ¬OwnedBy roles node b → k.cell b = g.cell b := by
    intro b notOwned
    have apart : b ≠ node := by
      rintro rfl
      exact notOwned (OwnedBy.nk tagged)
    rcases cells b apart with same | ⟨none, owned⟩
    · exact same
    · cases there : g.cell b with
      | none => exact none
      | some d => exact absurd (owned (by rw [there]; rfl)) notOwned
  have sk : ∀ s, roles s = some .sk → k.cell s = g.cell s :=
    fun s isSk => others s fun owns => owns.not_sk isSk
  constructor
  · apply stripped.kept.refit sound keeps
    · intro b role d tagged' there
      by_cases isNode : b = node
      · subst isNode
        rw [tagged] at tagged'
        rw [here] at there
        cases tagged'
        cases there
        exact fits
      · exact stripped.kept.cells b role d tagged' (sub b d isNode there)
    · exact sk
  · exact stripped.keeps.trans keeps
  · exact here
  · exact fun s isSk => (sk s isSk).trans (stripped.sk s isSk)
  · exact fun b d other there => stripped.sub b d other (sub b d other there)
  · exact fun b notOwned => (others b notOwned).trans (stripped.others b notOwned)

theorem Stripped.frees (stripped : Stripped roles node h g c) (tagged : roles node = some (.nk parent))
    (freed : Freed g k bs) (apart : node ∉ bs) (owned : ∀ b ∈ bs, (g.cell b).isSome → OwnedBy roles node b) :
    Stripped roles node h k c := by
  apply stripped.step tagged freed.sound freed.keeps
  · rw [freed.cells, if_neg apart]
    exact stripped.here
  · exact stripped.kept.toTyped.nk tagged stripped.here
  · intro x _
    rw [freed.cells]
    split
    · exact Or.inr ⟨rfl, owned x ‹_›⟩
    · exact Or.inl rfl

theorem Stripped.writes (stripped : Stripped roles node h g c) (tagged : roles node = some (.nk parent))
    (wrote : Wrote g k node c') (fits : NkTyped roles node parent c') : Stripped roles node h k c' :=
  stripped.step tagged wrote.sound wrote.keeps wrote.here fits fun x other => Or.inl (wrote.others x other)

theorem NkTyped.cleared (fits : NkTyped roles b parent c) :
    NkTyped roles b parent ((c.put32 Nk.nrValues 0).put32 Nk.vallist 0xffffffff) := by
  have same : ∀ i, i + 4 ≤ Nk.nrValues ∨ Nk.sk ≤ i →
      ((c.put32 Nk.nrValues 0).put32 Nk.vallist 0xffffffff).get32 i = c.get32 i := by
    intro i apart
    simp only [Nk.nrValues, Nk.sk] at apart
    rw [Cell.get32, Cell.get_put _ (by simp only [Nk.vallist]; omega),
      Cell.get_put _ (by simp only [Nk.nrValues]; omega)]
  constructor
  · exact fits.len
  · rw [Cell.id_put _ (by decide), Cell.id_put _ (by decide)]
    exact fits.id
  · rw [same _ (Or.inl (by decide))]
    exact fits.top
  · rw [same _ (Or.inl (by decide))]
    exact fits.parent
  · rw [same _ (Or.inl (by decide))]
    exact fits.list
  · exact Or.inl (Or.inr (Cell.get_put_same _ 4 Nk.vallist 0xffffffff))
  · rw [same _ (Or.inr (by decide))]
    exact fits.sk
  · rw [same _ (Or.inr (by decide))]
    exact fits.classname

theorem NkTyped.nullified (fits : NkTyped roles b parent c) {i : Nat} (place : i = Nk.sk ∨ i = Nk.classname) :
    NkTyped roles b parent (c.put32 i 0xffffffff) := by
  have same : ∀ j, j ≠ i → j % 4 = 0 → (c.put32 i 0xffffffff).get32 j = c.get32 j := by
    intro j other aligned
    rcases place with rfl | rfl <;> exact Cell.get_put _ (by simp only [Nk.sk, Nk.classname] at *; omega)
  have own : Null ((c.put32 i 0xffffffff).get32 i) := Or.inr (Cell.get_put_same c 4 i 0xffffffff)
  have apart : ∀ j, j ≠ Nk.sk → j ≠ Nk.classname → j ≠ i := by
    rintro j notSk notClassname rfl
    rcases place with same | same
    · exact notSk same
    · exact notClassname same
  constructor
  · exact fits.len
  · rw [Cell.id_put _ (by rcases place with rfl | rfl <;> decide)]
    exact fits.id
  · rw [same _ (apart _ (by decide) (by decide)) (by decide)]
    exact fits.top
  · rw [same _ (apart _ (by decide) (by decide)) (by decide)]
    exact fits.parent
  · rw [same _ (apart _ (by decide) (by decide)) (by decide)]
    exact fits.list
  · rw [same _ (apart Nk.vallist (by decide) (by decide)) (by decide),
      same _ (apart Nk.nrValues (by decide) (by decide)) (by decide)]
    exact fits.values
  · by_cases here : i = Nk.sk
    · subst here
      exact Or.inl own
    · rw [same _ (Ne.symm here) (by decide)]
      exact fits.sk
  · by_cases here : i = Nk.classname
    · subst here
      exact Or.inl own
    · rw [same _ (Ne.symm here) (by decide)]
      exact fits.classname

/-- The value list of the record `c`, its values and their data were there and are gone. -/
def ValuesGone (h g : Hive) (node : Nat) (c : Cell) : Prop :=
  c.get32 Nk.nrValues ≠ 0 → ∃ l, h.cell (c.get32 Nk.vallist + 0x1000) = some l ∧
    c.get32 Nk.vallist + 0x1000 ≠ node ∧ g.cell (c.get32 Nk.vallist + 0x1000) = none ∧
    ∀ v ∈ l.values (c.get32 Nk.nrValues), ∃ d, h.cell v = some d ∧ v ≠ node ∧ g.cell v = none ∧
      (d.get32 Vk.dataLen < 2 ^ 31 → g.cell (d.get32 Vk.dataOffset + 0x1000) = none)

theorem Stripped.gone (stripped : Stripped roles node h g c) (other : b ≠ node) (gone : h.cell b = none) :
    g.cell b = none := by
  cases there : g.cell b with
  | none => rfl
  | some d =>
      rw [stripped.sub b d other there] at gone
      cases gone

theorem Kept.listless {next : Command Unit} {post : Unit → Hive → Prop} (kept : Kept h roles)
    (tagged : roles node = some (.nk parent)) (found : h.cell node = some c)
    (continues : ∀ g, Stripped roles node h g c → (c.get32 Nk.nrSubkeys ≠ 0 →
      ∀ ris lfs, HasLists h.cell c ris lfs → ∀ b ∈ ris ++ lfs, g.cell b = none) →
      wp next post (fun _ _ => True) g) :
    wp (do
      let (_, blocks) ← Hivex.read (getChildren node true)
      blocks.forM markBlockUnused
      next) post (fun _ _ => True) h := by
  refine (wp_bind _ _ _).mpr ((wp_look _ _ _).mpr ((getChildren_typed kept.toTyped tagged found true).mono ?_
    fun _ _ => trivial))
  rintro ⟨children, blocks⟩ result
  rcases result with ⟨none, isEmpty⟩ | lists
  · cases isEmpty
    exact continues h (Stripped.refl kept found) fun proper => absurd none proper
  · have isLists : blocks = (h.cell.listsOf node).1 ++ (h.cell.listsOf node).2 := lists.lists
    have owned : ∀ b ∈ blocks, OwnedBy roles node b := by
      intro b member
      rw [isLists] at member
      rcases List.mem_append.mp member with isRi | isLf
      · exact ⟨_, (lists.ri b isRi).1, rfl⟩
      · exact ⟨_, (lists.lf b isLf).1, rfl⟩
    have apart : node ∉ blocks := by
      intro member
      rw [isLists] at member
      rcases List.mem_append.mp member with isRi | isLf
      · have role := (lists.ri node isRi).1
        rw [tagged] at role
        cases role
      · have role := (lists.lf node isLf).1
        rw [tagged] at role
        cases role
    refine wp_seq (kept.sound.frees_all kept.writable blocks) fun _ g freed => ?_
    apply continues g ((Stripped.refl kept found).frees tagged freed apart fun b member _ => owned b member)
    intro _ ris lfs has b member
    have same := has.listsOf kept.toTyped found
    rw [freed.cells, if_pos]
    rw [isLists, same]
    exact member

theorem Kept.valueless (kept : Kept g roles) (tagged : roles node = some (.nk parent))
    (found : g.cell node = some c) :
    wp (deleteValues node) (fun _ k => Stripped roles node g k
      ((c.put32 Nk.nrValues 0).put32 Nk.vallist 0xffffffff) ∧ ValuesGone g k node c) (fun _ _ => True) g := by
  have typed := kept.toTyped
  refine wp_mono ((typed.detached tagged found).clears kept.sound found) ?_ fun _ _ _ => trivial
  rintro _ k ⟨-, values, blocks, got, cleared⟩
  have read := getValues_typed typed tagged found
  rw [got] at read
  have step : ∀ freed, Cleared g k node c freed → (∀ b ∈ freed, (g.cell b).isSome → OwnedBy roles node b) →
      Stripped roles node g k ((c.put32 Nk.nrValues 0).put32 Nk.vallist 0xffffffff) := by
    intro freed cleared owned
    apply (Stripped.refl kept found).step tagged cleared.sound cleared.keeps cleared.here (typed.nk tagged found).cleared
    intro x other
    rw [cleared.cells x other]
    split
    · exact Or.inr ⟨rfl, owned x ‹_›⟩
    · exact Or.inl rfl
  rcases read with ⟨none, isEmpty⟩ | values_read
  · cases isEmpty
    exact ⟨step _ cleared (by simp), fun proper => absurd none proper⟩
  · have list : blocks = [c.get32 Nk.vallist + 0x1000] := values_read.list
    obtain ⟨l, there, isValues⟩ := values_read.stored
    dsimp only at isValues
    have released : ∀ b ∈ blocks ++ values.flatMap g.cell.releases, b ≠ node → k.cell b = none := by
      intro b member other
      rw [cleared.cells b other, if_pos member]
    have owns : ∀ b ∈ blocks ++ values.flatMap g.cell.releases, Owns g.cell node b := by
      intro b member
      rcases List.mem_append.mp member with isList | inReleases
      · rw [list] at isList
        rw [List.mem_singleton.mp isList]
        exact Owns.vallist found values_read.proper
      · obtain ⟨v, inValues, inReleases⟩ := List.mem_flatMap.mp inReleases
        obtain ⟨d, here⟩ := Option.isSome_iff_exists.mp (values_read.each v inValues).2
        rw [isValues] at inValues
        rw [releases_cell here] at inReleases
        split at inReleases
        · rw [List.mem_singleton.mp inReleases]
          exact Owns.value found there inValues
        · next notInline =>
          rcases List.mem_cons.mp inReleases with rfl | isVk
          · exact Owns.data found there inValues here (by omega)
          · rw [List.mem_singleton.mp isVk]
            exact Owns.value found there inValues
    have notNode : ∀ b ∈ blocks ++ values.flatMap g.cell.releases, b ≠ node := by
      rintro b member rfl
      exact ((typed.detached tagged found).freed values blocks got).2 member
    refine ⟨step _ cleared fun b member alive => (owns b member).owned typed tagged alive, fun _ => ?_⟩
    have head : c.get32 Nk.vallist + 0x1000 ∈ blocks ++ values.flatMap g.cell.releases := by simp [list]
    refine ⟨l, there, notNode _ head, released _ head (notNode _ head), fun v member => ?_⟩
    rw [← isValues] at member
    obtain ⟨d, here⟩ := Option.isSome_iff_exists.mp (values_read.each v member).2
    have inReleases : ∀ b ∈ g.cell.releases v, b ∈ blocks ++ values.flatMap g.cell.releases :=
      fun b inside => List.mem_append_right _ (List.mem_flatMap.mpr ⟨v, member, inside⟩)
    have own := inReleases v (releases_own here)
    refine ⟨d, here, notNode v own, released v own (notNode v own), fun notInline => ?_⟩
    have data := inReleases (d.get32 Vk.dataOffset + 0x1000) (by
      rw [releases_cell here, if_neg (by omega)]
      simp)
    exact released _ data (notNode _ data)

/-- `h` has become `g`, in which the key `node` has given up its security record. -/
structure SkGivenUp (roles : Roles) (h g : Hive) (node : Nat) (c : Cell) : Prop where
  kept : Kept g roles
  keeps : Keeps h g
  here : ∃ c', g.cell node = some c' ∧ c'.get32 Nk.classname = c.get32 Nk.classname
  others : ∀ b, b ≠ node → roles b ≠ some .sk → g.cell b = h.cell b
  counts : ∀ t, t ≠ c.get32 Nk.sk + 0x1000 → roles t = some .sk → g.cell.refcount t = h.cell.refcount t
  own : roles (c.get32 Nk.sk + 0x1000) = some .sk → ∃ r,
    h.cell.refcount (c.get32 Nk.sk + 0x1000) = some (r + 1) ∧
    g.cell.refcount (c.get32 Nk.sk + 0x1000) = if r = 0 then none else some r

theorem Kept.releaseSk (kept : Kept h roles) (tagged : roles node = some (.nk parent))
    (found : h.cell node = some c) :
    wp (Hivex.releaseSk node) (fun _ g => SkGivenUp roles h g node c) (fun _ _ => True) h := by
  have fits := kept.toTyped.nk tagged found
  have long := fits.len
  have word := rd32_cell (i := Nk.sk) kept.sound found (by simp only [Nk.sk]; omega)
  refine (wp_bind _ _ _).mpr (wp_read word ?_)
  by_cases absent : c.get32 Nk.sk = 0xffffffff
  · rw [if_neg (not_not.mpr absent)]
    refine ⟨kept, Keeps.refl h, ⟨c, found, rfl⟩, fun _ _ _ => rfl, fun _ _ _ => rfl, fun isSk => ?_⟩
    rw [(kept.toTyped.null_gone (Or.inr absent)).2] at isSk
    cases isSk
  · rw [if_pos absent]
    refine wp_seq (kept.deleteSk fits.sk) fun _ g ⟨isSk, released⟩ => ?_
    have notSk : roles node ≠ some .sk := by
      rw [tagged]
      exact fun same => by cases same
    have found' : g.cell node = some c := (released.others node notSk).trans found
    refine released.kept.sound.wp_wrote found' (by decide)
      (by rw [leBytes_length]; simp only [Nk.sk]; omega) fun k wrote => ?_
    have stripped := (Stripped.refl released.kept found').writes tagged wrote
      ((released.kept.toTyped.nk tagged found').nullified (Or.inl rfl))
    have counts : ∀ t, roles t = some .sk → k.cell.refcount t = g.cell.refcount t := fun t isSk => by
      rw [Cells.refcount, Cells.refcount, stripped.sk t isSk]
    constructor
    · exact stripped.kept
    · exact released.keeps.trans wrote.keeps
    · exact ⟨_, wrote.here, Cell.get_put c (Or.inr (by decide))⟩
    · exact fun b other notSk => (wrote.others b other).trans (released.others b notSk)
    · exact fun t other isSk => (counts t isSk).trans (released.counts t other)
    · intro _
      obtain ⟨r, before, after⟩ := released.own
      exact ⟨r, before, (counts _ isSk).trans after⟩

/-- `h` has become `g`, in which the key `node` and its class name are gone. -/
structure Ended (roles : Roles) (h g : Hive) (node : Nat) (c : Cell) : Prop where
  kept : Kept g roles
  keeps : Keeps h g
  gone : g.cell node = none
  classname : c.get32 Nk.classname ≠ 0xffffffff → g.cell (c.get32 Nk.classname + 0x1000) = none
  sk : ∀ s, roles s = some .sk → g.cell s = h.cell s
  sub : ∀ b d, g.cell b = some d → h.cell b = some d
  others : ∀ b, ¬OwnedBy roles node b → g.cell b = h.cell b

theorem Stripped.ends (stripped : Stripped roles node h g c') (tagged : roles node = some (.nk parent))
    (classname : c.get32 Nk.classname ≠ 0xffffffff → g.cell (c.get32 Nk.classname + 0x1000) = none) :
    wp (markBlockUnused node) (fun _ k => Ended roles h k node c) (fun _ _ => True) g := by
  refine stripped.kept.toTyped.wp_free trivial fun d k _ typed becomes => ?_
  have gone : k.cell node = none := by rw [becomes.cells, Function.update_self]
  have away : ∀ b, b ≠ node → k.cell b = g.cell b := fun b other => by
    rw [becomes.cells, Function.update_of_ne other]
  have apart : ∀ b, ¬OwnedBy roles node b → b ≠ node := by
    rintro b notOwned rfl
    exact notOwned (OwnedBy.nk tagged)
  have sk : ∀ s, roles s = some .sk → k.cell s = g.cell s :=
    fun s isSk => away s (apart s fun owns => owns.not_sk isSk)
  constructor
  · exact stripped.kept.refit becomes.sound becomes.keeps typed.cells sk
  · exact stripped.keeps.trans becomes.keeps
  · exact gone
  · intro named
    by_cases here : c.get32 Nk.classname + 0x1000 = node
    · rw [here, gone]
    · rw [away _ here]
      exact classname named
  · exact fun s isSk => (sk s isSk).trans (stripped.sk s isSk)
  · intro b d there
    by_cases here : b = node
    · rw [here, gone] at there
      cases there
    · rw [away b here] at there
      exact stripped.sub b d here there
  · exact fun b notOwned => (away b (apart b notOwned)).trans (stripped.others b notOwned)

theorem Kept.endsNode (kept : Kept h roles) (tagged : roles node = some (.nk parent))
    (found : h.cell node = some c) :
    wp (do
      Hivex.releaseClassname node
      markBlockUnused node) (fun _ g => Ended roles h g node c) (fun _ _ => True) h := by
  have fits := kept.toTyped.nk tagged found
  have long := fits.len
  have word := rd32_cell (i := Nk.classname) kept.sound found (by simp only [Nk.classname]; omega)
  have start := Stripped.refl kept found
  unfold Hivex.releaseClassname
  refine (wp_bind _ _ _).mpr ((wp_bind _ _ _).mpr (wp_read word ?_))
  by_cases absent : c.get32 Nk.classname = 0xffffffff
  · rw [if_neg (not_not.mpr absent)]
    exact start.ends tagged fun named => absurd absent named
  · rw [if_pos absent]
    refine (wp_bind _ _ _).mpr (wp_mono (kept.sound.frees_one kept.writable _) ?_ fun _ _ _ => trivial)
    rintro _ g ⟨alive, freed⟩
    have owned : OwnedBy roles node (c.get32 Nk.classname + 0x1000) :=
      (Owns.classname found absent).owned kept.toTyped tagged alive
    obtain ⟨d, there⟩ := Option.isSome_iff_exists.mp alive
    have role := (kept.toTyped.follow fits.classname there).1
    have apart : node ≠ c.get32 Nk.classname + 0x1000 := by
      intro same
      rw [← same, tagged] at role
      cases role
    have freedFrom := start.frees tagged freed (fun member => apart (List.mem_singleton.mp member)) fun b member _ => by
      rw [List.mem_singleton.mp member]
      exact owned
    have gone : g.cell (c.get32 Nk.classname + 0x1000) = none := by
      rw [freed.cells, if_pos (List.mem_singleton_self _)]
    refine freedFrom.kept.sound.wp_wrote freedFrom.here (by decide)
      (by rw [leBytes_length]; simp only [Nk.classname]; omega) fun k wrote => ?_
    apply (freedFrom.writes tagged wrote (fits.nullified (Or.inr rfl))).ends tagged
    intro _
    rw [wrote.others _ apart.symm]
    exact gone

/-- `delete_node` where it succeeds. -/
theorem Kept.deleteNode (kept : Kept h roles) (tagged : roles node = some (.nk parent))
    (found : h.cell node = some c) :
    wp (Hivex.deleteNode node) (fun _ g => Erased roles h g node c) (fun _ _ => True) h := by
  have typed := kept.toTyped
  apply kept.listless tagged found
  intro g₁ first lists
  refine wp_seq (first.kept.valueless tagged first.here) fun _ g₂ ⟨second, values⟩ => ?_
  refine wp_seq (second.kept.releaseSk tagged second.here) fun _ g₃ third => ?_
  obtain ⟨c₃, found₃, classname⟩ := third.here
  have skWord : ((c.put32 Nk.nrValues 0).put32 Nk.vallist 0xffffffff).get32 Nk.sk = c.get32 Nk.sk := by
    rw [Cell.get32, Cell.get_put _ (Or.inr (by decide)), Cell.get_put _ (Or.inr (by decide))]
  have classWord : c₃.get32 Nk.classname = c.get32 Nk.classname := by
    rw [classname, Cell.get32, Cell.get_put _ (Or.inr (by decide)), Cell.get_put _ (Or.inr (by decide))]
  refine wp_mono (third.kept.endsNode tagged found₃) ?_ fun _ _ _ => trivial
  intro _ g last
  have counts₂ : ∀ t, roles t = some .sk → g₂.cell.refcount t = h.cell.refcount t := fun t isSk => by
    rw [Cells.refcount, Cells.refcount, second.sk t isSk, first.sk t isSk]
  have counts₄ : ∀ t, roles t = some .sk → g.cell.refcount t = g₃.cell.refcount t := fun t isSk => by
    rw [Cells.refcount, Cells.refcount, last.sk t isSk]
  have sub : ∀ b d, roles b ≠ some .sk → g.cell b = some d → h.cell b = some d := by
    intro b d notSk there
    have other : b ≠ node := by
      rintro rfl
      rw [last.gone] at there
      cases there
    have inG₃ := last.sub b d there
    rw [third.others b other notSk] at inG₃
    exact first.sub b d other (second.sub b d other inG₃)
  -- A block that has gone on the way does not come back.
  have goneFrom : ∀ b, roles b ≠ some .sk → (b ≠ node → g₂.cell b = none) → g.cell b = none := by
    intro b notSk gone
    cases there : g.cell b with
    | none => rfl
    | some d =>
        have other : b ≠ node := by
          rintro rfl
          rw [last.gone] at there
          cases there
        have inG₃ := last.sub b d there
        rw [third.others b other notSk, gone other] at inG₃
        cases inG₃
  have back : ∀ b, (g.cell b).isSome → (h.cell b).isSome := by
    intro b alive
    obtain ⟨d, there⟩ := Option.isSome_iff_exists.mp alive
    by_cases isSk : roles b = some .sk
    · have inG₃ : g₃.cell b = some d := by rw [← last.sk b isSk, there]
      have counted := refcount_cell inG₃
      have inG₂ : ∃ r, g₂.cell.refcount b = some r := by
        by_cases own : b = c.get32 Nk.sk + 0x1000
        · obtain ⟨r, before, -⟩ := third.own (by rw [skWord, ← own]; exact isSk)
          rw [skWord, ← own] at before
          exact ⟨_, before⟩
        · exact ⟨_, (third.counts b (by rw [skWord]; exact own) isSk).symm.trans counted⟩
      obtain ⟨r, inG₂⟩ := inG₂
      rw [counts₂ b isSk] at inG₂
      cases inH : h.cell b with
      | none => simp [Cells.refcount, inH] at inG₂
      | some d => rfl
    · rw [sub b d isSk there]
      rfl
  have oldValues : c.get32 Nk.nrValues ≠ 0 → ∃ l, h.cell (c.get32 Nk.vallist + 0x1000) = some l ∧
      g₂.cell (c.get32 Nk.vallist + 0x1000) = none ∧ ∀ v ∈ l.values (c.get32 Nk.nrValues), ∃ d,
        h.cell v = some d ∧ g₂.cell v = none ∧
        (d.get32 Vk.dataLen < 2 ^ 31 → g₂.cell (d.get32 Vk.dataOffset + 0x1000) = none) := by
    intro proper
    obtain ⟨l, there, other, gone, each⟩ := values proper
    refine ⟨l, first.sub _ l other there, gone, fun v member => ?_⟩
    obtain ⟨d, here, notNode, rest⟩ := each v member
    exact ⟨d, first.sub v d notNode here, rest⟩
  have proper : ∀ {l : Cell} {v}, v ∈ l.values (c.get32 Nk.nrValues) → c.get32 Nk.nrValues ≠ 0 := by
    intro l v member none
    rw [none] at member
    cases member
  constructor
  · exact last.kept
  · exact first.keeps.trans (second.keeps.trans (third.keeps.trans last.keeps))
  · exact sub
  · intro b notSk notOwned
    have other : b ≠ node := by
      rintro rfl
      exact notOwned (OwnedBy.nk tagged)
    rw [last.others b notOwned, third.others b other notSk, second.others b notOwned, first.others b notOwned]
  · intro b owns
    by_contra alive
    have inH := back b (Option.isSome_iff_ne_none.mpr alive)
    have notSk := (owns.owned typed tagged inH).not_sk
    apply alive
    cases owns with
    | node => exact last.gone
    | vallist found' some_values =>
        rw [found] at found'
        cases found'
        obtain ⟨l, -, gone, -⟩ := oldValues some_values
        exact goneFrom _ notSk fun _ => gone
    | value found' list member =>
        rw [found] at found'
        cases found'
        obtain ⟨l, there, -, each⟩ := oldValues (proper member)
        rw [list] at there
        cases there
        obtain ⟨d, -, gone, -⟩ := each _ member
        exact goneFrom _ notSk fun _ => gone
    | data found' list member there notInline =>
        rw [found] at found'
        cases found'
        obtain ⟨l, list', -, each⟩ := oldValues (proper member)
        rw [list] at list'
        cases list'
        obtain ⟨d, here, -, gone⟩ := each _ member
        rw [there] at here
        cases here
        exact goneFrom _ notSk fun _ => gone notInline
    | classname found' named =>
        rw [found] at found'
        cases found'
        have gone := last.classname (by rw [classWord]; exact named)
        rw [classWord] at gone
        exact gone
  · intro some_keys ris lfs has b member
    have notSk := (has.owned typed tagged found b member).not_sk
    apply goneFrom b notSk
    intro other
    exact second.gone other (lists some_keys ris lfs has b member)
  · intro t other isSk
    rw [counts₄ t isSk, third.counts t (by rw [skWord]; exact other) isSk, counts₂ t isSk]
  · intro isSk
    obtain ⟨r, before, after⟩ := third.own (by rw [skWord]; exact isSk)
    rw [skWord] at before after
    exact ⟨r, by rw [← counts₂ _ isSk]; exact before, by rw [counts₄ _ isSk]; exact after⟩

end Erasing

end Hivex
