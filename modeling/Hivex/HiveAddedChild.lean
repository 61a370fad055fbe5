import Hivex.HiveAddChild
import Hivex.HiveReplaceValue

/-! A child added is a child found, where the readers accept what the writer has stored. -/
namespace Hivex

open ByteMemory Commands

/-- The children are the old ones and the new one, and every way to the new one leads there. -/
structure AddsChild (h g : Hive) (parent : Nat) (name : CString) (node : Nat) : Prop where
  children : ∃ front back, hivexNodeChildren parent h.view = .ok (front ++ back) ∧
    hivexNodeChildren parent g.view = .ok (front ++ node :: back) ∧ node ∉ front ++ back
  named : hivexNodeName node g.view = .ok name.bytes
  found : hivexNodeGetChild parent name g.view = .ok node
  parent : hivexNodeParent node g.view = .ok parent
  noChildren : hivexNodeChildren node g.view = .ok []
  noValues : hivexNodeValues node g.view = .ok []

/-- The names of the children in the lists of a node can be read. -/
def NamesRead (h : Hive) (c : Cell) : Prop :=
  ∀ ris lfs, HasLists h.cell c ris lfs → (lfs.flatMap h.cell.keysOf).length = c.get32 Nk.nrSubkeys →
    ∀ k ∈ lfs.flatMap h.cell.keysOf, ∃ bytes, hivexNodeName k h.view = .ok bytes

/-- The record of a parent, its subkey lists, its security record and its children fit
their blocks, and no list is named twice. -/
structure WholeParent (h : Hive) (parent : Nat) (c : Cell) : Prop where
  found : h.cell parent = some c
  whole : 80 ≤ c.len
  lists : ListsFit h.cell c
  apart : ListsApart h.cell c
  sk : SkFits h.cell c
  names : NamesRead h c

section Reading
variable {h g : Hive} {x parent node : Nat} {c d d' : Cell} {name : CString} {blocks kids : List Nat}

theorem hivexNodeName_nk {bytes : List UInt8} (sound : Sound h) (named : hivexNodeName x h.view = .ok bytes) :
    ∃ d, h.cell x = some d ∧ d.id = Nk.id := by
  unfold hivexNodeName at named
  rw [bind_query] at named
  cases found : h.cell x with
  | none =>
      rw [requireBlock_none found] at named
      cases named
  | some d =>
      refine ⟨d, rfl, ?_⟩
      by_contra other
      rw [requireBlock_cell sound found, if_neg other] at named
      cases named

/-- The name as far as the length field counts it. -/
theorem NkNew.hivexNodeName (new : NkNew parent name d) (sound : Sound g) (found : g.cell x = some d) :
    Hivex.hivexNodeName x g.view = .ok (name.bytes.take (name.strlen % 2 ^ 16)) := by
  have long := new.len
  simp only [Nk.sizeof, CString.strlen] at long
  have shorter : name.strlen % 2 ^ 16 ≤ name.bytes.length := Nat.mod_le _ _
  have isNk : requireBlock x Nk.id g.view = .ok () := by
    rw [requireBlock_cell sound found, if_pos new.id]
  have word := rd16_cell (i := Nk.nameLen) sound found (by simp only [Nk.nameLen]; omega)
  have inside : ¬Nk.sizeof + name.strlen % 2 ^ 16 - 1 > d.len := by
    simp only [Nk.sizeof]
    omega
  have bytes := rdBytes_cell (i := Nk.name) (n := name.strlen % 2 ^ 16) sound found (by
    simp only [Nk.name]
    omega)
  have stored : d.bytes Nk.name (name.strlen % 2 ^ 16) = name.bytes.take (name.strlen % 2 ^ 16) := by
    rw [← new.name, Cell.bytes, Cell.bytes]
    exact (slice_take _ _ (by simpa using shorter)).symm
  simp only [Hivex.hivexNodeName, bind_query, isNk, ok_bind, word, new.nameLen, blockLen_cell sound found,
    inside, if_false, bytes, stored]

-- The name of a node depends on its record alone.
theorem hivexNodeName_congr {bytes : List UInt8} (soundH : Sound h) (soundG : Sound g) (before : h.cell x = some d)
    (after : g.cell x = some d') (len : d'.len = d.len) (id : d'.id = d.id)
    (nameLen : d'.get16 Nk.nameLen = d.get16 Nk.nameLen) (name : ∀ n, d'.bytes Nk.name n = d.bytes Nk.name n)
    (named : hivexNodeName x h.view = .ok bytes) : hivexNodeName x g.view = .ok bytes := by
  obtain ⟨d₀, found, isNk⟩ := hivexNodeName_nk soundH named
  rw [before] at found
  cases found
  have checkedH : requireBlock x Nk.id h.view = .ok () := by
    rw [requireBlock_cell soundH before, if_pos isNk]
  have checkedG : requireBlock x Nk.id g.view = .ok () := by
    rw [requireBlock_cell soundG after, if_pos (id.trans isNk)]
  unfold hivexNodeName at named ⊢
  rw [bind_query, checkedH, ok_bind, bind_query] at named
  rw [bind_query, checkedG, ok_bind, bind_query]
  cases word : rd16 x Nk.nameLen h.view with
  | error reason =>
      rw [word] at named
      cases named
  | ok len₀ =>
      rw [word, ok_bind, bind_query, blockLen_cell soundH before, ok_bind] at named
      split at named
      · cases named
      · next inside =>
        simp only [Nk.sizeof] at inside
        -- The test has shown that the record is whole.
        have wordH := rd16_cell (i := Nk.nameLen) soundH before (by simp only [Nk.nameLen]; omega)
        rw [wordH] at word
        obtain rfl := Except.ok.inj word
        have wordG := rd16_cell (i := Nk.nameLen) soundG after (by simp only [Nk.nameLen]; omega)
        have bytesH := rdBytes_cell (i := Nk.name) (n := d.get16 Nk.nameLen) soundH before (by
          simp only [Nk.name]; omega)
        have bytesG := rdBytes_cell (i := Nk.name) (n := d.get16 Nk.nameLen) soundG after (by
          simp only [Nk.name]; omega)
        have fits : ¬Nk.sizeof + d.get16 Nk.nameLen - 1 > d.len := by
          simp only [Nk.sizeof]
          omega
        rw [wordG, ok_bind, bind_query, blockLen_cell soundG after, ok_bind, nameLen, len, if_neg fits]
        exact (bytesG.trans (congrArg _ (name _))).trans (bytesH.symm.trans named)

theorem hivexNodeName_same {bytes : List UInt8} (soundH : Sound h) (soundG : Sound g) (before : h.cell x = some d)
    (after : g.cell x = some d) (named : hivexNodeName x h.view = .ok bytes) :
    hivexNodeName x g.view = .ok bytes :=
  hivexNodeName_congr soundH soundG before after rfl rfl rfl (fun _ => rfl) named

end Reading

section Added
variable {h g : Hive} {parent node : Nat} {c : Cell} {name : CString} {blocks kids : List Nat}

-- The keys of the parent before are its children before.
theorem Added.kids_named (added : Added h g parent node c name blocks kids) (parental : WholeParent h parent c) :
    ∀ k ∈ kids, ∃ bytes, hivexNodeName k h.view = .ok bytes := by
  rcases added.old with ⟨-, -, none⟩ | ⟨ris, lfs, lists, -, isKids, count⟩
  · rw [none]
    exact fun k member => by cases member
  · rw [isKids] at count ⊢
    exact parental.names ris lfs lists count

theorem Added.kids_found (added : Added h g parent node c name blocks kids) (sound : Sound h)
    (parental : WholeParent h parent c) : ∀ k ∈ kids, ∃ d, h.cell k = some d ∧ d.id = Nk.id := by
  intro k member
  obtain ⟨bytes, named⟩ := added.kids_named parental k member
  exact hivexNodeName_nk sound named

theorem Added.children_before (added : Added h g parent node c name blocks kids) (sound : Sound h)
    (parental : WholeParent h parent c) : hivexNodeChildren parent h.view = .ok kids := by
  have found := added.kids_found sound parental
  have whole := parental.whole
  unfold hivexNodeChildren
  rw [bind_query]
  rcases added.old with ⟨childless, -, none⟩ | ⟨ris, lfs, lists, -, isKids, count⟩
  · rw [getChildren_none sound parental.found (by omega) added.isNk childless, none]
    rfl
  · by_cases childless : c.get32 Nk.nrSubkeys = 0
    · rw [getChildren_none sound parental.found (by omega) added.isNk childless]
      rw [childless] at count
      rw [List.length_eq_zero_iff.mp count]
      rfl
    · have children : HasChildren h.cell c ris lfs := by
        refine ⟨lists, ?_, added.few, childless, fun k member => ?_⟩
        · rw [← isKids]
          exact count
        · obtain ⟨d, there, -⟩ := found k (isKids ▸ member)
          rw [there]
          rfl
      rw [children.read sound parental.found whole added.isNk, isKids]
      rfl

theorem Added.kids_length (added : Added h g parent node c name blocks kids) :
    kids.length = c.get32 Nk.nrSubkeys := by
  rcases added.old with ⟨childless, -, none⟩ | ⟨-, -, -, -, -, count⟩
  · rw [none, childless]
    rfl
  · exact count

-- A key that can be read before can be read afterwards, the parent itself included.
theorem Added.named_kept (added : Added h g parent node c name blocks kids) (sound : Sound h)
    (parental : WholeParent h parent c) {k : Nat} {bytes : List UInt8}
    (named : hivexNodeName k h.view = .ok bytes) :
    hivexNodeName k g.view = .ok bytes ∧ (g.cell k).isSome := by
  obtain ⟨d, found, isNk⟩ := hivexNodeName_nk sound named
  by_cases here : k = parent
  · subst here
    have same := parental.found
    rw [found] at same
    cases same
    obtain ⟨c', ris, lfs, found', grown, -⟩ := added.lists
    refine ⟨hivexNodeName_congr sound added.sound found found' grown.len grown.id ?_ grown.name named, ?_⟩
    · exact grown.kept 2 Nk.nameLen (Or.inr (Or.inr (by decide)))
    · rw [found']
      rfl
  · have kept : g.cell k = some d := by
      apply added.others k d found here
      · intro member
        rcases added.old with ⟨-, none, -⟩ | ⟨ris, lfs, lists, isBlocks, -⟩
        · rw [none] at member
          cases member
        · rw [isBlocks] at member
          exact lists.notNk found isNk member
      · rintro rfl
        obtain ⟨s, there, isSk, -⟩ := added.sk
        rw [found] at there
        cases there
        rw [isNk] at isSk
        exact absurd isSk (by decide)
    refine ⟨hivexNodeName_same sound added.sound found kept named, ?_⟩
    rw [kept]
    rfl

theorem Added.node_new (added : Added h g parent node c name blocks kids) (sound : Sound h)
    (parental : WholeParent h parent c) : node ∉ kids := by
  intro member
  obtain ⟨d, found, -⟩ := added.kids_found sound parental node member
  exact sound.fresh_apart added.fresh found rfl

/-- What `get_children` finds afterwards: the list with the new key in it, within its limit. -/
theorem Added.children_after (added : Added h g parent node c name blocks kids) (sound : Sound h)
    (parental : WholeParent h parent c) :
    ∃ front back, kids = front ++ back ∧ hivexNodeChildren parent g.view =
      if c.get32 Nk.nrSubkeys < hiveMaxSubkeys then .ok (front ++ node :: back)
      else .error (.errno .ERANGE) := by
  obtain ⟨c', ris, lfs, found', grown, lists, -, -, -, front, back, before, after⟩ := added.lists
  refine ⟨front, back, before, ?_⟩
  have most : c.get32 Nk.nrSubkeys ≤ 15000 := added.few
  have length := added.kids_length
  have count : c'.get32 Nk.nrSubkeys = c.get32 Nk.nrSubkeys + 1 := by
    have stored := grown.nrSubkeys
    omega
  have whole : 80 ≤ c'.len := by
    rw [grown.len]
    exact parental.whole
  have isNk : c'.id = Nk.id := grown.id.trans added.isNk
  unfold hivexNodeChildren
  rw [bind_query]
  split
  · next few =>
    have children : HasChildren g.cell c' ris lfs := by
      refine ⟨lists, ?_, ?_, by omega, ?_⟩
      · rw [after, count, ← length, before, List.length_append, List.length_append, List.length_cons]
        omega
      · rw [count]
        exact few
      · intro k member
        rw [after] at member
        by_cases isNew : k = node
        · obtain ⟨d, found, -⟩ := added.record
          rw [isNew, found]
          rfl
        · have inKids : k ∈ kids := by
            rw [before]
            simp only [List.mem_append, List.mem_cons] at member ⊢
            tauto
          obtain ⟨bytes, named⟩ := added.kids_named parental k inKids
          exact (added.named_kept sound parental named).2
    rw [children.read added.sound found' whole isNk, after]
    rfl
  · next many =>
    have checked : requireBlock parent Nk.id g.view = .ok () := by
      rw [requireBlock_cell added.sound found', if_pos isNk]
    have word := rd32_cell (i := Nk.nrSubkeys) added.sound found' (by simp only [Nk.nrSubkeys]; omega)
    have proper : ¬c'.get32 Nk.nrSubkeys = 0 := by omega
    have limit : c'.get32 Nk.nrSubkeys > hiveMaxSubkeys := by
      simp only [hiveMaxSubkeys] at many ⊢
      omega
    simp only [getChildren, bind_query, checked, ok_bind, word, proper, if_false, limit, if_true]
    rfl

theorem firstNamed_reaches {front back : List Nat} {bytes : List UInt8}
    (before : ∀ k ∈ front, NamedOtherwise g name k) (named : hivexNodeName node g.view = .ok bytes)
    (same : strcasecmp (cstr bytes) name = 0) :
    firstNamed hivexNodeName name (front ++ node :: back) g.view = .ok node := by
  induction front with
  | nil =>
      rw [List.nil_append, firstNamed, bind_query, named, ok_bind, if_pos same]
      rfl
  | cons k front ih =>
      obtain ⟨other, read, differs⟩ := before k (by simp)
      rw [List.cons_append, firstNamed, bind_query, read, ok_bind, if_neg differs]
      exact ih fun m member => before m (List.mem_cons_of_mem _ member)

theorem Added.parent_read (added : Added h g parent node c name blocks kids) (sound : Sound h)
    (small : h.size < 2 ^ 32) (parental : WholeParent h parent c) : hivexNodeParent node g.view = .ok parent := by
  obtain ⟨d, found, new⟩ := added.record
  obtain ⟨c', -, -, found', -⟩ := added.lists
  have bounds := sound.cell_bounds parental.found
  have long := new.len
  have checked : requireBlock node Nk.id g.view = .ok () := by
    rw [requireBlock_cell added.sound found, if_pos new.id]
  have word := rd32_cell (i := Nk.parent) added.sound found (by simp only [Nk.parent, Nk.sizeof] at *; omega)
  have offset : d.get32 Nk.parent + 0x1000 = parent := by
    have stored := new.parent
    omega
  have valid := (cell_some found').1
  simp only [hivexNodeParent, bind_query, checked, ok_bind, word, offset, isValidBlock_view, valid, if_true,
    pure_query]

theorem Added.contents (added : Added h g parent node c name blocks kids) :
    hivexNodeChildren node g.view = .ok [] ∧ hivexNodeValues node g.view = .ok [] := by
  obtain ⟨d, found, new⟩ := added.record
  have long := new.len
  simp only [Nk.sizeof] at long
  have checked : requireBlock node Nk.id g.view = .ok () := by
    rw [requireBlock_cell added.sound found, if_pos new.id]
  have word := rd32_cell (i := Nk.nrValues) added.sound found (by simp only [Nk.nrValues]; omega)
  constructor
  · unfold hivexNodeChildren
    rw [bind_query, getChildren_none added.sound found (by omega) new.id new.nrSubkeys, ok_bind]
    rfl
  · simp only [hivexNodeValues, getValues, bind_query, checked, ok_bind, word, new.nrValues, if_true, pure_query]

theorem Added.adds_iff (added : Added h g parent node c name blocks kids) (sound : Sound h)
    (small : h.size < 2 ^ 32) (parental : WholeParent h parent c)
    (absent : hivexNodeGetChild parent name h.view = .ok 0) :
    AddsChild h g parent name node ↔ c.get32 Nk.nrSubkeys < hiveMaxSubkeys ∧ name.strlen < 2 ^ 16 := by
  obtain ⟨front, back, before, after⟩ := added.children_after sound parental
  obtain ⟨d, found, new⟩ := added.record
  have named := new.hivexNodeName added.sound found
  constructor
  · intro adds
    obtain ⟨front', back', -, listed, -⟩ := adds.children
    constructor
    · by_contra many
      rw [after, if_neg many] at listed
      cases listed
    · have whole := adds.named
      rw [named] at whole
      have length := congrArg List.length (Except.ok.inj whole)
      rw [List.length_take] at length
      simp only [CString.strlen] at length ⊢
      omega
  · rintro ⟨few, short⟩
    rw [if_pos few] at after
    rw [Nat.mod_eq_of_lt short, List.take_length] at named
    have children := added.children_before sound parental
    rw [before] at children
    have reads : ReadsSiblings h parent := by
      refine ⟨_, children, fun k member => ?_⟩
      rw [← before] at member
      exact added.kids_named parental k member
    obtain ⟨listed, isListed, otherwise⟩ := reads.searched absent
    rw [children] at isListed
    obtain rfl := Except.ok.inj isListed
    have others : ∀ k ∈ front, NamedOtherwise g name k := by
      intro k member
      obtain ⟨bytes, inH, differs⟩ := otherwise k (List.mem_append_left _ member)
      exact ⟨bytes, (added.named_kept sound parental inH).1, differs⟩
    constructor
    · refine ⟨front, back, children, after, ?_⟩
      rw [← before]
      exact added.node_new sound parental
    · exact named
    · have twin : strcasecmp (cstr name.bytes) name = 0 := by
        rw [cstr_bytes]
        exact strcasecmpBytes_self name.bytes
      unfold hivexNodeGetChild zeroOnError
      rw [bind_query, after, ok_bind, firstNamed_reaches others named twin]
    · exact added.parent_read sound small parental
    · exact added.contents.1
    · exact added.contents.2

/-- A child that was added is found exactly if the parent had fewer subkeys than the reader
takes and the length of the name fits in its field. The writer tests neither. -/
theorem addsChild_iff {host : Host} (sound : Sound h) (small : h.size < 2 ^ 32) (below : host.Below4G)
    (parental : WholeParent h parent c) (run : hivexNodeAddChild host parent name h = .ok node g) :
    AddsChild h g parent name node ↔ c.get32 Nk.nrSubkeys < hiveMaxSubkeys ∧ name.strlen < 2 ^ 16 := by
  obtain ⟨blocks, kids, added⟩ := run_post (sound.hivexNodeAddChild small below parental.found parental.whole
    parental.lists parental.apart parental.sk name) run
  exact added.adds_iff sound small parental (hivexNodeAddChild_absent run)

end Added

theorem minimal_root : ∃ c, minimal.cell 0x1020 = some c ∧ c.len = 88 ∧ c.id = Nk.id ∧
    c.get32 Nk.nrSubkeys = 0 ∧ c.get32 Nk.subkeyLf = 0xffffffff ∧ c.get32 Nk.sk = 0x78 := by
  obtain ⟨c, found⟩ := cell_of_valid (minimal_laidOut.valid_iff.mpr ⟨by decide, by decide⟩ :
    minimal.valid 0x1020 = true)
  have len : c.len = 88 := by
    rw [(cell_some found).2.1]
    decide
  have word : ∀ i v, i + 4 ≤ 88 → rd32 0x1020 i minimal.view = .ok v → c.get32 i = v := by
    intro i v inside stored
    have read := rd32_cell (i := i) minimal_sound found (by omega)
    rw [stored] at read
    exact (Except.ok.inj read).symm
  refine ⟨c, found, len, ?_, ?_, ?_, ?_⟩
  · have id := rdBytes_cell (i := 4) (n := 2) minimal_sound found (by omega)
    have stored : rdBytes 0x1020 4 2 minimal.view = .ok Nk.id := by decide +kernel
    rw [stored] at id
    exact (Except.ok.inj id).symm
  · exact word _ _ (by decide) (by decide +kernel)
  · exact word _ _ (by decide) (by decide +kernel)
  · exact word _ _ (by decide) (by decide +kernel)

theorem minimal_sk : ∃ s, minimal.cell 0x1078 = some s ∧ s.id = Sk.id ∧ 20 ≤ s.len := by
  obtain ⟨s, found⟩ := cell_of_valid (minimal_laidOut.valid_iff.mpr ⟨by decide, by decide⟩ :
    minimal.valid 0x1078 = true)
  have len : s.len = 24 := by
    rw [(cell_some found).2.1]
    decide
  refine ⟨s, found, ?_, by omega⟩
  have id := rdBytes_cell (i := 4) (n := 2) minimal_sound found (by omega)
  have stored : rdBytes 0x1078 4 2 minimal.view = .ok Sk.id := by decide +kernel
  rw [stored] at id
  exact (Except.ok.inj id).symm

/-- The smallest hive is a parent without children. -/
theorem minimal_parental : ∃ c, WholeParent minimal 0x1020 c ∧ c.id = Nk.id ∧ c.get32 Nk.nrSubkeys = 0 ∧
    c.get32 Nk.sk = 0x78 := by
  obtain ⟨c, found, len, isNk, childless, pointer, sk⟩ := minimal_root
  obtain ⟨s, foundSk, -, whole⟩ := minimal_sk
  have listless : minimal.cell (c.get32 Nk.subkeyLf + 0x1000) = none := by
    cases there : minimal.cell (c.get32 Nk.subkeyLf + 0x1000) with
    | none => rfl
    | some l =>
        have bounds := minimal_sound.cell_bounds there
        have size : minimal.size = 0x2000 := rfl
        omega
  refine ⟨c, ⟨found, by omega, ?_, ?_, ?_, ?_⟩, isNk, childless, sk⟩
  · intro r there
    rw [listless] at there
    cases there
  · intro r there
    rw [listless] at there
    cases there
  · intro s' there _
    rw [sk, foundSk] at there
    cases there
    exact whole
  · intro ris lfs _ count k member
    rw [childless] at count
    rw [List.length_eq_zero_iff.mp count] at member
    cases member

theorem minimal_addsChild : ∃ node g, hivexNodeAddChild ampleHost 0x1020 nameA minimal = .ok node g ∧
    AddsChild minimal g 0x1020 nameA node := by
  obtain ⟨c, parental, -, childless, -⟩ := minimal_parental
  have added : succeeds (hivexNodeAddChild ampleHost 0x1020 nameA minimal) = true := by decide +kernel
  cases run : hivexNodeAddChild ampleHost 0x1020 nameA minimal with
  | error reason g =>
      rw [run] at added
      exact absurd added Bool.false_ne_true
  | ok node g =>
      refine ⟨node, g, rfl, (addsChild_iff minimal_sound (by decide) ampleHost_ample.below4G parental run).mpr ?_⟩
      rw [childless]
      decide

/-- A name one byte longer than its length field can say. -/
def longName : CString := ⟨List.replicate 65536 0x61, nulFree_long⟩

theorem longName_strlen : longName.strlen = 65536 := List.length_replicate

theorem longName_hidden : Sound minimal ∧ (∃ c, WholeParent minimal 0x1020 c) ∧
    ∃ node g, hivexNodeAddChild ampleHost 0x1020 longName minimal = .ok node g ∧
      ¬AddsChild minimal g 0x1020 longName node := by
  obtain ⟨c, parental, isNk, childless, sk⟩ := minimal_parental
  obtain ⟨s, foundSk, isSk, -⟩ := minimal_sk
  have requests : [Nk.sizeof + longName.strlen, Lf.sizeof] = [65617, 16] := by rw [longName_strlen]
  have granted : minimal.room.blocks ampleHost [Nk.sizeof + longName.strlen, Lf.sizeof] =
      .ok ⟨0x13000, 0x13000, 0x12088⟩ := by
    rw [requests]
    exact (by rfl : (⟨0x2000, 0x2000, 0⟩ : Room).blocks ampleHost [65617, 16] =
      .ok ⟨0x13000, 0x13000, 0x12088⟩)
  have named : longName.strlen ≠ 0 := by
    rw [longName_strlen]
    decide
  obtain ⟨node, g, run, blocks, kids, added⟩ := minimal_sound.addChild_granted (by decide) ampleHost_ample rfl
    parental.found parental.whole isNk childless ⟨s, by rw [sk]; exact foundSk, isSk⟩ parental.sk named granted
  refine ⟨minimal_sound, ⟨c, parental⟩, node, g, run, fun adds => ?_⟩
  have short := ((added.adds_iff minimal_sound (by decide) parental (hivexNodeAddChild_absent run)).mp adds).2
  rw [longName_strlen] at short
  omega

end Hivex
