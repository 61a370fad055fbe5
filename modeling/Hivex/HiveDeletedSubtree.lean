import Hivex.HiveDeleteChild

/-! What a successful delete removes from a consistent handle: the subtree and nothing else. -/
namespace Hivex

open ByteMemory Commands StoreTyping

/-- A consistent handle. Its blocks have roles, so each record fits its block and belongs to one
key. The keys count and name their subkeys, and each key is named once. The security records are
linked in a ring and count the keys of the tree that refer to them. -/
structure Consistent (h : Hive) (roles : Roles) : Prop extends Kept h roles where
  root : ∃ above, roles h.rootoffs = some (.nk above)
  counted : Counted h roles
  once : ∀ n parent, roles n = some (.nk parent) → (h.cell.kids n).Nodup
  leaves : ∀ n parent, roles n = some (.nk parent) → ∀ b ∈ (h.cell.listsOf n).2, (h.cell b).isSome
  alive : ∀ n parent, roles n = some (.nk parent) → ∀ k ∈ h.cell.kids n, (h.cell k).isSome
  references : ∃ nodes : List Nat, nodes.Nodup ∧ (∀ n, n ∈ nodes ↔ InSubtree h.cell h.rootoffs n) ∧
    ∀ s r, roles s = some .sk → h.cell.refcount s = some r → r = h.cell.refsTo nodes s

/-- A key of the tree that is not below `node`. -/
def Survives (h : Hive) (node n : Nat) : Prop :=
  InSubtree h.cell h.rootoffs n ∧ ¬InSubtree h.cell node n

/-- The lf-, lh- and ri-records of a key. -/
def Cells.listBlocks (cells : Cells) (n : Nat) : List Nat := (cells.listsOf n).1 ++ (cells.listsOf n).2

/-- `g` is `h` after the key `node` and all keys below it have been deleted. -/
structure Deleted (h g : Hive) (node : Nat) : Prop where
  children : ∃ p ks, hivexNodeParent node h.view = .ok p ∧ hivexNodeChildren p h.view = .ok ks ∧ node ∈ ks ∧
    hivexNodeChildren p g.view = .ok (ks.filter (· ≠ node))
  freed : ∀ n, InSubtree h.cell node n → ∀ b, Owns h.cell n b → g.valid b = false
  freedLists : ∀ n c, InSubtree h.cell node n → h.cell n = some c → c.get32 Nk.nrSubkeys ≠ 0 →
    ∀ b ∈ h.cell.listBlocks n, g.valid b = false
  kept : ∀ n, Survives h node n → ∀ b, Owns h.cell n b ∨ b ∈ h.cell.listBlocks n →
    h.valid b = true → g.valid b = true
  security : ∀ n, Survives h node n → h.valid (h.cell.skOf n) = true → g.valid (h.cell.skOf n) = true
  unnamed : ∀ n, Survives h node n → ∀ k ∈ g.cell.kids n, ¬InSubtree h.cell node k

section Kids
variable {cells : Cells} {h g : Hive} {roles : Roles} {n k b : Nat} {parent : Option Nat}

theorem mem_kids : k ∈ cells.kids n ↔ ∃ b ∈ (cells.listsOf n).2, k ∈ cells.keysOf b := List.mem_flatMap

theorem alive_of_key (member : k ∈ cells.keysOf b) : (cells b).isSome := by
  cases found : cells b with
  | none =>
      rw [Cells.keysOf, found] at member
      cases member
  | some l => rfl

/-- A key that is named and in use belongs under the key that names it. -/
theorem Typed.kidTagged (typed : Typed h roles) (tagged : roles n = some (.nk parent))
    (member : k ∈ h.cell.kids n) (alive : (h.cell k).isSome) : roles k = some (.nk (some n)) := by
  obtain ⟨b, isLeaf, inKeys⟩ := mem_kids.mp member
  have there := alive_of_key inKeys
  have role := (typed.listsTagged tagged).2 b isLeaf there
  obtain ⟨l, list⟩ := Option.isSome_iff_exists.mp there
  have fits : LfTyped roles n l := typed.cells _ _ _ role list
  rw [keysOf_cell list] at inKeys
  obtain ⟨i, inside, rfl⟩ := List.mem_map.mp inKeys
  obtain ⟨d, here⟩ := Option.isSome_iff_exists.mp alive
  exact (typed.follow (fits.keys i (List.mem_range.mp inside)) here).1

theorem Typed.listOwned (typed : Typed h roles) (tagged : roles n = some (.nk parent))
    (member : b ∈ h.cell.listBlocks n) (alive : (h.cell b).isSome) : OwnedBy roles n b := by
  obtain ⟨isRi, isLf⟩ := typed.listsTagged tagged
  rcases List.mem_append.mp member with inRis | inLfs
  · exact ⟨_, isRi b inRis, rfl⟩
  · exact ⟨_, isLf b inLfs alive, rfl⟩

-- What a key names depends on its own blocks.
theorem Typed.kids_less (typed : Typed g roles) (tagged : roles n = some (.nk parent))
    (same : ∀ b, OwnedBy roles n b → ∀ d, g.cell b = some d → h.cell b = some d)
    (member : k ∈ g.cell.kids n) : k ∈ h.cell.kids n := by
  obtain ⟨b, isLeaf, inKeys⟩ := mem_kids.mp member
  have leaf : h.cell.keysOf b = g.cell.keysOf b := by
    obtain ⟨l, there⟩ := Option.isSome_iff_exists.mp (alive_of_key inKeys)
    have owned := typed.listOwned tagged (List.mem_append_right _ isLeaf) (alive_of_key inKeys)
    rw [keysOf_cell there, keysOf_cell (same b owned l there)]
  apply mem_kids.mpr
  refine ⟨b, ?_, by rw [leaf]; exact inKeys⟩
  cases found : g.cell n with
  | none =>
      simp only [Cells.listsOf, found, List.not_mem_nil] at isLeaf
  | some c =>
      have found' := same n (OwnedBy.nk tagged) c found
      by_cases null : c.get32 Nk.subkeyLf = 0xffffffff
      · rw [listsOf_null found null] at isLeaf
        cases isLeaf
      cases there : g.cell (c.get32 Nk.subkeyLf + 0x1000) with
      | none => simp only [Cells.listsOf, found, null, if_false, there, List.not_mem_nil] at isLeaf
      | some l =>
          have first : c.get32 Nk.subkeyLf + 0x1000 ∈ g.cell.listBlocks n := by
            simp only [Cells.listBlocks, Cells.listsOf, found, null, if_false, there]
            split <;> simp
          have there' := same _ (typed.listOwned tagged first (by rw [there]; rfl)) l there
          simp only [Cells.listsOf, found, null, if_false, there] at isLeaf
          simp only [Cells.listsOf, found', null, if_false, there']
          exact isLeaf

end Kids

section Tree
variable {h : Hive} {roles : Roles} {top n k p : Nat} {parent : Option Nat}

theorem Consistent.kidTagged (consistent : Consistent h roles) (tagged : roles n = some (.nk parent))
    (member : k ∈ h.cell.kids n) : roles k = some (.nk (some n)) :=
  consistent.toTyped.kidTagged tagged member (consistent.alive n parent tagged k member)

theorem Consistent.tagged (consistent : Consistent h roles) (tagged : roles top = some (.nk parent))
    (below : InSubtree h.cell top n) : ∃ q, roles n = some (.nk q) := by
  induction below with
  | refl => exact ⟨parent, tagged⟩
  | tail _ member ih =>
      obtain ⟨q, isNk⟩ := ih
      exact ⟨_, consistent.kidTagged isNk member⟩

-- A key is not below its own subkeys: the rank of a key grows on the way down.
theorem Consistent.parent_outside (consistent : Consistent h roles) (tagged : roles k = some (.nk (some p))) :
    ¬InSubtree h.cell k p := by
  obtain ⟨rank, grows⟩ := consistent.acyclic
  have down : ∀ n, InSubtree h.cell k n → rank k ≤ rank n := by
    intro n below
    induction below with
    | refl => exact Nat.le_refl _
    | tail above member ih =>
        obtain ⟨q, isNk⟩ := consistent.tagged tagged above
        have step := grows _ _ (consistent.kidTagged isNk member)
        omega
  intro below
  have same := down p below
  have step := grows k p tagged
  omega

-- A subkey that is in the subtree has its parent in the subtree, unless it is the top.
theorem Consistent.parent_inside (consistent : Consistent h roles) (tagged : roles top = some (.nk parent))
    (isKid : roles k = some (.nk (some n))) (below : InSubtree h.cell top k) (other : k ≠ top) :
    InSubtree h.cell top n := by
  rcases Relation.ReflTransGen.cases_tail below with same | ⟨m, above, member⟩
  · exact absurd same other
  · obtain ⟨q, isNk⟩ := consistent.tagged tagged above
    have role := consistent.kidTagged isNk member
    rw [isKid] at role
    cases role
    exact above

theorem refsTo_lt {cells : Cells} {gone nodes : List Nat} {s : Nat} (distinct : gone.Nodup)
    (within : ∀ m ∈ gone, m ∈ nodes) (member : n ∈ nodes) (outside : n ∉ gone) (refers : cells.skOf n = s) :
    cells.refsTo gone s < cells.refsTo nodes s := by
  have sub : n :: gone.filter (fun m => cells.skOf m = s) ⊆ nodes.filter fun m => cells.skOf m = s := by
    intro m inside
    rw [List.mem_filter]
    rcases List.mem_cons.mp inside with rfl | inGone
    · exact ⟨member, decide_eq_true refers⟩
    · rw [List.mem_filter] at inGone
      exact ⟨within m inGone.1, inGone.2⟩
  have apart : (n :: gone.filter fun m => cells.skOf m = s).Nodup :=
    List.nodup_cons.mpr ⟨fun inside => outside (List.mem_filter.mp inside).1, distinct.filter _⟩
  have length := (apart.subperm sub).length_le
  rw [List.length_cons] at length
  exact length

end Tree

section Result
variable {h g k : Hive} {roles : Roles} {host : Host} {node n p b : Nat} {c : Cell} {gone ris lfs : List Nat}
  {parent : Option Nat}

theorem invalid_of_absent (alive : ∀ x, (g.cell x).isSome = (k.cell x).isSome) (absent : k.cell b = none) :
    g.valid b = false := by
  rw [valid_eq_isSome, alive b, absent]
  rfl

-- A block of a key that is not gone is as valid as before.
theorem ChildDeleted.stays (deleted : ChildDeleted roles h g node p gone c ris lfs) (notGone : n ∉ gone)
    (owned : OwnedBy roles n b) : (g.cell b).isSome = (h.cell b).isSome := by
  obtain ⟨k, walked, alive, -⟩ := deleted.erased
  rw [alive b, walked.same notGone owned]

theorem ChildDeleted.childrenBefore (deleted : ChildDeleted roles h g node p gone c ris lfs)
    (consistent : Consistent h roles) (tagged : roles p = some (.nk parent)) :
    hivexNodeChildren p h.view = .ok (lfs.flatMap h.cell.keysOf) ∧ h.cell.kids p = lfs.flatMap h.cell.keysOf := by
  have typed := consistent.toTyped
  have fits := typed.nk tagged deleted.found
  have isKids : h.cell.kids p = lfs.flatMap h.cell.keysOf := by
    rw [Cells.kids, deleted.before.listsOf typed deleted.found]
  have children : HasChildren h.cell c ris lfs := by
    refine ⟨deleted.before, deleted.total, deleted.few, deleted.proper, fun x member => ?_⟩
    rw [← isKids] at member
    exact consistent.alive p parent tagged x member
  exact ⟨children.children typed.sound deleted.found fits.len fits.id, isKids⟩

theorem ChildDeleted.kidsAfter (deleted : ChildDeleted roles h g node p gone c ris lfs) :
    HasLists g.cell c.countLess ris lfs ∧ g.cell.kids p = lfs.flatMap g.cell.keysOf := by
  have pointer : c.countLess.get32 Nk.subkeyLf = c.get32 Nk.subkeyLf :=
    Cell.countLess_get (Or.inr (by decide))
  have lists := deleted.after.frame pointer fun _ _ => rfl
  refine ⟨lists, ?_⟩
  rw [Cells.kids, lists.listsOf deleted.kept.toTyped deleted.here]

theorem ChildDeleted.childrenAfter (deleted : ChildDeleted roles h g node p gone c ris lfs)
    (consistent : Consistent h roles) (tagged : roles p = some (.nk parent))
    (exactly : ∀ n, n ∈ gone ↔ InSubtree h.cell node n) (isNode : roles node = some (.nk (some p))) :
    node ∈ lfs.flatMap h.cell.keysOf ∧ lfs.flatMap g.cell.keysOf = (lfs.flatMap h.cell.keysOf).filter (· ≠ node) ∧
      hivexNodeChildren p g.view = .ok (lfs.flatMap g.cell.keysOf) := by
  obtain ⟨-, isKids⟩ := deleted.childrenBefore consistent tagged
  have once := consistent.once p parent tagged
  rw [isKids] at once
  obtain ⟨front, back, before, after⟩ := deleted.keys once
  have total := deleted.total
  have proper := deleted.proper
  rw [before] at once total
  have apart : node ∉ front ∧ node ∉ back := by
    rw [List.nodup_middle, List.nodup_cons, List.mem_append, not_or] at once
    exact once.1
  have filtered : (front ++ node :: back).filter (· ≠ node) = front ++ back := by
    have stay : ∀ xs : List Nat, node ∉ xs → xs.filter (· ≠ node) = xs := fun xs absent =>
      List.filter_eq_self.mpr fun x member => decide_eq_true fun same => absent (same ▸ member)
    rw [List.filter_append, List.filter_cons, stay front apart.1, stay back apart.2]
    simp
  refine ⟨by rw [before]; simp, by rw [before, after, filtered], ?_⟩
  have fits := deleted.kept.toTyped.nk tagged deleted.here
  have sound := deleted.kept.toTyped.sound
  have count := Cell.countLess_count proper
  have length : (lfs.flatMap g.cell.keysOf).length = c.countLess.get32 Nk.nrSubkeys := by
    rw [after, count]
    simp only [List.length_append, List.length_cons] at total ⊢
    omega
  by_cases last : c.countLess.get32 Nk.nrSubkeys = 0
  · rw [last] at length
    rw [List.length_eq_zero_iff.mp length]
    exact children_none sound deleted.here (by have := fits.len; omega) fits.id last
  · have few := deleted.few
    have children : HasChildren g.cell c.countLess ris lfs := by
      refine ⟨deleted.kidsAfter.1, length, by omega, last, fun x member => ?_⟩
      rw [after] at member
      have inOld : x ∈ h.cell.kids p := by
        rw [isKids, before]
        rcases List.mem_append.mp member with first | second
        · exact List.mem_append_left _ first
        · exact List.mem_append_right _ (List.mem_cons_of_mem _ second)
      have other : x ≠ node := by
        rintro rfl
        rcases List.mem_append.mp member with first | second
        · exact apart.1 first
        · exact apart.2 second
      have isKid := consistent.kidTagged tagged inOld
      have notGone : x ∉ gone := by
        rw [exactly]
        intro below
        exact consistent.parent_outside isNode (consistent.parent_inside isNode isKid below other)
      rw [deleted.stays notGone (OwnedBy.nk isKid)]
      exact consistent.alive p parent tagged x inOld
    exact children.children sound deleted.here fits.len fits.id

-- The lists of a key that counts its subkeys are there.
theorem Consistent.hasLists (consistent : Consistent h roles) (tagged : roles n = some (.nk parent))
    (found : h.cell n = some c) (proper : c.get32 Nk.nrSubkeys ≠ 0) :
    HasLists h.cell c (h.cell.listsOf n).1 (h.cell.listsOf n).2 := by
  apply consistent.toTyped.hasLists tagged found
  · intro none
    have count := consistent.counted n parent c tagged found
    rw [Cells.kids, none] at count
    exact proper count.symm
  · exact consistent.leaves n parent tagged

theorem ChildDeleted.security (deleted : ChildDeleted roles h g node p gone c ris lfs)
    (consistent : Consistent h roles) (exactly : ∀ n, n ∈ gone ↔ InSubtree h.cell node n)
    (inTree : InSubtree h.cell h.rootoffs node) (survives : Survives h node n)
    (valid : h.valid (h.cell.skOf n) = true) : g.valid (h.cell.skOf n) = true := by
  obtain ⟨above, root⟩ := consistent.root
  obtain ⟨q, tagged⟩ := consistent.tagged root survives.1
  obtain ⟨nodes, -, isTree, counts⟩ := consistent.references
  obtain ⟨k, walked, alive, -⟩ := deleted.erased
  obtain ⟨s, there⟩ := valid_cell valid
  cases found : h.cell n with
  | none =>
      rw [Cells.skOf, found] at there
      have bounds := consistent.sound.cell_bounds there
      exact absurd bounds.1 (by decide)
  | some d =>
      have fits := consistent.toTyped.nk tagged found
      have own : h.cell.skOf n = d.get32 Nk.sk + 0x1000 := skOf_cell found
      have isSk : roles (h.cell.skOf n) = some .sk := by
        rw [own] at there ⊢
        exact (consistent.toTyped.follow fits.sk there).1
      have counted := refcount_cell there
      have all := counts _ _ isSk counted
      have fewer : h.cell.refsTo gone (h.cell.skOf n) < h.cell.refsTo nodes (h.cell.skOf n) := refsTo_lt walked.distinct
        (fun m member => (isTree m).mpr (inTree.trans ((exactly m).mp member)))
        ((isTree n).mpr survives.1) (fun member => survives.2 ((exactly n).mp member)) rfl
      obtain ⟨-, left⟩ := walked.refs _ _ isSk counted
      rw [if_neg fun both => by omega] at left
      rw [valid_eq_isSome, alive]
      cases gone : k.cell (h.cell.skOf n) with
      | some _ => rfl
      | none =>
          rw [refcount_none.mpr gone] at left
          cases left

theorem ChildDeleted.unnamed (deleted : ChildDeleted roles h g node p gone c ris lfs)
    (consistent : Consistent h roles) (exactly : ∀ n, n ∈ gone ↔ InSubtree h.cell node n)
    (isNode : roles node = some (.nk (some p))) (tagged : roles p = some (.nk parent)) (survives : Survives h node n)
    {x : Nat} (member : x ∈ g.cell.kids n) : ¬InSubtree h.cell node x := by
  obtain ⟨above, root⟩ := consistent.root
  obtain ⟨q, isNk⟩ := consistent.tagged root survives.1
  intro below
  by_cases isParent : n = p
  · subst isParent
    obtain ⟨-, isKids⟩ := deleted.childrenBefore consistent tagged
    obtain ⟨-, filtered, -⟩ := deleted.childrenAfter consistent tagged exactly isNode
    rw [deleted.kidsAfter.2, filtered, ← isKids, List.mem_filter] at member
    have isKid := consistent.kidTagged tagged member.1
    exact survives.2 (consistent.parent_inside isNode isKid below (of_decide_eq_true member.2))
  · obtain ⟨k, walked, -, others⟩ := deleted.erased
    have inOld : x ∈ h.cell.kids n := by
      apply deleted.kept.toTyped.kids_less isNk _ member
      intro b owned d there
      have notParent : b ≠ p := by
        rintro rfl
        exact isParent (owned.unique (OwnedBy.nk tagged))
      have notList : b ∉ lfs := fun inLfs =>
        isParent (owned.unique (deleted.before.owned consistent.toTyped tagged deleted.found b
          (List.mem_append_right _ inLfs)))
      rw [others b notParent notList] at there
      exact walked.sub b d owned.not_sk there
    have isKid := consistent.kidTagged isNk inOld
    by_cases same : x = node
    · rw [same, isNode] at isKid
      cases isKid
      exact isParent rfl
    · exact survives.2 (consistent.parent_inside isNode isKid below same)

/-- A successful delete removes exactly the subtree. -/
theorem hivexNodeDeleteChild_deleted (consistent : Consistent h roles)
    (inTree : InSubtree h.cell h.rootoffs node) (notRoot : node ≠ h.rootoffs)
    (run : Hivex.hivexNodeDeleteChild host node h = .ok () g) : Deleted h g node := by
  have typed := consistent.toTyped
  obtain ⟨above, root⟩ := consistent.root
  obtain ⟨p, inTreeP, isKid⟩ : ∃ p, InSubtree h.cell h.rootoffs p ∧ node ∈ h.cell.kids p := by
    rcases Relation.ReflTransGen.cases_tail inTree with same | ⟨p, above, member⟩
    · exact absurd same notRoot
    · exact ⟨p, above, member⟩
  obtain ⟨q, tagged⟩ := consistent.tagged root inTreeP
  have isNode := consistent.kidTagged tagged isKid
  obtain ⟨gone, c, ris, lfs, deleted⟩ := run_post (consistent.toKept.hivexNodeDeleteChild isNode) run
  have exactly := deleted.exactly consistent.counted
  obtain ⟨k, walked, alive, -⟩ := deleted.erased
  constructor
  · obtain ⟨before, -⟩ := deleted.childrenBefore consistent tagged
    obtain ⟨member, filtered, after⟩ := deleted.childrenAfter consistent tagged exactly isNode
    rw [filtered] at after
    exact ⟨p, _, deleted.parent, before, member, after⟩
  · intro n below b owns
    exact invalid_of_absent alive (walked.owned n ((exactly n).mpr below) b owns)
  · intro n d below found proper b member
    obtain ⟨r, isNk⟩ := consistent.tagged isNode below
    exact invalid_of_absent alive (walked.lists n ((exactly n).mpr below) d found proper _ _
      (consistent.hasLists isNk found proper) b member)
  · intro n survives b owns valid
    obtain ⟨r, isNk⟩ := consistent.tagged root survives.1
    rw [valid_eq_isSome] at valid ⊢
    have owned : OwnedBy roles n b := by
      rcases owns with direct | list
      · exact direct.owned typed isNk valid
      · exact typed.listOwned isNk list valid
    rw [deleted.stays (fun member => survives.2 ((exactly n).mp member)) owned]
    exact valid
  · exact fun n survives valid => deleted.security consistent exactly inTree survives valid
  · exact fun n survives x member => deleted.unnamed consistent exactly isNode tagged survives member

end Result

/-- A hive of one page: the root key, the list of its only subkey, the subkey and the security
record of both. -/
def familyImage : Mem :=
  [(0x1020 + Nk.nrSubkeys, leBytes 4 1), (0x1020 + Nk.subkeyLf, leBytes 4 0x90),
    (0x1078 + Sk.refcount, leBytes 4 2), (0x1090, leBytes 4 (2 ^ 32 - 16)), (0x1094, Lf.idLh),
    (0x1090 + Lf.nrKeys, leBytes 2 1), (0x1090 + Lf.keyOffset 0, leBytes 4 0xa0),
    (0x10a0, leBytes 4 (2 ^ 32 - 88)), (0x10a4, Nk.id), (0x10a0 + Nk.parent, leBytes 4 0x20),
    (0x10a0 + Nk.subkeyLf, leBytes 4 0xffffffff), (0x10a0 + Nk.vallist, leBytes 4 0xffffffff),
    (0x10a0 + Nk.sk, leBytes 4 0x78), (0x10a0 + Nk.classname, leBytes 4 0xffffffff),
    (0x10a0 + Nk.nameLen, leBytes 2 3), (0x10a0 + Nk.name, [0x6b, 0x69, 0x64]),
    (0x10f8, leBytes 4 0xf08)].foldl (fun image (i, bytes) => blit image i bytes) minimalImage

def family : Hive := onePage familyImage [0x1020, 0x1078, 0x1090, 0x10a0, 0x10f8]

def familyRoles : Roles
  | 0x1020 => some (.nk none)
  | 0x1078 => some .sk
  | 0x1090 => some (.lf 0x1020)
  | 0x10a0 => some (.nk (some 0x1020))
  | _ => none

section Family
variable {b : Nat} {role : Role}

theorem family_laidOut : LaidOut family [⟨0x1000, [0x1020, 0x1078, 0x1090, 0x10a0, 0x10f8]⟩] :=
  onePage_laidOut (by decide) (by decide) (by decide) (by decide)

theorem family_sound : Sound family := ⟨_, family_laidOut, Or.inl rfl⟩

theorem familyRoles_cases (tagged : familyRoles b = some role) :
    b = 0x1020 ∧ role = .nk none ∨ b = 0x1078 ∧ role = .sk ∨ b = 0x1090 ∧ role = .lf 0x1020 ∨
      b = 0x10a0 ∧ role = .nk (some 0x1020) := by
  unfold familyRoles at tagged
  split at tagged <;> cases tagged
  · exact Or.inl ⟨rfl, rfl⟩
  · exact Or.inr (Or.inl ⟨rfl, rfl⟩)
  · exact Or.inr (Or.inr (Or.inl ⟨rfl, rfl⟩))
  · exact Or.inr (Or.inr (Or.inr ⟨rfl, rfl⟩))

/-- The words of a key's record that its role is about. -/
def Cell.nkWords (c : Cell) : List Nat :=
  [c.len, c.get32 Nk.parent, c.get32 Nk.subkeyLf, c.get32 Nk.vallist, c.get32 Nk.nrValues, c.get32 Nk.sk,
    c.get32 Nk.classname]

theorem family_nk {c : Cell} {n : Nat} (place : n = 0x1020 ∧ role = .nk none ∨ n = 0x10a0 ∧ role = .nk (some 0x1020))
    (found : family.cell n = some c) : RoleFits familyRoles n role c := by
  have words : (family.cell 0x1020).map Cell.nkWords =
      some [88, 0, 0x90, 0xffffffff, 0, 0x78, 0xffffffff] := by decide +kernel
  have words' : (family.cell 0x10a0).map Cell.nkWords =
      some [88, 0x20, 0xffffffff, 0xffffffff, 0, 0x78, 0xffffffff] := by decide +kernel
  have ids : (family.cell 0x1020).map Cell.id = some Nk.id ∧ (family.cell 0x10a0).map Cell.id = some Nk.id := by
    decide +kernel
  rcases place with ⟨rfl, rfl⟩ | ⟨rfl, rfl⟩
  · rw [found] at words ids
    simp only [Option.map_some, Option.some.injEq, Cell.nkWords, List.cons.injEq, and_true] at words ids
    obtain ⟨len, parent, list, vallist, count, sk, classname⟩ := words
    constructor
    · omega
    · exact ids.1
    · intro _
      rw [parent]
      exact Or.inl (Or.inl rfl)
    · exact fun q isSome => by cases isSome
    · rw [list]
      exact Or.inl (Or.inr rfl)
    · rw [vallist]
      exact Or.inl (Or.inr rfl)
    · rw [sk]
      exact Or.inr rfl
    · rw [classname]
      exact Or.inl (Or.inr rfl)
  · rw [found] at words' ids
    simp only [Option.map_some, Option.some.injEq, Cell.nkWords, List.cons.injEq, and_true] at words' ids
    obtain ⟨len, parent, list, vallist, count, sk, classname⟩ := words'
    constructor
    · omega
    · exact ids.2
    · exact fun isTop => by cases isTop
    · rintro q isSome
      cases isSome
      rw [parent]
      exact Or.inr rfl
    · rw [list]
      exact Or.inl (Or.inl (Or.inr rfl))
    · rw [vallist]
      exact Or.inl (Or.inr rfl)
    · rw [sk]
      exact Or.inr rfl
    · rw [classname]
      exact Or.inl (Or.inr rfl)

theorem family_list {c : Cell} (found : family.cell 0x1090 = some c) : LfTyped familyRoles 0x1020 c := by
  have words : (family.cell 0x1090).map (fun c => (c.id, c.len, c.get16 Lf.nrKeys, c.get32 (Lf.keyOffset 0))) =
      some (Lf.idLh, 16, 1, 0xa0) := by decide +kernel
  rw [found] at words
  simp only [Option.map_some, Option.some.injEq, Prod.mk.injEq] at words
  obtain ⟨id, len, count, key⟩ := words
  refine ⟨Or.inr id, by omega, fun i inside => ?_⟩
  obtain rfl : i = 0 := by omega
  rw [key]
  exact Or.inr rfl

theorem family_sk {c : Cell} (found : family.cell 0x1078 = some c) :
    c.id = Sk.id ∧ c.len = 24 ∧ c.get32 Sk.skNext = 0x78 ∧ c.get32 Sk.skPrev = 0x78 ∧ c.get32 Sk.refcount = 2 := by
  have words : (family.cell 0x1078).map
      (fun c => (c.id, c.len, c.get32 Sk.skNext, c.get32 Sk.skPrev, c.get32 Sk.refcount)) =
      some (Sk.id, 24, 0x78, 0x78, 2) := by decide +kernel
  rw [found] at words
  simpa only [Option.map_some, Option.some.injEq, Prod.mk.injEq] using words

theorem family_valid : family.valid 0x1078 = true ∧ family.valid 0x1090 = true ∧ family.valid 0x10a0 = true := by
  decide +kernel

theorem family_typed : Typed family familyRoles where
  sound := family_sound
  small := by decide
  writable := rfl
  bounds := fun b role tagged => by
    have frontier : family.frontier = 0x2020 := rfl
    rcases familyRoles_cases tagged with ⟨rfl, -⟩ | ⟨rfl, -⟩ | ⟨rfl, -⟩ | ⟨rfl, -⟩ <;> omega
  parents := fun b q tagged => by
    rcases familyRoles_cases tagged with ⟨-, same⟩ | ⟨-, same⟩ | ⟨-, same⟩ | ⟨-, same⟩ <;> cases same
    exact ⟨none, rfl⟩
  acyclic := by
    refine ⟨fun b => b, fun b q tagged => ?_⟩
    rcases familyRoles_cases tagged with ⟨-, same⟩ | ⟨-, same⟩ | ⟨-, same⟩ | ⟨rfl, same⟩ <;> cases same
    decide
  cells := fun b role c tagged found => by
    rcases familyRoles_cases tagged with ⟨rfl, rfl⟩ | ⟨rfl, rfl⟩ | ⟨rfl, rfl⟩ | ⟨rfl, rfl⟩
    · exact family_nk (Or.inl ⟨rfl, rfl⟩) found
    · obtain ⟨id, len, -⟩ := family_sk found
      exact ⟨by omega, id⟩
    · exact family_list found
    · exact family_nk (Or.inr ⟨rfl, rfl⟩) found

theorem family_skBlocks : skBlocks familyRoles family.cell = {0x1078} := by
  ext s
  constructor
  · rintro ⟨isSk, -⟩
    rcases familyRoles_cases isSk with ⟨-, same⟩ | ⟨rfl, -⟩ | ⟨-, same⟩ | ⟨-, same⟩
    · cases same
    · rfl
    · cases same
    · cases same
  · rintro rfl
    obtain ⟨c, found⟩ := valid_cell family_valid.1
    exact ⟨rfl, by rw [found]; rfl⟩

theorem family_kids : family.cell.kids 0x1020 = [0x10a0] ∧ family.cell.kids 0x10a0 = [] ∧
    (family.cell.listsOf 0x1020).2 = [0x1090] ∧ (family.cell.listsOf 0x10a0).2 = [] := by decide +kernel

theorem family_kept : Kept family familyRoles := by
  refine ⟨family_typed, ?_⟩
  obtain ⟨c, found⟩ := valid_cell family_valid.1
  obtain ⟨-, -, next, prev, -⟩ := family_sk found
  have nextWord : family.cell.skNext 0x1078 = 0x1078 := by rw [skNext_cell found, next]
  have prevWord : family.cell.skPrev 0x1078 = 0x1078 := by rw [skPrev_cell found, prev]
  rw [family_skBlocks]
  constructor <;> rintro s rfl
  · exact nextWord
  · exact prevWord
  · rw [nextWord, prevWord]
  · rw [prevWord, nextWord]

-- The tree has two keys.
theorem family_tree {n : Nat} : InSubtree family.cell 0x1020 n ↔ n ∈ [0x1020, 0x10a0] := by
  obtain ⟨rootKids, kids, -⟩ := family_kids
  have below : InSubtree family.cell 0x10a0 n ↔ n = 0x10a0 := by
    rw [inSubtree_iff, kids]
    simp
  rw [inSubtree_iff, rootKids]
  simp only [List.mem_cons, List.not_mem_nil, or_false, exists_eq_left, below]

theorem family_keys {n : Nat} {parent : Option Nat} (tagged : familyRoles n = some (.nk parent)) :
    n = 0x1020 ∨ n = 0x10a0 := by
  rcases familyRoles_cases tagged with ⟨rfl, -⟩ | ⟨-, same⟩ | ⟨-, same⟩ | ⟨rfl, -⟩
  · exact Or.inl rfl
  · cases same
  · cases same
  · exact Or.inr rfl

theorem family_consistent : Consistent family familyRoles := by
  obtain ⟨rootKids, kids, rootLists, lists⟩ := family_kids
  have counts : (family.cell 0x1020).map (fun c => c.get32 Nk.nrSubkeys) = some 1 ∧
      (family.cell 0x10a0).map (fun c => c.get32 Nk.nrSubkeys) = some 0 := by decide +kernel
  refine ⟨family_kept, ⟨none, rfl⟩, fun n parent c tagged found => ?_, fun n parent tagged => ?_,
    fun n parent tagged b member => ?_, fun n parent tagged k member => ?_, [0x1020, 0x10a0], by decide,
    fun n => family_tree.symm, fun s r isSk count => ?_⟩
  · rcases family_keys tagged with rfl | rfl <;> rw [found] at counts
    · rw [rootKids]
      exact (Option.some.inj counts.1).symm
    · rw [kids]
      exact (Option.some.inj counts.2).symm
  · rcases family_keys tagged with rfl | rfl
    · rw [rootKids]
      decide
    · rw [kids]
      decide
  · rcases family_keys tagged with rfl | rfl
    · rw [rootLists] at member
      rw [List.mem_singleton.mp member, ← valid_eq_isSome]
      exact family_valid.2.1
    · rw [lists] at member
      cases member
  · rcases family_keys tagged with rfl | rfl
    · rw [rootKids] at member
      rw [List.mem_singleton.mp member, ← valid_eq_isSome]
      exact family_valid.2.2
    · rw [kids] at member
      cases member
  · rcases familyRoles_cases isSk with ⟨-, same⟩ | ⟨rfl, -⟩ | ⟨-, same⟩ | ⟨-, same⟩
    · cases same
    · obtain ⟨c, found⟩ := valid_cell family_valid.1
      obtain ⟨-, -, -, -, two⟩ := family_sk found
      rw [refcount_cell found, two] at count
      have refs : family.cell.refsTo [0x1020, 0x10a0] 0x1078 = 2 := by decide +kernel
      rw [refs]
      exact (Option.some.inj count).symm
    · cases same
    · cases same

theorem family_deleted : ∃ g, hivexNodeDeleteChild ampleHost 0x10a0 family = .ok () g ∧ Deleted family g 0x10a0 := by
  have deletes : succeeds (hivexNodeDeleteChild ampleHost 0x10a0 family) = true := by decide +kernel
  cases run : hivexNodeDeleteChild ampleHost 0x10a0 family with
  | error reason g =>
      rw [run] at deletes
      exact absurd deletes Bool.false_ne_true
  | ok done g =>
      exact ⟨g, rfl, hivexNodeDeleteChild_deleted family_consistent (family_tree.mpr (by decide)) (by decide) run⟩

end Family

end Hivex
