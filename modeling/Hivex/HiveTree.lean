import Hivex.HiveFrame
import Hivex.ChildLists

/-! The keys of a hive as a tree. The lists of a key name each of its children once, and the
security records count the keys that refer to them. What each call does to the tree. -/
namespace Hivex

open ByteMemory Commands StoreTyping GhostRuns ChildLists

/-- The lists of the key `n` are there. They name as many keys as its record counts, each once, and all of
these are in use. -/
structure KeyListed (h : Hive) (n : Nat) : Prop where
  counted : ∀ c, h.cell n = some c → (h.cell.kids n).length = c.get32 Nk.nrSubkeys
  once : (h.cell.kids n).Nodup
  leaves : ∀ b ∈ (h.cell.listsOf n).2, (h.cell b).isSome
  alive : ∀ k ∈ h.cell.kids n, (h.cell k).isSome

/-- The security records count the keys that refer to them. Those of the keys that are `sure` are in use. -/
structure Referenced (sure : Nat → Prop) (h : Hive) (roles : Roles) (keys : List Nat) : Prop where
  distinct : keys.Nodup
  used : ∀ k ∈ keys, (∃ up, roles k = some (.nk up)) ∧ (h.cell k).isSome
  references : ∀ s r, roles s = some .sk → h.cell.refcount s = some r → r = h.cell.refsTo keys s
  secured : ∀ n ∈ keys, sure n → (h.cell (h.cell.skOf n)).isSome

/-- The keys `nodes` form a tree below the root, and the security records count `keys`. A key that is counted
and is not in the tree has been left by an add that failed, unless there has been none. -/
structure Tree (sure : Nat → Prop) (clean : Prop) (h : Hive) (roles : Roles) (nodes keys : List Nat) : Prop extends
    Rooted h roles, Referenced sure h roles keys where
  listed : ∀ n up, roles n = some (.nk up) → KeyListed h n
  members : Enumerates h.cell.kids h.rootoffs nodes
  inKeys : ∀ n ∈ nodes, n ∈ keys
  exact : clean → ∀ n ∈ keys, n ∈ nodes

/-- The words of a key that name its children and its security record have not changed. -/
structure SameLists (h : Hive) (roles : Roles) (k : Hive) (n : Nat) : Prop where
  words : ∀ c', k.cell n = some c' → ∃ c, h.cell n = some c ∧ c'.get32 Nk.nrSubkeys = c.get32 Nk.nrSubkeys ∧
    c'.get32 Nk.subkeyLf = c.get32 Nk.subkeyLf ∧ c'.get32 Nk.sk = c.get32 Nk.sk
  stays : (h.cell n).isSome → (k.cell n).isSome
  lists : ∀ b, roles b = some (.lf n) ∨ roles b = some (.ri n) → k.cell b = h.cell b

section Lists
variable {h k : Hive} {roles roles' : Roles} {n b : Nat} {up : Option Nat}

theorem listsOf_none {cells : Cells} (gone : cells n = none) : cells.listsOf n = ([], []) := by
  simp only [Cells.listsOf, gone]

theorem kids_none {cells : Cells} (gone : cells n = none) : cells.kids n = [] := by
  rw [Cells.kids, listsOf_none gone]
  rfl

theorem keysOf_none {cells : Cells} (gone : cells b = none) : cells.keysOf b = [] := by
  simp only [Cells.keysOf, gone, Option.map_none, Option.getD_none]

/-- The lists of a key, each there or gone in both. -/
theorem Later.listsOf (later : Later h roles k roles') (tagged : roles n = some (.nk up))
    (same : SameLists h roles k n) :
    k.cell.listsOf n = h.cell.listsOf n ∧ ∀ b ∈ (h.cell.listsOf n).2, k.cell b = h.cell b := by
  have follow : ∀ {w role}, Points roles w role → role = .lf n ∨ role = .ri n →
      k.cell (w + 0x1000) = h.cell (w + 0x1000) := by
    intro w role points isList
    apply later.follows points
    intro isRole
    apply same.lists
    rcases isList with rfl | rfl
    · exact Or.inl isRole
    · exact Or.inr isRole
  cases found' : k.cell n with
  | none =>
      have found : h.cell n = none := by
        cases found : h.cell n with
        | none => rfl
        | some c =>
            have there := same.stays (by rw [found]; rfl)
            rw [found'] at there
            cases there
      rw [listsOf_none found, listsOf_none found']
      exact ⟨rfl, fun b member => by cases member⟩
  | some c' =>
      obtain ⟨c, found, -, pointer, -⟩ := same.words c' found'
      have fits := later.before.nk tagged found
      by_cases null : c.get32 Nk.subkeyLf = 0xffffffff
      · rw [listsOf_null found null, listsOf_null found' (pointer.trans null)]
        exact ⟨rfl, fun b member => by cases member⟩
      have first : k.cell (c.get32 Nk.subkeyLf + 0x1000) = h.cell (c.get32 Nk.subkeyLf + 0x1000) := by
        rcases fits.list with points | points
        · exact follow points (Or.inl rfl)
        · exact follow points (Or.inr rfl)
      have equal : k.cell.listsOf n = h.cell.listsOf n := by
        simp only [Cells.listsOf, found, found', pointer, first]
      refine ⟨equal, fun b member => ?_⟩
      cases there : h.cell (c.get32 Nk.subkeyLf + 0x1000) with
      | none =>
          simp only [Cells.listsOf, found, null, if_false, there] at member
          cases member
      | some l =>
          by_cases indirect : l.id = Ri.id
          · have isRi : roles (c.get32 Nk.subkeyLf + 0x1000) = some (.ri n) ∧ RiTyped roles n l := by
              rcases fits.list with points | points
              · have id := (later.before.follow points there).2.id
                rw [indirect] at id
                exact absurd id (by decide)
              · exact later.before.follow points there
            rw [listsOf_ri found null there indirect] at member
            obtain ⟨i, inside, rfl⟩ := List.mem_map.mp member
            exact follow (isRi.2.offsets i (List.mem_range.mp inside)) (Or.inl rfl)
          · simp only [Cells.listsOf, found, null, if_false, there, indirect] at member
            rw [List.mem_singleton.mp member]
            exact first

theorem Later.kids (later : Later h roles k roles') (tagged : roles n = some (.nk up)) (same : SameLists h roles k n) :
    k.cell.kids n = h.cell.kids n := by
  obtain ⟨lists, each⟩ := later.listsOf tagged same
  rw [Cells.kids, lists, Cells.kids]
  apply List.flatMap_congr
  intro b member
  simp only [Cells.keysOf, each b member]

/-- A key whose lists have not changed and whose children are all in use. -/
theorem Later.keyListed (later : Later h roles k roles') (tagged : roles n = some (.nk up))
    (same : SameLists h roles k n) (listed : KeyListed h n)
    (alive : ∀ b ∈ h.cell.kids n, (h.cell b).isSome → (k.cell b).isSome) : KeyListed k n := by
  obtain ⟨lists, each⟩ := later.listsOf tagged same
  have kids := later.kids tagged same
  constructor
  · intro c' found'
    obtain ⟨c, found, count, -⟩ := same.words c' found'
    rw [kids, listed.counted c found, count]
  · rw [kids]
    exact listed.once
  · intro b member
    rw [lists] at member
    rw [each b member]
    exact listed.leaves b member
  · intro b member
    rw [kids] at member
    exact alive b member (listed.alive b member)

end Lists

section Counting
variable {sure : Nat → Prop} {h k g : Hive} {roles roles' : Roles} {keys gone : List Nat} {parent node s r : Nat}

theorem refsTo_tally (cells : Cells) (nodes : List Nat) (s : Nat) : cells.refsTo nodes s = tally cells.skOf nodes s := rfl

-- Blocks start at multiples of four.
theorem aligned_few (size : Nat) {xs : List Nat} (distinct : xs.Nodup) (each : ∀ x ∈ xs, x % 4 = 0 ∧ x < size) :
    xs.length ≤ (size + 3) / 4 := by
  have apart : (xs.map (· / 4)).Nodup := by
    apply distinct.map_on
    intro x member y member' same
    have first := each x member
    have second := each y member'
    omega
  have inside : xs.map (· / 4) ⊆ List.range ((size + 3) / 4) := by
    intro q member
    obtain ⟨x, inList, rfl⟩ := List.mem_map.mp member
    have bound := each x inList
    rw [List.mem_range]
    omega
  have few := (apart.subperm inside).length_le
  rw [List.length_map, List.length_range] at few
  exact few

theorem Referenced.few (referenced : Referenced sure h roles keys) (typed : Typed h roles) : keys.length < 2 ^ 31 := by
  have small := typed.small
  have few := aligned_few h.size referenced.distinct fun n member => by
    obtain ⟨c, found⟩ := Option.isSome_iff_exists.mp (referenced.used n member).2
    have bounds := typed.sound.cell_bounds found
    omega
  omega

/-- The word in a key that leads to its security record is the same in both. -/
def SameSk (h k : Hive) (n : Nat) : Prop :=
  ∀ c, h.cell n = some c → ∃ c', k.cell n = some c' ∧ c'.get32 Nk.sk = c.get32 Nk.sk

theorem SameLists.sameSk {n : Nat} (same : SameLists h roles k n) : SameSk h k n := by
  intro c found
  obtain ⟨c', found'⟩ := Option.isSome_iff_exists.mp (same.stays (by rw [found]; rfl))
  obtain ⟨d, found'', -, -, sk⟩ := same.words c' found'
  rw [found] at found''
  cases found''
  exact ⟨c', found', sk⟩

theorem Referenced.skOf_same (referenced : Referenced sure h roles keys) {n : Nat} (member : n ∈ keys)
    (same : SameSk h k n) : k.cell.skOf n = h.cell.skOf n := by
  obtain ⟨c, found⟩ := Option.isSome_iff_exists.mp (referenced.used n member).2
  obtain ⟨c', found', sk⟩ := same c found
  rw [skOf_cell found, skOf_cell found', sk]

theorem Referenced.used_same (referenced : Referenced sure h roles keys) {n : Nat} (member : n ∈ keys)
    (same : SameSk h k n) : (k.cell n).isSome := by
  obtain ⟨c, found⟩ := Option.isSome_iff_exists.mp (referenced.used n member).2
  obtain ⟨c', found', -⟩ := same c found
  rw [found']
  rfl

-- The security record of a key has the role of one.
theorem Referenced.isSk (referenced : Referenced sure h roles keys) (typed : Typed h roles) {n : Nat} (member : n ∈ keys)
    (there : (h.cell (h.cell.skOf n)).isSome) : roles (h.cell.skOf n) = some .sk := by
  obtain ⟨⟨up, tagged⟩, alive⟩ := referenced.used n member
  obtain ⟨c, found⟩ := Option.isSome_iff_exists.mp alive
  rw [skOf_cell found] at there ⊢
  obtain ⟨d, here⟩ := Option.isSome_iff_exists.mp there
  exact (typed.follow (typed.nk tagged found).sk here).1

/-- Calls that leave the security records alone, and the words that lead to them. -/
theorem Referenced.same (referenced : Referenced sure h roles keys) (later : Later h roles k roles')
    (oldSk : ∀ s, roles' s = some .sk → roles s = some .sk) (sks : ∀ s, roles s = some .sk → k.cell s = h.cell s)
    (same : ∀ n ∈ keys, SameSk h k n) : Referenced sure k roles' keys := by
  have skOf : ∀ n ∈ keys, k.cell.skOf n = h.cell.skOf n := fun n member => referenced.skOf_same member (same n member)
  constructor
  · exact referenced.distinct
  · intro n member
    obtain ⟨⟨up, tagged⟩, -⟩ := referenced.used n member
    exact ⟨⟨up, later.grows _ _ tagged⟩, referenced.used_same member (same n member)⟩
  · intro s r isSk count
    have old := oldSk s isSk
    rw [Cells.refcount, sks s old] at count
    rw [refsTo_tally, tally_congr skOf]
    exact referenced.references s r old count
  · intro n member isSure
    have there := referenced.secured n member isSure
    rw [skOf n member, sks _ (referenced.isSk later.before member there)]
    exact there

/-- A new key refers to the security record of its parent, which counts it. -/
theorem Referenced.inherits (referenced : Referenced sure h roles keys) (later : Later h roles k roles')
    (oldSk : ∀ s, roles' s = some .sk → roles s = some .sk) (same : ∀ n ∈ keys, SameSk h k n)
    (inherits : Inherits roles h parent node k) (isNode : roles' node = some (.nk (some parent)))
    (alive : (k.cell node).isSome) : Referenced sure k roles' (node :: keys) := by
  have skOf : ∀ n ∈ keys, k.cell.skOf n = h.cell.skOf n := fun n member => referenced.skOf_same member (same n member)
  have fresh : node ∉ keys := by
    intro member
    obtain ⟨⟨up, tagged⟩, -⟩ := referenced.used node member
    have before := (later.before.bounds _ _ tagged).2
    have new := inherits.fresh
    omega
  obtain ⟨c, before, after⟩ := inherits.counted
  constructor
  · exact List.nodup_cons.mpr ⟨fresh, referenced.distinct⟩
  · intro n member
    rcases List.mem_cons.mp member with rfl | old
    · exact ⟨⟨_, isNode⟩, alive⟩
    · obtain ⟨⟨up, tagged⟩, -⟩ := referenced.used n old
      exact ⟨⟨up, later.grows _ _ tagged⟩, referenced.used_same old (same n old)⟩
  · intro s r isSk count
    have old := oldSk s isSk
    rw [refsTo_tally, tally_cons, tally_congr skOf, inherits.same]
    by_cases here : h.cell.skOf parent = s
    · subst here
      have references := referenced.references _ _ old (refcount_cell before)
      have bound := tally_le h.cell.skOf keys (h.cell.skOf parent)
      have few := referenced.few later.before
      rw [refsTo_tally] at references
      have more : c.countMore.get32 Sk.refcount = (c.get32 Sk.refcount + 1) % 256 ^ 4 := Cell.get_put_same _ _ _ _
      rw [refcount_cell after, Option.some.injEq] at count
      rw [if_pos rfl]
      omega
    · rw [Cells.refcount, inherits.others s old (Ne.symm here)] at count
      rw [if_neg here]
      exact referenced.references s r old count
  · intro n member isSure
    have stays : ∀ t, roles t = some .sk → (h.cell t).isSome → (k.cell t).isSome := by
      intro t isSk there
      by_cases here : t = h.cell.skOf parent
      · rw [here, after]
        rfl
      · rw [inherits.others t isSk here]
        exact there
    rcases List.mem_cons.mp member with rfl | old
    · rw [inherits.same, after]
      rfl
    · have there := referenced.secured n old isSure
      rw [skOf n old]
      exact stays _ (referenced.isSk later.before old there) there

/-- The keys `gone` have given up their references. -/
theorem Referenced.prune (referenced : Referenced sure h roles keys) (typed : Typed h roles)
    (walked : Walked roles h k gone) (within : ∀ n ∈ gone, n ∈ keys) (sks : ∀ s, roles s = some .sk → g.cell s = k.cell s)
    (same : ∀ n ∈ keys, n ∉ gone → SameSk h g n) : Referenced sure g roles (keys.filter (· ∉ gone)) := by
  have left : ∀ {n}, n ∈ keys.filter (· ∉ gone) ↔ n ∈ keys ∧ n ∉ gone := by
    intro n
    rw [List.mem_filter, decide_eq_true_iff]
  have skOf : ∀ n ∈ keys.filter (· ∉ gone), g.cell.skOf n = h.cell.skOf n := by
    intro n member
    obtain ⟨isKey, stays⟩ := left.mp member
    exact referenced.skOf_same isKey (same n isKey stays)
  have refcount : ∀ s, roles s = some .sk → g.cell.refcount s = k.cell.refcount s := by
    intro s isSk
    rw [Cells.refcount, sks s isSk, Cells.refcount]
  constructor
  · exact referenced.distinct.filter _
  · intro n member
    obtain ⟨isKey, stays⟩ := left.mp member
    exact ⟨(referenced.used n isKey).1, referenced.used_same isKey (same n isKey stays)⟩
  · intro s r isSk count
    rw [refcount s isSk] at count
    cases before : h.cell.refcount s with
    | none =>
        rw [walked.dead s isSk before] at count
        cases count
    | some total =>
        obtain ⟨-, after⟩ := walked.refs s total isSk before
        have all := referenced.references s total isSk before
        have parts := tally_prune h.cell.skOf s referenced.distinct walked.distinct within
        rw [refsTo_tally] at all
        rw [after, refsTo_tally] at count
        rw [refsTo_tally, tally_congr skOf]
        split at count
        · cases count
        · have rest := Option.some.inj count
          omega
  · intro n member isSure
    obtain ⟨isKey, stays⟩ := left.mp member
    have there := referenced.secured n isKey isSure
    have isSk := referenced.isSk typed isKey there
    rw [skOf n member, sks _ isSk]
    obtain ⟨c, here⟩ := Option.isSome_iff_exists.mp there
    have all := referenced.references _ _ isSk (refcount_cell here)
    have fewer := refsTo_lt walked.distinct within isKey stays (Eq.refl (h.cell.skOf n))
    obtain ⟨-, after⟩ := walked.refs _ _ isSk (refcount_cell here)
    rw [if_neg fun both => by omega] at after
    cases left : k.cell (h.cell.skOf n) with
    | some _ => rfl
    | none =>
        rw [refcount_none.mpr left] at after
        cases after

end Counting

/-- The tree is as before. New keys are in no list and have none below them. -/
structure TreeStays (h : Hive) (roles : Roles) (k : Hive) (roles' : Roles) : Prop extends Later h roles k roles' where
  rootoffs : k.rootoffs = h.rootoffs
  same : ∀ n up, roles n = some (.nk up) → SameLists h roles k n
  born : ∀ n up, roles n = none → roles' n = some (.nk up) → KeyListed k n

/-- A call that changes no key but for its values. -/
structure ValuesOnly (scope : Scope) (h : Hive) (roles : Roles) : Prop where
  writes : ∀ b < h.frontier, ∀ role, roles b = some role → scope.writes b role → role.isKey
  frees : ∀ b role, scope.frees b role → ∃ n, role.holdsValues n
  makes : ∀ b < h.frontier, ¬scope.makes b
  bears : ∀ p, ¬scope.bears p
  fields : ∀ i, scope.fields i → valueWords i ∨ Nk.maxVkNameLen ≤ i

section Stays
variable {sure : Nat → Prop} {clean : Prop} {h k : Hive} {roles roles' : Roles} {nodes keys : List Nat} {n parent : Nat}
  {up : Option Nat} {scope : Scope} {name : CString} {d : Cell}

theorem KeyListed.none (gone : h.cell n = none) : KeyListed h n := by
  have none := kids_none gone
  constructor
  · intro c found
    rw [gone] at found
    cases found
  · rw [none]
    exact List.nodup_nil
  · rw [listsOf_none gone]
    exact fun b member => by cases member
  · rw [none]
    exact fun b member => by cases member

theorem Blank.kids (blank : Blank parent name d) (found : h.cell n = some d) : h.cell.kids n = [] := by
  rw [Cells.kids, listsOf_null found blank.subkeyLf]
  rfl

theorem Blank.listed (blank : Blank parent name d) (found : h.cell n = some d) : KeyListed h n := by
  have none := blank.kids found
  constructor
  · intro c found'
    rw [found] at found'
    cases found'
    rw [none, blank.nrSubkeys]
    rfl
  · rw [none]
    exact List.nodup_nil
  · rw [listsOf_null found blank.subkeyLf]
    exact fun b member => by cases member
  · rw [none]
    exact fun b member => by cases member

theorem Tree.tagged (tree : Tree sure clean h roles nodes keys) (member : n ∈ nodes) :
    ∃ up, roles n = some (.nk up) :=
  (tree.used n (tree.inKeys n member)).1

theorem Tree.used_node (tree : Tree sure clean h roles nodes keys) (member : n ∈ nodes) : (h.cell n).isSome :=
  (tree.used n (tree.inKeys n member)).2

theorem TreeStays.kids (stays : TreeStays h roles k roles') (tree : Tree sure clean h roles nodes keys)
    (member : n ∈ nodes) : k.cell.kids n = h.cell.kids n := by
  obtain ⟨up, tagged⟩ := tree.tagged member
  exact stays.toLater.kids tagged (stays.same n up tagged)

/-- The tree with the keys that are counted after the call. -/
theorem TreeStays.tree {keys' : List Nat} (stays : TreeStays h roles k roles') (tree : Tree sure clean h roles nodes keys)
    (rooted : Rooted k roles') (referenced : Referenced sure k roles' keys') (more : ∀ n ∈ keys, n ∈ keys')
    (exact : clean → ∀ n ∈ keys', n ∈ keys) : Tree sure clean k roles' nodes keys' := by
  constructor
  · exact rooted
  · exact referenced
  · intro n up tagged'
    cases tagged : roles n with
    | none => exact stays.born n up tagged tagged'
    | some role =>
        have same := stays.grows n role tagged
        rw [tagged'] at same
        cases same
        apply stays.toLater.keyListed tagged (stays.same n up tagged) (tree.listed n up tagged)
        intro b member there
        exact (stays.same b _ (stays.before.kidTagged tagged member there)).stays there
  · rw [stays.rootoffs]
    exact tree.members.congr fun n member => stays.kids tree member
  · exact fun n member => more n (tree.inKeys n member)
  · exact fun isClean n member => tree.exact isClean n (exact isClean n member)

theorem ValuesOnly.sameLists (quiet : ValuesOnly scope h roles) (typed : Typed h roles) (moves : Moves scope roles h roles' k)
    (tagged : roles n = some (.nk up)) : SameLists h roles k n := by
  have bounds := (typed.bounds n _ tagged).2
  have notFreed : ¬scope.frees n (.nk up) := by
    intro freed
    obtain ⟨_, never⟩ := quiet.frees n _ freed
    exact never
  have alive := moves.alive typed tagged notFreed
  constructor
  · intro c' found'
    rw [found'] at alive
    obtain ⟨c, found⟩ := Option.isSome_iff_exists.mp alive.symm
    have same := moves.steady n bounds (quiet.makes n bounds) up tagged c c' found found'
    have fixed : ∀ i, i + 4 ≤ Nk.nrValues ∨ Nk.sk ≤ i ∧ i + 4 ≤ Nk.maxVkNameLen → c'.get 4 i = c.get 4 i := by
      intro i apart
      apply same.get
      intro j inside changed
      rcases quiet.fields _ changed with inWords | behind
      · simp only [valueWords, Nk.nrValues, Nk.vallist, Nk.sk, Nk.maxVkNameLen] at *
        omega
      · simp only [Nk.nrValues, Nk.sk, Nk.maxVkNameLen] at *
        omega
    exact ⟨c, found, fixed Nk.nrSubkeys (by decide), fixed Nk.subkeyLf (by decide), fixed Nk.sk (by decide)⟩
  · intro there
    rw [alive]
    exact there
  · intro b isList
    rcases isList with isLf | isRi
    · apply moves.same typed isLf
      · exact fun written => quiet.writes b (typed.bounds b _ isLf).2 _ isLf written
      · intro freed
        obtain ⟨_, never⟩ := quiet.frees b _ freed
        exact never
    · apply moves.same typed isRi
      · exact fun written => quiet.writes b (typed.bounds b _ isRi).2 _ isRi written
      · intro freed
        obtain ⟨_, never⟩ := quiet.frees b _ freed
        exact never

/-- A call that changes no key but for its values keeps the tree and the counts. -/
theorem Tree.quiet (tree : Tree sure clean h roles nodes keys) (rooted : Rooted k roles')
    (moves : Moves scope roles h roles' k) (quiet : ValuesOnly scope h roles) : Tree sure clean k roles' nodes keys := by
  have typed := tree.toTyped
  have same : ∀ n up, roles n = some (.nk up) → SameLists h roles k n := fun n up tagged =>
    quiet.sameLists typed moves tagged
  have stays : TreeStays h roles k roles' := by
    refine ⟨⟨typed, rooted.toTyped, moves.grows⟩, moves.keeps.rootoffs, same, fun n up untagged tagged => ?_⟩
    obtain ⟨p, -, bears⟩ := moves.newKey untagged tagged
    exact absurd bears (quiet.bears p)
  apply stays.tree tree rooted
  · apply tree.toReferenced.same stays.toLater fun s isSk => moves.oldSk isSk
    · intro s isSk
      apply moves.same typed isSk
      · exact fun written => quiet.writes s (typed.bounds s _ isSk).2 _ isSk written
      · intro freed
        obtain ⟨_, never⟩ := quiet.frees s _ freed
        exact never
    · intro n member
      obtain ⟨⟨up, tagged⟩, -⟩ := tree.used n member
      exact (same n up tagged).sameSk
  · exact fun n member => member
  · exact fun _ n member => member

end Stays

section Adding
variable {sure : Nat → Prop} {clean : Prop} {h k : Hive} {roles roles' : Roles} {nodes keys blocks kids : List Nat}
  {n node parent : Nat} {up : Option Nat} {name : CString} {c : Cell}

theorem SameLists.of_same (key : k.cell n = h.cell n)
    (lists : ∀ b, roles b = some (.lf n) ∨ roles b = some (.ri n) → k.cell b = h.cell b) : SameLists h roles k n := by
  constructor
  · intro c' found'
    exact ⟨c', key ▸ found', rfl, rfl, rfl⟩
  · rw [key]
    exact id
  · exact lists

/-- An add that fails leaves the tree as it was. A key that it has left may be counted. -/
theorem Tree.leftover (tree : Tree sure clean h roles nodes keys) (rooted : Rooted k roles')
    (moves : Moves (childScope h.frontier parent) roles h roles' k) (left : Leftover roles h parent name roles' k)
    (unclean : ¬clean) : ∃ keys', Tree sure clean k roles' nodes keys' := by
  have typed := tree.toTyped
  have unchanged : ∀ b role, roles b = some role → role ≠ .sk → k.cell b = h.cell b := by
    intro b role tagged notSk
    apply left.others b (typed.bounds b role tagged).2
    rw [tagged]
    exact fun isSk => notSk (Option.some.inj isSk)
  have same : ∀ n up, roles n = some (.nk up) → SameLists h roles k n := by
    intro n up tagged
    apply SameLists.of_same (unchanged n _ tagged (by simp))
    intro b isList
    rcases isList with isLf | isRi
    · exact unchanged b _ isLf (by simp)
    · exact unchanged b _ isRi (by simp)
  have later : Later h roles k roles' := ⟨typed, rooted.toTyped, moves.grows⟩
  have stays : TreeStays h roles k roles' := by
    refine ⟨later, moves.keeps.rootoffs, same, fun n up untagged tagged => ?_⟩
    cases found : k.cell n with
    | none => exact KeyListed.none found
    | some d => exact (left.keys n up d untagged tagged found).listed found
  have sameSk : ∀ n ∈ keys, SameSk h k n := by
    intro n member
    obtain ⟨⟨up, tagged⟩, -⟩ := tree.used n member
    exact (same n up tagged).sameSk
  rcases left.security with sks | ⟨node, isNode, alive, inherits⟩
  · refine ⟨keys, stays.tree tree rooted ?_ (fun n member => member) fun isClean => absurd isClean unclean⟩
    exact tree.toReferenced.same later (fun s isSk => moves.oldSk isSk) sks sameSk
  · refine ⟨node :: keys, stays.tree tree rooted ?_ (fun n member => List.mem_cons_of_mem _ member)
      fun isClean => absurd isClean unclean⟩
    exact tree.toReferenced.inherits later (fun s isSk => moves.oldSk isSk) sameSk inherits isNode alive

/-- A key that gets no child has the same lists. -/
theorem Moves.sameLists (moves : Moves (childScope h.frontier parent) roles h roles' k) (typed : Typed h roles)
    (tagged : roles n = some (.nk up)) (other : n ≠ parent) : SameLists h roles k n := by
  have outside : ∀ b role, roles b = some role → role.owner b = some n → k.cell b = h.cell b := by
    intro b role isRole owned
    have bounds := (typed.bounds b role isRole).2
    apply moves.same typed isRole
    · rintro (new | ⟨rfl, isKey⟩ | rfl | rfl)
      · omega
      · cases role with
        | nk g => exact other (Option.some.inj owned).symm
        | _ => exact isKey.elim
      · exact other (Option.some.inj owned).symm
      · cases owned
    · rintro rfl
      exact other (Option.some.inj owned).symm
  apply SameLists.of_same (outside n _ tagged rfl)
  intro b isList
  rcases isList with isLf | isRi
  · exact outside b _ isLf rfl
  · exact outside b _ isRi rfl

/-- The keys of the parent before and after one has been added. -/
theorem Added.kids_around (added : Added h k parent node c name blocks kids) (typed : Typed h roles)
    (typed' : Typed k roles') (found : h.cell parent = some c) (listed : KeyListed h parent) :
    ∃ front back, h.cell.kids parent = front ++ back ∧ k.cell.kids parent = front ++ node :: back := by
  obtain ⟨c', ris, lfs, found', -, lists, -, -, -, front, back, isKids, after⟩ := added.lists
  refine ⟨front, back, ?_, ?_⟩
  · rw [← isKids]
    rcases added.old with ⟨childless, -, rfl⟩ | ⟨ris, lfs, before, -, rfl, -⟩
    · have count := listed.counted c found
      rw [childless] at count
      exact List.length_eq_zero_iff.mp count
    · rw [Cells.kids, before.listsOf typed found]
  · rw [Cells.kids, lists.listsOf typed' found', after]

/-- The parent names its children and the new one. -/
theorem Added.keyListed (added : Added h k parent node c name blocks kids) (typed : Typed h roles)
    (typed' : Typed k roles') (moves : Moves (childScope h.frontier parent) roles h roles' k)
    (tagged : roles parent = some (.nk up)) (found : h.cell parent = some c) (listed : KeyListed h parent) :
    KeyListed k parent := by
  obtain ⟨front, back, before, after⟩ := added.kids_around typed typed' found listed
  obtain ⟨c', ris, lfs, found', grown, lists, -⟩ := added.lists
  have count := listed.counted c found
  have once := listed.once
  rw [before] at count once
  have fresh : node ∉ front ++ back := by
    intro member
    rw [← before] at member
    have isKid := typed.kidTagged tagged member (listed.alive node member)
    have bounds := (typed.bounds node _ isKid).2
    have new := added.fresh
    omega
  constructor
  · intro d there
    rw [found'] at there
    cases there
    have few := added.few
    rw [after, grown.nrSubkeys]
    simp only [hiveMaxSubkeys] at few
    simp only [List.length_append, List.length_cons] at count ⊢
    omega
  · rw [after, List.nodup_middle, List.nodup_cons]
    exact ⟨fresh, once⟩
  · intro b member
    rw [lists.listsOf typed' found'] at member
    obtain ⟨l, there, -⟩ := lists.leaves b member
    rw [there]
    rfl
  · intro x member
    rw [after, List.mem_append, List.mem_cons] at member
    have old : x ∈ front ++ back → (k.cell x).isSome := by
      intro inOld
      rw [← before] at inOld
      have isKid := typed.kidTagged tagged inOld (listed.alive x inOld)
      rw [moves.alive typed isKid (by simp [childScope])]
      exact listed.alive x inOld
    rcases member with first | rfl | last
    · exact old (List.mem_append_left _ first)
    · obtain ⟨d, there, -⟩ := added.record
      rw [there]
      rfl
    · exact old (List.mem_append_right _ last)

/-- An add that succeeds makes the tree larger by one leaf. -/
theorem Tree.added (tree : Tree sure clean h roles nodes keys) (rooted : Rooted k roles')
    (moves : Moves (childScope h.frontier parent) roles h roles' k) (key : KeyAdded roles h parent node name roles' k)
    (added : Added h k parent node c name blocks kids) (found : h.cell parent = some c) (inside : parent ∈ nodes) :
    Tree sure clean k roles' (node :: nodes) (node :: keys) := by
  have typed := tree.toTyped
  have typed' := rooted.toTyped
  have later : Later h roles k roles' := ⟨typed, typed', moves.grows⟩
  obtain ⟨up, tagged⟩ := tree.tagged inside
  have listed := tree.listed parent up tagged
  obtain ⟨d, here, blank⟩ := key.record
  have same : ∀ n up, roles n = some (.nk up) → n ≠ parent → SameLists h roles k n := fun n up isNk other =>
    moves.sameLists typed isNk other
  have fresh : node ∉ nodes := by
    intro member
    obtain ⟨g, isNk⟩ := tree.tagged member
    have bounds := (typed.bounds _ _ isNk).2
    have new := key.fresh
    omega
  have grows : Grows h.cell.kids k.cell.kids nodes parent node := by
    refine ⟨fresh, added.kids_around typed typed' found listed, blank.kids here, fun n member other => ?_⟩
    obtain ⟨g, isNk⟩ := tree.tagged member
    exact later.kids isNk (same n g isNk other)
  have sameSk : ∀ n ∈ keys, SameSk h k n := by
    intro n member
    obtain ⟨⟨g, isNk⟩, -⟩ := tree.used n member
    by_cases isParent : n = parent
    · subst isParent
      intro d there
      rw [found] at there
      cases there
      obtain ⟨c', ris, lfs, found', grown, -⟩ := added.lists
      exact ⟨c', found', grown.kept 4 Nk.sk (Or.inr (Or.inl ⟨by decide, by decide⟩))⟩
    · exact (same n g isNk isParent).sameSk
  constructor
  · exact rooted
  · exact tree.toReferenced.inherits later (fun s isSk => moves.oldSk isSk) sameSk key.toInherits key.role key.alive
  · intro n g isNk'
    cases isNk : roles n with
    | none =>
        rw [key.only n g isNk isNk']
        exact blank.listed here
    | some role =>
        have still := moves.grows n role isNk
        rw [isNk'] at still
        cases still
        by_cases isParent : n = parent
        · subst isParent
          exact added.keyListed typed typed' moves tagged found listed
        · apply later.keyListed isNk (same n g isNk isParent) (tree.listed n g isNk)
          intro b member there
          have isKid := typed.kidTagged isNk member there
          rw [moves.alive typed isKid (by simp [childScope])]
          exact there
  · rw [moves.keeps.rootoffs]
    exact tree.members.grow grows inside
  · intro n member
    exact List.mem_cons.mpr ((List.mem_cons.mp member).imp_right (tree.inKeys n))
  · intro isClean n member
    exact List.mem_cons.mpr ((List.mem_cons.mp member).imp_right (tree.exact isClean n))

end Adding

section Deleting
variable {sure : Nat → Prop} {clean : Prop} {h g : Hive} {roles : Roles} {nodes keys gone ris lfs : List Nat}
  {n node p k b : Nat} {up : Option Nat} {c : Cell}

theorem Tree.kidTagged (tree : Tree sure clean h roles nodes keys) (tagged : roles n = some (.nk up))
    (member : k ∈ h.cell.kids n) : roles k = some (.nk (some n)) :=
  tree.toTyped.kidTagged tagged member ((tree.listed n up tagged).alive k member)

theorem Tree.single (tree : Tree sure clean h roles nodes keys) : Single h.cell.kids nodes := by
  intro m inside n inside' k member member'
  obtain ⟨up, tagged⟩ := tree.tagged inside
  obtain ⟨up', tagged'⟩ := tree.tagged inside'
  have first := tree.kidTagged tagged member
  rw [tree.kidTagged tagged' member'] at first
  cases first
  rfl

theorem Tree.counted (tree : Tree sure clean h roles nodes keys) : Counted h roles :=
  fun n up c tagged found => (tree.listed n up tagged).counted c found

/-- A key of the tree is the root, or its parent names it. -/
theorem Tree.parent_names (tree : Tree sure clean h roles nodes keys) (inside : k ∈ nodes)
    (isKid : roles k = some (.nk (some p))) : p ∈ nodes ∧ k ∈ h.cell.kids p := by
  rcases Relation.ReflTransGen.cases_tail ((tree.members.exactly k).mp inside) with rfl | ⟨m, above, member⟩
  · rw [tree.root] at isKid
    cases isKid
  · have inTree := (tree.members.exactly m).mpr above
    obtain ⟨up, tagged⟩ := tree.tagged inTree
    have parent := tree.kidTagged tagged member
    rw [isKid] at parent
    cases parent
    exact ⟨inTree, member⟩

/-- A key that is deleted with others is the top one, or its parent is deleted as well. -/
theorem Tree.parent_gone (tree : Tree sure clean h roles nodes keys) (inside : node ∈ nodes)
    (below : InSubtree h.cell node k) (isKid : roles k = some (.nk (some p))) :
    k = node ∨ InSubtree h.cell node p := by
  rcases Relation.ReflTransGen.cases_tail below with same | ⟨m, above, member⟩
  · exact Or.inl same
  · obtain ⟨up, tagged⟩ := tree.tagged (tree.members.below inside above)
    have parent := tree.kidTagged tagged member
    rw [isKid] at parent
    cases parent
    exact Or.inr above

-- Blocks of the keys that stay, but for the parent and its lists.
theorem ChildDeleted.unchanged (deleted : ChildDeleted roles h g node p gone c ris lfs) (typed : Typed h roles)
    (tagged : roles p = some (.nk up)) (notGone : n ∉ gone) (other : n ≠ p) (owned : OwnedBy roles n b) :
    g.cell b = h.cell b := by
  obtain ⟨k, walked, -, others⟩ := deleted.erased
  rw [others b, walked.same notGone owned]
  · rintro rfl
    exact other (owned.unique (OwnedBy.nk tagged))
  · intro inLfs
    exact other (owned.unique (deleted.before.owned typed tagged deleted.found b (List.mem_append_right _ inLfs)))

theorem ChildDeleted.sameLists (deleted : ChildDeleted roles h g node p gone c ris lfs) (typed : Typed h roles)
    (tagged : roles p = some (.nk up)) (isNk : ∃ top, roles n = some (.nk top)) (notGone : n ∉ gone) (other : n ≠ p) :
    SameLists h roles g n := by
  obtain ⟨top, isNk⟩ := isNk
  apply SameLists.of_same (deleted.unchanged typed tagged notGone other (OwnedBy.nk isNk))
  intro b isList
  apply deleted.unchanged typed tagged notGone other
  rcases isList with isLf | isRi
  · exact ⟨_, isLf, rfl⟩
  · exact ⟨_, isRi, rfl⟩

theorem ChildDeleted.dead (deleted : ChildDeleted roles h g node p gone c ris lfs) (goes : n ∈ gone) :
    g.cell n = none := by
  obtain ⟨k, walked, alive, -⟩ := deleted.erased
  have none := alive n
  rw [walked.owned n goes n Owns.node] at none
  exact Option.isNone_iff_eq_none.mp (Option.isSome_eq_false_iff.mp none)

theorem ChildDeleted.kids_around (deleted : ChildDeleted roles h g node p gone c ris lfs) (typed : Typed h roles)
    (once : (h.cell.kids p).Nodup) :
    ∃ front back, h.cell.kids p = front ++ node :: back ∧ g.cell.kids p = front ++ back := by
  have before : h.cell.kids p = lfs.flatMap h.cell.keysOf := by
    rw [Cells.kids, deleted.before.listsOf typed deleted.found]
  rw [before] at once ⊢
  rw [deleted.kidsAfter.2]
  exact deleted.keys once

/-- The parent names its other children. -/
theorem ChildDeleted.keyListed (deleted : ChildDeleted roles h g node p gone c ris lfs) (typed : Typed h roles)
    (listed : KeyListed h p) (stay : ∀ x ∈ h.cell.kids p, x ≠ node → (h.cell x).isSome → (g.cell x).isSome) :
    KeyListed g p := by
  obtain ⟨front, back, before, after⟩ := deleted.kids_around typed listed.once
  have count := listed.counted c deleted.found
  have once := listed.once
  rw [before, List.nodup_middle, List.nodup_cons] at once
  rw [before] at count
  constructor
  · intro d there
    rw [deleted.here] at there
    cases there
    rw [after, Cell.countLess_count deleted.proper, ← count]
    simp only [List.length_append, List.length_cons]
    omega
  · rw [after]
    exact once.2
  · intro b member
    rw [deleted.kidsAfter.1.listsOf deleted.kept.toTyped deleted.here] at member
    obtain ⟨l, there, -⟩ := deleted.kidsAfter.1.leaves b member
    rw [there]
    rfl
  · intro x member
    rw [after] at member
    have inOld : x ∈ h.cell.kids p := by
      rw [before, List.mem_append, List.mem_cons]
      exact (List.mem_append.mp member).imp_right Or.inr
    apply stay x inOld
    · rintro rfl
      exact once.1 member
    · exact listed.alive x inOld

/-- A delete that succeeds takes the key and all below it out of the tree. -/
theorem Tree.deleted (tree : Tree sure clean h roles nodes keys) (rooted : Rooted g roles)
    (deleted : ChildDeleted roles h g node p gone c ris lfs) (isNode : roles node = some (.nk (some p)))
    (inside : node ∈ nodes) :
    Tree sure clean g roles (nodes.filter (· ∉ gone)) (keys.filter (· ∉ gone)) := by
  have typed := tree.toTyped
  have later : Later h roles g roles := ⟨typed, rooted.toTyped, Extends.refl roles⟩
  have exactly := deleted.exactly tree.counted
  obtain ⟨inTree, -⟩ := tree.parent_names inside isNode
  obtain ⟨up, tagged⟩ := tree.tagged inTree
  have listed := tree.listed p up tagged
  have within : ∀ n ∈ gone, n ∈ nodes := fun n goes => tree.members.below inside ((exactly n).mp goes)
  have kidStays : ∀ m, m ∉ gone → ∀ x, roles x = some (.nk (some m)) → x ≠ node → x ∉ gone := by
    intro m notGone x isKid other goes
    rcases tree.parent_gone inside ((exactly x).mp goes) isKid with same | above
    · exact other same
    · exact notGone ((exactly m).mpr above)
  have stays : ∀ x, x ∉ gone → (∃ top, roles x = some (.nk top)) → (h.cell x).isSome → (g.cell x).isSome := by
    intro x notGone isNk there
    by_cases isParent : x = p
    · rw [isParent, deleted.here]
      rfl
    · exact (deleted.sameLists typed tagged isNk notGone isParent).stays there
  have listedAfter : ∀ n top, roles n = some (.nk top) → KeyListed g n := by
    intro n top isNk
    by_cases goes : n ∈ gone
    · exact KeyListed.none (deleted.dead goes)
    by_cases isParent : n = p
    · subst isParent
      apply deleted.keyListed typed listed
      intro x member other there
      have isKid := tree.kidTagged isNk member
      exact stays x (kidStays n goes x isKid other) ⟨_, isKid⟩ there
    · apply later.keyListed isNk (deleted.sameLists typed tagged ⟨_, isNk⟩ goes isParent) (tree.listed n top isNk)
      intro x member there
      have role := tree.kidTagged isNk member
      have other : x ≠ node := by
        rintro rfl
        rw [isNode] at role
        cases role
        exact isParent rfl
      exact stays x (kidStays n goes x role other) ⟨_, role⟩ there
  have prunes : Prunes h.cell.kids g.cell.kids nodes p node gone := by
    refine ⟨exactly, deleted.parentKept, deleted.kids_around typed listed.once, fun n member other notGone => ?_⟩
    obtain ⟨top, isNk⟩ := tree.tagged member
    exact later.kids isNk (deleted.sameLists typed tagged ⟨_, isNk⟩ notGone other)
  have rootStays : h.rootoffs ∉ gone := by
    intro goes
    rcases Relation.ReflTransGen.cases_tail ((exactly _).mp goes) with same | ⟨m, above, member⟩
    · rw [← same, tree.root] at isNode
      cases isNode
    · obtain ⟨top, isNk⟩ := tree.tagged (tree.members.below inside above)
      have role := tree.kidTagged isNk member
      rw [tree.root] at role
      cases role
  have referenced : Referenced sure g roles (keys.filter (· ∉ gone)) := by
    obtain ⟨k, walked, -, others⟩ := deleted.erased
    apply tree.toReferenced.prune typed walked fun n goes => tree.inKeys n (within n goes)
    · intro s isSk
      apply others s
      · rintro rfl
        rw [tagged] at isSk
        cases isSk
      · intro inLfs
        have owned := deleted.before.owned typed tagged deleted.found s (List.mem_append_right _ inLfs)
        exact owned.not_sk isSk
    · intro n member notGone
      by_cases isParent : n = p
      · subst isParent
        intro d there
        rw [deleted.found] at there
        cases there
        exact ⟨_, deleted.here, Cell.countLess_get (Or.inr (by decide))⟩
      · exact (deleted.sameLists typed tagged (tree.used n member).1 notGone isParent).sameSk
  constructor
  · exact rooted
  · exact referenced
  · exact listedAfter
  · rw [deleted.keeps.rootoffs]
    exact tree.members.prune prunes tree.single listed.once inTree rootStays
  · intro n member
    rw [List.mem_filter] at member ⊢
    exact ⟨tree.inKeys n member.1, member.2⟩
  · intro isClean n member
    rw [List.mem_filter] at member ⊢
    exact ⟨tree.exact isClean n member.1, member.2⟩

end Deleting

end Hivex
