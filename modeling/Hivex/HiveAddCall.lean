import Hivex.HiveValueCalls
import Hivex.HiveDeleteWalk

/-! The call that adds a key, under the contract of every call. Where it returns an error,
nothing of the image has changed but the count of one security record. -/
namespace Hivex

open ByteMemory Commands StoreTyping GhostRuns

/-- The words of a key about its subkeys. -/
def childWords (i : Nat) : Prop :=
  Nk.nrSubkeys ≤ i ∧ i < Nk.nrSubkeys + 4 ∨ Nk.subkeyLf ≤ i ∧ i < Nk.subkeyLf + 4 ∨
    Nk.maxSubkeyNameLen ≤ i ∧ i < Nk.maxSubkeyNameLen + 2

theorem childWords_link {i : Nat} (changed : childWords i) : linkFields i := by
  simp only [childWords, linkFields, Nk.nrSubkeys, Nk.subkeyLf, Nk.maxSubkeyNameLen] at *
  omega

theorem childWords_count {k : Nat} (inside : k < 4) : childWords (Nk.nrSubkeys + k) := Or.inl ⟨by omega, by omega⟩

theorem childWords_list {k : Nat} (inside : k < 4) : childWords (Nk.subkeyLf + k) := Or.inr (Or.inl ⟨by omega, by omega⟩)

theorem childWords_max {k : Nat} (inside : k < 2) : childWords (Nk.maxSubkeyNameLen + k) :=
  Or.inr (Or.inr ⟨by omega, by omega⟩)

/-- A call that adds a child to `parent` writes to blocks from `fresh` on, to the parent with its
ri-record and to security records. It frees one list. -/
def childScope (fresh parent : Nat) : Scope where
  writes := fun b role => fresh ≤ b ∨ b = parent ∧ role.isKey ∨ role = .ri parent ∨ role = .sk
  frees := fun _ role => role = .lf parent
  makes := fun b => fresh ≤ b
  bears := fun p => p = parent
  fields := childWords

/-- The part of the call that links the new key changes no old key but the parent, and no security record. -/
def linkScope (fresh parent : Nat) : Scope where
  writes := fun b role => fresh ≤ b ∨ b = parent ∧ role.isKey ∨ role = .ri parent
  frees := fun _ role => role = .lf parent
  makes := fun b => fresh ≤ b
  bears := fun _ => False
  fields := childWords

theorem Moves.links {fresh fresh' parent : Nat} {roles roles' : Roles} {h h' : Hive} (since : fresh ≤ fresh')
    (moves : Moves (linkScope fresh' parent) roles h roles' h') : Moves (childScope fresh parent) roles h roles' h' := by
  apply moves.widen
  · intro b _ role _
    constructor
    · rintro (new | isParent | isRi)
      · exact Or.inl (since.trans new)
      · exact Or.inr (Or.inl isParent)
      · exact Or.inr (Or.inr (Or.inl isRi))
    · exact fun isLf => isLf
  · exact fun b _ made => since.trans made
  · exact fun _ never => never.elim
  · exact fun _ changed => changed

/-- The cell of a security record that counts one reference more. -/
def Cell.countMore (s : Cell) : Cell := s.put32 Sk.refcount (s.get32 Sk.refcount + 1)

/-- `h` has become `g`, with nothing of the old blocks changed but the count of the security
record of `parent`. -/
structure Spared (roles : Roles) (h : Hive) (parent : Nat) (g : Hive) : Prop where
  others : ∀ b < h.frontier, roles b ≠ some .sk → g.cell b = h.cell b
  counts : ∀ b, roles b = some .sk → g.cell b = h.cell b ∨ ∃ c s, h.cell parent = some c ∧
    b = c.get32 Nk.sk + 0x1000 ∧ h.cell b = some s ∧ g.cell b = some s.countMore

section Reading
variable {h : Hive} {roles : Roles} {node : Nat} {parent : Option Nat} {name : CString}

theorem zeroOnError_ends {query : Reader Nat} {values : Nat → Prop} {stops : Stop → Prop}
    (result : Ends (query h.view) values Coded) :
    Ends (zeroOnError query h.view) (fun n => n = 0 ∨ values n) stops := by
  unfold zeroOnError
  cases found : query h.view with
  | ok value =>
      rw [found] at result
      exact Or.inr result
  | error reason =>
      rw [found] at result
      obtain ⟨code, rfl⟩ := result
      exact Or.inl rfl

theorem hivexNodeName_tagged (typed : Typed h roles) (tagged : roles node = some (.nk parent)) :
    Ends (hivexNodeName node h.view) (fun _ => True) Coded := by
  cases found : h.cell node with
  | none =>
      unfold hivexNodeName
      rw [bind_query, requireBlock_none found]
      exact coded _
  | some c => exact (hivexNodeName_typed typed tagged found).mono (fun _ _ => trivial) fun _ stopped => stopped

theorem firstNamed_tagged {nameOf : Nat → Reader (List UInt8)} {xs : List Nat}
    (each : ∀ x ∈ xs, Ends (nameOf x h.view) (fun _ => True) Coded) :
    Ends (firstNamed nameOf name xs h.view) (fun found => found = 0 ∨ found ∈ xs) Coded := by
  induction xs with
  | nil => exact Or.inl rfl
  | cons x xs ih =>
      apply (each x (by simp)).seq
      intro bytes _
      split
      · exact Or.inr (by simp)
      · apply (ih fun y member => each y (List.mem_cons_of_mem x member)).mono
        · exact fun found isFound => isFound.imp_right (List.mem_cons_of_mem x)
        · exact fun _ stopped => stopped

theorem hivexNodeChildren_tagged (typed : Typed h roles) (tagged : roles node = some (.nk parent)) :
    Ends (hivexNodeChildren node h.view)
      (fun children => ∀ k ∈ children, roles k = some (.nk (some node)) ∧ (h.cell k).isSome) Coded := by
  cases found : h.cell node with
  | none =>
      unfold hivexNodeChildren getChildren
      rw [bind_query, bind_query, requireBlock_none found]
      exact coded _
  | some c =>
      have reads := getChildren_typed typed tagged found false
      cases read : hivexNodeChildren node h.view with
      | ok children => exact fun k member => typed.childTagged tagged found read member
      | error reason =>
          unfold hivexNodeChildren at read
          rw [bind_query] at read
          cases got : getChildren node false h.view with
          | ok result =>
              rw [got] at read
              cases read
          | error reason' =>
              rw [got] at read reads
              cases read
              exact reads

theorem hivexNodeGetChild_tagged (typed : Typed h roles) (tagged : roles node = some (.nk parent)) (name : CString) :
    Ends (hivexNodeGetChild node name h.view)
      (fun k => k = 0 ∨ roles k = some (.nk (some node)) ∧ (h.cell k).isSome) Coded := by
  have found : Ends ((hivexNodeChildren node >>= firstNamed hivexNodeName name) h.view)
      (fun k => k = 0 ∨ roles k = some (.nk (some node)) ∧ (h.cell k).isSome) Coded := by
    apply (hivexNodeChildren_tagged typed tagged).seq
    intro children each
    apply (firstNamed_tagged fun k member => hivexNodeName_tagged typed (each k member).1).mono
    · exact fun k found => found.imp_right (each k)
    · exact fun _ stopped => stopped
  apply (zeroOnError_ends found).mono
  · exact fun k found => found.elim Or.inl id
  · exact fun _ stopped => stopped

end Reading

section Records
variable {roles : Roles} {b parent len : Nat} {c c' : Cell} {name : CString} {up : Option Nat}

/-- The words of a new record that lead elsewhere. -/
theorem nkCell_links (len parent : Nat) (name : CString) :
    (nkCell len parent name).get32 Nk.subkeyLf = 0xffffffff ∧ (nkCell len parent name).get32 Nk.vallist = 0xffffffff ∧
      (nkCell len parent name).get32 Nk.sk = 0 ∧ (nkCell len parent name).get32 Nk.classname = 0xffffffff := by
  have zero : ∀ n j, 6 ≤ j → (freshCell len Nk.id).get n j = 0 := fun n j behind => freshCell_zero j n behind
  have named : ∀ j, j + 4 ≤ Nk.nameLen → (nkCell len parent name).get 4 j =
      ((((((freshCell len Nk.id).put16 Nk.flags 0x0020).put32 Nk.parent parent).put32 Nk.subkeyLf
        0xffffffff).put32 Nk.subkeyLfVolatile 0xffffffff).put32 Nk.vallist 0xffffffff |>.put32
        Nk.classname 0xffffffff).get 4 j := by
    intro j before
    unfold nkCell
    rw [Cell.get_blit _ (Or.inl (before.trans (by decide))), Cell.get_put _ (Or.inl before)]
  refine ⟨?_, ?_, ?_, ?_⟩
  · rw [Cell.get32, named _ (by decide)]
    simp (disch := decide) only [Cell.get_put]
    exact Cell.get_put_same _ 4 Nk.subkeyLf 0xffffffff
  · rw [Cell.get32, named _ (by decide)]
    simp (disch := decide) only [Cell.get_put]
    exact Cell.get_put_same _ 4 Nk.vallist 0xffffffff
  · rw [Cell.get32, named _ (by decide)]
    simp (disch := decide) only [Cell.get_put, zero]
  · rw [Cell.get32, named _ (by decide)]
    exact Cell.get_put_same _ 4 Nk.classname 0xffffffff

theorem nkCell_typed (room : Nk.sizeof + name.strlen ≤ len) (low : 0x1000 ≤ parent) (small : parent < 2 ^ 32) :
    NkTyped roles b (some parent) (nkCell len (parent - 0x1000) name) := by
  have new : NkNew (parent - 0x1000) name (nkCell len (parent - 0x1000) name) := nkCell_new room
  obtain ⟨list, values, sk, classname⟩ := nkCell_links len (parent - 0x1000) name
  constructor
  · have long := new.len
    simp only [Nk.sizeof] at long
    omega
  · exact new.id
  · exact fun top => by cases top
  · intro q isParent
    obtain rfl := Option.some.inj isParent
    rw [new.parent]
    omega
  · exact Or.inl (Or.inl (Or.inr list))
  · exact Or.inl (Or.inr values)
  · exact Or.inl (Or.inl sk)
  · exact Or.inl (Or.inr classname)

/-- A record of a key fits with another security record or another list of subkeys. -/
theorem NkTyped.putLink (fits : NkTyped roles b up c) {i w : Nat} (small : w < 2 ^ 32)
    (link : i = Nk.sk ∧ roles (w + 0x1000) = some .sk ∨ i = Nk.subkeyLf ∧ roles (w + 0x1000) = some (.lf b)) :
    NkTyped roles b up (c.put32 i w) := by
  have same : ∀ j, j + 4 ≤ i ∨ i + 4 ≤ j → (c.put32 i w).get32 j = c.get32 j := fun j apart => Cell.get_put c apart
  have own : (c.put32 i w).get32 i = w := by
    rw [Cell.get32, Cell.get_put_same]
    omega
  have place : i = Nk.sk ∨ i = Nk.subkeyLf := link.imp And.left And.left
  constructor
  · exact fits.len
  · exact (Cell.id_put c (by rcases place with rfl | rfl <;> decide)).trans fits.id
  · rw [same Nk.parent (by rcases place with rfl | rfl <;> decide)]
    exact fits.top
  · rw [same Nk.parent (by rcases place with rfl | rfl <;> decide)]
    exact fits.parent
  · rcases link with ⟨rfl, -⟩ | ⟨rfl, isList⟩
    · rw [same Nk.subkeyLf (by decide)]
      exact fits.list
    · rw [own]
      exact Or.inl (Or.inr isList)
  · rw [same Nk.vallist (by rcases place with rfl | rfl <;> decide),
      same Nk.nrValues (by rcases place with rfl | rfl <;> decide)]
    exact fits.values
  · rcases link with ⟨rfl, isSk⟩ | ⟨rfl, -⟩
    · rw [own]
      exact Or.inr isSk
    · rw [same Nk.sk (by decide)]
      exact fits.sk
  · rw [same Nk.classname (by rcases place with rfl | rfl <;> decide)]
    exact fits.classname

/-- The record of a key without subkeys, values and class name. -/
structure Blank (parent : Nat) (name : CString) (c : Cell) : Prop extends NkNew (parent - 0x1000) name c where
  subkeyLf : c.get32 Nk.subkeyLf = 0xffffffff
  vallist : c.get32 Nk.vallist = 0xffffffff
  classname : c.get32 Nk.classname = 0xffffffff

theorem nkCell_blank (room : Nk.sizeof + name.strlen ≤ len) : Blank parent name (nkCell len (parent - 0x1000) name) := by
  obtain ⟨list, values, -, classname⟩ := nkCell_links len (parent - 0x1000) name
  exact ⟨nkCell_new room, list, values, classname⟩

theorem Blank.put (blank : Blank parent name c) {n i v : Nat} (place : i = Nk.sk ∧ n = 4 ∨ i = Nk.timestamp ∧ n = 8) :
    Blank parent name (c.put n i v) := by
  have kept : ∀ j, 16 ≤ j ∧ j + 4 ≤ Nk.sk ∨ 52 ≤ j → (c.put n i v).get 4 j = c.get 4 j := by
    intro j apart
    apply Cell.get_put
    rcases place with ⟨rfl, rfl⟩ | ⟨rfl, rfl⟩ <;> simp only [Nk.sk, Nk.timestamp] at * <;> omega
  constructor
  · exact blank.toNkNew.put place
  · exact (kept Nk.subkeyLf (by decide)).trans blank.subkeyLf
  · exact (kept Nk.vallist (by decide)).trans blank.vallist
  · exact (kept Nk.classname (by decide)).trans blank.classname

end Records

section Preparing
variable {host : Host} {scope : Scope} {h : Hive} {roles : Roles} {fresh parent node : Nat} {c d s : Cell}
  {name : CString} {up : Option Nat} {onError : Roles → Hive → Prop}

/-- The record of the new key gets its role. -/
theorem Kept.newNkRecord (kept : Kept h roles) (below : host.Below4G) (tagged : roles parent = some (.nk up))
    (found : h.cell parent = some c) (bears : scope.bears parent) (fails : onError roles h) :
    Promises host scope roles (Hivex.newNkRecord host parent name)
      (fun node roles' h' => roles' = Function.update roles node (some (.nk (some parent))) ∧
        h.frontier ≤ node ∧ ∃ d, Wrote h h' node d ∧ Blank parent name d) onError h := by
  have bounds := kept.sound.cell_bounds found
  have small := kept.small
  apply wp_header kept.sound.newNkRecord_header
  apply wp_mono (newNkRecord_new parent name (kept.allocates scope below (by decide) fails))
  · rintro node h' ⟨first, len, room, wrote⟩ header
    have parental : ∀ top, Role.nk (some parent) = .nk top →
        ∃ q, top = some q ∧ scope.bears q ∧ ∃ g, roles q = some (.nk g) := by
      intro top same
      cases same
      exact ⟨parent, rfl, bears, up, tagged⟩
    obtain ⟨kept', moves⟩ := kept.placed wrote header first (by simp) parental (nkCell_typed room (by omega) (by omega))
    exact ⟨_, kept', moves, rfl, first, _, wrote, nkCell_blank room⟩
  · exact fun _ _ stopped => stopped

/-- A security record may count another number of references. -/
theorem Kept.countSk {w v : Nat} (kept : Kept h roles) (isSk : roles (w + 0x1000) = some .sk)
    (found : h.cell (w + 0x1000) = some s) (allowed : scope.writes (w + 0x1000) .sk) :
    Promises host scope roles (wr32 (w + 0x1000 + Sk.refcount) v)
      (fun _ roles' h' => roles' = roles ∧ Wrote h h' (w + 0x1000) (s.put32 Sk.refcount v)) onError h := by
  have spares : Spares 0 0x1000 (wr32 (w + 0x1000 + Sk.refcount) v) := Spares.wr (by omega)
  apply wp_header spares.header
  apply kept.toTyped.writesSk isSk found (by decide) (by decide)
  intro g typed wrote header
  obtain ⟨next, prev⟩ := wrote.links found
  have alive : ∀ t, roles t = some .sk → (g.cell t).isSome = (h.cell t).isSome := by
    intro t _
    by_cases here : t = w + 0x1000
    · rw [here, wrote.here, found]
      rfl
    · rw [wrote.others t here]
  have kept' := kept.relinked typed alive (fun t _ => by rw [next]) fun t _ => by rw [prev]
  have moves : Moves scope roles h roles g :=
    Moves.one wrote.keeps header isSk wrote.others (Or.inl allowed) (Or.inl (alive _ isSk)) (by simp)
  exact ⟨roles, kept', moves, rfl, wrote⟩

theorem Kept.inheritSk (kept : Kept h roles) (found : h.cell parent = some c) (tagged : roles parent = some (.nk up))
    (isNode : roles node = some (.nk (some parent))) (new : h.cell node = some d) (blank : Blank parent name d)
    (since : fresh ≤ node) (fails : onError roles h) :
    Promises host (childScope fresh parent) roles (Hivex.inheritSk parent node)
      (fun _ roles' h' => roles' = roles ∧
        (∃ d, h'.cell node = some d ∧ Blank parent name d ∧ d.get32 Nk.sk = c.get32 Nk.sk) ∧
        ∃ s, roles (c.get32 Nk.sk + 0x1000) = some .sk ∧ h.cell (c.get32 Nk.sk + 0x1000) = some s ∧
          h'.cell (c.get32 Nk.sk + 0x1000) = some s.countMore ∧
          ∀ x, x ≠ node → x ≠ c.get32 Nk.sk + 0x1000 → h'.cell x = h.cell x) onError h := by
  have fits := kept.toTyped.nk tagged found
  have long := fits.len
  unfold Hivex.inheritSk
  apply Runs.known (rd32_cell (i := Nk.sk) kept.sound found (by simp only [Nk.sk]; omega))
  dsimp only
  apply Runs.known (isValidBlock_view _)
  cases there : h.cell (c.get32 Nk.sk + 0x1000) with
  | none =>
      rw [valid_eq_isSome, there]
      exact kept.leaves .EFAULT fails
  | some s =>
  obtain ⟨isSk, skFits⟩ := kept.toTyped.follow fits.sk there
  have skLong := SkTyped.len skFits
  rw [(cell_some there).1, if_pos rfl]
  apply Runs.known (blockIdEq_cell kept.sound there _)
  rw [if_pos (decide_eq_true (SkTyped.id skFits))]
  apply Runs.known (rd32_cell (i := Sk.refcount) kept.sound there (by simp only [Sk.refcount]; omega))
  have apart : node ≠ c.get32 Nk.sk + 0x1000 := by
    intro same
    rw [← same, isNode] at isSk
    cases isSk
  have notParent : parent ≠ c.get32 Nk.sk + 0x1000 := by
    intro same
    rw [← same, tagged] at isSk
    cases isSk
  apply (kept.countSk isSk there (Or.inr (Or.inr (Or.inr rfl)))).bind
  rintro _ roles' h₁ kept₁ - ⟨rfl, counted⟩
  have new₁ := counted.found apart new
  have newFits := kept₁.toTyped.nk isNode new₁
  have newLong := newFits.len
  rw [Nat.add_sub_cancel]
  have link : NkTyped roles' node (some parent) (d.put32 Nk.sk (c.get32 Nk.sk)) :=
    newFits.putLink (c.get32_lt Nk.sk) (Or.inl ⟨rfl, isSk⟩)
  apply (kept₁.write isNode (by simp) new₁ (Or.inl since) (by decide)
    (by rw [leBytes_length]; simp only [Nk.sk]; omega) link fun _ _ => Or.inl since).bind
  rintro _ roles'' h₂ kept₂ - ⟨rfl, second⟩
  have parent₂ : ∃ p, h₂.cell parent = some p := by
    by_cases same : parent = node
    · exact ⟨_, same ▸ second.here⟩
    · exact ⟨c, second.found same (counted.found notParent found)⟩
  obtain ⟨p, found₂⟩ := parent₂
  have long₂ := (kept₂.toTyped.nk tagged found₂).len
  apply Runs.known (rd64_cell (i := Nk.timestamp) kept₂.sound found₂ (by simp only [Nk.timestamp]; omega))
  have stamped : NkTyped roles'' node (some parent) ((d.put32 Nk.sk (c.get32 Nk.sk)).put64
      Nk.timestamp (p.get64 Nk.timestamp)) := by
    have len : ((d.put32 Nk.sk (c.get32 Nk.sk)).put64 Nk.timestamp (p.get64 Nk.timestamp)).len = d.len := rfl
    apply link.alike len
    · exact Cell.id_put _ (by decide)
    · intro i member
      apply Cell.get_put
      simp only [List.mem_cons, List.not_mem_nil, or_false] at member
      rcases member with rfl | rfl | rfl | rfl | rfl | rfl <;> decide
  apply (kept₂.write isNode (by simp) second.here (Or.inl since) (by decide)
    (by rw [leBytes_length, Cell.blit_len]; simp only [Nk.timestamp]; omega) stamped fun _ _ => Or.inl since).mono
  rintro _ _ h₃ - - ⟨same, last⟩
  have filled : Blank parent name ((d.put32 Nk.sk (c.get32 Nk.sk)).put64 Nk.timestamp (p.get64 Nk.timestamp)) :=
    (blank.put (Or.inl ⟨rfl, rfl⟩)).put (Or.inr ⟨rfl, rfl⟩)
  have own : ((d.put32 Nk.sk (c.get32 Nk.sk)).put64 Nk.timestamp (p.get64 Nk.timestamp)).get32 Nk.sk =
      c.get32 Nk.sk := by
    have small := c.get32_lt Nk.sk
    rw [Cell.get32, Cell.get_put _ (Or.inr (by decide)), Cell.get_put_same]
    omega
  refine ⟨same, ⟨_, last.here, filled, own⟩, s, isSk, rfl, ?_, fun x other notSk => ?_⟩
  · rw [last.others _ apart.symm, second.others _ apart.symm, counted.here]
    rfl
  · rw [last.others x other, second.others x other, counted.others x notSk]

end Preparing

section Finding
variable {host : Host} {scope : Scope} {h : Hive} {roles : Roles} {owner parent b n : Nat} {c l : Cell}
  {name : CString} {blocks all : List Nat} {onError : Roles → Hive → Prop}

-- Every error code of the query is a value of the program.
theorem Promises.tryReads {α β : Type} {query : Reader α} {next : Except Errno α → Command β} {values : α → Prop}
    {final : β → Roles → Hive → Prop} (result : Ends (query h.view) values Coded)
    (good : ∀ value, values value → Promises host scope roles (next (.ok value)) final onError h)
    (bad : ∀ code, Promises host scope roles (next (.error code)) final onError h) :
    Promises host scope roles (Hivex.tryRead id query >>= next) final onError h := by
  unfold Promises Runs
  rw [wp_bind]
  apply (wp_attempt _ _ _).mpr
  apply (wp_look _ _ _).mpr
  apply result.mono
  · exact good
  · rintro reason ⟨code, rfl⟩
    exact bad code

theorem Promises.tryQuery {α β : Type} {query : Reader α} {next : Except Errno α → Command β}
    {final : β → Roles → Hive → Prop} (result : Ends (query h.view) (fun _ => True) Coded)
    (continues : ∀ result, Promises host scope roles (next result) final onError h) :
    Promises host scope roles (Hivex.tryRead id query >>= next) final onError h :=
  Promises.tryReads result (fun value _ => continues (.ok value)) fun code => continues (.error code)

theorem Kept.requireValid {β : Type} {next : Unit → Command β} {final : β → Roles → Hive → Prop} (kept : Kept h roles)
    (continues : ∀ c, h.cell b = some c → Promises host scope roles (next ()) final onError h) :
    Promises host scope roles (Hivex.requireValid b >>= next) final onError h := by
  have checked : Promises host scope roles (Hivex.requireValid b)
      (fun _ roles' h' => roles' = roles ∧ h' = h ∧ ∃ c, h.cell b = some c) onError h := by
    unfold Hivex.requireValid
    apply Runs.known (isValidBlock_view b)
    cases found : h.cell b with
    | none =>
        rw [valid_eq_isSome, found]
        exact Or.inl (Or.inr rfl)
    | some c =>
        rw [(cell_some found).1]
        exact kept.done _ ⟨rfl, rfl, c, rfl⟩
  apply checked.bind
  rintro _ roles' h' - - ⟨rfl, rfl, c, found⟩
  exact continues c found

/-- The names of the keys in the lists of a key can be compared. -/
theorem Kept.compareNameWithNkName (kept : Kept h roles) {w : Nat} (points : Points roles w (.nk (some owner))) :
    Promises host scope roles (Hivex.compareNameWithNkName name (w + 0x1000))
      (fun _ roles' h' => roles' = roles ∧ h' = h) onError h := by
  unfold Hivex.compareNameWithNkName
  apply kept.requireValid
  intro d found
  obtain ⟨tagged, fits⟩ := kept.toTyped.follow points found
  apply Runs.known (blockIdEq_cell kept.sound found _)
  apply Promises.assert
  intro _
  apply Promises.tryQuery (hivexNodeName_tagged kept.toTyped tagged)
  intro result
  cases result with
  | error code => exact kept.done _ ⟨rfl, rfl⟩
  | ok bytes => exact kept.done _ ⟨rfl, rfl⟩

theorem Kept.findGreater (kept : Kept h roles) (isList : roles b = some (.lf owner)) (found : h.cell b = some l)
    (js : List Nat) (inside : ∀ j ∈ js, j < l.get16 Lf.nrKeys) :
    Promises host scope roles (Hivex.findGreater name b js)
      (fun place roles' h' => roles' = roles ∧ h' = h ∧ ∀ j, place = some j → j ∈ js) onError h := by
  have fits : LfTyped roles owner l := kept.cells _ _ _ isList found
  have room := fits.len
  induction js with
  | nil => exact kept.done _ ⟨rfl, rfl, by simp⟩
  | cons j rest ih =>
      have before := inside j (by simp)
      unfold Hivex.findGreater
      apply Runs.known (rd32_cell (i := Lf.keyOffset j) kept.sound found (by simp only [Lf.keyOffset]; omega))
      apply (kept.compareNameWithNkName (fits.keys j before)).bind
      rintro order roles' h' - - ⟨rfl, rfl⟩
      split
      · apply kept.done
        refine ⟨rfl, rfl, fun k isHere => ?_⟩
        rw [← Option.some.inj isHere]
        exact List.mem_cons_self
      · apply (ih fun k member => inside k (List.mem_cons_of_mem j member)).mono
        rintro place _ _ - - ⟨sameRoles, same, member⟩
        exact ⟨sameRoles, same, fun k isHere => List.mem_cons_of_mem j (member k isHere)⟩

/-- A place for a new key in a list of the parent. -/
structure InList (roles : Roles) (h : Hive) (parent : Nat) (all : List Nat) (place : Nat × Nat) : Prop where
  member : place.1 ∈ all
  isList : roles place.1 = some (.lf parent)
  found : ∃ l, h.cell place.1 = some l ∧ place.2 ≤ l.get16 Lf.nrKeys

theorem Kept.findInsert (kept : Kept h roles) (blocks : List Nat) (last : Option Nat)
    (each : ∀ b ∈ blocks, b ∈ all ∧ (roles b = some (.ri parent) ∨ roles b = some (.lf parent)) ∧ (h.cell b).isSome)
    (seen : ∀ b, last = some b → b ∈ all ∧ roles b = some (.lf parent) ∧ (h.cell b).isSome) :
    Promises host scope roles (Hivex.findInsert name last blocks)
      (fun place roles' h' => roles' = roles ∧ h' = h ∧ InList roles h parent all place) onError h := by
  induction blocks generalizing last with
  | nil =>
      unfold Hivex.findInsert
      apply Promises.assert
      intro some
      obtain ⟨b, rfl⟩ := Option.isSome_iff_exists.mp some
      obtain ⟨member, isList, alive⟩ := seen b rfl
      obtain ⟨l, found⟩ := Option.isSome_iff_exists.mp alive
      have bounds := kept.sound.cell_bounds found
      apply Runs.known (rd16_cell (i := Lf.nrKeys) kept.sound found (by simp only [Lf.nrKeys]; omega))
      exact kept.done _ ⟨rfl, rfl, member, isList, l, found, Nat.le_refl _⟩
  | cons block rest ih =>
      obtain ⟨member, role, alive⟩ := each block (by simp)
      obtain ⟨l, found⟩ := Option.isSome_iff_exists.mp alive
      have bounds := kept.sound.cell_bounds found
      have later := fun last => ih last fun b inRest => each b (List.mem_cons_of_mem block inRest)
      unfold Hivex.findInsert
      apply Runs.known (rdBytes_cell (i := 4) (n := 2) kept.sound found (by omega))
      split
      · next isLf =>
        have isList : roles block = some (.lf parent) := by
          apply role.resolve_left
          intro isRi
          have fits : RiTyped roles parent l := kept.cells _ _ _ isRi found
          have id : l.bytes 4 2 = Ri.id := fits.id
          rw [id] at isLf
          exact absurd isLf (by decide)
        apply Runs.known (rd16_cell (i := Lf.nrKeys) kept.sound found (by simp only [Lf.nrKeys]; omega))
        apply (kept.findGreater isList found _ fun j inRange => List.mem_range.mp inRange).bind
        rintro place roles' h' - - ⟨rfl, rfl, inside⟩
        cases place with
        | some j => exact kept.done _ ⟨rfl, rfl, member, isList, l, found, (List.mem_range.mp (inside j rfl)).le⟩
        | none =>
            apply later (some block)
            intro b isBlock
            rw [← Option.some.inj isBlock]
            exact ⟨member, isList, alive⟩
      · exact later last seen

end Finding

section Inserting
variable {host : Host} {h : Hive} {roles : Roles} {fresh owner parent old new node i j : Nat} {c l m : Cell}
  {bytes : List UInt8} {name : CString} {onError : Roles → Hive → Prop}

/-- A list of subkeys fits with other keys of the same parent. -/
theorem LfTyped.blit (fits : LfTyped roles owner m) (lower : 8 ≤ i)
    (keys : ∀ j < m.get16 Lf.nrKeys, (m.blit i bytes).get32 (Lf.keyOffset j) = m.get32 (Lf.keyOffset j) ∨
      Points roles ((m.blit i bytes).get32 (Lf.keyOffset j)) (.nk (some owner))) :
    LfTyped roles owner (m.blit i bytes) := by
  have count : (m.blit i bytes).get16 Lf.nrKeys = m.get16 Lf.nrKeys := m.get_blit (Or.inl (by simp only [Lf.nrKeys]; omega))
  constructor
  · rw [m.id_blit (by omega)]
    exact fits.id
  · rw [count]
    exact fits.len
  · intro j inside
    rw [count] at inside
    rcases keys j inside with same | points
    · rw [same]
      exact fits.keys j inside
    · exact points

/-- A new list of subkeys that is being filled. -/
structure BeingFilled (h : Hive) (new len : Nat) (g : Hive) : Prop where
  here : ∃ m, g.cell new = some m ∧ m.len = len
  others : ∀ x, x ≠ new → g.cell x = h.cell x

theorem Kept.fill {g : Hive} {len : Nat} (kept : Kept g roles) (isNew : roles new = some (.lf parent))
    (since : fresh ≤ new) (filling : BeingFilled h new len g) (lower : 8 ≤ i) (upper : i + bytes.length ≤ len)
    (keys : ∀ m : Cell, ∀ j < m.get16 Lf.nrKeys, (m.blit i bytes).get32 (Lf.keyOffset j) = m.get32 (Lf.keyOffset j) ∨
      Points roles ((m.blit i bytes).get32 (Lf.keyOffset j)) (.nk (some parent))) :
    Promises host (linkScope fresh parent) roles (wrBytes (new + i) bytes)
      (fun _ roles' g' => roles' = roles ∧ BeingFilled h new len g') onError g := by
  obtain ⟨m, here, length⟩ := filling.here
  have fits : LfTyped roles parent m := kept.cells _ _ _ isNew here
  apply (kept.write isNew (by simp) here (Or.inl since) (by omega) (by omega) (fits.blit lower (keys m))).mono
  rintro _ _ g' - - ⟨same, wrote⟩
  exact ⟨same, ⟨_, wrote.here, length⟩, fun x other => (wrote.others x other).trans (filling.others x other)⟩

theorem Kept.copyKey {g : Hive} {len fromPosn toPosn : Nat} (kept : Kept g roles) (isNew : roles new = some (.lf parent))
    (isOld : roles old = some (.lf parent)) (apart : old ≠ new) (since : fresh ≤ new) (filling : BeingFilled h new len g)
    (found : h.cell old = some l) (inside : fromPosn < l.get16 Lf.nrKeys) (room : 16 + 8 * toPosn ≤ len) :
    Promises host (linkScope fresh parent) roles (Hivex.copyKey old new fromPosn toPosn)
      (fun _ roles' g' => roles' = roles ∧ BeingFilled h new len g') onError g := by
  have found' := (filling.others old apart).trans found
  have fits : LfTyped roles parent l := kept.cells _ _ _ isOld found'
  have fitsLen := fits.len
  unfold Hivex.copyKey
  apply Runs.known (rdBytes_cell (i := Lf.keyOffset fromPosn) (n := 8) kept.sound found'
    (by simp only [Lf.keyOffset]; omega))
  have length : (l.bytes (Lf.keyOffset fromPosn) 8).length = 8 := slice_length _ _ _
  apply kept.fill isNew since filling (by simp only [Lf.keyOffset]; omega)
    (by rw [length]; simp only [Lf.keyOffset]; omega)
  intro m j _
  by_cases here : j = toPosn
  · right
    rw [here, Cell.get32, Cell.get_blit_bytes m l (by decide)]
    exact fits.keys fromPosn inside
  · left
    apply m.get_blit
    rw [length]
    simp only [Lf.keyOffset]
    omega

theorem Kept.copyKeys {g : Hive} {len : Nat} (kept : Kept g roles) (isNew : roles new = some (.lf parent))
    (isOld : roles old = some (.lf parent)) (apart : old ≠ new) (since : fresh ≤ new) (filling : BeingFilled h new len g)
    (found : h.cell old = some l) (source : Nat → Nat) (js : List Nat)
    (each : ∀ j ∈ js, source j < l.get16 Lf.nrKeys ∧ 16 + 8 * j ≤ len) :
    Promises host (linkScope fresh parent) roles (js.forM fun j => Hivex.copyKey old new (source j) j)
      (fun _ roles' g' => roles' = roles ∧ BeingFilled h new len g') onError g := by
  apply Promises.forM (fun rest roles' g' => (roles' = roles ∧ BeingFilled h new len g') ∧
    ∀ j ∈ rest, source j < l.get16 Lf.nrKeys ∧ 16 + 8 * j ≤ len) _ js kept
  · exact ⟨⟨rfl, filling⟩, each⟩
  · exact fun _ _ holds => holds.1
  · rintro j rest roles' g' kept' ⟨⟨rfl, filling'⟩, each'⟩
    obtain ⟨inside, room⟩ := each' j (by simp)
    apply (kept'.copyKey isNew isOld apart since filling' found inside room).mono
    exact fun _ _ _ _ _ filled => ⟨filled, fun k member => each' k (List.mem_cons_of_mem j member)⟩

/-- `h` has become `g`, which has the list `new` in the place of `old`. -/
structure ListReplaced (h : Hive) (roles : Roles) (parent old new : Nat) (roles' : Roles) (g : Hive) : Prop where
  tags : roles' = Function.update roles new (some (.lf parent))
  fresh : h.frontier ≤ new
  here : (g.cell new).isSome
  others : ∀ x, x ≠ old → x ≠ new → g.cell x = h.cell x

theorem Kept.insertLfRecord {posn : Nat} (kept : Kept h roles) (below : host.Below4G) (since : fresh ≤ h.frontier)
    (isOld : roles old = some (.lf parent)) (found : h.cell old = some l) (inside : posn ≤ l.get16 Lf.nrKeys)
    (isNode : roles node = some (.nk (some parent))) (low : 0x1000 ≤ node) (small : node < 2 ^ 32)
    (fails : onError roles h) :
    Promises host (linkScope fresh parent) roles (Hivex.insertLfRecord host old posn name node)
      (ListReplaced h roles parent old) onError h := by
  have fits : LfTyped roles parent l := kept.cells _ _ _ isOld found
  have bounds := kept.sound.cell_bounds found
  have twoBytes : (l.bytes 4 2).length = 2 := slice_length _ _ _
  unfold Hivex.insertLfRecord
  apply kept.requireValid
  intro _ _
  apply Runs.known (rdBytes_cell (i := 4) (n := 2) kept.sound found (by omega))
  apply Promises.assert
  intro _
  apply Runs.known (rd16_cell (i := Lf.nrKeys) kept.sound found (by simp only [Lf.nrKeys]; omega))
  dsimp only
  apply (kept.alloc (.lf parent) below (by rw [twoBytes]) (by simp) (by simp) (fun b => ?_) fails).bind
  · rintro new roles₁ h₁ kept₁ - ⟨tags, placed, first⟩
    have apart := kept.sound.fresh_apart first found
    have isNew : roles₁ new = some (.lf parent) := by rw [tags, Function.update_self]
    have isOld₁ : roles₁ old = some (.lf parent) := by rw [tags, Function.update_of_ne apart, isOld]
    have nodeBounds := kept.bounds _ _ isNode
    have isNode₁ : roles₁ node = some (.nk (some parent)) := by
      rw [tags, Function.update_of_ne (by omega), isNode]
    have new₁ : fresh ≤ new := since.trans first
    have room : (freshCell ((Lf.sizeof + (l.get16 Lf.nrKeys + 1 - 1) * 8 + 7) / 8 * 8) (l.bytes 4 2)).len =
        16 + 8 * l.get16 Lf.nrKeys := by
      simp only [freshCell, Lf.sizeof]
      omega
    have counted : LfTyped roles₁ parent ((freshCell ((Lf.sizeof + (l.get16 Lf.nrKeys + 1 - 1) * 8 + 7) / 8 * 8)
        (l.bytes 4 2)).put16 Lf.nrKeys (l.get16 Lf.nrKeys + 1)) := by
      constructor
      · rw [Cell.id_put _ (by decide), freshCell_id twoBytes]
        exact fits.id
      · have count := Cell.get_put_same (freshCell ((Lf.sizeof + (l.get16 Lf.nrKeys + 1 - 1) * 8 + 7) / 8 * 8)
          (l.bytes 4 2)) 2 Lf.nrKeys (l.get16 Lf.nrKeys + 1)
        rw [Cell.get16, count, Cell.put_len, room]
        omega
      · intro k _
        left
        left
        rw [Cell.get32, Cell.get_put _ (Or.inr (by simp only [Lf.nrKeys, Lf.keyOffset]; omega))]
        exact freshCell_zero _ _ (by simp only [Lf.keyOffset]; omega)
    apply (kept₁.write isNew (by simp) placed.here (Or.inl new₁) (by decide)
      (by rw [leBytes_length, room]; simp only [Lf.nrKeys]; omega) counted).bind
    rintro _ roles₂ h₂ kept₂ - ⟨rfl, numbered⟩
    have filling : BeingFilled h new (16 + 8 * l.get16 Lf.nrKeys) h₂ :=
      ⟨⟨_, numbered.here, room⟩, fun x other => (numbered.others x other).trans (placed.others x other)⟩
    apply (kept₂.copyKeys isNew isOld₁ apart new₁ filling found (fun i => i) (List.range posn) fun i member => ?_).bind
    · rintro _ roles₃ h₃ kept₃ - ⟨rfl, filling₃⟩
      apply (kept₃.fill isNew new₁ filling₃ (by simp only [Lf.keyOffset]; omega)
        (by rw [leBytes_length]; simp only [Lf.keyOffset]; omega) fun m j _ => ?_).bind
      · rintro _ roles₄ h₄ kept₄ - ⟨rfl, filling₄⟩
        have hashed := calcHash_length (l.bytes 4 2) name
        apply (kept₄.fill isNew new₁ filling₄ (by simp only [Lf.keyHash]; omega)
          (by simp only [Lf.keyHash]; omega) fun m j _ => Or.inl ?_).bind
        · rintro _ roles₅ h₅ kept₅ - ⟨rfl, filling₅⟩
          apply (kept₅.copyKeys isNew isOld₁ apart new₁ filling₅ found (fun i => i - 1)
            (List.range' (posn + 1) (l.get16 Lf.nrKeys + 1 - (posn + 1))) fun i member => ?_).bind
          · rintro _ roles₆ h₆ kept₆ - ⟨rfl, filling₆⟩
            apply (kept₆.free isOld₁ (by simp) rfl).bind
            rintro _ roles₇ h₇ kept₇ - ⟨rfl, -, cells⟩
            apply kept₇.done
            constructor
            · exact tags
            · exact first
            · obtain ⟨m, here, -⟩ := filling₆.here
              rw [cells, Function.update_of_ne apart.symm, here]
              rfl
            · intro x notOld notNew
              rw [cells, Function.update_of_ne notOld, filling₆.others x notNew]
          · have range := List.mem_range'_1.mp member
            omega
        · apply m.get_blit
          simp only [Lf.keyOffset, Lf.keyHash]
          omega
      · by_cases here : j = posn
        · right
          right
          have stored : (m.blit (Lf.keyOffset posn) (leBytes 4 (node - 0x1000))).get 4 (Lf.keyOffset posn) =
              (node - 0x1000) % 256 ^ 4 := Cell.get_put_same _ _ _ _
          have back : (node - 0x1000) % 256 ^ 4 + 0x1000 = node := by omega
          rw [here, Cell.get32, stored, back]
          exact isNode₁
        · left
          apply m.get_blit
          rw [leBytes_length]
          simp only [Lf.keyOffset]
          omega
    · have before := List.mem_range.mp member
      omega
  · constructor
    · rw [freshCell_id twoBytes]
      exact fits.id
    · have zero : (freshCell ((Lf.sizeof + (l.get16 Lf.nrKeys + 1 - 1) * 8 + 7) / 8 * 8) (l.bytes 4 2)).get16
          Lf.nrKeys = 0 := freshCell_zero _ _ (by rw [twoBytes])
      rw [zero]
      simp only [freshCell, Lf.sizeof]
      omega
    · intro k _
      left
      left
      exact freshCell_zero _ _ (by rw [twoBytes]; simp only [Lf.keyOffset]; omega)

end Inserting

section Linking
variable {host : Host} {h : Hive} {roles : Roles} {fresh owner parent old new node ri i : Nat} {c l r : Cell}
  {name : CString} {up : Option Nat} {blocks ris lfs : List Nat} {onError : Roles → Hive → Prop}

/-- A new list in an ri-record. -/
theorem RiTyped.enter {w : Nat} (fits : RiTyped roles owner r) (isList : roles (w + 0x1000) = some (.lf owner))
    (small : w < 2 ^ 32) (new : ∀ j < r.get16 Ri.nrOffsets, r.get32 (Ri.offset j) ≠ w) :
    RiTyped roles owner (r.put32 (Ri.offset i) w) := by
  have own : (r.put32 (Ri.offset i) w).get32 (Ri.offset i) = w := by
    rw [Cell.get32, Cell.get_put_same]
    omega
  have others : ∀ j, j ≠ i → (r.put32 (Ri.offset i) w).get32 (Ri.offset j) = r.get32 (Ri.offset j) := by
    intro j other
    exact Cell.get_put r (by simp only [Ri.offset]; omega)
  have count : (r.put32 (Ri.offset i) w).get16 Ri.nrOffsets = r.get16 Ri.nrOffsets :=
    Cell.get_put r (Or.inl (by simp only [Ri.nrOffsets, Ri.offset]; omega))
  constructor
  · exact (Cell.id_put r (by simp only [Ri.offset]; omega)).trans fits.id
  · rw [count]
    exact fits.len
  · intro j inside
    rw [count] at inside
    by_cases here : j = i
    · rw [here, own]
      exact Or.inr isList
    · rw [others j here]
      exact fits.offsets j inside
  · intro j inside k inside' proper same
    rw [count] at inside inside'
    by_cases first : j = i <;> by_cases second : k = i
    · rw [first, second]
    · rw [first, own, others k second] at same
      exact absurd same.symm (new k inside')
    · rw [others j first, second, own] at same
      exact absurd same (new j inside)
    · rw [others j first] at proper same
      rw [others k second] at same
      exact fits.apart j inside k inside' proper same

theorem Kept.relinkEntry (kept : Kept h roles) (isRi : roles ri = some (.ri parent)) (found : h.cell ri = some r)
    (isNew : roles new = some (.lf parent)) (low : 0x1000 ≤ new) (small : new < 2 ^ 32)
    (apart : ∀ j < r.get16 Ri.nrOffsets, r.get32 (Ri.offset j) ≠ new - 0x1000) (js : List Nat)
    (inside : ∀ j ∈ js, j < r.get16 Ri.nrOffsets) :
    Promises host (linkScope fresh parent) roles (Hivex.relinkEntry ri old new js)
      (fun linked roles' h' => roles' = roles ∧ (∀ x, x ≠ ri → h'.cell x = h.cell x) ∧
        (linked = false → ∀ j ∈ js, (0x1000 + r.get32 (Ri.offset j)) % 2 ^ 32 ≠ old)) onError h := by
  have fits : RiTyped roles parent r := kept.cells _ _ _ isRi found
  have room := fits.len
  induction js with
  | nil => exact kept.done _ ⟨rfl, fun _ _ => rfl, by simp⟩
  | cons j rest ih =>
      have before := inside j (by simp)
      rw [relinkEntry_cons]
      apply Runs.known (rd32_cell (i := Ri.offset j) kept.sound found (by simp only [Ri.offset]; omega))
      apply Runs.ite
      · intro _
        have isList : roles (new - 0x1000 + 0x1000) = some (.lf parent) := by
          rw [Nat.sub_add_cancel low]
          exact isNew
        have narrow : new - 0x1000 < 2 ^ 32 := by omega
        generalize new - 0x1000 = w at isList apart narrow
        apply (kept.write isRi (by simp) found (Or.inr (Or.inr rfl)) (by simp only [Ri.offset]; omega)
          (by rw [leBytes_length]; simp only [Ri.offset]; omega) (fits.enter isList narrow apart)).bind
        rintro _ roles' h₁ kept₁ - ⟨same, wrote⟩
        exact kept₁.done _ ⟨same, wrote.others, by simp⟩
      · intro different
        apply (ih fun k member => inside k (List.mem_cons_of_mem j member)).mono
        rintro linked _ h' - - ⟨same, others, none⟩
        refine ⟨same, others, fun notLinked k member => ?_⟩
        rcases List.mem_cons.mp member with rfl | later
        · exact different
        · exact none notLinked k later

theorem Kept.relinkRi (kept : Kept h roles) (isRi : roles ri = some (.ri parent)) (found : h.cell ri = some r)
    (isNew : roles new = some (.lf parent)) (low : 0x1000 ≤ new) (small : new < 2 ^ 32) (oldSmall : old < 2 ^ 32)
    (apart : ∀ j < r.get16 Ri.nrOffsets, r.get32 (Ri.offset j) ≠ new - 0x1000) (listed : old ∈ r.lists)
    (rest : List Nat) :
    Promises host (linkScope fresh parent) roles (Hivex.relinkRi old new (ri :: rest)) (fun _ _ _ => True)
      onError h := by
  have fits : RiTyped roles parent r := kept.cells _ _ _ isRi found
  have bounds := kept.sound.cell_bounds found
  unfold Hivex.relinkRi
  apply Runs.known (blockIdEq_cell kept.sound found _)
  rw [if_pos (decide_eq_true fits.id)]
  apply Runs.known (rd16_cell (i := Ri.nrOffsets) kept.sound found (by simp only [Ri.nrOffsets]; omega))
  apply (kept.relinkEntry isRi found isNew low small apart _ fun j inRange => List.mem_range.mp inRange).bind
  rintro linked roles' h' kept' - ⟨-, -, none⟩
  cases linked with
  | true => exact kept'.done _ trivial
  | false =>
      obtain ⟨j, inRange, isOld⟩ := List.mem_map.mp listed
      exact absurd (by omega) (none rfl j inRange)

/-- The blocks with the subkeys of a key are its lists. -/
theorem ChildrenRead.each {children : List Nat} {noCheckNk : Bool}
    (read : ChildrenRead h roles parent c noCheckNk children blocks) {b : Nat} (member : b ∈ blocks) :
    (roles b = some (.ri parent) ∨ roles b = some (.lf parent)) ∧ (h.cell b).isSome := by
  rw [read.lists] at member
  rcases List.mem_append.mp member with inRis | inLfs
  · exact (read.ri b inRis).imp_left Or.inl
  · exact (read.lf b inLfs).imp_left Or.inr

/-- The first child gets a list of its own. -/
theorem Kept.linkFirst (kept : Kept h roles) (below : host.Below4G)
    (tagged : roles parent = some (.nk up)) (found : h.cell parent = some c)
    (isNode : roles node = some (.nk (some parent))) (low : 0x1000 ≤ node) (small : node < 2 ^ 32)
    (fails : onError roles h) :
    Promises host (linkScope fresh parent) roles (Hivex.linkChild host parent node name 0 []) (fun _ _ _ => True)
      onError h := by
  rw [linkChild, if_pos rfl]
  have listed : Promises host (linkScope fresh parent) roles (newLhRecord host name node)
      (fun b roles' h' => roles' = Function.update roles b (some (.lf parent)) ∧ h.frontier ≤ b ∧ ∃ m, Wrote h h' b m)
      onError h := by
    apply wp_header kept.sound.newLhRecord_header
    apply wp_mono (newLhRecord_new low small name (kept.allocates _ below (by decide) fails))
    · rintro b h' ⟨first, m, wrote, id, room, keys⟩ header
      have fits : RoleFits (Function.update roles b (some (.lf parent))) b (.lf parent) m := by
        constructor
        · exact Or.inr id
        · exact room
        · intro i inside
          have member : m.get32 (Lf.keyOffset i) + 0x1000 ∈ m.keys :=
            List.mem_map.mpr ⟨i, List.mem_range.mpr inside, rfl⟩
          rw [keys, List.mem_singleton] at member
          have bounds := kept.bounds _ _ isNode
          right
          rw [member, Function.update_of_ne (by omega)]
          exact isNode
      obtain ⟨kept', moves⟩ := kept.placed wrote header first (by simp) (by simp) fits
      exact ⟨_, kept', moves, rfl, first, m, wrote⟩
    · exact fun _ _ stopped => stopped
  apply listed.bind
  rintro b roles' h₁ kept₁ moves₁ ⟨tags, first, m, wrote⟩
  have apart := kept.sound.fresh_apart first found
  have found₁ := wrote.found apart found
  have tagged₁ := moves₁.grows _ _ tagged
  have bounds := kept₁.sound.cell_bounds wrote.here
  have limit := kept₁.small
  have fits := kept₁.toTyped.nk tagged₁ found₁
  have long := fits.len
  have isList : roles' (b - 0x1000 + 0x1000) = some (.lf parent) := by
    rw [Nat.sub_add_cancel (by omega), tags, Function.update_self]
  have narrow : b - 0x1000 < 2 ^ 32 := by omega
  apply (kept₁.write tagged₁ (by simp) found₁ (Or.inr (Or.inl ⟨rfl, trivial⟩)) (by decide)
    (by rw [leBytes_length]; simp only [Nk.subkeyLf]; omega) (fits.putLink narrow (Or.inr ⟨rfl, isList⟩))
    fun _ _ => word_inside fun k inside => childWords_list inside).mono
  exact fun _ _ _ _ _ _ => trivial

/-- Another child goes into one of the lists. -/
theorem Kept.linkLater {children : List Nat} (kept : Kept h roles) (below : host.Below4G) (since : fresh ≤ h.frontier)
    (tagged : roles parent = some (.nk up)) (found : h.cell parent = some c)
    (isNode : roles node = some (.nk (some parent))) (low : 0x1000 ≤ node) (small : node < 2 ^ 32)
    (read : ChildrenRead h roles parent c false children blocks) (fails : onError roles h) :
    Promises host (linkScope fresh parent) roles
      (Hivex.linkChild host parent node name (c.get32 Nk.nrSubkeys) blocks) (fun _ _ _ => True) onError h := by
  rw [linkChild_proper name read.count]
  apply (kept.findInsert blocks none (fun b member => ⟨member, read.each member⟩) (by simp)).bind
  rintro ⟨old, j⟩ roles' h' - - ⟨rfl, rfl, place⟩
  obtain ⟨l, oldFound, inside⟩ := place.found
  have isOld : roles' old = some (.lf parent) := place.isList
  apply (kept.insertLfRecord below since isOld oldFound inside isNode low small fails).bind
  rintro new roles₁ h₁ kept₁ moves₁ replaced
  have first := replaced.fresh
  have oldBounds := kept.sound.cell_bounds oldFound
  have limit := kept.small
  have limit₁ := kept₁.small
  obtain ⟨m, newFound⟩ := Option.isSome_iff_exists.mp replaced.here
  have newBounds := kept₁.sound.cell_bounds newFound
  have isNew : roles₁ new = some (.lf parent) := by rw [replaced.tags, Function.update_self]
  have notOld : parent ≠ old := by
    rintro rfl
    rw [tagged] at isOld
    cases isOld
  have found₁ := (replaced.others parent notOld (kept.sound.fresh_apart first found)).trans found
  have tagged₁ := moves₁.grows _ _ tagged
  have fits := kept₁.toTyped.nk tagged₁ found₁
  have long := fits.len
  apply Runs.known (rd32_cell (i := Nk.subkeyLf) kept₁.sound found₁ (by simp only [Nk.subkeyLf]; omega))
  apply Runs.ite
  · intro _
    have isList : roles₁ (new - 0x1000 + 0x1000) = some (.lf parent) := by
      rw [Nat.sub_add_cancel (by omega)]
      exact isNew
    have narrow : new - 0x1000 < 2 ^ 32 := by omega
    apply (kept₁.write tagged₁ (by simp) found₁ (Or.inr (Or.inl ⟨rfl, trivial⟩)) (by decide)
      (by rw [leBytes_length]; simp only [Nk.subkeyLf]; omega) (fits.putLink narrow (Or.inr ⟨rfl, isList⟩))
      fun _ _ => word_inside fun k inside => childWords_list inside).mono
    exact fun _ _ _ _ _ _ => trivial
  · intro elsewhere
    have lists := read.hasLists kept.toTyped tagged found
    have member : old ∈ (h'.cell.listsOf parent).1 ++ (h'.cell.listsOf parent).2 := read.lists ▸ place.member
    rcases lists.shape with ⟨noRis, oneLf⟩ | ⟨oneRi, r, riFound, isRi, -, lfs⟩
    · rw [noRis, oneLf, List.nil_append, List.mem_singleton] at member
      exact absurd (by omega) elsewhere
    · have riTagged := (read.ri (c.get32 Nk.subkeyLf + 0x1000) (by rw [oneRi]; simp)).1
      have riOld : c.get32 Nk.subkeyLf + 0x1000 ≠ old := by
        intro same
        rw [same, isOld] at riTagged
        cases riTagged
      rw [oneRi, lfs, List.singleton_append, List.mem_cons] at member
      have listed := member.resolve_left riOld.symm
      have riFound₁ := (replaced.others _ riOld (kept.sound.fresh_apart first riFound)).trans riFound
      have riFits : RiTyped roles' parent r := kept.cells _ _ _ riTagged riFound
      rw [read.lists, oneRi, List.singleton_append]
      apply kept₁.relinkRi (moves₁.grows _ _ riTagged) riFound₁ isNew (by omega) (by omega) (by omega) _
        listed
      intro i inRi same
      rcases riFits.offsets i inRi with null | isLf
      · rw [same] at null
        rcases null with zero | most
        · omega
        · omega
      · have bounds := kept.bounds _ _ isLf
        omega

/-- The count of subkeys and the maximum of their names. -/
theorem Kept.countChild {count : Nat} (kept : Kept h roles) (tagged : roles parent = some (.nk up))
    (found : h.cell parent = some c) :
    Promises host (linkScope fresh parent) roles (Hivex.countChild parent node name count)
      (fun result roles' h' => result = node ∧ roles' = roles ∧ ∀ x, x ≠ parent → h'.cell x = h.cell x) onError h := by
  have fits := kept.toTyped.nk tagged found
  have long := fits.len
  have counted : NkTyped roles parent up (c.put32 Nk.nrSubkeys (count + 1)) := by
    have len : (c.put32 Nk.nrSubkeys (count + 1)).len = c.len := rfl
    apply fits.alike len
    · exact Cell.id_put c (by decide)
    · intro i member
      apply Cell.get_put c
      simp only [List.mem_cons, List.not_mem_nil, or_false] at member
      rcases member with rfl | rfl | rfl | rfl | rfl | rfl <;> decide
  unfold Hivex.countChild
  apply (kept.write tagged (by simp) found (Or.inr (Or.inl ⟨rfl, trivial⟩)) (by decide)
    (by rw [leBytes_length]; simp only [Nk.nrSubkeys]; omega) counted
    fun _ _ => word_inside fun k inside => childWords_count inside).bind
  rintro _ roles' h₁ kept₁ - ⟨rfl, wrote₁⟩
  apply Runs.known (rd16_cell (i := Nk.maxSubkeyNameLen) kept₁.sound wrote₁.here
    (by rw [Cell.blit_len]; simp only [Nk.maxSubkeyNameLen]; omega))
  apply Runs.ite
  · intro _
    have raised : NkTyped roles' parent up ((c.put32 Nk.nrSubkeys (count + 1)).put16 Nk.maxSubkeyNameLen
        (name.strlen * 2)) := by
      have len : ((c.put32 Nk.nrSubkeys (count + 1)).put16 Nk.maxSubkeyNameLen (name.strlen * 2)).len = c.len := rfl
      apply counted.alike len
      · exact Cell.id_put _ (by decide)
      · intro i member
        apply Cell.get_put
        simp only [List.mem_cons, List.not_mem_nil, or_false] at member
        rcases member with rfl | rfl | rfl | rfl | rfl | rfl <;> decide
    apply (kept₁.write tagged (by simp) wrote₁.here (Or.inr (Or.inl ⟨rfl, trivial⟩)) (by decide)
      (by rw [leBytes_length, Cell.blit_len]; simp only [Nk.maxSubkeyNameLen]; omega) raised
      fun _ _ => word_inside fun k inside => childWords_max inside).bind
    rintro _ roles'' h₂ kept₂ - ⟨same, wrote₂⟩
    exact kept₂.done _ ⟨rfl, same, (wrote₁.again wrote₂).others⟩
  · exact fun _ => kept₁.done _ ⟨rfl, rfl, wrote₁.others⟩

end Linking

section Adding
variable {host : Host} {h h' : Hive} {roles : Roles} {parent node : Nat} {c : Cell} {name : CString}

theorem Spared.refl (roles : Roles) (h : Hive) (parent : Nat) : Spared roles h parent h :=
  ⟨fun _ _ _ => rfl, fun _ _ => Or.inl rfl⟩

/-- The new key `node` has the security record of `parent`, which counts it. -/
structure Inherits (roles : Roles) (h : Hive) (parent node : Nat) (g : Hive) : Prop where
  fresh : h.frontier ≤ node
  same : g.cell.skOf node = h.cell.skOf parent
  isSk : roles (h.cell.skOf parent) = some .sk
  counted : ∃ s, h.cell (h.cell.skOf parent) = some s ∧ g.cell (h.cell.skOf parent) = some s.countMore
  others : ∀ t, roles t = some .sk → t ≠ h.cell.skOf parent → g.cell t = h.cell t

/-- What a call that fails to add a key leaves behind: at most a new key that no list names. -/
structure Leftover (roles : Roles) (h : Hive) (parent : Nat) (name : CString) (roles' : Roles) (g : Hive) : Prop
    extends Spared roles h parent g where
  keys : ∀ b up d, roles b = none → roles' b = some (.nk up) → g.cell b = some d → Blank parent name d
  security : (∀ s, roles s = some .sk → g.cell s = h.cell s) ∨
    ∃ node, roles' node = some (.nk (some parent)) ∧ (g.cell node).isSome ∧ Inherits roles h parent node g

theorem Leftover.refl (roles : Roles) (h : Hive) (parent : Nat) (name : CString) :
    Leftover roles h parent name roles h := by
  refine ⟨Spared.refl roles h parent, fun b up d untagged tagged => ?_, Or.inl fun _ _ => rfl⟩
  rw [untagged] at tagged
  cases tagged

/-- What a call that adds a key gives back: the only new key, with nothing below it. -/
structure KeyAdded (roles : Roles) (h : Hive) (parent node : Nat) (name : CString) (roles' : Roles) (h' : Hive) :
    Prop extends Inherits roles h parent node h' where
  role : roles' node = some (.nk (some parent))
  only : ∀ b up, roles b = none → roles' b = some (.nk up) → b = node
  record : ∃ d, h'.cell node = some d ∧ Blank parent name d

theorem KeyAdded.alive {roles' : Roles} (added : KeyAdded roles h parent node name roles' h') :
    (h'.cell node).isSome := by
  obtain ⟨d, here, -⟩ := added.record
  rw [here]
  rfl

/-- What links a new key leaves the security records alone. -/
theorem Inherits.stays {g : Hive} (inherits : Inherits roles h parent node g) (same : h'.cell node = g.cell node)
    (others : ∀ t, roles t = some .sk → h'.cell t = g.cell t) : Inherits roles h parent node h' := by
  obtain ⟨s, before, after⟩ := inherits.counted
  refine ⟨inherits.fresh, ?_, inherits.isSk, ⟨s, before, ?_⟩, fun t isSk other => ?_⟩
  · rw [← inherits.same, Cells.skOf, Cells.skOf, same]
  · rw [others _ inherits.isSk, after]
  · rw [others t isSk, inherits.others t isSk other]

/-- `hivex_node_add_child`. -/
theorem Kept.hivexNodeAddChild (kept : Kept h roles) (below : host.Below4G) (handle : IsHandle roles parent) :
    Promises host (childScope h.frontier parent) roles (Hivex.hivexNodeAddChild host parent name)
      (fun node roles' h' => KeyAdded roles h parent node name roles' h') (Leftover roles h parent name) h := by
  have unchanged := Leftover.refl roles h parent name
  unfold Hivex.hivexNodeAddChild
  apply Runs.get
  rw [kept.writable]
  apply kept.query (requireBlock_handle kept.toTyped handle) _ unchanged
  rintro _ ⟨⟨up, tagged⟩, alive⟩
  obtain ⟨c, found⟩ := Option.isSome_iff_exists.mp alive
  apply Runs.ite
  · exact fun _ => kept.leaves .EINVAL unchanged
  intro _
  apply kept.query (hivexNodeGetChild_tagged kept.toTyped tagged name) _ unchanged
  intro twin _
  apply Runs.ite
  · exact fun _ => kept.leaves .EEXIST unchanged
  intro _
  apply (kept.newNkRecord below tagged found rfl unchanged).bind
  rintro node roles₁ h₁ kept₁ moves₁ ⟨tags, first, d, wrote, blank⟩
  have tagged₁ := moves₁.grows _ _ tagged
  have found₁ := wrote.found (kept.sound.fresh_apart first found) found
  have isNode : roles₁ node = some (.nk (some parent)) := by rw [tags, Function.update_self]
  have old : ∀ b < h.frontier, roles₁ b = roles b ∧ h₁.cell b = h.cell b := by
    intro b before
    rw [tags, Function.update_of_ne (by omega)]
    exact ⟨rfl, wrote.others b (by omega)⟩
  have only : ∀ b up, roles b = none → roles₁ b = some (.nk up) → b = node := by
    intro b up untagged isNk
    by_contra other
    rw [tags, Function.update_of_ne other, untagged] at isNk
    cases isNk
  have left₁ : Leftover roles h parent name roles₁ h₁ := by
    refine ⟨⟨fun b before _ => (old b before).2, fun b isSk => Or.inl (old b (kept.bounds b _ isSk).2).2⟩,
      fun b up d' untagged isNk here => ?_, Or.inl fun b isSk => (old b (kept.bounds b _ isSk).2).2⟩
    rw [only b up untagged isNk, wrote.here] at here
    cases here
    exact blank
  apply (kept₁.inheritSk found₁ tagged₁ isNode wrote.here blank first left₁).bind
  rintro _ roles₂ h₂ kept₂ moves₂ ⟨rfl, ⟨d₂, new₂, blank₂, sameSk⟩, s, isSk, sk₁, sk₂, others₂⟩
  have notSk : parent ≠ c.get32 Nk.sk + 0x1000 := by
    intro same
    rw [← same, tagged₁] at isSk
    cases isSk
  have found₂ : h₂.cell parent = some c :=
    (others₂ parent (kept.sound.fresh_apart first found) notSk).trans found₁
  have oldSk : roles (c.get32 Nk.sk + 0x1000) = some .sk := moves₁.oldSk isSk
  have inherits₂ : Inherits roles h parent node h₂ := by
    have own : h.cell.skOf parent = c.get32 Nk.sk + 0x1000 := skOf_cell found
    constructor
    · exact first
    · rw [skOf_cell new₂, sameSk, own]
    · rw [own]
      exact oldSk
    · rw [own, ← (old _ (kept.bounds _ _ oldSk).2).2]
      exact ⟨s, sk₁, sk₂⟩
    · intro t isSk' other
      have before := (kept.bounds t _ isSk').2
      rw [own] at other
      rw [others₂ t (by omega) other, (old t before).2]
  have left₂ : Leftover roles h parent name roles₂ h₂ := by
    refine ⟨⟨fun b before other => ?_, fun b isSk' => ?_⟩, fun b up d' untagged isNk here => ?_,
      Or.inr ⟨node, isNode, by rw [new₂]; rfl, inherits₂⟩⟩
    · have apart : b ≠ c.get32 Nk.sk + 0x1000 := by
        rintro rfl
        exact other oldSk
      rw [others₂ b (by omega) apart, (old b before).2]
    · have before := (kept.bounds b _ isSk').2
      by_cases here : b = c.get32 Nk.sk + 0x1000
      · right
        refine ⟨c, s, found, here, ?_, ?_⟩
        · rw [← (old b before).2, here, sk₁]
        · rw [here, sk₂]
      · left
        rw [others₂ b (by omega) here, (old b before).2]
    · rw [only b up untagged isNk, new₂] at here
      cases here
      exact blank₂
  have nodeBounds := kept₂.sound.cell_bounds new₂
  have nodeBefore := kept₂.sound.cell_before new₂
  have fits := kept₂.toTyped.nk tagged₁ found₂
  have long := fits.len
  apply kept₂.query (getChildren_typed kept₂.toTyped tagged₁ found₂ false) _ left₂
  rintro ⟨children, blocks⟩ read
  apply Runs.known (rd32_cell (i := Nk.nrSubkeys) kept₂.sound found₂ (by simp only [Nk.nrSubkeys]; omega))
  have small := kept₂.small
  have frontier := moves₁.keeps.frontier.trans moves₂.keeps.frontier
  have apart : node ≠ parent := (kept.sound.fresh_apart first found).symm
  have links : Promises host (linkScope h₂.frontier parent) roles₂
      (Hivex.linkChild host parent node name (c.get32 Nk.nrSubkeys) blocks) (fun _ _ _ => True)
      (Leftover roles h parent name) h₂ := by
    rcases read with ⟨none, isEmpty⟩ | read
    · cases isEmpty
      rw [none]
      exact kept₂.linkFirst below tagged₁ found₂ isNode (by omega) (by omega) left₂
    · exact kept₂.linkLater below (Nat.le_refl _) tagged₁ found₂ isNode (by omega) (by omega) read left₂
  -- The new key is old for what links it, which makes no key.
  have linked : Promises host (childScope h.frontier parent) roles₂
      (Hivex.linkChild host parent node name (c.get32 Nk.nrSubkeys) blocks)
      (fun _ roles' h' => h'.cell node = some d₂ ∧ (∀ t, roles t = some .sk → h'.cell t = h₂.cell t) ∧
        ∀ b up, roles b = none → roles' b = some (.nk up) → b = node)
      (Leftover roles h parent name) h₂ := by
    apply Promises.widen
    · apply links.mono
      intro _ roles' h' _ moves _
      refine ⟨?_, fun t isSk' => ?_, fun b up untagged isNk => ?_⟩
      · rw [← new₂]
        apply moves.same kept₂.toTyped isNode
        · rintro (new | ⟨same, -⟩ | never)
          · omega
          · exact apart same
          · cases never
        · exact Role.noConfusion
      · have before := (kept.bounds t _ isSk').2
        apply moves.same kept₂.toTyped (moves₁.grows _ _ isSk')
        · rintro (new | ⟨-, never⟩ | never)
          · omega
          · exact never
          · cases never
        · exact Role.noConfusion
      · cases known : roles₂ b with
        | none =>
            obtain ⟨_, -, never⟩ := moves.newKey known isNk
            exact never.elim
        | some role =>
            have same := moves.grows b role known
            rw [isNk] at same
            rw [← same] at known
            exact only b up untagged known
    · exact fun roles' h' moves => moves.links frontier
  apply linked.bind
  rintro _ roles₃ h₃ kept₃ moves₃ ⟨new₃, sks₃, only₃⟩
  have alive₃ := (moves₃.alive kept₂.toTyped tagged₁ (by simp [childScope])).trans (by rw [found₂])
  obtain ⟨c₃, found₃⟩ := Option.isSome_iff_exists.mp alive₃
  have isNode₃ := moves₃.grows _ _ isNode
  have counts : Promises host (linkScope h.frontier parent) roles₃
      (Hivex.countChild parent node name (c.get32 Nk.nrSubkeys))
      (fun node roles' h' => KeyAdded roles h parent node name roles' h') (Leftover roles h parent name) h₃ := by
    apply (kept₃.countChild (moves₃.grows _ _ tagged₁) found₃).mono
    rintro result roles₄ h₄ - - ⟨rfl, rfl, others₄⟩
    have new₄ := (others₄ result apart).trans new₃
    refine ⟨inherits₂.stays (new₄.trans new₂.symm) fun t isSk' => ?_, isNode₃, only₃, d₂, new₄, blank₂⟩
    have notParent : t ≠ parent := by
      rintro rfl
      rw [tagged] at isSk'
      cases isSk'
    rw [others₄ t notParent, sks₃ t isSk']
  apply Promises.widen
  · exact counts
  · exact fun roles' h' moves => moves.links (Nat.le_refl _)

end Adding

end Hivex
