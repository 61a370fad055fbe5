import Hivex.HiveValues
import Hivex.HiveSubkeyLists
import Hivex.HiveSiblings
import Hivex.HiveHash

/-! What a successful `hivex_node_add_child` leaves behind: the record of the child and
the subkey lists of the parent, in which one lf/lh-record has been replaced. -/
namespace Hivex

open ByteMemory Commands

/-- The record of a new child: no subkeys, no values. -/
structure NkNew (parent : Nat) (name : CString) (c : Cell) : Prop where
  len : Nk.sizeof + name.strlen ≤ c.len
  id : c.id = Nk.id
  parent : c.get32 Nk.parent = parent % 2 ^ 32
  nrSubkeys : c.get32 Nk.nrSubkeys = 0
  nrValues : c.get32 Nk.nrValues = 0
  nameLen : c.get16 Nk.nameLen = name.strlen % 2 ^ 16
  name : c.bytes Nk.name name.strlen = name.bytes
  maxSubkeyNameLen : c.get16 Nk.maxSubkeyNameLen = 0
  maxVkNameLen : c.get32 Nk.maxVkNameLen = 0
  maxVkDataLen : c.get32 Nk.maxVkDataLen = 0

/-- A new nk-record before it has a security record and a timestamp. -/
def nkCell (len parent : Nat) (name : CString) : Cell :=
  ((((((((freshCell len Nk.id).put16 Nk.flags 0x0020).put32 Nk.parent parent).put32 Nk.subkeyLf
    0xffffffff).put32 Nk.subkeyLfVolatile 0xffffffff).put32 Nk.vallist 0xffffffff).put32
    Nk.classname 0xffffffff).put16 Nk.nameLen name.strlen).blit Nk.name (name.bytes ++ [0])

section Records
variable {name : CString} {len parent : Nat} {c : Cell}

theorem nkCell_new (room : Nk.sizeof + name.strlen ≤ len) : NkNew parent name (nkCell len parent name) := by
  have named : (name.bytes ++ [0]).length = name.strlen + 1 := by simp
  have zero : ∀ n j, 6 ≤ j → (freshCell len Nk.id).get n j = 0 := fun n j behind =>
    freshCell_zero j n behind
  have front : ∀ n j, j + n ≤ Nk.name → (nkCell len parent name).get n j =
      (((((((freshCell len Nk.id).put16 Nk.flags 0x0020).put32 Nk.parent parent).put32 Nk.subkeyLf
        0xffffffff).put32 Nk.subkeyLfVolatile 0xffffffff).put32 Nk.vallist 0xffffffff).put32
        Nk.classname 0xffffffff |>.put16 Nk.nameLen name.strlen).get n j :=
    fun n j before => Cell.get_blit _ (Or.inl before)
  constructor
  · exact room
  · unfold nkCell
    rw [Cell.id_blit _ (by decide), Cell.id_put _ (by decide), Cell.id_put _ (by decide),
      Cell.id_put _ (by decide), Cell.id_put _ (by decide), Cell.id_put _ (by decide),
      Cell.id_put _ (by decide), Cell.id_put _ (by decide)]
    exact freshCell_id rfl
  · rw [Cell.get32, front _ _ (by decide)]
    simp (disch := decide) only [Cell.get_put]
    exact Cell.get_put_same _ _ _ _
  · rw [Cell.get32, front _ _ (by decide)]
    simp (disch := decide) only [Cell.get_put, zero]
  · rw [Cell.get32, front _ _ (by decide)]
    simp (disch := decide) only [Cell.get_put, zero]
  · rw [Cell.get16, front _ _ (by decide)]
    exact Cell.get_put_same _ _ _ _
  · have stored := Cell.bytes_blit_same (((((((freshCell len Nk.id).put16 Nk.flags 0x0020).put32
      Nk.parent parent).put32 Nk.subkeyLf 0xffffffff).put32 Nk.subkeyLfVolatile 0xffffffff).put32
      Nk.vallist 0xffffffff).put32 Nk.classname 0xffffffff |>.put16 Nk.nameLen name.strlen)
      Nk.name (name.bytes ++ [0])
    rw [named] at stored
    have cut := congrArg (List.take name.strlen) stored
    rw [Cell.bytes, slice_take _ _ (Nat.le_succ _), List.take_left] at cut
    exact cut
  · rw [Cell.get16, front _ _ (by decide)]
    simp (disch := decide) only [Cell.get_put, zero]
  · rw [Cell.get32, front _ _ (by decide)]
    simp (disch := decide) only [Cell.get_put, zero]
  · rw [Cell.get32, front _ _ (by decide)]
    simp (disch := decide) only [Cell.get_put, zero]

-- The security record and the timestamp are apart from the fields of `NkNew`.
theorem NkNew.put (new : NkNew parent name c) {n i v : Nat}
    (place : i = Nk.sk ∧ n = 4 ∨ i = Nk.timestamp ∧ n = 8) : NkNew parent name (c.put n i v) := by
  have kept : ∀ m j, j + m ≤ Nk.timestamp ∨ 16 ≤ j ∧ j + m ≤ Nk.sk ∨ 52 ≤ j →
      (c.put n i v).get m j = c.get m j := by
    intro m j apart
    apply Cell.get_put
    rcases place with ⟨rfl, rfl⟩ | ⟨rfl, rfl⟩ <;> simp only [Nk.sk, Nk.timestamp] at * <;> omega
  constructor
  · exact new.len
  · rw [Cell.id_put _ (by rcases place with ⟨rfl, -⟩ | ⟨rfl, -⟩ <;> decide)]
    exact new.id
  · exact (kept 4 Nk.parent (by decide)).trans new.parent
  · exact (kept 4 Nk.nrSubkeys (by decide)).trans new.nrSubkeys
  · exact (kept 4 Nk.nrValues (by decide)).trans new.nrValues
  · exact (kept 2 Nk.nameLen (by decide)).trans new.nameLen
  · rw [Cell.bytes_put _ (Or.inr (by rcases place with ⟨rfl, rfl⟩ | ⟨rfl, rfl⟩ <;> decide))]
    exact new.name
  · exact (kept 2 Nk.maxSubkeyNameLen (by decide)).trans new.maxSubkeyNameLen
  · exact (kept 4 Nk.maxVkNameLen (by decide)).trans new.maxVkNameLen
  · exact (kept 4 Nk.maxVkDataLen (by decide)).trans new.maxVkDataLen

end Records

/-- `h` has become `g`, which has the record `node` of a new child; the security record of
the parent `c` counts one more reference. -/
structure Prepared (h g : Hive) (parent : Nat) (c : Cell) (name : CString) (node : Nat) : Prop where
  sound : Sound g
  keeps : Keeps h g
  fresh : h.frontier ≤ node
  record : ∃ d, g.cell node = some d ∧ NkNew (parent - 0x1000) name d
  sk : ∃ s, h.cell (c.get32 Nk.sk + 0x1000) = some s ∧ s.id = Sk.id ∧
    g.cell (c.get32 Nk.sk + 0x1000) = some (s.put32 Sk.refcount (s.get32 Sk.refcount + 1))
  others : ∀ x, x ≠ node → x ≠ c.get32 Nk.sk + 0x1000 → g.cell x = h.cell x

/-- The security record of the node fits its block. -/
def SkFits (cells : Cells) (c : Cell) : Prop :=
  ∀ s, cells (c.get32 Nk.sk + 0x1000) = some s → s.id = Sk.id → 20 ≤ s.len

/-- The allocator gives a new block or stops as allowed. -/
def Allocates (host : Host) (h : Hive) (segLen : Nat) (id : List UInt8) (stop : Stop → Hive → Prop) : Prop :=
  wp (allocateBlock host segLen id)
    (fun b g => Wrote h g b (freshCell ((segLen + 7) / 8 * 8) id) ∧ h.frontier ≤ b) stop h

section Preparing
variable {h g : Hive} {host : Host} {parent node : Nat} {c : Cell} {name : CString}
  {stop : Stop → Hive → Prop}

theorem Sound.allocates {segLen : Nat} {id : List UInt8} (sound : Sound h) (below : host.Below4G)
    (idFits : id.length ≤ 2) : Allocates host h segLen id fun _ _ => True :=
  sound.wp_fresh below idFits fun _ _ placed fresh _ => ⟨placed, fresh⟩

-- Where the sizes allow the block, the allocator gives it.
theorem Sound.grants {segLen : Nat} {id : List UInt8} {room : Room} (sound : Sound h) (ample : host.Ample)
    (idFits : id.length ≤ 2) (writable : h.writable = true) (granted : h.room.block host segLen = .ok room) :
    Allocates host h segLen id fun _ _ => False := by
  refine wp_mono (wp_and (sound.allocateBlock ample.below4G idFits) (allocateBlock_decides writable)) ?_ ?_
  · rintro b g ⟨⟨placed, -⟩, -⟩
    exact ⟨placed.becomes.wrote, placed.fresh⟩
  · rintro reason g ⟨⟨-, stopped⟩, ⟨refused, -⟩ | halts⟩
    · rw [granted] at refused
      cases refused
    · rcases stopped with ⟨rfl, unsteady⟩ | rfl | ⟨rfl, -⟩ | ⟨rfl, -⟩ <;>
        rcases halts with same | same <;> cases same

theorem newNkRecord_decided (writable : h.writable = true) (parent : Nat) (name : CString) :
    Decided host [Nk.sizeof + name.strlen] (newNkRecord host parent name) h :=
  (allocateBlock_decided writable).then_quiet fun _ =>
    (Quiet.wrBytes _ _).bind fun _ => (Quiet.wrBytes _ _).bind fun _ =>
    (Quiet.wrBytes _ _).bind fun _ => (Quiet.wrBytes _ _).bind fun _ =>
    (Quiet.wrBytes _ _).bind fun _ => (Quiet.wrBytes _ _).bind fun _ =>
    (Quiet.wrBytes _ _).bind fun _ => (Quiet.wrBytes _ _).bind fun _ => Quiet.pure _

theorem newNkRecord_new (parent : Nat) (name : CString)
    (allocates : Allocates host h (Nk.sizeof + name.strlen) Nk.id stop) :
    wp (newNkRecord host parent name) (fun node g => h.frontier ≤ node ∧
      ∃ len, Nk.sizeof + name.strlen ≤ len ∧ Wrote h g node (nkCell len (parent - 0x1000) name)) stop h := by
  refine wp_seq allocates fun node h₀ ⟨placed, fresh⟩ => ?_
  set len := (Nk.sizeof + name.strlen + 7) / 8 * 8 with lenEq
  have room : Nk.sizeof + name.strlen ≤ len := by omega
  have long : 81 + name.bytes.length ≤ len := room
  have short : ∀ {i v n}, i + n ≤ 80 → i + (leBytes n v).length ≤ len := fun before => by
    rw [leBytes_length]
    omega
  refine (wp_bind _ _ _).mpr (placed.wp_then (by decide) (short (by decide)) fun h₁ w₁ => ?_)
  refine (wp_bind _ _ _).mpr (w₁.wp_then (by decide) (short (by decide)) fun h₂ w₂ => ?_)
  refine (wp_bind _ _ _).mpr (w₂.wp_then (by decide) (short (by decide)) fun h₃ w₃ => ?_)
  refine (wp_bind _ _ _).mpr (w₃.wp_then (by decide) (short (by decide)) fun h₄ w₄ => ?_)
  refine (wp_bind _ _ _).mpr (w₄.wp_then (by decide) (short (by decide)) fun h₅ w₅ => ?_)
  refine (wp_bind _ _ _).mpr (w₅.wp_then (by decide) (short (by decide)) fun h₆ w₆ => ?_)
  refine (wp_bind _ _ _).mpr (w₆.wp_then (by decide) (short (by decide)) fun h₇ w₇ => ?_)
  refine (wp_bind _ _ _).mpr (w₇.wp_then (by decide) ?_ fun h₈ w₈ => ?_)
  · show 80 + (name.bytes ++ [0]).length ≤ len
    rw [List.length_append, List.length_singleton]
    omega
  · exact ⟨fresh, len, room, w₈⟩

theorem Sound.inheritSk (sound : Sound h) (found : h.cell parent = some c) (whole : 80 ≤ c.len)
    (isNk : c.id = Nk.id) (skFits : SkFits h.cell c) {d : Cell} (new : h.cell node = some d)
    (nkNew : NkNew (parent - 0x1000) name d)
    (refused : (∀ s, h.cell (c.get32 Nk.sk + 0x1000) = some s → s.id ≠ Sk.id) → stop (.errno .EFAULT) h) :
    wp (Hivex.inheritSk parent node) (fun _ g => Sound g ∧ Keeps h g ∧
      (∃ d', g.cell node = some d' ∧ NkNew (parent - 0x1000) name d') ∧
      (∃ s, h.cell (c.get32 Nk.sk + 0x1000) = some s ∧ s.id = Sk.id ∧
        g.cell (c.get32 Nk.sk + 0x1000) = some (s.put32 Sk.refcount (s.get32 Sk.refcount + 1))) ∧
      ∀ x, x ≠ node → x ≠ c.get32 Nk.sk + 0x1000 → g.cell x = h.cell x) stop h := by
  have skWord := rd32_cell (i := Nk.sk) sound found (by simp only [Nk.sk]; omega)
  have newLong : 81 + name.strlen ≤ d.len := nkNew.len
  refine (wp_bind _ _ _).mpr (wp_read skWord ?_)
  dsimp only
  refine (wp_bind _ _ _).mpr (wp_read (isValidBlock_view _) ?_)
  cases there : h.cell (c.get32 Nk.sk + 0x1000) with
  | none =>
      rw [valid_eq_isSome, there]
      exact refused fun s found => by
        rw [there] at found
        cases found
  | some s =>
  rw [(cell_some there).1, if_pos rfl]
  refine (wp_bind _ _ _).mpr (wp_read (blockIdEq_cell sound there _) ?_)
  by_cases isSk : s.id = Sk.id
  swap
  · simp only [isSk, decide_false]
    exact refused fun s' found => by
      rw [there] at found
      cases found
      exact isSk
  simp only [isSk, decide_true, if_true]
  have long := skFits s there isSk
  have notNode : c.get32 Nk.sk + 0x1000 ≠ node := by
    intro same
    rw [same, new] at there
    cases there
    have isNk := nkNew.id
    rw [isSk] at isNk
    cases isNk
  have notParent : parent ≠ c.get32 Nk.sk + 0x1000 := by
    intro same
    rw [← same, found] at there
    cases there
    rw [isSk] at isNk
    cases isNk
  have count := rd32_cell (i := Sk.refcount) sound there (by simp only [Sk.refcount]; omega)
  refine (wp_bind _ _ _).mpr (wp_read count ?_)
  refine (wp_bind _ _ _).mpr (sound.wp_wrote there (by decide)
    (by rw [leBytes_length]; simp only [Sk.refcount]; omega) fun h₁ counted => ?_)
  refine (wp_bind _ _ _).mpr (counted.sound.wp_wrote (counted.found notNode.symm new) (by decide)
    (by rw [leBytes_length]; simp only [Nk.sk]; omega) fun h₂ second => ?_)
  have parent₂ : ∃ p, h₂.cell parent = some p ∧ 80 ≤ p.len := by
    by_cases same : parent = node
    · exact ⟨_, same ▸ second.here, by simp only [Cell.blit_len]; omega⟩
    · exact ⟨c, second.found same (counted.found notParent found), whole⟩
  obtain ⟨p, found₂, long₂⟩ := parent₂
  have stamp := rd64_cell (i := Nk.timestamp) second.sound found₂ (by simp only [Nk.timestamp]; omega)
  refine (wp_bind _ _ _).mpr (wp_read stamp ?_)
  refine second.wp_then (by decide)
    (by rw [leBytes_length]; simp only [Nk.timestamp, Cell.blit_len]; omega) fun h₃ last => ?_
  refine ⟨last.sound, counted.keeps.trans last.keeps, ⟨_, last.here, ?_⟩, ⟨s, rfl, isSk, ?_⟩, ?_⟩
  · exact (nkNew.put (Or.inl ⟨rfl, rfl⟩)).put (Or.inr ⟨rfl, rfl⟩)
  · rw [last.others _ notNode]
    exact counted.here
  · intro x other notSk
    rw [last.others x other, counted.others x notSk]

theorem Sound.prepares (sound : Sound h) (found : h.cell parent = some c) (whole : 80 ≤ c.len)
    (isNk : c.id = Nk.id) (skFits : SkFits h.cell c)
    (allocates : Allocates host h (Nk.sizeof + name.strlen) Nk.id stop)
    (refused : ∀ g, (∀ s, h.cell (c.get32 Nk.sk + 0x1000) = some s → s.id ≠ Sk.id) → stop (.errno .EFAULT) g)
    (writable : h.writable = true) {β : Type} {next : Nat → Command β} {post : β → Hive → Prop}
    (continues : ∀ node g, Prepared h g parent c name node →
      h.room.blocks host [Nk.sizeof + name.strlen] = .ok g.room → wp (next node) post stop g) :
    wp (newNkRecord host parent name >>= fun node => Hivex.inheritSk parent node >>= fun _ =>
      next node) post stop h := by
  refine wp_seq (wp_mono (wp_and (newNkRecord_new parent name allocates)
    (newNkRecord_decided writable parent name)) (fun _ _ both => both) fun _ _ both => both.1) ?_
  rintro node g₀ ⟨⟨fresh, len, room, placed⟩, taken, -⟩
  have apart := sound.fresh_apart fresh found
  have skFits₀ : SkFits g₀.cell c := by
    intro s there isSk
    by_cases same : c.get32 Nk.sk + 0x1000 = node
    · rw [same, placed.here] at there
      cases there
      have isNk := (nkCell_new room : NkNew (parent - 0x1000) name _).id
      rw [isSk] at isNk
      cases isNk
    · exact skFits s ((placed.others _ same).symm.trans there) isSk
  have refused₀ : (∀ s, g₀.cell (c.get32 Nk.sk + 0x1000) = some s → s.id ≠ Sk.id) →
      stop (.errno .EFAULT) g₀ := fun none => refused g₀ fun s there =>
    none s (placed.found (sound.fresh_apart fresh there) there)
  refine wp_seq (wp_mono (wp_and (placed.sound.inheritSk (placed.found apart found) whole isNk skFits₀
    placed.here (nkCell_new room) refused₀) (Steady.inheritSk parent node g₀)) (fun _ _ both => both)
    fun _ _ both => both.1) ?_
  rintro _ g ⟨⟨sound', keeps, record, sk, others⟩, sameRoom, -⟩
  obtain ⟨s, there, isSk, counted⟩ := sk
  have notNode : c.get32 Nk.sk + 0x1000 ≠ node := by
    intro same
    rw [same, placed.here] at there
    cases there
    have isNk := (nkCell_new room : NkNew (parent - 0x1000) name _).id
    rw [isSk] at isNk
    cases isNk
  apply continues
  · refine ⟨sound', placed.keeps.trans keeps, fresh, record, ⟨s, ?_, isSk, counted⟩, ?_⟩
    · rw [← placed.others _ notNode]
      exact there
    · intro x other notSk
      rw [others x other notSk, placed.others x other]
  · rw [sameRoom]
    exact taken

end Preparing

/-- `m` has the key offsets of `l` at the positions `js`, taken from `source`. -/
structure Copied (l m m' : Cell) (source : Nat → Nat) (js : List Nat) : Prop where
  len : m'.len = m.len
  id : m'.id = m.id
  nrKeys : m'.get16 Lf.nrKeys = m.get16 Lf.nrKeys
  copied : ∀ j ∈ js, m'.get32 (Lf.keyOffset j) = l.get32 (Lf.keyOffset (source j))
  others : ∀ j, j ∉ js → m'.get32 (Lf.keyOffset j) = m.get32 (Lf.keyOffset j)

section Keys
variable {h g : Hive} {host : Host} {old new node : Nat} {l m : Cell} {source : Nat → Nat}

theorem Cell.get_blit_bytes (c d : Cell) {i j n k : Nat} (shorter : k ≤ n) :
    (c.blit i (d.bytes j n)).get k i = d.get k j := by
  apply getLe_congr
  intro a inside
  have length : (d.bytes j n).length = n := slice_length _ _ _
  have before : a < (d.bytes j n).length := by omega
  refine (blit_inside _ _ _ _ before).trans ?_
  simp [Cell.bytes, slice]

theorem Copied.blit (l m : Cell) (fromPosn toPosn : Nat) (source : Nat → Nat)
    (same : source toPosn = fromPosn) :
    Copied l m (m.blit (Lf.keyOffset toPosn) (l.bytes (Lf.keyOffset fromPosn) 8)) source [toPosn] := by
  have length : (l.bytes (Lf.keyOffset fromPosn) 8).length = 8 := slice_length _ _ _
  constructor
  · rfl
  · exact Cell.id_blit _ (by simp only [Lf.keyOffset]; omega)
  · exact Cell.get_blit _ (Or.inl (by simp only [Lf.keyOffset, Lf.nrKeys]; omega))
  · intro j member
    rw [List.mem_singleton.mp member, same]
    exact Cell.get_blit_bytes _ _ (by decide)
  · intro j other
    apply Cell.get_blit
    have apart : j ≠ toPosn := fun here => other (by simp [here])
    rw [length]
    simp only [Lf.keyOffset]
    omega

theorem Wrote.copyKey (wrote : Wrote h g new m) (found : h.cell old = some l) (apart : old ≠ new)
    {fromPosn toPosn : Nat} (inside : 8 + 8 * fromPosn + 8 ≤ l.len) (room : 8 + 8 * toPosn + 8 ≤ m.len) :
    wp (Hivex.copyKey old new fromPosn toPosn) (fun _ g' => Wrote h g' new
      (m.blit (Lf.keyOffset toPosn) (l.bytes (Lf.keyOffset fromPosn) 8))) (fun _ _ => True) g := by
  have key := rdBytes_cell (i := Lf.keyOffset fromPosn) (n := 8) wrote.sound (wrote.found apart found)
    (by simp only [Lf.keyOffset]; omega)
  refine (wp_bind _ _ _).mpr (wp_read key ?_)
  have length : (l.bytes (Lf.keyOffset fromPosn) 8).length = 8 := slice_length _ _ _
  exact wrote.wp_then (by simp only [Lf.keyOffset]; omega)
    (by rw [length]; simp only [Lf.keyOffset]; omega) fun g' next => next

theorem Wrote.copyKeys (wrote : Wrote h g new m) (found : h.cell old = some l) (apart : old ≠ new)
    (source : Nat → Nat) (js : List Nat) (inside : ∀ j ∈ js, 8 + 8 * source j + 8 ≤ l.len ∧ 8 + 8 * j + 8 ≤ m.len) :
    wp (js.forM fun j => Hivex.copyKey old new (source j) j)
      (fun _ g' => ∃ m', Wrote h g' new m' ∧ Copied l m m' source js) (fun _ _ => True) g := by
  induction js generalizing g m with
  | nil => exact ⟨m, wrote, rfl, rfl, rfl, by simp, fun _ _ => rfl⟩
  | cons j rest ih =>
      have here := inside j (by simp)
      refine wp_seq (wrote.copyKey found apart here.1 here.2) fun _ g₁ first => ?_
      have one := Copied.blit l m (source j) j source rfl
      refine wp_mono (ih first fun k member => ?_) ?_ fun _ _ _ => trivial
      · rw [one.len]
        exact inside k (List.mem_cons_of_mem _ member)
      · rintro _ g' ⟨m', wrote', later⟩
        refine ⟨m', wrote', later.len.trans one.len, later.id.trans one.id,
          later.nrKeys.trans one.nrKeys, fun k member => ?_, fun k other => ?_⟩
        · by_cases again : k ∈ rest
          · exact later.copied k again
          · rw [later.others k again]
            exact one.copied k (by
              rcases List.mem_cons.mp member with rfl | inRest
              · simp
              · exact absurd inRest again)
        · rw [List.mem_cons, not_or] at other
          rw [later.others k other.2]
          exact one.others k (by simp [other.1])

/-- The keys of `l` with `node` before the key at `posn`. -/
def insertedKeys (l : Cell) (posn node : Nat) : List Nat := l.keys.take posn ++ node :: l.keys.drop posn

/-- `h` has become `g`, in which the lf/lh-record `new` has replaced `old`. -/
structure Inserted (h g : Hive) (old new posn node : Nat) (l : Cell) : Prop where
  sound : Sound g
  keeps : Keeps h g
  fresh : h.frontier ≤ new
  gone : g.cell old = none
  record : ∃ m, g.cell new = some m ∧ m.id = l.id ∧ m.get16 Lf.nrKeys = l.get16 Lf.nrKeys + 1 ∧
    8 + 8 * m.get16 Lf.nrKeys ≤ m.len ∧ m.keys = insertedKeys l posn node
  others : ∀ x, x ≠ old → x ≠ new → g.cell x = h.cell x

theorem keys_eq_inserted {posn : Nat} (inside : posn ≤ l.get16 Lf.nrKeys)
    (total : m.get16 Lf.nrKeys = l.get16 Lf.nrKeys + 1)
    (before : ∀ j < posn, m.get32 (Lf.keyOffset j) = l.get32 (Lf.keyOffset j))
    (here : m.get32 (Lf.keyOffset posn) + 0x1000 = node)
    (behind : ∀ j, posn < j → j ≤ l.get16 Lf.nrKeys →
      m.get32 (Lf.keyOffset j) = l.get32 (Lf.keyOffset (j - 1))) : m.keys = insertedKeys l posn node := by
  have length : l.keys.length = l.get16 Lf.nrKeys := keys_length l
  have front : (l.keys.take posn).length = posn := by
    rw [List.length_take, length]
    omega
  apply List.ext_getElem
  · simp only [insertedKeys, keys_length, List.length_append, List.length_cons, front, List.length_drop]
    omega
  · intro j inKeys _
    rw [keys_length] at inKeys
    simp only [insertedKeys]
    rcases Nat.lt_trichotomy j posn with low | same | high
    · rw [List.getElem_append_left (by omega), List.getElem_take]
      simp only [Cell.keys, List.getElem_map, List.getElem_range, before j low]
    · subst same
      rw [List.getElem_append_right (by omega)]
      simp only [Cell.keys, List.getElem_map, List.getElem_range, here]
      simp [List.length_take, Nat.min_eq_left inside]
    · rw [List.getElem_append_right (by omega)]
      have shift : j - (l.keys.take posn).length = (j - posn - 1) + 1 := by omega
      simp only [shift, List.getElem_cons_succ, List.getElem_drop]
      have back : posn + (j - posn - 1) = j - 1 := by omega
      simp only [Cell.keys, List.getElem_map, List.getElem_range, behind j high (by omega), back]

theorem wp_requireValid {post : Unit → Hive → Prop} {stop : Stop → Hive → Prop} {off : Nat}
    (valid : h.valid off = true) (holds : post () h) : wp (requireValid off) post stop h :=
  (wp_bind _ _ _).mpr (wp_read (isValidBlock_view off) (wp_assert valid holds))

theorem Sound.insertLfRecord (sound : Sound h) (below : host.Below4G) (writable : h.writable = true)
    (found : h.cell old = some l) (id : l.id = Lf.idLf ∨ l.id = Lf.idLh)
    (fits : 8 + 8 * l.get16 Lf.nrKeys ≤ l.len) (few : l.get16 Lf.nrKeys < 65535) {posn : Nat}
    (inside : posn ≤ l.get16 Lf.nrKeys) (low : 0x1000 ≤ node) (small : node < 2 ^ 32) (name : CString) :
    wp (Hivex.insertLfRecord host old posn name node) (fun new g => Inserted h g old new posn node l)
      (fun _ _ => True) h := by
  have bounds := sound.cell_bounds found
  refine (wp_bind _ _ _).mpr (wp_requireValid (cell_some found).1 ?_)
  refine (wp_bind _ _ _).mpr (wp_read (rdBytes_cell (i := 4) (n := 2) sound found (by omega)) ?_)
  refine (wp_bind _ _ _).mpr (wp_assert (decide_eq_true id) ?_)
  refine (wp_bind _ _ _).mpr (wp_read (rd16_cell (i := Lf.nrKeys) sound found (by
    simp only [Lf.nrKeys]; omega)) ?_)
  dsimp only
  have twoBytes : (l.bytes 4 2).length = 2 := slice_length _ _ _
  refine (wp_bind _ _ _).mpr (sound.wp_fresh below (by rw [twoBytes]) fun new h₁ placed fresh _ => ?_)
  set count := l.get16 Lf.nrKeys with countEq
  set len := (Lf.sizeof + (count + 1 - 1) * 8 + 7) / 8 * 8 with lenEq
  have room : 16 + 8 * count ≤ len := by
    simp only [Lf.sizeof] at lenEq
    omega
  have apart := sound.fresh_apart fresh found
  have newId : (freshCell len (l.bytes 4 2)).id = l.id := freshCell_id twoBytes
  refine (wp_bind _ _ _).mpr (placed.wp_then (by decide)
    (by rw [leBytes_length]; simp only [Lf.nrKeys, freshCell]; omega) fun h₂ numbered => ?_)
  set m₀ := (freshCell len (l.bytes 4 2)).blit Lf.nrKeys (leBytes 2 (count + 1)) with m₀Eq
  have long : m₀.len = len := rfl
  have id₀ : m₀.id = l.id := (Cell.id_blit _ (by decide)).trans newId
  have count₀ : m₀.get16 Lf.nrKeys = count + 1 := by
    have stored : m₀.get16 Lf.nrKeys = (count + 1) % 256 ^ 2 := Cell.get_put_same _ _ _ _
    rw [stored]
    omega
  refine wp_seq (numbered.copyKeys found apart (fun j => j) (List.range posn) fun j member => ?_) ?_
  · have below := List.mem_range.mp member
    rw [long]
    omega
  rintro _ h₃ ⟨m₁, wrote₁, first⟩
  have long₁ : m₁.len = len := first.len
  refine (wp_bind _ _ _).mpr (wrote₁.wp_then (by simp only [Lf.keyOffset]; omega)
    (by rw [leBytes_length, long₁]; simp only [Lf.keyOffset]; omega) fun h₄ linked => ?_)
  have hashed := calcHash_length (l.bytes 4 2) name
  refine (wp_bind _ _ _).mpr (linked.wp_then (by simp only [Lf.keyHash]; omega)
    (by rw [Cell.blit_len, long₁]; simp only [Lf.keyHash]; omega) fun h₅ second => ?_)
  set m₂ := (m₁.blit (Lf.keyOffset posn) (leBytes 4 (node - 0x1000))).blit (Lf.keyHash posn)
    (calcHash (l.bytes 4 2) name) with m₂Eq
  have kept : ∀ n j, j + n ≤ Lf.keyOffset posn ∨ Lf.keyOffset (posn + 1) ≤ j → m₂.get n j = m₁.get n j := by
    intro n j apart
    simp only [Lf.keyOffset] at apart
    rw [m₂Eq, Cell.get_blit _ (by simp only [Lf.keyHash]; omega),
      Cell.get_blit _ (by rw [leBytes_length]; simp only [Lf.keyOffset]; omega)]
  have own : m₂.get32 (Lf.keyOffset posn) + 0x1000 = node := by
    rw [m₂Eq, Cell.get32, Cell.get_blit _ (Or.inl (by simp only [Lf.keyOffset, Lf.keyHash]; omega))]
    have stored : (m₁.blit (Lf.keyOffset posn) (leBytes 4 (node - 0x1000))).get 4 (Lf.keyOffset posn) =
        (node - 0x1000) % 256 ^ 4 := Cell.get_put_same _ _ _ _
    rw [stored]
    omega
  refine wp_seq (second.copyKeys found apart (fun j => j - 1)
    (List.range' (posn + 1) (count + 1 - (posn + 1))) fun j member => ?_) ?_
  · have range := List.mem_range'_1.mp member
    have length : m₂.len = len := long₁
    rw [length]
    omega
  rintro _ h₆ ⟨m₃, wrote₃, third⟩
  refine (wp_bind _ _ _).mpr (wrote₃.sound.wp_free (wrote₃.keeps.writable.trans writable)
    (wrote₃.found apart found) fun h₇ becomes => ?_)
  have back : ∀ j, j < posn ∨ j = posn → m₃.get32 (Lf.keyOffset j) = m₂.get32 (Lf.keyOffset j) := by
    intro j before
    apply third.others
    rw [List.mem_range'_1]
    omega
  have keys : m₃.keys = insertedKeys l posn node := by
    apply keys_eq_inserted inside
    · rw [third.nrKeys, Cell.get16, kept _ _ (Or.inl (by simp only [Lf.keyOffset, Lf.nrKeys]; omega))]
      exact first.nrKeys.trans count₀
    · intro j before
      rw [back j (Or.inl before), Cell.get32, kept _ _ (Or.inl (by simp only [Lf.keyOffset]; omega))]
      exact first.copied j (List.mem_range.mpr before)
    · rw [back posn (Or.inr rfl)]
      exact own
    · intro j behind most
      apply third.copied
      rw [List.mem_range'_1]
      omega
  have total : m₃.get16 Lf.nrKeys = count + 1 := by
    rw [third.nrKeys, Cell.get16, kept _ _ (Or.inl (by simp only [Lf.keyOffset, Lf.nrKeys]; omega))]
    exact first.nrKeys.trans count₀
  refine ⟨becomes.sound, wrote₃.keeps.trans becomes.keeps, fresh, ?_, ⟨m₃, ?_, ?_, total, ?_, keys⟩, ?_⟩
  · rw [becomes.cells, Function.update_self]
  · rw [becomes.cells, Function.update_of_ne apart.symm]
    exact wrote₃.here
  · rw [third.id, m₂Eq, Cell.id_blit _ (by simp only [Lf.keyHash]; omega),
      Cell.id_blit _ (by simp only [Lf.keyOffset]; omega)]
    exact first.id.trans id₀
  · have length : m₃.len = len := third.len.trans long₁
    rw [total, length]
    omega
  · intro x notOld notNew
    rw [becomes.cells, Function.update_of_ne notOld, wrote₃.others x notNew]

end Keys

/-- A program that leaves the handle as it is. -/
def Inert {α : Type} (program : Command α) : Prop :=
  ∀ h, wp program (fun _ h' => h' = h) (fun _ _ => True) h

section Finding
variable {α β : Type} {h : Hive}

theorem Inert.pure (value : α) : Inert (pure value : Command α) := fun _ => rfl

theorem Inert.read (query : Reader α) : Inert (Hivex.read query) := fun _ => wp_reads fun _ => rfl

theorem Inert.bind {first : Command α} {next : α → Command β} (inert : Inert first)
    (continues : ∀ value, Inert (next value)) : Inert (first >>= next) := fun h =>
  wp_seq (inert h) fun value h' same => same ▸ continues value h'

theorem Inert.assert (condition : Bool) : Inert (Hivex.assert condition) := by
  intro h
  cases condition
  · trivial
  · rfl

theorem Inert.tryRead (query : Reader α) : Inert (Hivex.tryRead id query) := by
  intro h
  refine (wp_attempt _ _ _).mpr ?_
  refine (wp_look _ _ _).mpr ?_
  generalize query (id h).view = result
  cases result with
  | ok value => rfl
  | error reason => cases reason <;> trivial

theorem Inert.then {first : Command α} {next : α → Command β} {post : β → Hive → Prop}
    (inert : Inert first) (continues : ∀ value, wp (next value) post (fun _ _ => True) h) :
    wp (first >>= next) post (fun _ _ => True) h :=
  wp_seq (inert h) fun value _ same => same ▸ continues value

theorem Inert.compareNameWithNkName (name : CString) (nkOffs : Nat) :
    Inert (Hivex.compareNameWithNkName name nkOffs) := by
  refine ((Inert.read _).bind fun _ => Inert.assert _).bind fun _ => ?_
  refine (Inert.read _).bind fun _ => (Inert.assert _).bind fun _ => ?_
  refine (Inert.tryRead _).bind fun result => ?_
  cases result with
  | error code => exact Inert.pure _
  | ok bytes => exact Inert.pure _

-- The place found lies in the list.
theorem findGreater_place (name : CString) (lf : Nat) (js : List Nat) :
    wp (findGreater name lf js) (fun found h' => h' = h ∧ ∀ j, found = some j → j ∈ js)
      (fun _ _ => True) h := by
  induction js with
  | nil => exact ⟨rfl, by simp⟩
  | cons j rest ih =>
      refine (Inert.read _).then fun offset => (Inert.compareNameWithNkName name _).then fun order => ?_
      split
      · refine ⟨rfl, fun k isHere => ?_⟩
        rw [Option.some.inj isHere]
        exact List.mem_cons_self
      · refine wp_mono ih (fun found h' ⟨same, inside⟩ => ⟨same, fun k isHere => ?_⟩) fun _ _ _ => trivial
        exact List.mem_cons_of_mem _ (inside k isHere)

/-- A place for a new key: a position in a list of the node. -/
def Place (cells : Cells) (blocks : List Nat) (place : Nat × Nat) : Prop :=
  place.1 ∈ blocks ∧ ∃ l, cells place.1 = some l ∧ (l.id = Lf.idLf ∨ l.id = Lf.idLh) ∧
    place.2 ≤ l.get16 Lf.nrKeys

theorem findInsert_place (sound : Sound h) (name : CString) (blocks : List Nat)
    (cells : ∀ b ∈ blocks, ∃ l, h.cell b = some l) (last : Option Nat) (all : List Nat)
    (within : ∀ b ∈ blocks, b ∈ all)
    (seen : ∀ b, last = some b → b ∈ all ∧ ∃ l, h.cell b = some l ∧ (l.id = Lf.idLf ∨ l.id = Lf.idLh)) :
    wp (findInsert name last blocks) (fun place h' => h' = h ∧ Place h.cell all place)
      (fun _ _ => True) h := by
  induction blocks generalizing last with
  | nil =>
      cases last with
      | none => trivial
      | some b =>
          obtain ⟨member, l, found, isLf⟩ := seen b rfl
          have bounds := sound.cell_bounds found
          have nrKeys := rd16_cell (i := Lf.nrKeys) sound found (by simp only [Lf.nrKeys]; omega)
          refine (wp_bind _ _ _).mpr (wp_assert rfl ?_)
          refine (wp_bind _ _ _).mpr (wp_read nrKeys ?_)
          exact ⟨rfl, member, l, found, isLf, Nat.le_refl _⟩
  | cons block rest ih =>
      obtain ⟨l, found⟩ := cells block (by simp)
      have bounds := sound.cell_bounds found
      have later := fun last seen => ih (fun b member => cells b (List.mem_cons_of_mem _ member)) last
        (fun b member => within b (List.mem_cons_of_mem _ member)) seen
      refine (wp_bind _ _ _).mpr (wp_read (rdBytes_cell (i := 4) (n := 2) sound found (by omega)) ?_)
      split
      · next id =>
        have isLf : l.id = Lf.idLf ∨ l.id = Lf.idLh := id
        have nrKeys := rd16_cell (i := Lf.nrKeys) sound found (by simp only [Lf.nrKeys]; omega)
        refine (wp_bind _ _ _).mpr (wp_read nrKeys ?_)
        refine wp_seq (findGreater_place name block _) fun greater h' ⟨same, inside⟩ => ?_
        subst same
        cases greater with
        | some j =>
            refine ⟨rfl, within block (by simp), l, found, isLf, ?_⟩
            exact (List.mem_range.mp (inside j rfl)).le
        | none =>
            refine later (some block) fun b isBlock => ?_
            obtain rfl := Option.some.inj isBlock
            exact ⟨within block (by simp), l, found, isLf⟩
      · exact later last seen

end Finding

/-- `h` has become `g`, in which the ri-record `ri` names `new` in the place of `old`. -/
def Relinked (h g : Hive) (ri : Nat) (r : Cell) (old new : Nat) : Prop :=
  ∃ r' front back, Wrote h g ri r' ∧ r'.id = r.id ∧ r'.len = r.len ∧
    r'.get16 Ri.nrOffsets = r.get16 Ri.nrOffsets ∧ r.lists = front ++ old :: back ∧
    r'.lists = front ++ new :: back

section Linking
variable {h g : Hive} {host : Host} {ri old new node parent : Nat} {r c : Cell} {name : CString}

theorem lists_put (r : Cell) {j v : Nat} {front back : List Nat}
    (split : List.range (r.get16 Ri.nrOffsets) = front ++ j :: back) (small : v < 2 ^ 32) :
    (r.put32 (Ri.offset j) v).lists = front.map (fun i => r.get32 (Ri.offset i) + 0x1000) ++
      (v + 0x1000) :: back.map fun i => r.get32 (Ri.offset i) + 0x1000 := by
  have count : (r.put32 (Ri.offset j) v).get16 Ri.nrOffsets = r.get16 Ri.nrOffsets :=
    Cell.get_put _ (Or.inl (by simp only [Ri.nrOffsets, Ri.offset]; omega))
  have distinct : (front ++ j :: back).Nodup := split ▸ List.nodup_range
  have others : ∀ i, i ≠ j → (r.put32 (Ri.offset j) v).get32 (Ri.offset i) = r.get32 (Ri.offset i) :=
    fun i other => Cell.get_put _ (by simp only [Ri.offset]; omega)
  have here : (r.put32 (Ri.offset j) v).get32 (Ri.offset j) = v := by
    rw [Cell.get32, Cell.get_put_same]
    omega
  rw [Cell.lists, count, split, List.map_append, List.map_cons, here]
  have apart := List.nodup_append.mp distinct
  congr 1
  · exact List.map_congr_left fun i member => by
      rw [others i fun same => apart.2.2 i member j (by simp) same]
  · congr 1
    exact List.map_congr_left fun i member => by
      rw [others i fun same => (List.nodup_cons.mp apart.2.1).1 (same ▸ member)]

-- The literal in front: behind it, a unifier would count it down.
theorem relinkEntry_cons (ri old new j : Nat) (rest : List Nat) :
    Hivex.relinkEntry ri old new (j :: rest) = (do
      let offset ← read (rd32 ri (Ri.offset j))
      if (0x1000 + offset) % 2 ^ 32 = old then
        wr32 (ri + Ri.offset j) (new - 0x1000)
        return true
      Hivex.relinkEntry ri old new rest) := by
  simp only [Hivex.relinkEntry, Nat.add_comm _ 0x1000]

theorem wp_branch {α : Type} {condition : Prop} [Decidable condition] {yes no : Command α}
    {post : α → Hive → Prop} {stop : Stop → Hive → Prop} (left : condition → wp yes post stop h)
    (right : ¬condition → wp no post stop h) : wp (if condition then yes else no) post stop h := by
  split
  · exact left ‹_›
  · exact right ‹_›

theorem Sound.relinkEntry (sound : Sound h) (found : h.cell ri = some r)
    (room : 8 + 4 * r.get16 Ri.nrOffsets ≤ r.len) (low : 0x1000 ≤ old) (small : old < 2 ^ 32)
    (lowNew : 0x1000 ≤ new) (smallNew : new < 2 ^ 32) (front js : List Nat)
    (split : List.range (r.get16 Ri.nrOffsets) = front ++ js) :
    wp (Hivex.relinkEntry ri old new js) (fun linked g =>
      linked = false ∧ (∀ j ∈ js, r.get32 (Ri.offset j) + 0x1000 ≠ old) ∨
      linked = true ∧ Relinked h g ri r old new) (fun _ _ => True) h := by
  induction js generalizing front with
  | nil => exact Or.inl ⟨rfl, by simp⟩
  | cons j rest ih =>
      have inside : j < r.get16 Ri.nrOffsets := by
        apply List.mem_range.mp
        rw [split]
        simp
      have word := rd32_cell (i := Ri.offset j) sound found (by simp only [Ri.offset]; omega)
      have limit := r.get32_lt (Ri.offset j)
      rw [relinkEntry_cons]
      generalize sub : new - 0x1000 = v
      refine (wp_bind _ _ _).mpr (wp_read word ?_)
      refine wp_branch (fun same => ?_) fun same => ?_
      · have isOld : r.get32 (Ri.offset j) + 0x1000 = old := by omega
        refine (wp_bind _ _ _).mpr (sound.wp_wrote found (by simp only [Ri.offset]; omega)
          (by rw [leBytes_length]; simp only [Ri.offset]; omega) fun g wrote => ?_)
        have put := lists_put r split (show v < 2 ^ 32 by omega)
        rw [show v + 0x1000 = new by omega] at put
        refine (wp_pure _ _).mpr (Or.inr ⟨rfl, r.put32 (Ri.offset j) v, _, _, wrote, ?_,
          Cell.put_len _ _ _ _, ?_, ?_, put⟩)
        · exact Cell.id_put _ (by simp only [Ri.offset]; omega)
        · exact Cell.get_put _ (Or.inl (by simp only [Ri.nrOffsets, Ri.offset]; omega))
        · rw [Cell.lists, split, List.map_append, List.map_cons, isOld]
      · have notOld : r.get32 (Ri.offset j) + 0x1000 ≠ old := by omega
        refine wp_mono (ih (front ++ [j]) (by rw [split]; simp)) ?_ fun _ _ _ => trivial
        rintro linked g (⟨none, apart⟩ | done)
        · refine Or.inl ⟨none, fun k member => ?_⟩
          rcases List.mem_cons.mp member with rfl | later
          · exact notOld
          · exact apart k later
        · exact Or.inr done

theorem Sound.relinkRi (sound : Sound h) (found : h.cell ri = some r) (isRi : r.id = Ri.id)
    (room : 8 + 4 * r.get16 Ri.nrOffsets ≤ r.len) (low : 0x1000 ≤ old) (small : old < 2 ^ 32)
    (lowNew : 0x1000 ≤ new) (smallNew : new < 2 ^ 32) (listed : old ∈ r.lists) (lfs : List Nat) :
    wp (Hivex.relinkRi old new (ri :: lfs)) (fun _ g => Relinked h g ri r old new)
      (fun _ _ => True) h := by
  have bounds := sound.cell_bounds found
  refine (wp_bind _ _ _).mpr (wp_read (blockIdEq_cell sound found _) ?_)
  rw [if_pos (decide_eq_true isRi)]
  refine (wp_bind _ _ _).mpr (wp_read (rd16_cell (i := Ri.nrOffsets) sound found (by
    simp only [Ri.nrOffsets]; omega)) ?_)
  refine wp_seq (sound.relinkEntry found room low small lowNew smallNew [] _ rfl) ?_
  rintro linked g (⟨_, apart⟩ | ⟨rfl, done⟩)
  · obtain ⟨j, member, isOld⟩ := List.mem_map.mp listed
    exact absurd isOld (apart j member)
  · exact done

end Linking

/-- The record `c` of a node, whose pointer to the subkey lists may have changed. -/
def Repointed (c c' : Cell) : Prop := c' = c ∨ ∃ v, c' = c.put32 Nk.subkeyLf v

/-- `g` has become `k`, in which `node` is among the keys `kids` of the parent `c`. The lists
of the parent, `blocks` before, have been changed, freed or joined by a new one. -/
structure Joined (g k : Hive) (parent node : Nat) (c : Cell) (blocks kids : List Nat) : Prop where
  sound : Sound k
  keeps : Keeps g k
  lists : ∃ c' ris lfs, k.cell parent = some c' ∧ Repointed c c' ∧ HasLists k.cell c' ris lfs ∧ lfs.Nodup ∧
    (∀ b ∈ ris ++ lfs, b ∈ blocks ∨ g.frontier ≤ b) ∧ (∀ b ∈ blocks, b ∉ ris ++ lfs → k.cell b = none) ∧
    ∃ front back, kids = front ++ back ∧ lfs.flatMap k.cell.keysOf = front ++ node :: back
  others : ∀ x d, g.cell x = some d → x ≠ parent → x ∉ blocks → k.cell x = some d

section Joining
variable {g h : Hive} {host : Host} {parent node b : Nat} {c l m : Cell} {ris lfs : List Nat}
  {stop : Stop → Hive → Prop}

theorem newLhRecord_new (low : 0x1000 ≤ node) (small : node < 2 ^ 32) (name : CString)
    (allocates : Allocates host g Lf.sizeof Lf.idLh stop) :
    wp (newLhRecord host name node) (fun b k => g.frontier ≤ b ∧ ∃ m, Wrote g k b m ∧
      m.id = Lf.idLh ∧ 8 + 8 * m.get16 Lf.nrKeys ≤ m.len ∧ m.keys = [node]) stop g := by
  refine wp_seq allocates fun b k₀ ⟨placed, fresh⟩ => ?_
  have long : (freshCell ((Lf.sizeof + 7) / 8 * 8) Lf.idLh).len = 16 := rfl
  refine (wp_bind _ _ _).mpr (placed.wp_then (by decide) (by rw [leBytes_length, long]; decide) fun k₁ w₁ => ?_)
  refine (wp_bind _ _ _).mpr (w₁.wp_then (by decide) (by rw [leBytes_length, Cell.blit_len, long]; decide)
    fun k₂ w₂ => ?_)
  have hashed := calcHash_length Lf.idLh name
  refine (wp_bind _ _ _).mpr (w₂.wp_then (by decide) ?_ fun k₃ w₃ => ?_)
  · rw [Cell.blit_len, Cell.blit_len, long]
    simp only [Lf.keyHash]
    omega
  · set m := (((freshCell ((Lf.sizeof + 7) / 8 * 8) Lf.idLh).blit Lf.nrKeys (leBytes 2 1)).blit
      (Lf.keyOffset 0) (leBytes 4 (node - 0x1000))).blit (Lf.keyHash 0) (calcHash Lf.idLh name) with mEq
    have count : m.get16 Lf.nrKeys = 1 := by
      rw [mEq, Cell.get16, Cell.get_blit _ (Or.inl (by decide)), Cell.get_blit _ (Or.inl (by decide))]
      exact Cell.get_put_same _ 2 Lf.nrKeys 1
    have key : m.get32 (Lf.keyOffset 0) = node - 0x1000 := by
      have stored : m.get32 (Lf.keyOffset 0) = (node - 0x1000) % 256 ^ 4 := by
        rw [mEq, Cell.get32, Cell.get_blit _ (Or.inl (by decide))]
        exact Cell.get_put_same _ 4 (Lf.keyOffset 0) (node - 0x1000)
      rw [stored]
      omega
    refine ⟨fresh, m, w₃, ?_, ?_, ?_⟩
    · rw [mEq, Cell.id_blit _ (by decide), Cell.id_blit _ (by decide), Cell.id_blit _ (by decide)]
      exact freshCell_id rfl
    · rw [count]
      exact Nat.le_refl _
    · rw [Cell.keys, count]
      show [m.get32 (Lf.keyOffset 0) + 0x1000] = [node]
      rw [key, Nat.sub_add_cancel low]

theorem put_subkeyLf (c : Cell) {v : Nat} (small : v < 2 ^ 32) :
    (c.put32 Nk.subkeyLf v).get32 Nk.subkeyLf = v := by
  rw [Cell.get32, Cell.get_put_same]
  omega

/-- A single list after the pointer of the parent has been set to it. -/
theorem Wrote.hasLists (wrote : Wrote h g parent (c.put32 Nk.subkeyLf (b - 0x1000))) (apart : b ≠ parent)
    (low : 0x1000 ≤ b) (small : b < 2 ^ 32) (list : h.cell b = some m)
    (id : m.id = Lf.idLf ∨ m.id = Lf.idLh) (fits : 8 + 8 * m.get16 Lf.nrKeys ≤ m.len) :
    HasLists g.cell (c.put32 Nk.subkeyLf (b - 0x1000)) [] [b] ∧ [b].flatMap g.cell.keysOf = m.keys := by
  have found := wrote.found apart list
  have pointer := put_subkeyLf c (v := b - 0x1000) (by omega)
  constructor
  · constructor
    · rw [pointer, Nat.sub_add_cancel low]
      exact Or.inl ⟨rfl, rfl⟩
    · intro lf member
      rw [List.mem_singleton.mp member]
      exact ⟨m, found, id, fits⟩
  · rw [List.flatMap_singleton, keysOf_cell found]

theorem keysOf_length (member : b ∈ lfs) (found : h.cell b = some l) :
    l.get16 Lf.nrKeys ≤ (lfs.flatMap h.cell.keysOf).length := by
  obtain ⟨front, back, rfl⟩ := List.append_of_mem member
  rw [List.flatMap_append, List.flatMap_cons, keysOf_cell found, List.length_append, List.length_append,
    keys_length]
  omega

-- The first child gets a list of its own; an old list is not looked at.
theorem Sound.joinsFirst (sound : Sound g) (small : g.size < 2 ^ 32) (found : g.cell parent = some c)
    (whole : 80 ≤ c.len) (low : 0x1000 ≤ node) (nodeSmall : node < 2 ^ 32) (name : CString)
    (allocates : Allocates host g Lf.sizeof Lf.idLh stop) :
    wp (linkChild host parent node name 0 []) (fun _ k => Joined g k parent node c [] []) stop g := by
  rw [linkChild, if_pos rfl]
  refine (wp_bind _ _ _).mpr ((wp_pure _ _).mpr ?_)
  refine wp_seq (newLhRecord_new low nodeSmall name allocates) fun b k record => ?_
  obtain ⟨fresh, m, placed, id, fits, keys⟩ := record
  have apart := sound.fresh_apart fresh found
  have bounds := placed.sound.cell_bounds placed.here
  have limit := placed.keeps.small small
  refine placed.sound.wp_wrote (placed.found apart found) (by decide)
    (by rw [leBytes_length]; simp only [Nk.subkeyLf]; omega) fun k₁ wrote => ?_
  obtain ⟨lists, total⟩ := wrote.hasLists apart.symm (by omega) (by omega) placed.here (Or.inr id) fits
  constructor
  · exact wrote.sound
  · exact placed.keeps.trans wrote.keeps
  · refine ⟨_, [], [b], wrote.here, Or.inr ⟨_, rfl⟩, lists, List.nodup_singleton b, ?_, ?_, [], [], rfl, ?_⟩
    · intro b' member
      rw [List.mem_singleton.mp member]
      exact Or.inr fresh
    · intro b' member
      cases member
    · rw [total, keys]
      rfl
  · intro x d there other _
    rw [wrote.others x other]
    exact placed.found (sound.fresh_apart fresh there) there

-- As in `relinkEntry_cons`, the literal stands in front.
theorem linkChild_proper (name : CString) {count : Nat} (proper : count ≠ 0) (blocks : List Nat) :
    linkChild host parent node name count blocks = (do
      let (oldOffs, j) ← findInsert name none blocks
      let newOffs ← insertLfRecord host oldOffs j name node
      let subkeyLf ← read (rd32 parent Nk.subkeyLf)
      if (0x1000 + subkeyLf) % 2 ^ 32 = oldOffs then
        wr32 (parent + Nk.subkeyLf) (newOffs - 0x1000)
      else relinkRi oldOffs newOffs blocks) := by
  simp only [linkChild, if_neg proper, Nat.add_comm _ 0x1000]

-- The ri-record of the parent names the new record in the place of the old one.
theorem Inserted.relinked {k k₁ : Hive} {old new j : Nat} {r : Cell} (inserted : Inserted g k old new j node l)
    (sound : Sound g) (found : g.cell parent = some c) (isNk : c.id = Nk.id)
    (lists : HasLists g.cell c [c.get32 Nk.subkeyLf + 0x1000] r.lists)
    (there : g.cell (c.get32 Nk.subkeyLf + 0x1000) = some r) (isRi : r.id = Ri.id)
    (rRoom : 8 + 4 * r.get16 Ri.nrOffsets ≤ r.len) (distinct : r.lists.Nodup) (list : g.cell old = some l)
    (id : l.id = Lf.idLf ∨ l.id = Lf.idLh) (isLeaf : old ∈ r.lists)
    (relinked : Relinked k k₁ (c.get32 Nk.subkeyLf + 0x1000) r old new) :
    Joined g k₁ parent node c ([c.get32 Nk.subkeyLf + 0x1000] ++ r.lists) (r.lists.flatMap g.cell.keysOf) := by
  obtain ⟨r', front, back, wrote, rId', rLen, rCount, before, after⟩ := relinked
  obtain ⟨m, placed, mId, total, room, keys⟩ := inserted.record
  have isLf : m.id = Lf.idLf ∨ m.id = Lf.idLh := by rwa [mId]
  have riOld : c.get32 Nk.subkeyLf + 0x1000 ≠ old := by
    intro same
    rw [same, list] at there
    cases there
    rw [isRi] at id
    exact absurd id (by decide)
  have parentOld : parent ≠ old := by
    rintro rfl
    rw [found] at list
    cases list
    rw [isNk] at id
    exact absurd id (by decide)
  have riNew := sound.fresh_apart inserted.fresh there
  have parentNew := sound.fresh_apart inserted.fresh found
  have found' : k.cell parent = some c := (inserted.others parent parentOld parentNew).trans found
  have riParent : parent ≠ c.get32 Nk.subkeyLf + 0x1000 := by
    intro same
    rw [← same, found] at there
    cases there
    rw [isNk] at isRi
    exact absurd isRi (by decide)
  have listed : ∀ b ∈ front ++ back, ∃ d, g.cell b = some d ∧ (d.id = Lf.idLf ∨ d.id = Lf.idLh) ∧
      8 + 8 * d.get16 Lf.nrKeys ≤ d.len := by
    intro b inRest
    apply lists.leaves
    rw [before]
    rcases List.mem_append.mp inRest with inFront | inBack
    · exact List.mem_append_left _ inFront
    · exact List.mem_append_right _ (List.mem_cons_of_mem _ inBack)
  have kept : ∀ b ∈ front ++ back, k₁.cell b = g.cell b := by
    intro b inRest
    obtain ⟨d, inG, dId, -⟩ := listed b inRest
    have notOld : b ≠ old := by
      rintro rfl
      rw [before] at distinct
      have apart := List.nodup_middle.mp distinct
      exact (List.nodup_cons.mp apart).1 inRest
    have notRi : b ≠ c.get32 Nk.subkeyLf + 0x1000 := by
      rintro rfl
      rw [there] at inG
      cases inG
      rw [isRi] at dId
      exact absurd dId (by decide)
    rw [wrote.others b notRi, inserted.others b notOld (sound.fresh_apart inserted.fresh inG)]
  have placed' : k₁.cell new = some m := (wrote.others new riNew.symm).trans placed
  constructor
  · exact wrote.sound
  · exact inserted.keeps.trans wrote.keeps
  · refine ⟨c, [c.get32 Nk.subkeyLf + 0x1000], r'.lists, ?_, Or.inl rfl, ?_, ?_, ?_, ?_,
      front.flatMap g.cell.keysOf ++ l.keys.take j, l.keys.drop j ++ back.flatMap g.cell.keysOf, ?_, ?_⟩
    · exact (wrote.others parent riParent).trans found'
    · constructor
      · refine Or.inr ⟨rfl, r', wrote.here, rId'.trans isRi, ?_, rfl⟩
        rw [rCount, rLen]
        exact rRoom
      · intro lf member
        rw [after] at member
        rcases List.mem_append.mp member with inFront | isNew
        · obtain ⟨d, inG, rest⟩ := listed lf (List.mem_append_left _ inFront)
          exact ⟨d, (kept lf (List.mem_append_left _ inFront)).trans inG, rest⟩
        · rcases List.mem_cons.mp isNew with rfl | inBack
          · exact ⟨m, placed', isLf, room⟩
          · obtain ⟨d, inG, rest⟩ := listed lf (List.mem_append_right _ inBack)
            exact ⟨d, (kept lf (List.mem_append_right _ inBack)).trans inG, rest⟩
    · rw [after]
      apply List.nodup_middle.mpr
      rw [before] at distinct
      apply List.nodup_cons.mpr
      constructor
      · intro again
        obtain ⟨d, inG, -⟩ := listed new again
        exact sound.fresh_apart inserted.fresh inG rfl
      · exact (List.nodup_cons.mp (List.nodup_middle.mp distinct)).2
    · intro b member
      rw [after] at member
      rcases List.mem_append.mp member with isRi | isLf
      · exact Or.inl (List.mem_append_left _ isRi)
      · by_cases isNew : b = new
        · rw [isNew]
          exact Or.inr inserted.fresh
        · refine Or.inl (List.mem_append_right _ ?_)
          rw [before]
          simp only [List.mem_append, List.mem_cons] at isLf ⊢
          tauto
    · intro b member apart
      have isOld : b = old := by
        rw [before] at member
        rw [after] at apart
        simp only [List.mem_append, List.mem_cons, not_or] at member apart
        tauto
      rw [isOld, wrote.others old riOld.symm]
      exact inserted.gone
    · rw [before, List.flatMap_append, List.flatMap_cons, keysOf_cell list]
      simp only [List.append_assoc]
      rw [← List.append_assoc (l.keys.take j), List.take_append_drop]
    · rw [after, List.flatMap_append, List.flatMap_cons, keysOf_cell placed', keys, insertedKeys,
        keysOf_frame fun b inFront => kept b (List.mem_append_left _ inFront),
        keysOf_frame fun b inBack => kept b (List.mem_append_right _ inBack)]
      simp only [List.append_assoc, List.cons_append]
  · intro x d inG other apart
    have notOld : x ≠ old := fun same => apart (by rw [same]; exact List.mem_append_right _ isLeaf)
    have notRi : x ≠ c.get32 Nk.subkeyLf + 0x1000 := fun same => apart (by rw [same]; simp)
    rw [wrote.others x notRi, inserted.others x notOld (sound.fresh_apart inserted.fresh inG)]
    exact inG


-- The new record takes the place of the old one in the parent or in its ri-record.
theorem Sound.joinsList (sound : Sound g) (below : host.Below4G) (writable : g.writable = true)
    (small : g.size < 2 ^ 32) (found : g.cell parent = some c) (whole : 80 ≤ c.len) (isNk : c.id = Nk.id)
    (children : HasChildren g.cell c ris lfs) (distinct : lfs.Nodup) (low : 0x1000 ≤ node)
    (nodeSmall : node < 2 ^ 32) (name : CString) :
    wp (linkChild host parent node name (c.get32 Nk.nrSubkeys) (ris ++ lfs))
      (fun _ k => Joined g k parent node c (ris ++ lfs) (lfs.flatMap g.cell.keysOf)) (fun _ _ => True) g := by
  rw [linkChild_proper name children.proper]
  refine wp_seq (findInsert_place sound name (ris ++ lfs) (fun b member => ?_) none (ris ++ lfs)
    (fun _ member => member) fun b last => by cases last) ?_
  · obtain ⟨l, there, -⟩ := children.ids b member
    exact ⟨l, there⟩
  rintro ⟨old, j⟩ g' ⟨same, member, l, list, id, inside⟩
  rw [same]
  dsimp only at member list inside ⊢
  have isLeaf : old ∈ lfs := by
    rcases List.mem_append.mp member with isRi | isLf
    · rcases children.shape with ⟨none, -⟩ | ⟨one, r, there, rId, -⟩
      · rw [none] at isRi
        cases isRi
      · rw [one, List.mem_singleton] at isRi
        rw [← isRi, list] at there
        cases there
        rw [rId] at id
        exact absurd id (by decide)
    · exact isLf
  obtain ⟨l', list', -, fits⟩ := children.leaves old isLeaf
  rw [list] at list'
  cases list'
  have few : l.get16 Lf.nrKeys < 65535 := by
    have shorter := keysOf_length isLeaf list
    have count := children.count
    have limit : c.get32 Nk.nrSubkeys ≤ 15000 := children.few
    omega
  refine wp_seq (sound.insertLfRecord below writable list id fits few inside low nodeSmall name) ?_
  intro new k inserted
  obtain ⟨m, placed, mId, total, room, keys⟩ := inserted.record
  have parentOld : parent ≠ old := by
    rintro rfl
    rw [found] at list
    cases list
    rw [isNk] at id
    exact absurd id (by decide)
  have parentNew := sound.fresh_apart inserted.fresh found
  have found' : k.cell parent = some c := (inserted.others parent parentOld parentNew).trans found
  have isLf : m.id = Lf.idLf ∨ m.id = Lf.idLh := by rwa [mId]
  have newBounds := inserted.sound.cell_bounds placed
  have oldBounds := sound.cell_bounds list
  have limit := inserted.keeps.small small
  have word := rd32_cell (i := Nk.subkeyLf) inserted.sound found' (by simp only [Nk.subkeyLf]; omega)
  refine (wp_bind _ _ _).mpr (wp_read word ?_)
  rcases children.shape with ⟨rfl, rfl⟩ | ⟨rfl, r, there, rId, rRoom, rfl⟩
  · have isOld := List.mem_singleton.mp isLeaf
    have here : (0x1000 + c.get32 Nk.subkeyLf) % 2 ^ 32 = old := by omega
    rw [if_pos here]
    refine inserted.sound.wp_wrote found' (by decide)
      (by rw [leBytes_length]; simp only [Nk.subkeyLf]; omega) fun k₁ wrote => ?_
    obtain ⟨lists, flat⟩ := wrote.hasLists parentNew.symm (by omega) (by omega) placed isLf room
    constructor
    · exact wrote.sound
    · exact inserted.keeps.trans wrote.keeps
    · refine ⟨_, [], [new], wrote.here, Or.inr ⟨_, rfl⟩, lists, List.nodup_singleton new, ?_, ?_,
        l.keys.take j, l.keys.drop j, ?_, ?_⟩
      · intro b isNew
        rw [List.mem_singleton.mp isNew]
        exact Or.inr inserted.fresh
      · intro b isBlock _
        rw [List.mem_singleton.mp isBlock, ← isOld]
        exact (wrote.others old parentOld.symm).trans inserted.gone
      · rw [← isOld, List.flatMap_singleton, keysOf_cell list, List.take_append_drop]
      · rw [flat, keys]
        rfl
    · intro x d inG other apart
      have notOld : x ≠ old := fun same => apart (by rw [same]; exact List.mem_append_right _ isLeaf)
      rw [wrote.others x other, inserted.others x notOld (sound.fresh_apart inserted.fresh inG)]
      exact inG
  · have isRi : r.id = Ri.id := rId
    have riOld : c.get32 Nk.subkeyLf + 0x1000 ≠ old := by
      intro same
      rw [same, list] at there
      cases there
      rw [isRi] at id
      exact absurd id (by decide)
    have riBounds := sound.cell_bounds there
    have elsewhere : ¬(0x1000 + c.get32 Nk.subkeyLf) % 2 ^ 32 = old := by omega
    have riNew := sound.fresh_apart inserted.fresh there
    have there' : k.cell (c.get32 Nk.subkeyLf + 0x1000) = some r :=
      (inserted.others _ riOld riNew).trans there
    rw [if_neg elsewhere]
    refine wp_mono (inserted.sound.relinkRi there' isRi rRoom (by omega) (by omega) (by omega) (by omega)
      isLeaf r.lists) ?_ fun _ _ _ => trivial
    exact fun _ k₁ relinked => inserted.relinked sound found isNk children.toHasLists there isRi rRoom
      distinct list id isLeaf relinked

end Joining

/-- The record of the parent with one child more. -/
structure Grown (c c' : Cell) (name : CString) : Prop where
  len : c'.len = c.len
  id : c'.id = c.id
  nrSubkeys : c'.get32 Nk.nrSubkeys = (c.get32 Nk.nrSubkeys + 1) % 2 ^ 32
  maxSubkeyNameLen : c'.get16 Nk.maxSubkeyNameLen =
    if c.get16 Nk.maxSubkeyNameLen < name.strlen * 2 then name.strlen * 2 % 2 ^ 16
    else c.get16 Nk.maxSubkeyNameLen
  kept : ∀ n i, i + n ≤ Nk.nrSubkeys ∨ Nk.subkeyLfVolatile ≤ i ∧ i + n ≤ Nk.maxSubkeyNameLen ∨
    Nk.maxVkNameLen ≤ i → c'.get n i = c.get n i
  name : ∀ n, c'.bytes Nk.name n = c.bytes Nk.name n

/-- `h` has become `g`, which has the child `node` more. The keys of the parent `c` were
`kids`, in the list records `blocks`. -/
structure Added (h g : Hive) (parent node : Nat) (c : Cell) (name : CString) (blocks kids : List Nat) :
    Prop where
  sound : Sound g
  keeps : Keeps h g
  isNk : c.id = Nk.id
  fresh : h.frontier ≤ node
  record : ∃ d, g.cell node = some d ∧ NkNew (parent - 0x1000) name d
  sk : ∃ s, h.cell (c.get32 Nk.sk + 0x1000) = some s ∧ s.id = Sk.id ∧
    g.cell (c.get32 Nk.sk + 0x1000) = some (s.put32 Sk.refcount (s.get32 Sk.refcount + 1))
  old : c.get32 Nk.nrSubkeys = 0 ∧ blocks = [] ∧ kids = [] ∨ ∃ ris lfs, HasLists h.cell c ris lfs ∧
    blocks = ris ++ lfs ∧ kids = lfs.flatMap h.cell.keysOf ∧ kids.length = c.get32 Nk.nrSubkeys
  few : c.get32 Nk.nrSubkeys ≤ hiveMaxSubkeys
  alive : ∀ k ∈ kids, k = node ∨ (h.cell k).isSome
  lists : ∃ c' ris lfs, g.cell parent = some c' ∧ Grown c c' name ∧ HasLists g.cell c' ris lfs ∧ lfs.Nodup ∧
    (∀ b ∈ ris ++ lfs, b ∈ blocks ∨ h.frontier ≤ b) ∧ (∀ b ∈ blocks, b ∉ ris ++ lfs → g.cell b = none) ∧
    ∃ front back, kids = front ++ back ∧ lfs.flatMap g.cell.keysOf = front ++ node :: back
  others : ∀ x d, h.cell x = some d → x ≠ parent → x ∉ blocks → x ≠ c.get32 Nk.sk + 0x1000 →
    g.cell x = some d

section Adding
variable {h g k : Hive} {host : Host} {parent node : Nat} {c c' : Cell} {name : CString} {ris lfs : List Nat}

theorem Repointed.get (repointed : Repointed c c') {n i : Nat}
    (apart : i + n ≤ Nk.subkeyLf ∨ Nk.subkeyLfVolatile ≤ i) : c'.get n i = c.get n i := by
  rcases repointed with rfl | ⟨v, rfl⟩
  · rfl
  · exact Cell.get_put _ apart

theorem Repointed.grown (repointed : Repointed c c') (name : CString) :
    Grown c (if c'.get16 Nk.maxSubkeyNameLen < name.strlen * 2 then
        (c'.put32 Nk.nrSubkeys (c.get32 Nk.nrSubkeys + 1)).put16 Nk.maxSubkeyNameLen (name.strlen * 2)
      else c'.put32 Nk.nrSubkeys (c.get32 Nk.nrSubkeys + 1)) name := by
  have len : c'.len = c.len := by rcases repointed with rfl | ⟨v, rfl⟩ <;> rfl
  have id : c'.id = c.id := by
    rcases repointed with rfl | ⟨v, rfl⟩
    · rfl
    · exact Cell.id_put _ (by decide)
  have bytes : ∀ n, c'.bytes Nk.name n = c.bytes Nk.name n := by
    intro n
    rcases repointed with rfl | ⟨v, rfl⟩
    · rfl
    · exact Cell.bytes_put _ (Or.inr (by decide))
  have max : c'.get16 Nk.maxSubkeyNameLen = c.get16 Nk.maxSubkeyNameLen := repointed.get (Or.inr (by decide))
  rw [max]
  set c₂ := c'.put32 Nk.nrSubkeys (c.get32 Nk.nrSubkeys + 1) with c₂Eq
  have nrSubkeys : c₂.get32 Nk.nrSubkeys = (c.get32 Nk.nrSubkeys + 1) % 2 ^ 32 :=
    Cell.get_put_same c' 4 Nk.nrSubkeys _
  have id₂ : c₂.id = c.id := (Cell.id_put c' (by decide)).trans id
  have name₂ : ∀ n, c₂.bytes Nk.name n = c.bytes Nk.name n :=
    fun n => (Cell.bytes_put c' (Or.inr (by decide))).trans (bytes n)
  have kept₂ : ∀ n i, i + n ≤ Nk.nrSubkeys ∨ Nk.subkeyLfVolatile ≤ i → c₂.get n i = c.get n i := by
    intro n i apart
    simp only [Nk.nrSubkeys, Nk.subkeyLfVolatile] at apart
    rw [c₂Eq, Cell.get_put c' (by simp only [Nk.nrSubkeys]; omega)]
    exact repointed.get (by simp only [Nk.subkeyLf, Nk.subkeyLfVolatile]; omega)
  split
  · next raised =>
    constructor
    · exact len
    · exact (Cell.id_put c₂ (by decide)).trans id₂
    · exact (Cell.get_put c₂ (Or.inl (by decide))).trans nrSubkeys
    · rw [if_pos raised]
      exact Cell.get_put_same c₂ 2 Nk.maxSubkeyNameLen _
    · intro n i apart
      simp only [Nk.nrSubkeys, Nk.subkeyLfVolatile, Nk.maxSubkeyNameLen, Nk.maxVkNameLen] at apart
      rw [Cell.put16, Cell.get_put c₂ (by simp only [Nk.maxSubkeyNameLen]; omega)]
      exact kept₂ n i (by simp only [Nk.nrSubkeys, Nk.subkeyLfVolatile]; omega)
    · exact fun n => (Cell.bytes_put c₂ (Or.inr (by decide))).trans (name₂ n)
  · next kept =>
    constructor
    · exact len
    · exact id₂
    · exact nrSubkeys
    · rw [if_neg kept]
      exact kept₂ 2 Nk.maxSubkeyNameLen (Or.inr (by decide))
    · intro n i apart
      exact kept₂ n i (by
        simp only [Nk.nrSubkeys, Nk.subkeyLfVolatile, Nk.maxSubkeyNameLen, Nk.maxVkNameLen] at *
        omega)
    · exact name₂

/-- The end of `hivexNodeAddChild`: the count and the maximum in the record of the parent. -/
def countChild (parent node : Nat) (name : CString) (nrSubkeys : Nat) : Command Nat := do
  wr32 (parent + Nk.nrSubkeys) (nrSubkeys + 1)
  let max ← read (rd16 parent Nk.maxSubkeyNameLen)
  if max < name.strlen * 2 then wr16 (parent + Nk.maxSubkeyNameLen) (name.strlen * 2)
  return node

theorem Sound.countChild {stop : Stop → Hive → Prop} (sound : Sound k) (found : k.cell parent = some c')
    (repointed : Repointed c c') (whole : 80 ≤ c.len) (node : Nat) (name : CString) :
    wp (Hivex.countChild parent node name (c.get32 Nk.nrSubkeys))
      (fun result g => result = node ∧ ∃ c'', Wrote k g parent c'' ∧ Grown c c'' name ∧
        c''.get32 Nk.subkeyLf = c'.get32 Nk.subkeyLf) stop k := by
  have grown := repointed.grown name
  have long : 80 ≤ c'.len := by rcases repointed with rfl | ⟨v, rfl⟩ <;> exact whole
  refine (wp_bind _ _ _).mpr (sound.wp_wrote found (by decide)
    (by rw [leBytes_length]; simp only [Nk.nrSubkeys]; omega) fun k₁ counted => ?_)
  have word := rd16_cell (i := Nk.maxSubkeyNameLen) counted.sound counted.here
    (by rw [Cell.blit_len]; simp only [Nk.maxSubkeyNameLen]; omega)
  have max : (c'.blit Nk.nrSubkeys (leBytes 4 (c.get32 Nk.nrSubkeys + 1))).get16 Nk.maxSubkeyNameLen =
      c'.get16 Nk.maxSubkeyNameLen := Cell.get_put c' (Or.inr (by decide))
  rw [max] at word
  refine (wp_bind _ _ _).mpr (wp_read word ?_)
  by_cases raised : c'.get16 Nk.maxSubkeyNameLen < name.strlen * 2
  · rw [if_pos raised] at grown
    rw [if_pos raised]
    refine (wp_bind _ _ _).mpr (counted.wp_then (by decide)
      (by rw [leBytes_length, Cell.blit_len]; simp only [Nk.maxSubkeyNameLen]; omega) fun k₂ last => ?_)
    refine ⟨rfl, _, last, grown, ?_⟩
    rw [Cell.get32, Cell.get_blit _ (Or.inl (by decide))]
    exact Cell.get_put c' (Or.inr (by decide))
  · rw [if_neg raised] at grown
    rw [if_neg raised]
    exact ⟨rfl, _, counted, grown, Cell.get_put c' (Or.inr (by decide))⟩

-- A record that is neither of the new node nor a security record is from before.
theorem Prepared.old (prepared : Prepared h g parent c name node) {x : Nat} {d : Cell} (found : g.cell x = some d)
    (notNk : d.id ≠ Nk.id) (notSk : d.id ≠ Sk.id) : h.cell x = some d := by
  rw [← prepared.others x ?_ ?_]
  · exact found
  · rintro rfl
    obtain ⟨d', there, new⟩ := prepared.record
    rw [found] at there
    cases there
    exact notNk new.id
  · rintro rfl
    obtain ⟨s, -, id, there⟩ := prepared.sk
    rw [found] at there
    cases there
    exact notSk ((Cell.id_put s (by decide)).trans id)

theorem Prepared.kept (prepared : Prepared h g parent c name node) (sound : Sound h) {x : Nat} {d : Cell}
    (found : h.cell x = some d) (other : x ≠ c.get32 Nk.sk + 0x1000) : g.cell x = some d := by
  rw [prepared.others x (sound.fresh_apart prepared.fresh found) other]
  exact found

theorem Prepared.sk_ne (prepared : Prepared h g parent c name node) (found : h.cell parent = some c)
    (isNk : c.id = Nk.id) : parent ≠ c.get32 Nk.sk + 0x1000 := by
  obtain ⟨s, there, isSk, -⟩ := prepared.sk
  intro same
  rw [← same, found] at there
  cases there
  rw [isNk] at isSk
  exact absurd isSk (by decide)

theorem Prepared.inside (prepared : Prepared h g parent c name node) (small : h.size < 2 ^ 32) :
    0x1000 ≤ node ∧ node < 2 ^ 32 := by
  obtain ⟨d, there, -⟩ := prepared.record
  have bounds := prepared.sound.cell_bounds there
  have limit := prepared.keeps.small small
  omega

theorem list_not_nk {d : Cell} (id : d.id = Ri.id ∨ d.id = Lf.idLf ∨ d.id = Lf.idLh) :
    d.id ≠ Nk.id ∧ d.id ≠ Sk.id := by
  rcases id with same | same | same <;> rw [same] <;> decide

theorem Prepared.listsFit (prepared : Prepared h g parent c name node) (fit : ListsFit h.cell c) :
    ListsFit g.cell c := by
  intro r there isRi
  obtain ⟨notNk, notSk⟩ := list_not_nk (Or.inl isRi)
  obtain ⟨room, leaves⟩ := fit r (prepared.old there notNk notSk) isRi
  refine ⟨room, fun lf member l list id => ?_⟩
  obtain ⟨notNk, notSk⟩ := list_not_nk (Or.inr id)
  exact leaves lf member l (prepared.old list notNk notSk) id

-- The lists of the parent were there before the new record was made.
theorem Prepared.lists (prepared : Prepared h g parent c name node) (lists : HasLists g.cell c ris lfs) :
    HasLists h.cell c ris lfs ∧ lfs.flatMap h.cell.keysOf = lfs.flatMap g.cell.keysOf := by
  have same : ∀ b ∈ ris ++ lfs, h.cell b = g.cell b := by
    intro b member
    obtain ⟨l, found, id⟩ := lists.ids b member
    obtain ⟨notNk, notSk⟩ := list_not_nk id
    rw [found]
    exact prepared.old found notNk notSk
  exact ⟨lists.frame rfl same, keysOf_frame fun b member => same b (List.mem_append_right _ member)⟩

theorem Prepared.alive (prepared : Prepared h g parent c name node) {x : Nat} (alive : (g.cell x).isSome) :
    x = node ∨ (h.cell x).isSome := by
  by_cases here : x = node
  · exact Or.inl here
  · by_cases isSk : x = c.get32 Nk.sk + 0x1000
    · obtain ⟨s, there, -⟩ := prepared.sk
      rw [isSk, there]
      exact Or.inr rfl
    · rw [← prepared.others x here isSk]
      exact Or.inr alive

/-- What a child that has been linked and counted adds up to. -/
theorem Prepared.added {k k' : Hive} {c' : Cell} {blocks kids : List Nat} (prepared : Prepared h g parent c name node)
    (sound : Sound h) (found : h.cell parent = some c) (isNk : c.id = Nk.id)
    (few : c.get32 Nk.nrSubkeys ≤ hiveMaxSubkeys)
    (old : c.get32 Nk.nrSubkeys = 0 ∧ blocks = [] ∧ kids = [] ∨ ∃ ris lfs, HasLists h.cell c ris lfs ∧
      blocks = ris ++ lfs ∧ kids = lfs.flatMap h.cell.keysOf ∧ kids.length = c.get32 Nk.nrSubkeys)
    (alive : ∀ k ∈ kids, (g.cell k).isSome) (joined : Joined g k parent node c blocks kids)
    (wrote : Wrote k k' parent c') (grown : Grown c c' name)
    (pointer : ∀ c₁, k.cell parent = some c₁ → c'.get32 Nk.subkeyLf = c₁.get32 Nk.subkeyLf) :
    Added h k' parent node c name blocks kids := by
  have frontier := prepared.keeps.frontier
  have listed : ∀ b ∈ blocks, ∃ l, h.cell b = some l ∧ (l.id = Ri.id ∨ l.id = Lf.idLf ∨ l.id = Lf.idLh) := by
    intro b member
    rcases old with ⟨-, none, -⟩ | ⟨ris, lfs, lists, isBlocks, -⟩
    · rw [none] at member
      cases member
    · rw [isBlocks] at member
      exact lists.ids b member
  have notBlock : ∀ x d, h.cell x = some d → (d.id = Nk.id ∨ d.id = Sk.id) → x ∉ blocks := by
    intro x d there id member
    obtain ⟨l, inH, listId⟩ := listed x member
    rw [there] at inH
    cases inH
    obtain ⟨notNk, notSk⟩ := list_not_nk listId
    rcases id with same | same
    · exact notNk same
    · exact notSk same
  have parentKept := sound.fresh_apart prepared.fresh found
  obtain ⟨s, inH, sId, counted⟩ := prepared.sk
  have skParent : c.get32 Nk.sk + 0x1000 ≠ parent := by
    intro same
    rw [same, found] at inH
    cases inH
    rw [isNk] at sId
    exact absurd sId (by decide)
  have nodeBlock : node ∉ blocks := by
    intro member
    obtain ⟨l, inH, -⟩ := listed node member
    exact sound.fresh_apart prepared.fresh inH rfl
  have skBlock := notBlock _ s inH (Or.inr sId)
  obtain ⟨d, placed, new⟩ := prepared.record
  obtain ⟨c₁, ris, lfs, found₁, repointed, lists, distinct, within, gone, front, back, before, after⟩ := joined.lists
  have kept : ∀ b ∈ ris ++ lfs, k'.cell b = k.cell b := by
    intro b member
    apply wrote.others
    rintro rfl
    apply lists.notNk found₁ ?_ member
    rcases repointed with rfl | ⟨v, rfl⟩
    · exact isNk
    · exact (Cell.id_put c (by decide)).trans isNk
  constructor
  · exact wrote.sound
  · exact prepared.keeps.trans (joined.keeps.trans wrote.keeps)
  · exact isNk
  · exact prepared.fresh
  · refine ⟨d, ?_, new⟩
    rw [wrote.others node parentKept.symm]
    exact joined.others node d placed parentKept.symm nodeBlock
  · refine ⟨s, inH, sId, ?_⟩
    rw [wrote.others _ skParent]
    exact joined.others _ _ counted skParent skBlock
  · exact old
  · exact few
  · exact fun x member => prepared.alive (alive x member)
  · refine ⟨c', ris, lfs, wrote.here, grown, lists.frame (pointer c₁ found₁) kept, distinct, ?_, ?_, front, back, before, ?_⟩
    · exact fun b member => (within b member).imp_right fun fresh => by omega
    · intro b member apart
      rw [wrote.others b ?_]
      · exact gone b member apart
      · rintro rfl
        exact notBlock b c found (Or.inl isNk) member
    · rw [keysOf_frame fun b member => kept b (List.mem_append_right _ member)]
      exact after
  · intro x d there other apart notSk
    rw [wrote.others x other]
    exact joined.others x d (prepared.kept sound there notSk) other apart

/-- The end of `hivexNodeAddChild` from the new record on. -/
theorem Prepared.finishes {stop : Stop → Hive → Prop} {blocks kids : List Nat}
    (prepared : Prepared h g parent c name node) (sound : Sound h) (found : h.cell parent = some c)
    (whole : 80 ≤ c.len) (isNk : c.id = Nk.id) (few : c.get32 Nk.nrSubkeys ≤ hiveMaxSubkeys)
    (old : c.get32 Nk.nrSubkeys = 0 ∧ blocks = [] ∧ kids = [] ∨ ∃ ris lfs, HasLists h.cell c ris lfs ∧
      blocks = ris ++ lfs ∧ kids = lfs.flatMap h.cell.keysOf ∧ kids.length = c.get32 Nk.nrSubkeys)
    (alive : ∀ k ∈ kids, (g.cell k).isSome)
    (joins : wp (linkChild host parent node name (c.get32 Nk.nrSubkeys) blocks)
      (fun _ k => Joined g k parent node c blocks kids) stop g) :
    wp (linkChild host parent node name (c.get32 Nk.nrSubkeys) blocks >>= fun _ =>
      Hivex.countChild parent node name (c.get32 Nk.nrSubkeys))
      (fun node g => ∃ blocks kids, Added h g parent node c name blocks kids) stop g := by
  refine wp_seq joins fun _ k joined => ?_
  obtain ⟨c₁, _, _, found₁, repointed, -⟩ := joined.lists
  refine wp_mono (joined.sound.countChild found₁ repointed whole node name) ?_ fun _ _ stopped => stopped
  rintro result k' ⟨rfl, c', wrote, grown, pointer⟩
  refine ⟨blocks, kids, prepared.added sound found isNk few old alive joined wrote grown fun c₂ found₂ => ?_⟩
  rw [found₁] at found₂
  rw [pointer, Option.some.inj found₂]

/-- `hivex_node_add_child` where it succeeds. -/
theorem Sound.hivexNodeAddChild (sound : Sound h) (small : h.size < 2 ^ 32) (below : host.Below4G)
    (found : h.cell parent = some c) (whole : 80 ≤ c.len) (fit : ListsFit h.cell c)
    (apart : ListsApart h.cell c) (skFits : SkFits h.cell c) (name : CString) :
    wp (Hivex.hivexNodeAddChild host parent name)
      (fun node g => ∃ blocks kids, Added h g parent node c name blocks kids) (fun _ _ => True) h := by
  refine (wp_bind _ _ _).mpr ((wp_get _).mpr ?_)
  cases writable : h.writable with
  | false => trivial
  | true =>
  by_cases isNk : c.id = Nk.id
  swap
  · have refused : requireBlock parent Nk.id h.view = .error (.errno .EINVAL) := by
      rw [requireBlock_cell sound found, if_neg isNk]
    refine (wp_bind _ _ _).mpr ?_
    rw [wp_look, refused]
    trivial
  have checked : requireBlock parent Nk.id h.view = .ok () := by
    rw [requireBlock_cell sound found, if_pos isNk]
  refine (wp_bind _ _ _).mpr (wp_read checked ?_)
  by_cases empty : name.strlen = 0
  · rw [if_pos empty]
    trivial
  rw [if_neg empty]
  refine (wp_bind _ _ _).mpr (wp_reads fun there => ?_)
  by_cases twin : there ≠ 0
  · rw [if_pos twin]
    trivial
  rw [if_neg twin]
  apply sound.prepares found whole isNk skFits (sound.allocates below (by decide)) (fun _ _ => trivial) writable
  intro node g prepared _
  have found' := prepared.kept sound found (prepared.sk_ne found isNk)
  have inside := prepared.inside small
  have limit := prepared.keeps.small small
  refine (wp_bind _ _ _).mpr ?_
  refine (wp_look _ _ _).mpr ((getChildren_lists prepared.sound found' whole
    (prepared.listsFit fit)).mono ?_ fun _ _ => trivial)
  rintro ⟨kids, blocks⟩ result
  have count := rd32_cell (i := Nk.nrSubkeys) prepared.sound found' (by simp only [Nk.nrSubkeys]; omega)
  refine (wp_bind _ _ _).mpr (wp_read count ?_)
  rcases result with ⟨none, isEmpty⟩ | ⟨ris, lfs, children, isLists⟩
  · cases isEmpty
    have joins := prepared.sound.joinsFirst limit found' whole inside.1 inside.2 name
      (prepared.sound.allocates below (by decide))
    rw [← none] at joins
    exact prepared.finishes sound found whole isNk (by rw [none]; exact Nat.zero_le _)
      (Or.inl ⟨none, rfl, rfl⟩) (by simp) joins
  · cases isLists
    obtain ⟨lists, same⟩ := prepared.lists children.toHasLists
    have distinct : lfs.Nodup := by
      rcases lists.shape with ⟨-, rfl⟩ | ⟨-, r, there, isRi, -, rfl⟩
      · exact List.nodup_singleton _
      · exact apart r there isRi
    have writes : g.writable = true := prepared.keeps.writable.trans writable
    refine prepared.finishes sound found whole isNk children.few (Or.inr ⟨ris, lfs, lists, rfl, same.symm, ?_⟩)
      children.alive (prepared.sound.joinsList below writes limit found' whole isNk children distinct
        inside.1 inside.2 name)
    exact children.count

-- Without subkeys the lists are not looked at.
theorem getChildren_none {x : Nat} (sound : Sound h) (found : h.cell x = some c) (whole : 28 ≤ c.len)
    (isNk : c.id = Nk.id) (childless : c.get32 Nk.nrSubkeys = 0) (noCheckNk : Bool) :
    getChildren x noCheckNk h.view = .ok ([], []) := by
  have checked : requireBlock x Nk.id h.view = .ok () := by
    rw [requireBlock_cell sound found, if_pos isNk]
  have count := rd32_cell (i := Nk.nrSubkeys) sound found (by simp only [Nk.nrSubkeys]; omega)
  simp only [getChildren, bind_query, checked, ok_bind, count, childless, if_true, pure_query]

-- Where both blocks are granted the first child of a node is added.
theorem Sound.addChild_granted {room : Room} (sound : Sound h) (small : h.size < 2 ^ 32) (ample : host.Ample)
    (writable : h.writable = true) (found : h.cell parent = some c) (whole : 80 ≤ c.len) (isNk : c.id = Nk.id)
    (childless : c.get32 Nk.nrSubkeys = 0)
    (hasSk : ∃ s, h.cell (c.get32 Nk.sk + 0x1000) = some s ∧ s.id = Sk.id) (skFits : SkFits h.cell c)
    (named : name.strlen ≠ 0)
    (granted : h.room.blocks host [Nk.sizeof + name.strlen, Lf.sizeof] = .ok room) :
    ∃ node g, Hivex.hivexNodeAddChild host parent name h = .ok node g ∧
      ∃ blocks kids, Added h g parent node c name blocks kids := by
  have split : h.room.blocks host ([Nk.sizeof + name.strlen] ++ [Lf.sizeof]) =
      (h.room.blocks host [Nk.sizeof + name.strlen]).bind fun room => room.blocks host [Lf.sizeof] :=
    blocks_append _ _ _
  have single : ∀ (room : Room) len, room.blocks host [len] = room.block host len := by
    intro room len
    unfold Room.blocks
    rw [List.foldlM_cons]
    cases room.block host len <;> rfl
  have succeeds : wp (Hivex.hivexNodeAddChild host parent name)
      (fun node g => ∃ blocks kids, Added h g parent node c name blocks kids) (fun _ _ => False) h := by
    cases first : h.room.block host (Nk.sizeof + name.strlen) with
    | error reason =>
        rw [List.singleton_append, granted, single, first] at split
        cases split
    | ok room₁ =>
    have checked : requireBlock parent Nk.id h.view = .ok () := by
      rw [requireBlock_cell sound found, if_pos isNk]
    have children : hivexNodeChildren parent h.view = .ok [] := by
      unfold hivexNodeChildren
      rw [bind_query, getChildren_none sound found (by omega) isNk childless, ok_bind]
      rfl
    have absent : hivexNodeGetChild parent name h.view = .ok 0 := by
      unfold hivexNodeGetChild zeroOnError
      rw [bind_query, children, ok_bind]
      rfl
    refine (wp_bind _ _ _).mpr ((wp_get _).mpr ?_)
    rw [writable]
    refine (wp_bind _ _ _).mpr (wp_read checked ?_)
    rw [if_neg named]
    refine (wp_bind _ _ _).mpr (wp_read absent ?_)
    apply sound.prepares found whole isNk skFits (sound.grants ample (by decide) writable first)
      (fun _ none => hasSk.elim fun s there => none s there.1 there.2) writable
    intro node g prepared taken
    have second : g.room.block host Lf.sizeof = .ok room := by
      rw [List.singleton_append, granted, taken] at split
      exact (single g.room Lf.sizeof).symm.trans split.symm
    have found' := prepared.kept sound found (prepared.sk_ne found isNk)
    have inside := prepared.inside small
    have limit := prepared.keeps.small small
    have writes : g.writable = true := prepared.keeps.writable.trans writable
    refine (wp_bind _ _ _).mpr (wp_read (getChildren_none prepared.sound found' (by omega) isNk childless _) ?_)
    have count := rd32_cell (i := Nk.nrSubkeys) prepared.sound found' (by simp only [Nk.nrSubkeys]; omega)
    refine (wp_bind _ _ _).mpr (wp_read count ?_)
    have joins := prepared.sound.joinsFirst limit found' whole inside.1 inside.2 name
      (prepared.sound.grants ample (by decide) writes second)
    rw [← childless] at joins
    exact prepared.finishes sound found whole isNk (by rw [childless]; exact Nat.zero_le _)
      (Or.inl ⟨childless, rfl, rfl⟩) (by simp) joins
  unfold wp at succeeds
  split at succeeds
  · next node g run => exact ⟨node, g, run, succeeds⟩
  · exact succeeds.elim

end Adding

end Hivex
