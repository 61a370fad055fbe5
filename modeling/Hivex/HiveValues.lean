import Hivex.HiveSetValues

/-! What a value write leaves behind. Every element of the array gets a record of its
own behind the old blocks, so the writes to one element cannot meet another. The
readers have limits that the writer does not. -/
namespace Hivex

open ByteMemory Commands

/-- `h` has become `h'`, and only the block `b` differs. -/
structure Wrote (h h' : Hive) (b : Nat) (c : Cell) : Prop where
  sound : Sound h'
  keeps : Keeps h h'
  here : h'.cell b = some c
  others : ∀ x, x ≠ b → h'.cell x = h.cell x

section Writing
variable {h h' h'' : Hive} {host : Host} {b i : Nat} {c c' : Cell} {bytes : List UInt8}
  {post : Unit → Hive → Prop} {stop : Stop → Hive → Prop}

theorem Becomes.wrote (becomes : Becomes h h' (Function.update h.cell b (some c))) : Wrote h h' b c where
  sound := becomes.sound
  keeps := becomes.keeps
  here := by rw [becomes.cells, Function.update_self]
  others := fun x other => by rw [becomes.cells, Function.update_of_ne other]

theorem Wrote.again (first : Wrote h h' b c) (second : Wrote h' h'' b c') : Wrote h h'' b c' where
  sound := second.sound
  keeps := first.keeps.trans second.keeps
  here := second.here
  others := fun x other => (second.others x other).trans (first.others x other)

theorem Wrote.found (wrote : Wrote h h' b c) {x : Nat} {d : Cell} (other : x ≠ b)
    (found : h.cell x = some d) : h'.cell x = some d :=
  (wrote.others x other).trans found

theorem Sound.wp_wrote (sound : Sound h) (found : h.cell b = some c) (lower : 4 ≤ i)
    (upper : i + bytes.length ≤ c.len)
    (continues : ∀ h', Wrote h h' b (c.blit i bytes) → post () h') :
    wp (wrBytes (b + i) bytes) post stop h :=
  sound.wp_write found lower upper fun h' becomes => continues h' becomes.wrote

-- One more write to a block that is being filled.
theorem Wrote.wp_then (wrote : Wrote h h' b c) (lower : 4 ≤ i) (upper : i + bytes.length ≤ c.len)
    (continues : ∀ h'', Wrote h h'' b (c.blit i bytes) → post () h'') :
    wp (wrBytes (b + i) bytes) post stop h' :=
  wrote.sound.wp_wrote wrote.here lower upper fun h'' next => continues h'' (wrote.again next)

theorem Sound.wp_fresh {segLen : Nat} {id : List UInt8} {post : Nat → Hive → Prop} (sound : Sound h)
    (below : host.Below4G) (idFits : id.length ≤ 2)
    (continues : ∀ b h', Wrote h h' b (freshCell ((segLen + 7) / 8 * 8) id) → h.frontier ≤ b →
      segLen ≤ hiveMaxAllocation → post b h') :
    wp (Hivex.allocateBlock host segLen id) post (fun _ _ => True) h :=
  wp_mono (sound.allocateBlock below idFits)
    (fun b h' ⟨placed, _, most, _⟩ => continues b h' placed.becomes.wrote placed.fresh most)
    fun _ _ _ => trivial

theorem Sound.fresh_apart (sound : Sound h) (fresh : h.frontier ≤ b) {x : Nat} {d : Cell}
    (found : h.cell x = some d) : x ≠ b := by
  rintro rfl
  rw [sound.cell_beyond fresh] at found
  cases found

end Writing

/-- The old values can be told from the node: their records are whole and the node is
not among the blocks that go with them. -/
structure Detached (h : Hive) (node : Nat) : Prop where
  record : ∃ c, h.cell node = some c ∧ 80 ≤ c.len
  freed : ∀ values blocks, getValues node h.view = .ok (values, blocks) →
    (∀ v ∈ values, ∀ c, h.cell v = some c → 16 ≤ c.len) ∧
    node ∉ blocks ++ values.flatMap h.cell.releases

section Deleting
variable {h : Hive} {node v b : Nat}

theorem Releasable.detached (releasable : Releasable h node) : Detached h node where
  record := releasable.record
  freed := fun values blocks got => by
    obtain ⟨long, -, notFreed, -⟩ := releasable.freed values blocks got
    refine ⟨fun v member c found => ?_, notFreed⟩
    obtain ⟨c', found', len⟩ := long v member
    rw [found] at found'
    cases found'
    exact len

theorem wp_reads {α : Type} {query : Reader α} {post : α → Hive → Prop}
    (holds : ∀ value, post value h) : wp (Hivex.read query) post (fun _ _ => True) h := by
  refine (wp_look _ _ _).mpr ?_
  cases query h.view with
  | ok value => exact holds value
  | error reason => trivial

-- A block that could be freed was in use.
theorem Sound.frees_one (sound : Sound h) (writable : h.writable = true) (b : Nat) :
    wp (markBlockUnused b) (fun _ g => (h.cell b).isSome ∧ Freed h g [b]) (fun _ _ => True) h := by
  cases found : h.cell b with
  | none =>
      unfold wp
      rw [markBlockUnused_gone writable found]
      trivial
  | some c =>
      refine wp_mono (sound.freed_one writable (by rw [found]; rfl)) (fun _ g freed => ?_) fun _ _ _ => trivial
      exact ⟨rfl, freed⟩

theorem Sound.frees_all (sound : Sound h) (writable : h.writable = true) (bs : List Nat) :
    wp (bs.forM markBlockUnused) (fun _ g => Freed h g bs) (fun _ _ => True) h := by
  induction bs generalizing h with
  | nil => exact ⟨sound, Keeps.refl h, fun x => by simp⟩
  | cons b bs ih =>
      refine wp_seq (sound.frees_one writable b) fun _ g ⟨_, first⟩ => ?_
      refine wp_mono (ih first.sound (first.keeps.writable.trans writable)) ?_ fun _ _ _ => trivial
      exact fun _ k rest => first.append rest

theorem Sound.frees_value (sound : Sound h) (writable : h.writable = true)
    (long : ∀ c, h.cell v = some c → 16 ≤ c.len) :
    wp (deleteValue v) (fun _ g => (h.cell v).isSome ∧ Freed h g (h.cell.releases v))
      (fun _ _ => True) h := by
  cases found : h.cell v with
  | none =>
      -- The record is freed last, which cannot succeed.
      have never : ∀ (post : Unit → Hive → Prop) (k : Hive), k.writable = true → k.cell v = none →
          wp (markBlockUnused v) post (fun _ _ => True) k := by
        intro post k write gone
        unfold wp
        rw [markBlockUnused_gone write gone]
        trivial
      refine (wp_bind _ _ _).mpr (wp_reads fun len => ?_)
      dsimp only
      split
      · refine (wp_bind _ _ _).mpr (wp_reads fun offset => ?_)
        refine wp_seq (sound.frees_one writable _) fun _ g ⟨_, freed⟩ => ?_
        apply never _ g (freed.keeps.writable.trans writable)
        rw [freed.cells, found]
        exact ite_self none
      · exact never _ h writable found
  | some c =>
      have len := long c found
      have lenWord := rd32_cell (i := Vk.dataLen) sound found (by simp only [Vk.dataLen]; omega)
      have offsetWord := rd32_cell (i := Vk.dataOffset) sound found (by
        simp only [Vk.dataOffset]
        omega)
      refine (wp_bind _ _ _).mpr (wp_read lenWord ?_)
      rw [releases_cell found]
      by_cases isInline : 2 ^ 31 ≤ c.get32 Vk.dataLen
      · simp only [isInline, decide_true, Bool.not_true, Bool.false_eq_true, if_false, if_true]
        exact wp_mono (sound.frees_one writable v) (fun _ g freed => ⟨rfl, freed.2⟩) fun _ _ _ => trivial
      · simp only [isInline, decide_false, Bool.not_false, if_true, if_false]
        refine (wp_bind _ _ _).mpr (wp_read offsetWord ?_)
        refine wp_seq (sound.frees_one writable _) fun _ g ⟨_, first⟩ => ?_
        refine wp_mono (first.sound.frees_one (first.keeps.writable.trans writable) v) ?_ fun _ _ _ => trivial
        exact fun _ k ⟨_, rest⟩ => ⟨rfl, first.append rest⟩

theorem Sound.frees_values (sound : Sound h) (writable : h.writable = true) {values : List Nat}
    (long : ∀ v ∈ values, ∀ c, h.cell v = some c → 16 ≤ c.len) :
    wp (values.forM deleteValue) (fun _ g => (∀ v ∈ values, (h.cell v).isSome) ∧
      Freed h g (values.flatMap h.cell.releases)) (fun _ _ => True) h := by
  induction values generalizing h with
  | nil => exact ⟨by simp, sound, Keeps.refl h, by simp⟩
  | cons v values ih =>
      refine wp_seq (sound.frees_value writable (long v (by simp))) fun _ g ⟨there, first⟩ => ?_
      have kept : ∀ w d, g.cell w = some d → h.cell w = some d := by
        intro w d found
        rw [first.cells] at found
        split at found
        · cases found
        · exact found
      refine wp_mono (ih first.sound (first.keeps.writable.trans writable) fun w member d found =>
        long w (List.mem_cons_of_mem _ member) d (kept w d found)) ?_ fun _ _ _ => trivial
      rintro _ k ⟨alive, rest⟩
      have same : ∀ w ∈ values, g.cell w = h.cell w := by
        intro w member
        obtain ⟨d, found⟩ := Option.isSome_iff_exists.mp (alive w member)
        rw [found, kept w d found]
      rw [releases_congr same] at rest
      refine ⟨fun w member => ?_, first.append rest⟩
      rcases List.mem_cons.mp member with rfl | later
      · exact there
      · rw [← same w later]
        exact alive w later

/-- `g` is `h` without the blocks in `freed` and with no values in the record `c` of `node`. -/
structure Cleared (h g : Hive) (node : Nat) (c : Cell) (freed : List Nat) : Prop where
  sound : Sound g
  keeps : Keeps h g
  here : g.cell node = some ((c.put32 Nk.nrValues 0).put32 Nk.vallist 0xffffffff)
  cells : ∀ x, x ≠ node → g.cell x = if x ∈ freed then none else h.cell x

/-- `delete_values` where it succeeds. -/
theorem Detached.clears (detached : Detached h node) (sound : Sound h) {c : Cell} (found : h.cell node = some c) :
    wp (deleteValues node) (fun _ g => c.id = Nk.id ∧ ∃ values blocks,
      getValues node h.view = .ok (values, blocks) ∧
      Cleared h g node c (blocks ++ values.flatMap h.cell.releases)) (fun _ _ => True) h := by
  have len : 80 ≤ c.len := by
    obtain ⟨c', found', len⟩ := detached.record
    rw [found] at found'
    cases found'
    exact len
  refine (wp_bind _ _ _).mpr ((wp_get _).mpr ?_)
  cases writable : h.writable with
  | false => trivial
  | true =>
  refine (wp_bind _ _ _).mpr (wp_assert rfl ?_)
  cases got : getValues node h.view with
  | error reason =>
      have stops : read (getValues node) h = .error reason h := by simp [read, look, got]
      simp only [wp, run_error stops]
  | ok result =>
  obtain ⟨values, blocks⟩ := result
  obtain ⟨long, notFreed⟩ := detached.freed values blocks got
  have isNk : c.id = Nk.id := by
    by_contra other
    simp only [getValues, bind_query, requireBlock_cell sound found, if_neg other, error_bind] at got
    cases got
  refine (wp_bind _ _ _).mpr (wp_read got ?_)
  refine wp_seq (sound.frees_all writable blocks) fun _ g lists => ?_
  have kept : ∀ v d, g.cell v = some d → h.cell v = some d := by
    intro v d there
    rw [lists.cells] at there
    split at there
    · cases there
    · exact there
  refine wp_seq (lists.sound.frees_values (lists.keeps.writable.trans writable)
    fun v member d there => long v member d (kept v d there)) fun _ k freed => ?_
  obtain ⟨alive, rest⟩ := freed
  have same : ∀ v ∈ values, g.cell v = h.cell v := by
    intro v member
    obtain ⟨d, there⟩ := Option.isSome_iff_exists.mp (alive v member)
    rw [there, kept v d there]
  rw [releases_congr same] at rest
  have all := lists.append rest
  have nodeCell : k.cell node = some c := by rw [all.cells, if_neg notFreed, found]
  refine (wp_bind _ _ _).mpr (all.sound.wp_wrote nodeCell (by decide)
    (by rw [leBytes_length]; simp only [Nk.nrValues]; omega) fun k₁ first => ?_)
  refine first.wp_then (by decide)
    (by rw [leBytes_length]; simp only [Nk.vallist, Cell.blit_len]; omega) fun k₂ both => ?_
  refine ⟨isNk, values, blocks, rfl, both.sound, all.keeps.trans both.keeps, both.here, fun x other => ?_⟩
  rw [both.others x other, all.cells]

theorem Detached.emptied (detached : Detached h node) (sound : Sound h) :
    wp (deleteValues node) (fun _ g => Emptied h g node) (fun _ _ => True) h := by
  obtain ⟨c, found, len⟩ := detached.record
  refine wp_mono (detached.clears sound found) ?_ fun _ _ _ => trivial
  rintro _ g ⟨isNk, values, blocks, -, cleared⟩
  refine ⟨cleared.sound, cleared.keeps, _, cleared.here, len, ?_, ?_⟩
  · rw [Cell.id_put _ (by decide), Cell.id_put _ (by decide)]
    exact isNk
  · rw [Cell.get32, Cell.get_put _ (Or.inl (by decide))]
    exact Cell.get_put_same c 4 Nk.nrValues 0

end Deleting

/-- Where the data of a value lies: in the record itself up to four bytes. -/
def DataAt (cells : Cells) (c : Cell) (value : List UInt8) : Prop :=
  if value.length ≤ 4 then
    c.get32 Vk.dataLen = value.length + 2 ^ 31 ∧ c.bytes Vk.dataOffset value.length = value
  else c.get32 Vk.dataLen = value.length ∧ value.length ≤ hiveMaxValueLen ∧
    ∃ d, cells (c.get32 Vk.dataOffset + 0x1000) = some d ∧ value.length + 4 ≤ d.len ∧
      d.bytes 4 value.length = value

/-- A record with the key and the type of `val`. The length of the key is stored in 16 bits. -/
structure VkKeyed (val : SetValue) (c : Cell) : Prop where
  len : Vk.sizeof + val.key.strlen ≤ c.len
  id : c.id = Vk.id
  nameLen : c.get16 Vk.nameLen = val.key.strlen % 2 ^ 16
  name : c.bytes Vk.name val.key.strlen = val.key.bytes
  type : c.get32 Vk.dataType = val.t % 2 ^ 32

/-- The record `vk` and its data block hold `val`. -/
def Holds (cells : Cells) (val : SetValue) (vk : Nat) : Prop :=
  ∃ c, cells vk = some c ∧ VkKeyed val c ∧ DataAt cells c val.value

/-- The key as `hivex_value_key` returns it. -/
def SetValue.storedKey (val : SetValue) : List UInt8 := val.key.bytes.take (val.key.strlen % 2 ^ 16)

section Reading
variable {h : Hive} {vk : Nat} {val : SetValue}

theorem slice_take (m : Mem) (base : Nat) {k n : Nat} (shorter : k ≤ n) :
    (slice m base n).take k = slice m base k := by
  simp only [slice, ← List.map_take, List.take_range, Nat.min_eq_left shorter]

theorem Holds.key (holds : Holds h.cell val vk) (sound : Sound h) :
    hivexValueKey vk h.view = .ok val.storedKey := by
  obtain ⟨c, found, keyed, -⟩ := holds
  have long := keyed.len
  simp only [Vk.sizeof, CString.strlen] at long
  have shorter : val.key.strlen % 2 ^ 16 ≤ val.key.bytes.length := Nat.mod_le _ _
  have isVk : requireBlock vk Vk.id h.view = .ok () := by
    rw [requireBlock_cell sound found, if_pos keyed.id]
  have length : hivexValueKeyLen vk h.view = .ok (val.key.strlen % 2 ^ 16) := by
    have word := rd16_cell (i := Vk.nameLen) sound found (by simp only [Vk.nameLen]; omega)
    have inside : ¬Vk.sizeof + val.key.strlen % 2 ^ 16 - 1 > c.len := by
      simp only [Vk.sizeof]
      omega
    simp only [hivexValueKeyLen, bind_query, isVk, ok_bind, word, keyed.nameLen,
      blockLen_cell sound found, inside, if_false, pure_query]
  have bytes := rdBytes_cell (i := Vk.name) (n := val.key.strlen % 2 ^ 16) sound found (by
    simp only [Vk.name]
    omega)
  have stored : c.bytes Vk.name (val.key.strlen % 2 ^ 16) = val.storedKey := by
    rw [SetValue.storedKey, ← keyed.name, Cell.bytes, Cell.bytes]
    exact (slice_take _ _ (by simpa using shorter)).symm
  simp only [hivexValueKey, bind_query, isVk, ok_bind, length, bytes, stored]

theorem Holds.value (holds : Holds h.cell val vk) (sound : Sound h) :
    hivexValueValue vk h.view = .ok (val.t % 2 ^ 32, val.value) := by
  obtain ⟨c, found, keyed, data⟩ := holds
  have long := keyed.len
  simp only [Vk.sizeof, CString.strlen] at long
  have isVk : requireBlock vk Vk.id h.view = .ok () := by
    rw [requireBlock_cell sound found, if_pos keyed.id]
  have typeWord := rd32_cell (i := Vk.dataType) sound found (by simp only [Vk.dataType]; omega)
  have lenWord := rd32_cell (i := Vk.dataLen) sound found (by simp only [Vk.dataLen]; omega)
  have offsetWord := rd32_cell (i := Vk.dataOffset) sound found (by simp only [Vk.dataOffset]; omega)
  unfold DataAt at data
  split at data
  · next short =>
    obtain ⟨stored, bytes⟩ := data
    have flagged : 2 ^ 31 ≤ c.get32 Vk.dataLen := by omega
    have cut : c.get32 Vk.dataLen % 2 ^ 31 = val.value.length := by omega
    have notLong : ¬val.value.length > 4 := by omega
    have notLimit : ¬val.value.length > hiveMaxValueLen := by simp only [hiveMaxValueLen]; omega
    have read := rdBytes_cell (i := Vk.dataOffset) (n := val.value.length) sound found (by
      simp only [Vk.dataOffset]
      omega)
    simp only [hivexValueValue, bind_query, isVk, ok_bind, typeWord, lenWord, flagged,
      decide_true, cut, notLong, and_false, if_false, notLimit, if_true, read, bytes, pure_query,
      keyed.type]
  · next long =>
    obtain ⟨stored, limit, d, dataCell, room, bytes⟩ := data
    have limit' : val.value.length ≤ 1000000 := limit
    have notFlagged : ¬2 ^ 31 ≤ c.get32 Vk.dataLen := by omega
    have cut : c.get32 Vk.dataLen % 2 ^ 31 = val.value.length := by omega
    have notLimit : ¬val.value.length > hiveMaxValueLen := by omega
    have fits : ¬val.value.length > d.len - 4 := by omega
    have read := rdBytes_cell (i := 4) (n := val.value.length) sound dataCell (by omega)
    have there : h.valid (c.get32 Vk.dataOffset + 0x1000) = true := (cell_some dataCell).1
    simp only [hivexValueValue, bind_query, isVk, ok_bind, typeWord, lenWord, notFlagged,
      decide_false, cut, Bool.false_eq_true, false_and, if_false, notLimit, offsetWord,
      isValidBlock_view, there, if_true, blockLen_cell sound dataCell, fits, read, bytes, pure_query,
      keyed.type]

end Reading

-- The length word: the top bit marks data in the record.
def dataLenWord (length : Nat) : Nat :=
  if length % 2 ^ 32 ≤ 4 then length % 2 ^ 32 + 2 ^ 31 else length % 2 ^ 32

/-- A new vk-record with all fields but the data. -/
def vkCell (len : Nat) (val : SetValue) : Cell :=
  (((((freshCell len Vk.id).put16 Vk.nameLen val.key.strlen).blit Vk.name
    (val.key.bytes ++ [0])).put32 Vk.dataType val.t).put32 Vk.dataLen
    (dataLenWord val.value.length)).put16 Vk.flags (if val.key.strlen = 0 then 0 else 1)

section Records
variable {val : SetValue} {c : Cell} {len : Nat}

theorem vkCell_keyed (room : Vk.sizeof + val.key.strlen ≤ len) : VkKeyed val (vkCell len val) := by
  have named : (val.key.bytes ++ [0]).length = val.key.strlen + 1 := by simp
  constructor
  · exact room
  · unfold vkCell
    rw [Cell.id_put _ (by decide), Cell.id_put _ (by decide), Cell.id_put _ (by decide),
      Cell.id_blit _ (by decide), Cell.id_put _ (by decide)]
    exact freshCell_id rfl
  · unfold vkCell Cell.get16
    rw [Cell.get_put _ (Or.inl (by decide)), Cell.get_put _ (Or.inl (by decide)),
      Cell.get_put _ (Or.inl (by decide)), Cell.get_blit _ (Or.inl (by decide)), Cell.get_put_same]
    rfl
  · unfold vkCell
    rw [Cell.bytes_put _ (Or.inr (by decide)), Cell.bytes_put _ (Or.inr (by decide)),
      Cell.bytes_put _ (Or.inr (by decide))]
    have stored := Cell.bytes_blit_same ((freshCell len Vk.id).put16 Vk.nameLen val.key.strlen)
      Vk.name (val.key.bytes ++ [0])
    rw [named] at stored
    have cut := congrArg (List.take val.key.strlen) stored
    rw [Cell.bytes, slice_take _ _ (Nat.le_succ _), List.take_left] at cut
    exact cut
  · unfold vkCell Cell.get32
    rw [Cell.get_put _ (Or.inl (by decide)), Cell.get_put _ (Or.inr (by decide)), Cell.get_put_same]
    rfl

theorem vkCell_dataLen : (vkCell len val).get32 Vk.dataLen = dataLenWord val.value.length := by
  unfold vkCell Cell.get32
  rw [Cell.get_put _ (Or.inl (by decide)), Cell.get_put_same]
  unfold dataLenWord
  split <;> omega

-- The data word is apart from the other fields.
theorem VkKeyed.blit (keyed : VkKeyed val c) {bytes : List UInt8} (short : bytes.length ≤ 4) :
    VkKeyed val (c.blit Vk.dataOffset bytes) := by
  constructor
  · exact keyed.len
  · rw [Cell.id_blit _ (by decide)]
    exact keyed.id
  · rw [Cell.get16, Cell.get_blit _ (Or.inl (by decide))]
    exact keyed.nameLen
  · rw [Cell.bytes_blit _ (Or.inr (by simp only [Vk.dataOffset, Vk.name]; omega))]
    exact keyed.name
  · rw [Cell.get32, Cell.get_blit _ (Or.inr (by simp only [Vk.dataOffset, Vk.dataType]; omega))]
    exact keyed.type

theorem dataLen_blit (c : Cell) (bytes : List UInt8) :
    (c.blit Vk.dataOffset bytes).get32 Vk.dataLen = c.get32 Vk.dataLen :=
  Cell.get_blit c (Or.inl (by decide))

end Records

/-- `h` has become `h'`, which has a new record `vk` in the entry `i` of the list `vl`. -/
structure Recorded (h h' : Hive) (vl i : Nat) (val : SetValue) (vk : Nat) : Prop where
  sound : Sound h'
  keeps : Keeps h h'
  fresh : h.frontier ≤ vk
  record : ∃ len, Vk.sizeof + val.key.strlen ≤ len ∧ h'.cell vk = some (vkCell len val)
  entry : ∀ l, h.cell vl = some l → h'.cell vl = some (l.put32 (ValueList.offset i) (vk - 0x1000))
  others : ∀ x, x ≠ vk → x ≠ vl → h'.cell x = h.cell x

/-- `h` has become `h'`, whose record `vk` has its data. -/
structure Supplied (h h' : Hive) (val : SetValue) (vk : Nat) : Prop where
  sound : Sound h'
  keeps : Keeps h h'
  holds : Holds h'.cell val vk
  blocks : ∀ b ∈ h'.cell.releases vk, b = vk ∨ h.frontier ≤ b
  others : ∀ x d, x ≠ vk → h.cell x = some d → h'.cell x = some d

section Storing
variable {h : Hive} {host : Host} {vl i vk : Nat} {l c : Cell}

theorem Sound.newVkRecord (sound : Sound h) (below : host.Below4G) (listed : h.cell vl = some l)
    (inside : ValueList.offset i + 4 ≤ l.len) (val : SetValue) :
    wp (Hivex.newVkRecord host vl i val) (fun vk h' => Recorded h h' vl i val vk)
      (fun _ _ => True) h := by
  refine (wp_bind _ _ _).mpr (sound.wp_fresh below (by decide) fun vk h₀ placed fresh _ => ?_)
  set len := (Vk.sizeof + val.key.strlen + 7) / 8 * 8 with lenEq
  have room : Vk.sizeof + val.key.strlen ≤ len := by omega
  have long : 25 + val.key.bytes.length ≤ len := room
  have apart := sound.fresh_apart fresh listed
  refine (wp_bind _ _ _).mpr (placed.sound.wp_wrote (placed.found apart listed)
    (by simp only [ValueList.offset]; omega) (by rw [leBytes_length]; exact inside) fun h₁ linked => ?_)
  have start : Wrote h₁ h₁ vk (freshCell len Vk.id) :=
    ⟨linked.sound, Keeps.refl h₁, linked.found apart.symm placed.here, fun _ _ => rfl⟩
  refine (wp_bind _ _ _).mpr (start.wp_then (by decide)
    (by rw [leBytes_length]; simp only [Vk.nameLen, freshCell]; omega) fun h₂ second => ?_)
  refine (wp_bind _ _ _).mpr (second.wp_then (by decide)
    (by simp only [Vk.name, List.length_append, List.length_singleton, Cell.blit_len, freshCell]; omega)
    fun h₃ third => ?_)
  refine (wp_bind _ _ _).mpr (third.wp_then (by decide)
    (by rw [leBytes_length]; simp only [Vk.dataType, Cell.blit_len, freshCell]; omega)
    fun h₄ fourth => ?_)
  refine (wp_bind _ _ _).mpr (fourth.wp_then (by decide)
    (by rw [leBytes_length]; simp only [Vk.dataLen, Cell.blit_len, freshCell]; omega)
    fun h₅ fifth => ?_)
  refine (wp_bind _ _ _).mpr (fifth.wp_then (by decide)
    (by rw [leBytes_length]; simp only [Vk.flags, Cell.blit_len, freshCell]; omega)
    fun h₆ sixth => ?_)
  constructor
  · exact sixth.sound
  · exact placed.keeps.trans (linked.keeps.trans sixth.keeps)
  · exact fresh
  · exact ⟨len, room, sixth.here⟩
  · intro l' listed'
    rw [listed] at listed'
    cases listed'
    rw [sixth.others vl apart]
    exact linked.here
  · intro x other notList
    rw [sixth.others x other, linked.others x notList, placed.others x other]

theorem Sound.storeData (sound : Sound h) (below : host.Below4G) (small : h.size < 2 ^ 32)
    {val : SetValue} (found : h.cell vk = some c) (keyed : VkKeyed val c)
    (length : c.get32 Vk.dataLen = dataLenWord val.value.length) :
    wp (Hivex.storeData host vk val.value) (fun _ h' => Supplied h h' val vk) (fun _ _ => True) h := by
  have long := keyed.len
  simp only [Vk.sizeof] at long
  unfold Hivex.storeData
  split
  · next short =>
    refine sound.wp_wrote found (by decide) (by simp only [Vk.dataOffset]; omega) fun h₁ wrote => ?_
    have stored : c.get32 Vk.dataLen = val.value.length + 2 ^ 31 := by
      rw [length, dataLenWord, if_pos (by omega)]
      omega
    have isInline : 2 ^ 31 ≤ (c.blit Vk.dataOffset val.value).get32 Vk.dataLen := by
      rw [dataLen_blit, stored]
      omega
    constructor
    · exact wrote.sound
    · exact wrote.keeps
    · refine ⟨_, wrote.here, keyed.blit short, ?_⟩
      rw [DataAt, if_pos short, dataLen_blit]
      exact ⟨stored, Cell.bytes_blit_same _ _ _⟩
    · intro b member
      rw [releases_cell wrote.here, if_pos isInline] at member
      exact Or.inl (List.mem_singleton.mp member)
    · exact fun x d other there => wrote.found other there
  · next large =>
    refine (wp_bind _ _ _).mpr (sound.wp_fresh below (by decide) fun offs h₀ placed fresh most => ?_)
    set len := (val.value.length + 4 + 7) / 8 * 8 with lenEq
    have limit : val.value.length + 4 ≤ 1000000 := most
    have apart := sound.fresh_apart fresh found
    refine (wp_bind _ _ _).mpr (placed.wp_then (by decide) (by simp only [freshCell]; omega)
      fun h₁ filled => ?_)
    refine filled.sound.wp_wrote (filled.found apart found) (by decide)
      (by rw [leBytes_length]; simp only [Vk.dataOffset]; omega) fun h₂ wrote => ?_
    have bounds := filled.sound.cell_bounds filled.here
    have size := filled.keeps.small small
    have stored : c.get32 Vk.dataLen = val.value.length := by
      rw [length, dataLenWord, if_neg (by omega)]
      omega
    have word : (c.blit Vk.dataOffset (leBytes 4 (offs - 0x1000))).get32 Vk.dataOffset =
        (offs - 0x1000) % 256 ^ 4 := Cell.get_put_same c 4 Vk.dataOffset (offs - 0x1000)
    have pointer : (c.blit Vk.dataOffset (leBytes 4 (offs - 0x1000))).get32 Vk.dataOffset + 0x1000 =
        offs := by
      rw [word]
      omega
    have notInline : ¬2 ^ 31 ≤ (c.blit Vk.dataOffset (leBytes 4 (offs - 0x1000))).get32 Vk.dataLen := by
      rw [dataLen_blit, stored]
      omega
    constructor
    · exact wrote.sound
    · exact filled.keeps.trans wrote.keeps
    · refine ⟨_, wrote.here, keyed.blit (by simp), ?_⟩
      rw [DataAt, if_neg large, dataLen_blit]
      refine ⟨stored, by simp only [hiveMaxValueLen]; omega, (freshCell len []).blit 4 val.value,
        ?_, ?_, Cell.bytes_blit_same _ _ _⟩
      · exact (congrArg h₂.cell pointer).trans (wrote.found apart.symm filled.here)
      · simp only [Cell.blit_len, freshCell]
        omega
    · intro b member
      rw [releases_cell wrote.here, if_neg notInline, pointer] at member
      rcases List.mem_cons.mp member with rfl | last
      · exact Or.inr fresh
      · exact Or.inl (List.mem_singleton.mp last)
    · intro x d other there
      have notNew := sound.fresh_apart fresh there
      exact wrote.found other (filled.found notNew there)

end Storing

/-- `c` after `raiseWord`. -/
def Cell.raise (c : Cell) (i v : Nat) : Cell := if v > c.get32 i then c.put32 i v else c

/-- The nk-record after one more value. -/
def Cell.raised (c : Cell) (val : SetValue) : Cell :=
  (c.raise Nk.maxVkNameLen (val.key.strlen * 2)).raise Nk.maxVkDataLen val.value.length

namespace Cell
variable {c : Cell} {i v n j : Nat}

@[simp] theorem raise_len (c : Cell) (i v : Nat) : (c.raise i v).len = c.len := by
  unfold raise
  split <;> rfl

theorem raise_get (apart : j + n ≤ i ∨ i + 4 ≤ j) : (c.raise i v).get n j = c.get n j := by
  unfold raise
  split
  · exact c.get_put apart
  · rfl

theorem raise_bytes (apart : j + n ≤ i ∨ i + 4 ≤ j) : (c.raise i v).bytes j n = c.bytes j n := by
  unfold raise
  split
  · exact c.bytes_put apart
  · rfl

-- All values keep the fields in front of the maxima.
theorem raised_all (values : List SetValue) (c : Cell) :
    (values.foldl raised c).len = c.len ∧ (values.foldl raised c).id = c.id ∧
      ∀ n j, j + n ≤ Nk.maxVkNameLen → (values.foldl raised c).get n j = c.get n j := by
  induction values generalizing c with
  | nil => exact ⟨rfl, rfl, fun _ _ _ => rfl⟩
  | cons val rest ih =>
      obtain ⟨len, id, get⟩ := ih (c.raised val)
      rw [List.foldl_cons]
      refine ⟨?_, ?_, fun n j before => ?_⟩
      · rw [len, raised, raise_len, raise_len]
      · rw [id, raised, Cell.id, Cell.id, raise_bytes (Or.inl (by decide)),
          raise_bytes (Or.inl (by decide))]
      · have behind : j + n ≤ Nk.maxVkDataLen := before.trans (by decide)
        rw [get n j before, raised, raise_get (Or.inl behind), raise_get (Or.inl before)]

end Cell

section Frame
variable {cells cells' : Cells} {val : SetValue} {vk : Nat}

theorem Holds.there (holds : Holds cells val vk) : ∀ b ∈ cells.releases vk, ∃ d, cells b = some d := by
  obtain ⟨c, found, keyed, data⟩ := holds
  intro b member
  unfold Cells.releases at member
  rw [found] at member
  unfold DataAt at data
  split at data
  · next short =>
    have isInline : 2 ^ 31 ≤ c.get32 Vk.dataLen := by omega
    simp only [isInline, if_true] at member
    exact ⟨c, (List.mem_singleton.mp member) ▸ found⟩
  · next large =>
    obtain ⟨stored, limit, d, dataCell, -⟩ := data
    simp only [hiveMaxValueLen] at limit
    have notInline : ¬2 ^ 31 ≤ c.get32 Vk.dataLen := by omega
    simp only [notInline, if_false] at member
    rcases List.mem_cons.mp member with rfl | last
    · exact ⟨d, dataCell⟩
    · exact ⟨c, (List.mem_singleton.mp last) ▸ found⟩

-- A value depends on its own blocks only.
theorem Holds.frame (holds : Holds cells val vk)
    (same : ∀ b ∈ cells.releases vk, cells' b = cells b) :
    Holds cells' val vk ∧ cells'.releases vk = cells.releases vk := by
  obtain ⟨c, found, keyed, data⟩ := holds
  have own : vk ∈ cells.releases vk := by
    simp only [Cells.releases, found]
    split <;> simp
  have found' : cells' vk = some c := (same vk own).trans found
  constructor
  · refine ⟨c, found', keyed, ?_⟩
    unfold DataAt at data ⊢
    split at data
    · next short =>
      rw [if_pos short]
      exact data
    · next large =>
      rw [if_neg large]
      obtain ⟨stored, limit, d, dataCell, rest⟩ := data
      have bound : val.value.length ≤ 1000000 := limit
      have pointed : c.get32 Vk.dataOffset + 0x1000 ∈ cells.releases vk := by
        have notInline : ¬2 ^ 31 ≤ c.get32 Vk.dataLen := by omega
        simp only [Cells.releases, found, notInline, if_false]
        simp
      exact ⟨stored, limit, d, (same _ pointed).trans dataCell, rest⟩
  · simp only [Cells.releases, found, found']

end Frame

/-- The record `vk` holds `val` in blocks apart from the node and the list. -/
structure HeldApart (cells : Cells) (node vl : Nat) (val : SetValue) (vk : Nat) : Prop where
  holds : Holds cells val vk
  node : node ∉ cells.releases vk
  list : vl ∉ cells.releases vk

theorem HeldApart.frame {cells cells' : Cells} {node vl vk : Nat} {val : SetValue}
    (held : HeldApart cells node vl val vk) (same : ∀ b ∈ cells.releases vk, cells' b = cells b) :
    HeldApart cells' node vl val vk := by
  obtain ⟨holds, blocks⟩ := held.holds.frame same
  constructor
  · exact holds
  · rw [blocks]
    exact held.node
  · rw [blocks]
    exact held.list

/-- The array is stored up to `done`, in the records `vks`. `h` is the handle with the
new list, whose node is `c`. -/
structure Filling (h g : Hive) (node vl n : Nat) (c : Cell) (done : List SetValue) (vks : List Nat) :
    Prop where
  sound : Sound g
  keeps : Keeps h g
  small : g.size < 2 ^ 32
  record : g.cell node = some (done.foldl Cell.raised c)
  whole : 80 ≤ c.len
  list : ∃ l, g.cell vl = some l ∧ 4 + 4 * n ≤ l.len ∧
    ∀ i vk, vks[i]? = some vk → l.get32 (ValueList.offset i) + 0x1000 = vk
  each : List.Forall₂ (HeldApart g.cell node vl) done vks
  apart : node ≠ vl
  others : ∀ x d, x ≠ node → x ≠ vl → h.cell x = some d → g.cell x = some d

section Filling
variable {h g : Hive} {host : Host} {node vl n b i : Nat} {c : Cell} {done : List SetValue}
  {vks : List Nat}

theorem Sound.wp_raise (sound : Sound h) (found : h.cell b = some c) (lower : 4 ≤ i)
    (upper : i + 4 ≤ c.len) (v : Nat) :
    wp (raiseWord b i v) (fun _ h' => Wrote h h' b (c.raise i v)) (fun _ _ => True) h := by
  have word := rd32_cell sound found upper
  refine (wp_bind _ _ _).mpr (wp_read word ?_)
  unfold Cell.raise
  split
  · exact sound.wp_wrote found lower (by rw [leBytes_length]; exact upper) fun h' wrote => wrote
  · exact ⟨sound, Keeps.refl h, found, fun _ _ => rfl⟩

theorem Filling.setOneValue (filling : Filling h g node vl n c done vks) (below : host.Below4G)
    (inside : done.length < n) (val : SetValue) :
    wp (Hivex.setOneValue host node vl done.length val)
      (fun _ g' => ∃ vk, Filling h g' node vl n c (done ++ [val]) (vks ++ [vk])) (fun _ _ => True) g := by
  obtain ⟨l, listed, room, entries⟩ := filling.list
  have sameLength := filling.each.length_eq
  refine wp_seq (filling.sound.newVkRecord below listed
    (by simp only [ValueList.offset]; omega) val) fun vk g₁ recorded => ?_
  obtain ⟨len, fits, record⟩ := recorded.record
  have nodeNew := filling.sound.fresh_apart recorded.fresh filling.record
  have listNew := filling.sound.fresh_apart recorded.fresh listed
  have size₁ := recorded.keeps.small filling.small
  refine wp_seq (recorded.sound.storeData below size₁ record (vkCell_keyed fits) vkCell_dataLen)
    fun _ g₂ supplied => ?_
  have node₁ : g₁.cell node = some (done.foldl Cell.raised c) :=
    (recorded.others node nodeNew filling.apart).trans filling.record
  have node₂ := supplied.others node _ nodeNew node₁
  have whole : 80 ≤ (done.foldl Cell.raised c).len := by
    rw [(Cell.raised_all done c).1]
    exact filling.whole
  refine wp_seq (supplied.sound.wp_raise node₂ (by decide) (by simp only [Nk.maxVkNameLen]; omega) _)
    fun _ g₃ first => ?_
  refine wp_mono (first.sound.wp_raise first.here (by decide)
    (by simp only [Nk.maxVkDataLen, Cell.raise_len]; omega) _) (fun _ g₄ second => ?_) fun _ _ _ => trivial
  have last := first.again second
  have keeps := recorded.keeps.trans (supplied.keeps.trans last.keeps)
  -- What was there before is kept, the node and the list apart.
  have kept : ∀ x d, x ≠ node → x ≠ vl → g.cell x = some d → g₄.cell x = some d := by
    intro x d notNode notList there
    have notNew := filling.sound.fresh_apart recorded.fresh there
    have there₁ := (recorded.others x notNew notList).trans there
    exact (last.others x notNode).trans (supplied.others x d notNew there₁)
  have frontier := recorded.keeps.frontier
  have beyond : ∀ b, b = vk ∨ g₁.frontier ≤ b → b ≠ node ∧ b ≠ vl := by
    rintro b (rfl | fresh)
    · exact ⟨nodeNew.symm, listNew.symm⟩
    · exact ⟨(filling.sound.fresh_apart (frontier.trans fresh) filling.record).symm,
        (filling.sound.fresh_apart (frontier.trans fresh) listed).symm⟩
  refine ⟨vk, last.sound, filling.keeps.trans keeps, keeps.small filling.small, ?_, filling.whole,
    ⟨l.put32 (ValueList.offset done.length) (vk - 0x1000), ?_, room, ?_⟩, ?_, filling.apart, ?_⟩
  · rw [List.foldl_append]
    exact last.here
  · rw [last.others vl filling.apart.symm]
    exact supplied.others vl _ listNew (recorded.entry l listed)
  · intro i x entry
    have bounds := recorded.sound.cell_bounds record
    rcases Nat.lt_or_ge i vks.length with before | behind
    · rw [List.getElem?_append_left before] at entry
      rw [Cell.get32, Cell.get_put _ (Or.inl (by simp only [ValueList.offset]; omega))]
      exact entries i x entry
    · rw [List.getElem?_append_right behind] at entry
      obtain ⟨isLast, isNew⟩ := List.getElem?_eq_some_iff.mp entry
      have here : i = done.length := by
        simp only [List.length_singleton] at isLast
        omega
      subst here
      simp only [List.getElem_singleton] at isNew
      rw [Cell.get32, Cell.get_put_same, ← isNew]
      omega
  · have old : ∀ old vk', HeldApart g.cell node vl old vk' → HeldApart g₄.cell node vl old vk' := by
      intro old vk' held
      apply held.frame
      intro b member
      obtain ⟨d, there⟩ := held.holds.there b member
      rw [there]
      apply kept b d _ _ there
      · rintro rfl
        exact held.node member
      · rintro rfl
        exact held.list member
    have new : HeldApart g₂.cell node vl val vk :=
      ⟨supplied.holds, fun member => (beyond node (supplied.blocks node member)).1 rfl,
        fun member => (beyond vl (supplied.blocks vl member)).2 rfl⟩
    have new' : HeldApart g₄.cell node vl val vk :=
      new.frame fun b member => last.others b (beyond b (supplied.blocks b member)).1
    exact List.rel_append (filling.each.imp old) (List.Forall₂.cons new' List.Forall₂.nil)
  · exact fun x d notNode notList there =>
      kept x d notNode notList (filling.others x d notNode notList there)

theorem Filling.setEachValue (filling : Filling h g node vl n c done vks) (below : host.Below4G)
    (rest : List SetValue) (inside : done.length + rest.length ≤ n) :
    wp ((rest.zipIdx done.length).forM fun (val, i) => Hivex.setOneValue host node vl i val)
      (fun _ g' => ∃ vks', Filling h g' node vl n c (done ++ rest) vks') (fun _ _ => True) g := by
  induction rest generalizing g done vks with
  | nil =>
      rw [List.append_nil]
      exact ⟨vks, filling⟩
  | cons val rest ih =>
      rw [List.length_cons] at inside
      refine wp_seq (filling.setOneValue below (by omega) val) fun _ g' ⟨vk, longer⟩ => ?_
      have later := ih longer (by rw [List.length_append, List.length_singleton]; omega)
      rw [List.length_append, List.length_singleton, List.append_assoc, List.singleton_append] at later
      exact later

end Filling

/-- The record `vk` reads as `val`. -/
def Reads (h : Hive) (val : SetValue) (vk : Nat) : Prop :=
  hivexValueKey vk h.view = .ok val.storedKey ∧
    hivexValueValue vk h.view = .ok (val.t % 2 ^ 32, val.value)

/-- The node reads as `array`, unless it has too many values to be read. -/
def Written (h : Hive) (node : Nat) (array : List SetValue) : Prop :=
  ∃ vks, List.Forall₂ (Reads h) array vks ∧ hivexNodeValues node h.view =
    if array.length ≤ hiveMaxValues then .ok vks else .error (.errno .ERANGE)

section Calls
variable {h g : Hive} {host : Host} {node vl : Nat} {c : Cell} {array : List SetValue}
  {vks : List Nat}

theorem Filling.written (filling : Filling h g node vl array.length c array vks) (isNk : c.id = Nk.id)
    (count : c.get32 Nk.nrValues = array.length) (pointer : c.get32 Nk.vallist + 0x1000 = vl)
    (some_values : array ≠ []) : Written g node array := by
  obtain ⟨l, listed, room, entries⟩ := filling.list
  have sameLength := filling.each.length_eq
  obtain ⟨len, id, get⟩ := Cell.raised_all array c
  have whole := filling.whole
  refine ⟨vks, filling.each.imp fun val vk held =>
    ⟨held.holds.key filling.sound, held.holds.value filling.sound⟩, ?_⟩
  have checked : requireBlock node Nk.id g.view = .ok () := by
    rw [requireBlock_cell filling.sound filling.record, if_pos (id.trans isNk)]
  have countWord := rd32_cell (i := Nk.nrValues) filling.sound filling.record (by
    rw [len]
    simp only [Nk.nrValues]
    omega)
  have pointerWord := rd32_cell (i := Nk.vallist) filling.sound filling.record (by
    rw [len]
    simp only [Nk.vallist]
    omega)
  have countSame : (array.foldl Cell.raised c).get32 Nk.nrValues = array.length :=
    (get 4 Nk.nrValues (by decide)).trans count
  have pointerSame : (array.foldl Cell.raised c).get32 Nk.vallist + 0x1000 = vl :=
    (congrArg (· + 0x1000) (get 4 Nk.vallist (by decide))).trans pointer
  rw [countSame] at countWord
  have proper : ¬array.length = 0 := fun none => some_values (List.length_eq_zero_iff.mp none)
  have listValid : g.valid vl = true := (cell_some listed).1
  have read : ∀ i ∈ List.range array.length, getValueOffset vl i g.view = .ok (vks.getD i 0) := by
    intro i inside
    have before : i < vks.length := by
      rw [← sameLength]
      exact List.mem_range.mp inside
    have entry := entries i _ (List.getElem?_eq_getElem before)
    have word := rd32_cell (i := ValueList.offset i) filling.sound listed (by
      simp only [ValueList.offset]
      omega)
    obtain ⟨d, there, -⟩ := (filling.each.get (by omega) before).holds
    have isValid : g.valid vks[i] = true := (cell_some there).1
    simp only [getValueOffset, bind_query, word, ok_bind, entry, isValidBlock_view, isValid, if_true,
      pure_query]
    rw [List.getD_eq_getElem _ _ before]
  have all : ((List.range array.length).mapM (getValueOffset vl)) g.view = .ok vks := by
    rw [mapM_query_ok _ _ _ _ read, sameLength]
    congr 1
    apply List.ext_getElem
    · simp
    · intro i _ before
      simp [before]
  have inside : ¬4 + array.length * 4 > l.len := by omega
  simp only [hivexNodeValues, getValues, bind_query, checked, ok_bind, countWord, proper,
    if_false]
  by_cases many : array.length > hiveMaxValues
  · rw [if_pos many, if_neg (Nat.not_le.mpr many)]
    rfl
  · rw [if_neg many, if_pos (Nat.not_lt.mp many)]
    simp only [bind_query, pointerWord, ok_bind, pointerSame, isValidBlock_view, listValid, if_true,
      blockLen_cell filling.sound listed, inside, if_false, all, pure_query]

theorem Emptied.written (emptied : Emptied h g node) (below : host.Below4G) (small : h.size < 2 ^ 32)
    (some_values : array ≠ []) :
    wp (Hivex.storeValues host node array) (fun _ k => Written k node array) (fun _ _ => True) g := by
  have positive : 0 < array.length := List.length_pos_iff.mpr some_values
  obtain ⟨c, found, len, isNk, _⟩ := emptied.record
  have size := emptied.keeps.small small
  refine (wp_bind _ _ _).mpr (emptied.sound.wp_fresh below (Nat.zero_le 2) fun vl g₁ placed fresh most => ?_)
  set room := (ValueList.sizeof + (array.length - 1) * 4 + 7) / 8 * 8 with roomEq
  simp only [ValueList.sizeof] at roomEq
  have limit : 8 + (array.length - 1) * 4 ≤ 1000000 := most
  have apart := emptied.sound.fresh_apart fresh found
  have size₁ := placed.keeps.small size
  have bounds := placed.sound.cell_bounds placed.here
  refine (wp_bind _ _ _).mpr (placed.sound.wp_wrote (placed.found apart found) (by decide)
    (by rw [leBytes_length]; simp only [Nk.nrValues]; omega) fun g₂ second => ?_)
  refine (wp_bind _ _ _).mpr (second.wp_then (by decide)
    (by rw [leBytes_length]; simp only [Nk.vallist, Cell.blit_len]; omega) fun g₃ third => ?_)
  set d := (c.put32 Nk.nrValues array.length).put32 Nk.vallist (vl - 0x1000) with nodeEq
  have filling : Filling g₃ g₃ node vl array.length d [] [] := by
    refine ⟨third.sound, Keeps.refl g₃, third.keeps.small size₁, third.here, len,
      ⟨_, third.found apart.symm placed.here, ?_, ?_⟩, List.Forall₂.nil, apart, fun _ _ _ _ there => there⟩
    · show 4 + 4 * array.length ≤ room
      omega
    · intro i vk entry
      simp at entry
  refine wp_mono (filling.setEachValue below array (by simp)) ?_ fun _ _ _ => trivial
  rintro _ k ⟨vks, filled⟩
  rw [List.nil_append] at filled
  apply filled.written
  · rw [nodeEq, Cell.id_put _ (by decide), Cell.id_put _ (by decide)]
    exact isNk
  · rw [nodeEq, Cell.get32, Cell.get_put _ (Or.inl (by decide)), Cell.get_put_same]
    omega
  · rw [nodeEq, Cell.get32, Cell.get_put_same]
    omega
  · exact some_values

/-- `hivex_node_set_values` where `delete_values` leaves a node without values. -/
theorem hivexNodeSetValues_written (small : h.size < 2 ^ 32) (below : host.Below4G)
    (deletes : wp (deleteValues node) (fun _ g => Emptied h g node) (fun _ _ => True) h) :
    wp (hivexNodeSetValues host node array) (fun _ g => Written g node array) (fun _ _ => True) h := by
  unfold hivexNodeSetValues
  refine (wp_bind _ _ _).mpr ((wp_get _).mpr ?_)
  cases h.writable with
  | false => trivial
  | true =>
  simp only [Bool.not_true, Bool.false_eq_true, if_false]
  cases nk : requireBlock node Nk.id h.view with
  | error reason =>
      have stops : read (requireBlock node Nk.id) h = .error reason h := by simp [read, look, nk]
      simp only [wp, run_error stops]
  | ok checked =>
      refine (wp_bind _ _ _).mpr (wp_read nk (wp_seq deletes fun _ g emptied => ?_))
      split
      · next none =>
        obtain rfl := List.length_eq_zero_iff.mp none
        exact ⟨[], List.Forall₂.nil, by rw [emptied.read]; rfl⟩
      · next proper => exact emptied.written below small fun none => proper (by rw [none]; rfl)

-- Where every block is granted the call succeeds.
theorem hivexNodeSetValues_granted (sound : Sound h) (small : h.size < 2 ^ 32) (below : host.Below4G)
    (releasable : Releasable h node) (writable : h.writable = true) {values : List Nat}
    (read : hivexNodeValues node h.view = .ok values) {room : Room}
    (granted : h.room.blocks host (arrayRequests array) = .ok room) :
    ∃ g, hivexNodeSetValues host node array h = .ok () g := by
  obtain ⟨checked, blocks, got⟩ := getValues_of_values read
  have succeeds : wp (hivexNodeSetValues host node array) (fun _ _ => True) (fun _ _ => False) h := by
    refine wp_setValues writable read ?_
    refine wp_seq (wp_mono (wp_and (releasable.emptied sound writable got checked)
      (deleteValues_quiet writable got)) (fun _ _ done => done) fun _ _ never => never.1) ?_
    rintro _ k ⟨emptied, sameRoom, write⟩
    split
    · trivial
    · next proper =>
      have some_values : array ≠ [] := fun none => proper (by rw [none]; rfl)
      refine wp_mono (wp_and (emptied.storeValues below small some_values write)
        (storeValues_decided write node array)) (fun _ _ _ => trivial) ?_
      rintro stop k' ⟨⟨returns, _⟩, refused | halts⟩
      · rw [sameRoom, granted] at refused
        cases refused
      · exact returns halts
  unfold wp at succeeds
  split at succeeds
  · next g run => exact ⟨g, run⟩
  · exact succeeds.elim

end Calls

/-- The readers return the array: as many values, each with its key, type and data. -/
def ReadsBack (h : Hive) (node : Nat) (array : List SetValue) : Prop :=
  ∃ vks, hivexNodeValues node h.view = .ok vks ∧ List.Forall₂ (fun val vk =>
    hivexValueKey vk h.view = .ok val.key.bytes ∧
      hivexValueValue vk h.view = .ok (val.t, val.value)) array vks

section ReadsBack
variable {h g : Hive} {host : Host} {node : Nat} {array : List SetValue}

-- A key is stored in full exactly if its length fits in 16 bits.
theorem storedKey_iff (val : SetValue) : val.storedKey = val.key.bytes ↔ val.key.strlen < 2 ^ 16 := by
  unfold SetValue.storedKey
  constructor
  · intro same
    have length := congrArg List.length same
    rw [List.length_take] at length
    simp only [CString.strlen] at length ⊢
    omega
  · intro fits
    rw [Nat.mod_eq_of_lt fits, List.take_length]

theorem Written.reads_iff (written : Written h node array)
    (types : ∀ val ∈ array, val.t < 2 ^ 32) :
    ReadsBack h node array ↔
      array.length ≤ hiveMaxValues ∧ ∀ val ∈ array, val.key.strlen < 2 ^ 16 := by
  obtain ⟨vks, reads, values⟩ := written
  constructor
  · rintro ⟨vks', values', each⟩
    rw [values] at values'
    split at values'
    · next few =>
      obtain rfl := Except.ok.inj values'
      refine ⟨few, fun val member => (storedKey_iff val).mp ?_⟩
      obtain ⟨i, inside, rfl⟩ := List.getElem_of_mem member
      have inside' : i < vks.length := by rw [← reads.length_eq]; exact inside
      have key := (reads.get inside inside').1
      rw [(each.get inside inside').1] at key
      exact (Except.ok.inj key).symm
    · cases values'
  · rintro ⟨few, short⟩
    rw [if_pos few] at values
    refine ⟨vks, values, List.forall₂_iff_get.mpr ⟨reads.length_eq, fun i inside inside' => ?_⟩⟩
    have member := List.get_mem array ⟨i, inside⟩
    obtain ⟨key, value⟩ := reads.get inside inside'
    rw [(storedKey_iff _).mpr (short _ member)] at key
    rw [Nat.mod_eq_of_lt (types _ member)] at value
    exact ⟨key, value⟩

theorem run_post {α : Type} {program : Command α} {post : α → Hive → Prop} {stop : Stop → Hive → Prop}
    {value : α} (holds : wp program post stop h) (run : program h = .ok value g) : post value g := by
  simpa only [wp, run] using holds

/-- Values written are the values read exactly if the array is not longer than the reader's
limit and the length of every key fits in its field. The writer tests neither. -/
theorem readsBack_iff (sound : Sound h) (small : h.size < 2 ^ 32) (below : host.Below4G)
    (releasable : Releasable h node) (types : ∀ val ∈ array, val.t < 2 ^ 32)
    (run : hivexNodeSetValues host node array h = .ok () g) :
    ReadsBack g node array ↔
      array.length ≤ hiveMaxValues ∧ ∀ val ∈ array, val.key.strlen < 2 ^ 16 :=
  (run_post (hivexNodeSetValues_written small below (releasable.detached.emptied sound)) run).reads_iff types

end ReadsBack

/-- One value in a block of its own and one in its record. -/
def twoValues : List SetValue :=
  [⟨⟨[0x61], nulFree_a⟩, 3, [1, 2, 3, 4, 5]⟩, ⟨⟨[], nulFree_nil⟩, 4, [1, 2]⟩]

theorem minimal_twoValues : ∃ g, hivexNodeSetValues ampleHost 0x1020 twoValues minimal = .ok () g := by
  have requests : arrayRequests twoValues = [12, 26, 9, 25] := rfl
  apply hivexNodeSetValues_granted minimal_sound (by decide) ampleHost_ample.below4G
    minimal_releasable rfl minimal_empty
  rw [requests]
  exact (by rfl : (⟨0x2000, 0x2000, 0⟩ : Room).blocks ampleHost [12, 26, 9, 25] =
    .ok ⟨0x3000, 0x3000, 0x2080⟩)

theorem minimal_readsBack : ∃ g, hivexNodeSetValues ampleHost 0x1020 twoValues minimal = .ok () g ∧
    ReadsBack g 0x1020 twoValues := by
  obtain ⟨g, run⟩ := minimal_twoValues
  exact ⟨g, run, (readsBack_iff minimal_sound (by decide) ampleHost_ample.below4G minimal_releasable
    (by decide) run).mpr ⟨by decide, by decide⟩⟩

/-- A value whose key is one byte longer than its length field can say. -/
def longKeyed : SetValue :=
  ⟨⟨List.replicate 65536 0x61, nulFree_long⟩, 3, []⟩

theorem longKeyed_strlen : longKeyed.key.strlen = 65536 := List.length_replicate

theorem minimal_longKeyed :
    ∃ g, hivexNodeSetValues ampleHost 0x1020 [longKeyed] minimal = .ok () g := by
  have requests : arrayRequests [longKeyed] = [8, 65561] := by
    have data : longKeyed.value = [] := rfl
    simp only [arrayRequests, List.flatMap_cons, List.flatMap_nil, SetValue.requests, dataRequests,
      longKeyed_strlen, data, List.length_nil, Nat.zero_le, if_true, listRequest,
      List.length_singleton, List.append_nil]
  apply hivexNodeSetValues_granted minimal_sound (by decide) ampleHost_ample.below4G
    minimal_releasable rfl minimal_empty
  rw [requests]
  exact (by rfl : (⟨0x2000, 0x2000, 0⟩ : Room).blocks ampleHost [8, 65561] =
    .ok ⟨0x14000, 0x14000, 0x13040⟩)

theorem longKeyed_cut : Sound minimal ∧ Releasable minimal 0x1020 ∧
    ∃ g, hivexNodeSetValues ampleHost 0x1020 [longKeyed] minimal = .ok () g ∧
      ¬ReadsBack g 0x1020 [longKeyed] := by
  obtain ⟨g, run⟩ := minimal_longKeyed
  refine ⟨minimal_sound, minimal_releasable, g, run, fun back => ?_⟩
  have written := run_post (hivexNodeSetValues_written (by decide) ampleHost_ample.below4G
    (minimal_releasable.detached.emptied minimal_sound)) run
  have types : ∀ val ∈ [longKeyed], val.t < 2 ^ 32 := by
    intro val member
    rw [List.mem_singleton.mp member]
    decide
  have short := ((written.reads_iff types).mp back).2 longKeyed (by simp)
  rw [longKeyed_strlen] at short
  omega

end Hivex
