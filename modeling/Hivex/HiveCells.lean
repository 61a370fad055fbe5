import Hivex.HiveLayout

/-! The image as a store of cells: one cell of bytes for every used block. The
layout makes the in-place writes and the freeing of blocks act on one cell each. -/
namespace Hivex

open ByteMemory Commands IntervalTiling

/-- The bytes of a used block, addressed from its start and zero beyond its end. -/
@[ext] structure Cell where
  len : Nat
  byte : Mem

namespace Cell

/-- The little-endian word of `n` bytes at `i`. -/
def get (c : Cell) (n i : Nat) : Nat := getLe c.byte i n
abbrev get16 (c : Cell) (i : Nat) : Nat := c.get 2 i
abbrev get32 (c : Cell) (i : Nat) : Nat := c.get 4 i
abbrev get64 (c : Cell) (i : Nat) : Nat := c.get 8 i
def bytes (c : Cell) (i n : Nat) : List UInt8 := slice c.byte i n
def id (c : Cell) : List UInt8 := c.bytes 4 2

def blit (c : Cell) (i : Nat) (bytes : List UInt8) : Cell := ⟨c.len, ByteMemory.blit c.byte i bytes⟩
def put (c : Cell) (n i v : Nat) : Cell := c.blit i (leBytes n v)
abbrev put16 (c : Cell) (i v : Nat) : Cell := c.put 2 i v
abbrev put32 (c : Cell) (i v : Nat) : Cell := c.put 4 i v
abbrev put64 (c : Cell) (i v : Nat) : Cell := c.put 8 i v

@[simp] theorem blit_len (c : Cell) (i : Nat) (bytes : List UInt8) : (c.blit i bytes).len = c.len := rfl

@[simp] theorem put_len (c : Cell) (n i v : Nat) : (c.put n i v).len = c.len := rfl

theorem get_lt (c : Cell) (n i : Nat) : c.get n i < 256 ^ n := getLe_lt c.byte i n

theorem get32_lt (c : Cell) (i : Nat) : c.get32 i < 2 ^ 32 := ByteMemory.get32_lt c.byte i

theorem get16_lt (c : Cell) (i : Nat) : c.get16 i < 2 ^ 16 := ByteMemory.get16_lt c.byte i

theorem get_blit (c : Cell) {i j n : Nat} {bytes : List UInt8}
    (apart : j + n ≤ i ∨ i + bytes.length ≤ j) : (c.blit i bytes).get n j = c.get n j :=
  getLe_blit_outside c.byte i bytes j n apart

theorem bytes_blit (c : Cell) {i j n : Nat} {bytes : List UInt8}
    (apart : j + n ≤ i ∨ i + bytes.length ≤ j) : (c.blit i bytes).bytes j n = c.bytes j n :=
  slice_blit_outside c.byte i bytes j n apart

theorem id_blit (c : Cell) {i : Nat} {bytes : List UInt8} (behind : 6 ≤ i) :
    (c.blit i bytes).id = c.id := c.bytes_blit (Or.inl behind)

@[simp] theorem get_put_same (c : Cell) (n i v : Nat) : (c.put n i v).get n i = v % 256 ^ n :=
  getLe_blit_leBytes c.byte i n v

theorem get_put (c : Cell) {n i v m j : Nat} (apart : j + m ≤ i ∨ i + n ≤ j) :
    (c.put n i v).get m j = c.get m j :=
  c.get_blit (by simpa using apart)

theorem bytes_put (c : Cell) {n i v m j : Nat} (apart : j + m ≤ i ∨ i + n ≤ j) :
    (c.put n i v).bytes j m = c.bytes j m :=
  c.bytes_blit (by simpa using apart)

theorem id_put (c : Cell) {n i v : Nat} (behind : 6 ≤ i) : (c.put n i v).id = c.id :=
  c.id_blit behind

theorem bytes_blit_same (c : Cell) (i : Nat) (bytes : List UInt8) :
    (c.blit i bytes).bytes i bytes.length = bytes := slice_blit c.byte i bytes

end Cell

abbrev Cells := Nat → Option Cell

def Hive.cell (h : Hive) : Cells := fun b =>
  if h.valid b then
    some ⟨h.blockLength b, fun i => if i < h.blockLength b then h.addr (b + i) else 0⟩
  else none

/-- The next allocation starts at `endblocks`, whose page holds nothing after it but
one free block; 0 stands for no allocation yet. -/
def AllocPoint (h : Hive) (pages : List PageMap) : Prop :=
  h.endblocks = 0 ∨ h.endblocks % 8 = 0 ∧ ∃ init p, pages = init ++ [p] ∧
    (h.endblocks = h.endpages ∨
      ∃ bs, p.blocks = bs ++ [h.endblocks] ∧ h.blockUsed h.endblocks = false)

def Sound (h : Hive) : Prop := ∃ pages, LaidOut h pages ∧ AllocPoint h pages

/-- No block has been allocated at or above this offset. -/
def Hive.frontier (h : Hive) : Nat := if h.endblocks = 0 then h.endpages + 0x20 else h.endblocks

/-- What every call keeps of a handle. -/
structure Keeps (h h' : Hive) : Prop where
  rootoffs : h'.rootoffs = h.rootoffs
  writable : h'.writable = h.writable
  size : h.size ≤ h'.size
  small : h.size < 2 ^ 32 → h'.size < 2 ^ 32
  frontier : h.frontier ≤ h'.frontier

theorem Keeps.refl (h : Hive) : Keeps h h := ⟨rfl, rfl, Nat.le_refl _, fun small => small, Nat.le_refl _⟩

theorem Keeps.trans {h h' h'' : Hive} (first : Keeps h h') (second : Keeps h' h'') : Keeps h h'' :=
  ⟨second.rootoffs.trans first.rootoffs, second.writable.trans first.writable,
    first.size.trans second.size, fun small => second.small (first.small small),
    first.frontier.trans second.frontier⟩

/-- `h` has become `h'`, whose used blocks hold `cells`. -/
structure Becomes (h h' : Hive) (cells : Cells) : Prop where
  sound : Sound h'
  keeps : Keeps h h'
  cells : h'.cell = cells

section Reading
variable {h : Hive} {b i n : Nat} {c : Cell}

@[simp] theorem isValidBlock_view (off : Nat) : isValidBlock off h.view = .ok (h.valid off) := by
  by_cases inside : off % 4 = 0 ∧ 0x1000 ≤ off ∧ off < h.size
  · have marked : off / 32 < bitmapLen h.size := by unfold bitmapLen; omega
    simp [isValidBlock, Hive.view, inside, bitmapTst, marked, Hive.valid]
  · have invalid : h.valid off = false := by
      simp only [Hive.valid, decide_eq_false_iff_not]
      exact fun all => inside ⟨all.1, all.2.1, all.2.2.1⟩
    simp only [isValidBlock, Hive.view, inside, if_false, invalid]

theorem cell_some (found : h.cell b = some c) :
    h.valid b = true ∧ c.len = h.blockLength b ∧ ∀ i < c.len, c.byte i = h.addr (b + i) := by
  unfold Hive.cell at found
  split at found
  · cases found
    exact ⟨by assumption, rfl, fun i inside => by simp [inside]⟩
  · cases found

theorem cell_zero_outside (found : h.cell b = some c) (k : Nat) (outside : c.len ≤ k) :
    c.byte k = 0 := by
  unfold Hive.cell at found
  split at found
  · cases found
    simp only [Nat.not_lt.mpr outside, if_false]
  · cases found

theorem cell_none (gone : h.cell b = none) : h.valid b = false := by
  unfold Hive.cell at gone
  split at gone
  · cases gone
  · simpa using ‹¬h.valid b = true›

-- A block keeps its cell when its mark, its length and its bytes are kept.
theorem cell_congr {h' : Hive} (valid : h'.valid b = h.valid b)
    (length : h.valid b = true → h'.blockLength b = h.blockLength b)
    (same : h.valid b = true → ∀ k < h.blockLength b, h'.addr (b + k) = h.addr (b + k)) :
    h'.cell b = h.cell b := by
  unfold Hive.cell
  rw [valid]
  split
  · rename_i marked
    rw [length marked]
    congr 2
    funext k
    split
    · exact same marked k ‹_›
    · rfl
  · rfl

theorem cell_of_valid (valid : h.valid b = true) :
    ∃ c, h.cell b = some c := by
  simp [Hive.cell, valid]

theorem valid_eq_isSome (b : Nat) : h.valid b = (h.cell b).isSome := by
  unfold Hive.cell
  split <;> simp_all

theorem LaidOut.cell_inside {pages : List PageMap} (laid : LaidOut h pages)
    (found : h.cell b = some c) :
    b ∈ allBlocks pages ∧ h.blockUsed b = true ∧ 0x1020 ≤ b ∧ b + c.len ≤ h.endpages ∧
      8 ≤ c.len ∧ c.len % 4 = 0 := by
  obtain ⟨valid, len, _⟩ := cell_some found
  obtain ⟨member, used⟩ := laid.valid_iff.mp valid
  have bounds := laid.block_inside member
  have shape := laid.block_shape member
  rw [len]
  exact ⟨member, used, bounds.1, bounds.2, shape.1, shape.2⟩

theorem Sound.cell_bounds (sound : Sound h) (found : h.cell b = some c) :
    0x1020 ≤ b ∧ b + c.len ≤ h.size ∧ 8 ≤ c.len ∧ c.len % 4 = 0 ∧ b % 4 = 0 := by
  obtain ⟨pages, laid, _⟩ := sound
  obtain ⟨member, _, lower, upper, long, multiple⟩ := laid.cell_inside found
  exact ⟨lower, upper.trans laid.inside, long, multiple, laid.block_aligned member⟩

-- Reading inside a used block reads its cell.
theorem rdLe_cell (sound : Sound h) (found : h.cell b = some c) (inside : i + n ≤ c.len) :
    rdLe n b i h.view = .ok (c.get n i) := by
  have bounds := sound.cell_bounds found
  rw [rdLe_view (by omega)]
  congr 1
  apply getLe_congr
  intro k hk
  rw [Nat.add_assoc]
  exact ((cell_some found).2.2 (i + k) (by omega)).symm

theorem rd16_cell (sound : Sound h) (found : h.cell b = some c) (inside : i + 2 ≤ c.len) :
    rd16 b i h.view = .ok (c.get16 i) := rdLe_cell sound found inside

theorem rd32_cell (sound : Sound h) (found : h.cell b = some c) (inside : i + 4 ≤ c.len) :
    rd32 b i h.view = .ok (c.get32 i) := rdLe_cell sound found inside

theorem rd64_cell (sound : Sound h) (found : h.cell b = some c) (inside : i + 8 ≤ c.len) :
    rd64 b i h.view = .ok (c.get64 i) := rdLe_cell sound found inside

theorem rdBytes_cell (sound : Sound h) (found : h.cell b = some c) (inside : i + n ≤ c.len) :
    rdBytes b i n h.view = .ok (c.bytes i n) := by
  have bounds := sound.cell_bounds found
  rw [rdBytes_view (by omega)]
  congr 1
  apply slice_congr
  intro k hk
  rw [Nat.add_assoc]
  exact ((cell_some found).2.2 (i + k) (by omega)).symm

theorem blockIdEq_cell (sound : Sound h) (found : h.cell b = some c) (eqid : List UInt8) :
    blockIdEq b eqid h.view = .ok (decide (c.id = eqid)) := by
  have bounds := sound.cell_bounds found
  have id := rdBytes_cell (i := 4) (n := 2) sound found (by omega)
  rw [blockIdEq, bind_query, id]
  rfl

theorem blockLen_cell (sound : Sound h) (found : h.cell b = some c) :
    blockLen b h.view = .ok c.len := by
  have bounds := sound.cell_bounds found
  have word := rdLe_view (b := b) (i := 0) (n := 4) (h := h) (by omega)
  simp only [blockLen, bind_query, rd32, word, ok_bind, pure_query, (cell_some found).2.1]
  rfl

theorem requireBlock_cell (sound : Sound h) (found : h.cell b = some c) (eqid : List UInt8) :
    requireBlock b eqid h.view = if c.id = eqid then .ok () else .error (.errno .EINVAL) := by
  have valid := (cell_some found).1
  have id := blockIdEq_cell sound found eqid
  by_cases same : c.id = eqid <;> simp [requireBlock, valid, id, same]

theorem ends_unlessValid {β : Type} {code : Errno} {next : Reader β} {post : β → Prop}
    {stop : Stop → Prop} (refused : h.cell b = none → stop (.errno code))
    (continues : ∀ c, h.cell b = some c → Ends (next h.view) post stop) :
    Ends ((do
      unless (← isValidBlock b) do throw (.errno code)
      next : Reader β) h.view) post stop := by
  rw [bind_query, isValidBlock_view, ok_bind, valid_eq_isSome]
  cases found : h.cell b with
  | none => exact refused found
  | some c => exact continues c found

theorem wp_read {α : Type} {query : Reader α} {post : α → Hive → Prop} {stop : Stop → Hive → Prop}
    {value : α} (result : query h.view = .ok value) (holds : post value h) :
    wp (read query) post stop h := by
  rw [wp_look, result]
  exact holds

theorem wp_assert {condition : Bool} {post : Unit → Hive → Prop} {stop : Stop → Hive → Prop}
    (passes : condition = true) (holds : post () h) : wp (assert condition) post stop h := by
  rw [passes]
  exact holds

theorem requireBlock_none (gone : h.cell b = none) (eqid : List UInt8) :
    requireBlock b eqid h.view = .error (.errno .EINVAL) := by
  simp [requireBlock, cell_none gone]

end Reading

section Writing
variable {h : Hive} {pages : List PageMap} {b i : Nat} {c : Cell} {bytes : List UInt8}

-- A write behind the length word of a used block meets no header.
theorem LaidOut.write_headers (laid : LaidOut h pages) (member : b ∈ allBlocks pages)
    (lower : 4 ≤ i) (upper : i + bytes.length ≤ h.blockLength b) :
    (∀ p ∈ pages, ∀ k < 0x20, blit h.addr (b + i) bytes (p.start + k) = h.addr (p.start + k)) ∧
    (∀ x ∈ allBlocks pages, get32 (blit h.addr (b + i) bytes) x = h.blockWord x) := by
  constructor
  · intro p inPages k hk
    have apart := laid.header_apart inPages member
    exact blit_outside _ _ _ _ (by omega)
  · intro x inside
    have shape := laid.block_shape inside
    apply getLe_blit_outside
    by_cases same : x = b
    · omega
    · have apart := laid.blocks_apart inside member same
      omega

theorem AllocPoint.congr {h' : Hive} (point : AllocPoint h pages)
    (endblocks : h'.endblocks = h.endblocks) (endpages : h'.endpages = h.endpages)
    (free : h.blockUsed h.endblocks = false → h.endblocks ∈ allBlocks pages →
      h'.blockUsed h.endblocks = false) : AllocPoint h' pages := by
  rcases point with none | ⟨aligned, init, p, split, place⟩
  · exact Or.inl (endblocks.trans none)
  · refine Or.inr ⟨by rw [endblocks]; exact aligned, init, p, split, ?_⟩
    rw [endblocks, endpages]
    refine place.imp_right fun ⟨bs, last, unused⟩ => ⟨bs, last, free unused ?_⟩
    rw [mem_allBlocks, split]
    exact ⟨p, by simp, by simp [last]⟩

theorem Sound.write (sound : Sound h) (found : h.cell b = some c) (lower : 4 ≤ i)
    (upper : i + bytes.length ≤ c.len) :
    ∃ h', wrBytes (b + i) bytes h = .ok () h' ∧
      Becomes h h' (Function.update h.cell b (some (c.blit i bytes))) := by
  have bounds := sound.cell_bounds found
  obtain ⟨pages, laid, point⟩ := sound
  obtain ⟨valid, len, stored⟩ := cell_some found
  have member := (laid.valid_iff.mp valid).1
  obtain ⟨headers, words⟩ := @LaidOut.write_headers h pages b i bytes laid member lower (by omega)
  set h' : Hive := { h with addr := blit h.addr (b + i) bytes } with changed
  have word : ∀ x ∈ allBlocks pages, h'.blockWord x = h.blockWord x := words
  have laid' : LaidOut h' pages := by
    refine laid.of_headers rfl rfl headers (fun x inside => ?_) fun off aligned within => ?_
    · unfold Hive.blockLength
      rw [word x inside]
    · rw [laid.bits off aligned within]
      refine and_congr_right fun inside => ?_
      unfold Hive.blockUsed
      rw [word off inside]
  have point' : AllocPoint h' pages := point.congr rfl rfl fun unused inside => by
    unfold Hive.blockUsed at *
    rw [word _ inside]
    exact unused
  refine ⟨h', by simp only [wrBytes]; rw [if_pos (by omega)], ⟨pages, laid', point'⟩,
    ⟨rfl, rfl, Nat.le_refl _, id, Nat.le_refl _⟩, ?_⟩
  funext x
  have validSame : h'.valid x = h.valid x := rfl
  by_cases here : x = b
  · subst here
    have lenSame : h'.blockLength x = c.len := by
      rw [len]
      unfold Hive.blockLength
      rw [word x member]
    rw [Function.update_self]
    simp only [Hive.cell, validSame, valid, if_true, lenSame, Option.some.injEq]
    ext k
    · rfl
    · simp only [Cell.blit, blit, changed]
      by_cases within : k < c.len
      · simp only [within, if_true, stored k within, Nat.add_le_add_iff_left, Nat.add_assoc,
          Nat.add_lt_add_iff_left, Nat.add_sub_add_left]
      · have outside : ¬(i ≤ k ∧ k < i + bytes.length) := by omega
        simp only [within, outside, if_false, cell_zero_outside found k (by omega)]
  · rw [Function.update_of_ne here]
    refine cell_congr validSame (fun marked => ?_) fun marked k within => ?_
    · unfold Hive.blockLength
      rw [word x (laid.valid_iff.mp marked).1]
    · have apart := laid.blocks_apart (laid.valid_iff.mp marked).1 member here
      exact blit_outside _ _ _ _ (by omega)

theorem Sound.free (sound : Sound h) (writable : h.writable = true) (found : h.cell b = some c) :
    ∃ h', markBlockUnused b h = .ok () h' ∧
      Becomes h h' (Function.update h.cell b none) := by
  have bounds := sound.cell_bounds found
  have length := blockLen_cell sound found
  obtain ⟨pages, laid, point⟩ := sound
  obtain ⟨valid, len, stored⟩ := cell_some found
  have member := (laid.valid_iff.mp valid).1
  have small := laid.length_small member
  set h' : Hive := { h with
    addr := blit h.addr b (leBytes 4 c.len)
    bitmap := PackedBits.clear h.bitmap (b / 4) } with changed
  have run : markBlockUnused b h = .ok () h' := by
    have inBits : b / 32 < bitmapLen h.size := by unfold bitmapLen; omega
    have inImage : b + 4 ≤ h.size := by omega
    simp only [markBlockUnused, requireValid, assert, read, look, wrBytes, clearBit, bitmapClr,
      bind, EStateM.bind, pure, EStateM.pure, get, getThe, MonadStateOf.get, EStateM.get,
      isValidBlock_view, valid, length, writable, leBytes_length, inBits, inImage, if_true, changed]
  have otherWord : ∀ x ∈ allBlocks pages, x ≠ b → h'.blockWord x = h.blockWord x := by
    intro x inside different
    have apart := laid.blocks_apart inside member different
    have shape := laid.block_shape inside
    apply getLe_blit_outside
    simp only [leBytes_length]
    omega
  have ownWord : h'.blockWord b = c.len := by
    show get32 (blit h.addr b (leBytes 4 c.len)) b = c.len
    rw [get32, getLe_blit_leBytes]
    omega
  have ownUnused : h'.blockUsed b = false := by
    simp only [Hive.blockUsed, ownWord, segUsed, decide_eq_false_iff_not]
    omega
  have lengths : ∀ x ∈ allBlocks pages, h'.blockLength x = h.blockLength x := by
    intro x inside
    by_cases here : x = b
    · subst here
      rw [← len]
      simp only [Hive.blockLength, ownWord, segLength]
      split <;> omega
    · unfold Hive.blockLength
      rw [otherWord x inside here]
  have laid' : LaidOut h' pages := by
    refine laid.of_headers rfl rfl (fun p inPages k hk => ?_) lengths fun off aligned within => ?_
    · have apart := laid.header_apart inPages member
      apply blit_outside
      simp only [leBytes_length]
      omega
    · show PackedBits.test (PackedBits.clear h.bitmap (b / 4)) (off / 4) = true ↔ _
      rw [PackedBits.test_clear]
      by_cases here : off = b
      · subst here
        simp [ownUnused]
      · have aligned' := laid.block_aligned member
        have different : off / 4 ≠ b / 4 := by omega
        simp only [different, decide_false, Bool.not_false, Bool.true_and]
        rw [laid.bits off aligned within]
        refine and_congr_right fun inside => ?_
        unfold Hive.blockUsed
        rw [otherWord off inside here]
  have validOther : ∀ x, x ≠ b → h'.valid x = h.valid x := by
    intro x different
    rw [Bool.eq_iff_iff, laid'.valid_iff, laid.valid_iff]
    refine and_congr_right fun inside => ?_
    unfold Hive.blockUsed
    rw [otherWord x inside different]
  have point' : AllocPoint h' pages := point.congr rfl rfl fun unused inside => by
    by_cases here : h.endblocks = b
    · rw [here]
      exact ownUnused
    · unfold Hive.blockUsed at *
      rw [otherWord _ inside here]
      exact unused
  refine ⟨h', run, ⟨pages, laid', point'⟩,
    ⟨rfl, rfl, Nat.le_refl _, fun fits => fits, Nat.le_refl _⟩, ?_⟩
  funext x
  by_cases here : x = b
  · subst here
    have invalid : h'.valid x = false := by
      rw [Bool.eq_false_iff]
      intro still
      have used := (laid'.valid_iff.mp still).2
      rw [ownUnused] at used
      cases used
    rw [Function.update_self]
    simp [Hive.cell, invalid]
  · rw [Function.update_of_ne here]
    refine cell_congr (validOther x here) (fun marked => lengths x (laid.valid_iff.mp marked).1)
      fun marked k within => ?_
    have apart := laid.blocks_apart (laid.valid_iff.mp marked).1 member here
    apply blit_outside
    simp only [leBytes_length]
    omega

theorem Sound.wp_write {post : Unit → Hive → Prop} {stop : Stop → Hive → Prop} (sound : Sound h)
    (found : h.cell b = some c) (lower : 4 ≤ i) (upper : i + bytes.length ≤ c.len)
    (continues : ∀ h', Becomes h h' (Function.update h.cell b (some (c.blit i bytes))) → post () h') :
    wp (wrBytes (b + i) bytes) post stop h := by
  obtain ⟨h', run, becomes⟩ := sound.write found lower upper
  exact wp_of_ok run (continues h' becomes)

theorem Sound.wp_free {post : Unit → Hive → Prop} {stop : Stop → Hive → Prop} (sound : Sound h)
    (writable : h.writable = true) (found : h.cell b = some c)
    (continues : ∀ h', Becomes h h' (Function.update h.cell b none) → post () h') :
    wp (markBlockUnused b) post stop h := by
  obtain ⟨h', run, becomes⟩ := sound.free writable found
  exact wp_of_ok run (continues h' becomes)

theorem markBlockUnused_gone (writable : h.writable = true) (gone : h.cell b = none) :
    markBlockUnused b h = .error .abort h := by
  simp only [markBlockUnused, requireValid, assert, read, look, bind, EStateM.bind, pure,
    EStateM.pure, get, getThe, MonadStateOf.get, EStateM.get, throw, throwThe,
    MonadExceptOf.throw, isValidBlock_view, cell_none gone, writable, if_true]
  rfl

end Writing

end Hivex
