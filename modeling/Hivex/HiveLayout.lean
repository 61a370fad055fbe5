import Hivex.HiveCommit
import Hivex.IntervalTiling

/-! The layout of an image: pages that tile the file from 0x1000 to the end of
pages, blocks that tile each page, and a bitmap that marks the used blocks. A
write inside a used block keeps it, because no such write meets a header. -/
namespace Hivex

open ByteMemory Commands IntervalTiling

/-- One page of the image by its offset and the offsets of its blocks. -/
@[ext] structure PageMap where
  start : Nat
  blocks : List Nat

namespace Hive

def pageSize (h : Hive) (p : Nat) : Nat := get32 h.addr (p + Hbin.pageSize)
def blockWord (h : Hive) (b : Nat) : Nat := get32 h.addr b
def blockLength (h : Hive) (b : Nat) : Nat := segLength (h.blockWord b)
def blockUsed (h : Hive) (b : Nat) : Bool := segUsed (h.blockWord b)

/-- `IS_VALID_BLOCK`. -/
def valid (h : Hive) (off : Nat) : Bool :=
  off % 4 = 0 ∧ 0x1000 ≤ off ∧ off < h.size ∧ PackedBits.test h.bitmap (off / 4)

end Hive

def allBlocks (pages : List PageMap) : List Nat := pages.flatMap PageMap.blocks

theorem mem_allBlocks {pages : List PageMap} {b : Nat} :
    b ∈ allBlocks pages ↔ ∃ p ∈ pages, b ∈ p.blocks := by
  simp [allBlocks]

structure PageOk (h : Hive) (p : PageMap) : Prop where
  magic : slice h.addr p.start 4 = Hbin.magic
  multiple : h.pageSize p.start % 4096 = 0
  blocks : Tiles h.blockLength (p.start + 0x20) (p.start + h.pageSize p.start) p.blocks
  shape : ∀ b ∈ p.blocks, 4 < h.blockLength b ∧ h.blockLength b % 4 = 0

/-- The three views of an image agree: page headers, block headers and bitmap. -/
structure LaidOut (h : Hive) (pages : List PageMap) : Prop where
  tiling : Tiles h.pageSize 0x1000 h.endpages (pages.map PageMap.start)
  page : ∀ p ∈ pages, PageOk h p
  inside : h.endpages ≤ h.size
  bits : ∀ off, off % 4 = 0 → off / 32 < bitmapLen h.size →
    (PackedBits.test h.bitmap (off / 4) = true ↔ off ∈ allBlocks pages ∧ h.blockUsed off = true)

def Layout (h : Hive) : Prop := ∃ pages, LaidOut h pages

theorem pageSize_congr {h h' : Hive} {start : Nat}
    (header : ∀ k < 0x20, h'.addr (start + k) = h.addr (start + k)) :
    h'.pageSize start = h.pageSize start := by
  apply getLe_congr
  intro k hk
  have same := header (8 + k) (by omega)
  simpa only [Nat.add_assoc] using same

theorem PageOk.congr {h h' : Hive} {p : PageMap} (page : PageOk h p)
    (header : ∀ k < 0x20, h'.addr (p.start + k) = h.addr (p.start + k))
    (lengths : ∀ b ∈ p.blocks, h'.blockLength b = h.blockLength b) : PageOk h' p := by
  have size := pageSize_congr header
  refine ⟨?_, ?_, ?_, fun b inside => ?_⟩
  · rw [← page.magic]
    exact slice_congr _ _ _ _ _ fun k hk => header k (by omega)
  · rw [size]
    exact page.multiple
  · rw [size]
    exact page.blocks.congr lengths
  · rw [lengths b inside]
    exact page.shape b inside

namespace LaidOut

variable {h : Hive} {pages : List PageMap} {p q : PageMap} {b c : Nat}

theorem page_bounds (laid : LaidOut h pages) (member : p ∈ pages) :
    0x1000 ≤ p.start ∧ p.start + h.pageSize p.start ≤ h.endpages := by
  have bounds := laid.tiling.mem (List.mem_map_of_mem member)
  exact ⟨bounds.1, bounds.2.1⟩

theorem pages_apart (laid : LaidOut h pages) (left : p ∈ pages) (right : q ∈ pages)
    (different : p.start ≠ q.start) :
    p.start + h.pageSize p.start ≤ q.start ∨ q.start + h.pageSize q.start ≤ p.start :=
  laid.tiling.apart (List.mem_map_of_mem left) (List.mem_map_of_mem right) different

theorem page_unique (laid : LaidOut h pages) (left : p ∈ pages) (right : q ∈ pages)
    (same : p.start = q.start) : p = q := by
  have leftTiles := (laid.page p left).blocks
  have rightTiles := (laid.page q right).blocks
  rw [← same] at rightTiles
  exact PageMap.ext same (leftTiles.unique rightTiles)

theorem page_aligned (laid : LaidOut h pages) :
    h.endpages % 4096 = 0 ∧ ∀ p ∈ pages, p.start % 4096 = 0 := by
  have aligned := laid.tiling.aligned 4096 (by decide) (fun x member => by
    obtain ⟨p, inPages, rfl⟩ := List.mem_map.mp member
    exact (laid.page p inPages).multiple)
  exact ⟨aligned.1, fun p member => aligned.2 p.start (List.mem_map_of_mem member)⟩

theorem block_bounds (laid : LaidOut h pages) (member : b ∈ allBlocks pages) :
    ∃ p ∈ pages, b ∈ p.blocks ∧ p.start + 0x20 ≤ b ∧
      b + h.blockLength b ≤ p.start + h.pageSize p.start := by
  obtain ⟨p, inPages, inBlocks⟩ := mem_allBlocks.mp member
  have bounds := (laid.page p inPages).blocks.mem inBlocks
  exact ⟨p, inPages, inBlocks, bounds.1, bounds.2.1⟩

theorem block_inside (laid : LaidOut h pages) (member : b ∈ allBlocks pages) :
    0x1020 ≤ b ∧ b + h.blockLength b ≤ h.endpages := by
  obtain ⟨p, inPages, _, lower, upper⟩ := laid.block_bounds member
  have bounds := laid.page_bounds inPages
  exact ⟨by omega, by omega⟩

theorem block_shape (laid : LaidOut h pages) (member : b ∈ allBlocks pages) :
    8 ≤ h.blockLength b ∧ h.blockLength b % 4 = 0 := by
  obtain ⟨p, inPages, inBlocks⟩ := mem_allBlocks.mp member
  have shape := (laid.page p inPages).shape b inBlocks
  omega

theorem block_aligned (laid : LaidOut h pages) (member : b ∈ allBlocks pages) : b % 4 = 0 := by
  obtain ⟨p, inPages, inBlocks⟩ := mem_allBlocks.mp member
  have start := laid.page_aligned.2 p inPages
  have first : (p.start + 0x20) % 4 = 0 := by omega
  exact ((laid.page p inPages).blocks.aligned 4 first
    fun x inside => ((laid.page p inPages).shape x inside).2).2 b inBlocks

theorem blocks_apart (laid : LaidOut h pages) (left : b ∈ allBlocks pages)
    (right : c ∈ allBlocks pages) (different : b ≠ c) :
    b + h.blockLength b ≤ c ∨ c + h.blockLength c ≤ b := by
  obtain ⟨p, inPages, inBlocks, lower, upper⟩ := laid.block_bounds left
  obtain ⟨q, inPages', inBlocks', lower', upper'⟩ := laid.block_bounds right
  by_cases same : p.start = q.start
  · obtain rfl := laid.page_unique inPages inPages' same
    exact (laid.page p inPages).blocks.apart inBlocks inBlocks' different
  · have apart := laid.pages_apart inPages inPages' same
    omega

-- A page header is never inside a block.
theorem header_apart (laid : LaidOut h pages) (member : p ∈ pages) (inside : b ∈ allBlocks pages) :
    p.start + 0x20 ≤ b ∨ b + h.blockLength b ≤ p.start := by
  obtain ⟨q, inPages, _, lower, upper⟩ := laid.block_bounds inside
  by_cases same : p.start = q.start
  · omega
  · have apart := laid.pages_apart member inPages same
    omega

theorem valid_iff (laid : LaidOut h pages) :
    h.valid b = true ↔ b ∈ allBlocks pages ∧ h.blockUsed b = true := by
  simp only [Hive.valid, decide_eq_true_eq]
  constructor
  · rintro ⟨aligned, _, inside, marked⟩
    exact (laid.bits b aligned (by unfold bitmapLen; omega)).mp marked
  · rintro ⟨member, used⟩
    have bounds := laid.block_inside member
    have shape := laid.block_shape member
    have within := laid.inside
    have aligned := laid.block_aligned member
    have marked := (laid.bits b aligned (by unfold bitmapLen; omega)).mpr ⟨member, used⟩
    exact ⟨aligned, by omega, by omega, marked⟩

-- The most negative length would be larger than any page.
theorem length_small (laid : LaidOut h pages) (member : b ∈ allBlocks pages) :
    h.blockLength b < 2 ^ 31 := by
  obtain ⟨p, _, _, lower, upper⟩ := laid.block_bounds member
  have page : h.pageSize p.start < 4294967296 := get32_lt h.addr _
  have word : h.blockWord b < 4294967296 := get32_lt h.addr b
  unfold Hive.blockLength segLength at *
  split_ifs at * <;> omega

-- What the layout needs of a changed image: headers as before, and bits that
-- follow the used marks.
theorem of_headers (laid : LaidOut h pages) {h' : Hive} (size : h'.size = h.size)
    (endpages : h'.endpages = h.endpages)
    (headers : ∀ p ∈ pages, ∀ k < 0x20, h'.addr (p.start + k) = h.addr (p.start + k))
    (lengths : ∀ b ∈ allBlocks pages, h'.blockLength b = h.blockLength b)
    (bits : ∀ off, off % 4 = 0 → off / 32 < bitmapLen h.size →
      (PackedBits.test h'.bitmap (off / 4) = true ↔
        off ∈ allBlocks pages ∧ h'.blockUsed off = true)) :
    LaidOut h' pages := by
  refine ⟨?_, fun p member => ?_, by rw [endpages, size]; exact laid.inside, by rw [size]; exact bits⟩
  · rw [endpages]
    refine laid.tiling.congr fun x member => ?_
    obtain ⟨p, inPages, rfl⟩ := List.mem_map.mp member
    exact pageSize_congr (headers p inPages)
  · exact (laid.page p member).congr (headers p member) fun b inside =>
      lengths b (mem_allBlocks.mpr ⟨p, member, inside⟩)

end LaidOut

/-- The image of the smallest hive: one page with the root key, its security record
and a free block. -/
def minimalImage : Mem :=
  [(0, Header.magic), (Header.sequence1, leBytes 4 1), (Header.sequence2, leBytes 4 1),
    (Header.majorVer, leBytes 4 1), (Header.offset, leBytes 4 0x20), (Header.blocks, leBytes 4 0x1000),
    (0x1000, Hbin.magic), (0x1000 + Hbin.pageSize, leBytes 4 0x1000),
    (0x1020, leBytes 4 (2 ^ 32 - 88)), (0x1024, Nk.id), (0x1020 + Nk.flags, leBytes 2 0x2c),
    (0x1020 + Nk.subkeyLf, leBytes 4 0xffffffff), (0x1020 + Nk.vallist, leBytes 4 0xffffffff),
    (0x1020 + Nk.sk, leBytes 4 0x78), (0x1020 + Nk.classname, leBytes 4 0xffffffff),
    (0x1020 + Nk.nameLen, leBytes 2 4), (0x1020 + Nk.name, [0x72, 0x6f, 0x6f, 0x74]),
    (0x1078, leBytes 4 (2 ^ 32 - 24)), (0x107c, Sk.id), (0x1078 + Sk.skNext, leBytes 4 0x78),
    (0x1078 + Sk.skPrev, leBytes 4 0x78), (0x1078 + Sk.refcount, leBytes 4 1),
    (0x1090, leBytes 4 0xf70)].foldl (fun image (i, bytes) => blit image i bytes) fun _ => 0

def minimal : Hive where
  size := 0x2000
  addr := minimalImage
  bitmap := PackedBits.set (PackedBits.set (fun _ => 0) (0x1020 / 4)) (0x1078 / 4)
  writable := true
  rootoffs := 0x1020
  endpages := 0x2000
  lastModified := 0
  endblocks := 0

theorem minimal_laidOut : LaidOut minimal [⟨0x1000, [0x1020, 0x1078, 0x1090]⟩] := by
  have page : minimal.pageSize 0x1000 = 0x1000 := by decide
  have root : minimal.blockWord 0x1020 = 2 ^ 32 - 88 := by decide
  have sk : minimal.blockWord 0x1078 = 2 ^ 32 - 24 := by decide
  have rest : minimal.blockWord 0x1090 = 0xf70 := by decide
  have lengths : minimal.blockLength 0x1020 = 88 ∧ minimal.blockLength 0x1078 = 24 ∧
      minimal.blockLength 0x1090 = 0xf70 := by
    simp only [Hive.blockLength, root, sk, rest, segLength]
    decide
  refine ⟨?_, fun p member => ?_, Nat.le_refl _, fun off aligned within => ?_⟩
  · exact ⟨rfl, by rw [page]; decide, by rw [page]; rfl⟩
  · obtain rfl := List.mem_singleton.mp member
    refine ⟨by decide, by rw [page], ?_, ?_⟩
    · simp [Tiles, page, lengths]
    · simp [lengths]
  · show PackedBits.test (PackedBits.set (PackedBits.set _ _) _) _ = true ↔ _
    rw [PackedBits.test_set, PackedBits.test_set, PackedBits.test_zero _ _ rfl]
    simp only [Bool.or_false, Bool.or_eq_true, decide_eq_true_eq, allBlocks, List.flatMap_cons,
      List.flatMap_nil, List.append_nil, List.mem_cons, List.not_mem_nil, or_false]
    constructor
    · rintro (same | same)
      · obtain rfl : off = 0x1078 := by omega
        exact ⟨by simp, by simp only [Hive.blockUsed, sk, segUsed]; decide⟩
      · obtain rfl : off = 0x1020 := by omega
        exact ⟨by simp, by simp only [Hive.blockUsed, root, segUsed]; decide⟩
    · rintro ⟨rfl | rfl | rfl, used⟩
      · exact Or.inr rfl
      · exact Or.inl rfl
      · simp [Hive.blockUsed, rest, segUsed] at used

/-- The handle of an image of one page with the given blocks. -/
def onePage (image : Mem) (blocks : List Nat) : Hive :=
  { minimal with
    addr := image
    bitmap := (blocks.filter fun b => segUsed (get32 image b)).foldl
      (fun bits b => PackedBits.set bits (b / 4)) fun _ => 0 }

theorem test_sets (bits : Mem) (marked : List Nat) (bit : Nat) :
    PackedBits.test (marked.foldl (fun bits b => PackedBits.set bits (b / 4)) bits) bit =
      (decide (bit ∈ marked.map (· / 4)) || PackedBits.test bits bit) := by
  induction marked generalizing bits with
  | nil => simp
  | cons b rest ih =>
      rw [List.foldl_cons, ih, PackedBits.test_set]
      simp only [List.map_cons, List.mem_cons, Bool.decide_or]
      cases decide (bit = b / 4) <;> cases decide (bit ∈ rest.map (· / 4)) <;> simp

theorem onePage_laidOut {image : Mem} {blocks : List Nat}
    (magic : slice image 0x1000 4 = Hbin.magic) (size : get32 image 0x1008 = 0x1000)
    (tiles : Tiles (fun b => segLength (get32 image b)) 0x1020 0x2000 blocks)
    (shape : ∀ b ∈ blocks, 4 < segLength (get32 image b) ∧ segLength (get32 image b) % 4 = 0) :
    LaidOut (onePage image blocks) [⟨0x1000, blocks⟩] := by
  have page : (onePage image blocks).pageSize 0x1000 = 0x1000 := size
  have laid : PageOk (onePage image blocks) ⟨0x1000, blocks⟩ := by
    refine ⟨magic, by rw [page], ?_, shape⟩
    rw [page]
    exact tiles
  have aligned : ∀ b ∈ blocks, b % 4 = 0 :=
    (tiles.aligned 4 (by decide) fun x inside => (shape x inside).2).2
  refine ⟨⟨rfl, by rw [page]; decide, by rw [page]; rfl⟩, fun p member => ?_, Nat.le_refl _,
    fun off flat within => ?_⟩
  · rw [List.mem_singleton.mp member]
    exact laid
  · show PackedBits.test (List.foldl _ _ _) _ = true ↔ _
    rw [test_sets, PackedBits.test_zero _ _ rfl, Bool.or_false, decide_eq_true_eq, List.mem_map]
    simp only [List.mem_filter, allBlocks, List.flatMap_cons, List.flatMap_nil, List.append_nil]
    constructor
    · rintro ⟨b, ⟨member, used⟩, same⟩
      obtain rfl : b = off := by
        have := aligned b member
        omega
      exact ⟨member, used⟩
    · rintro ⟨member, used⟩
      exact ⟨off, ⟨member, used⟩, rfl⟩

end Hivex
