import Hivex.HiveAllocate

/-! Block allocation on any layout that the allocator itself relies on. Bytes behind the end of
pages may be anything, and a used block need not be marked in the bitmap. -/
namespace Hivex

open ByteMemory Commands IntervalTiling

/-- Pages that tile the image, blocks that tile each page and hold their length word, marks on
used blocks only, and a place for the next block. -/
structure Arranged (h : Hive) (pages : List PageMap) : Prop where
  flat : h.endpages % 4096 = 0
  tiling : Tiles h.pageSize 0x1000 h.endpages (pages.map PageMap.start)
  blocks : ∀ p ∈ pages, Tiles h.blockLength (p.start + 0x20) (p.start + h.pageSize p.start) p.blocks
  whole : ∀ b ∈ allBlocks pages, 4 ≤ h.blockLength b
  inside : h.endpages ≤ h.size
  bits : ∀ off, off % 4 = 0 → off / 32 < bitmapLen h.size → PackedBits.test h.bitmap (off / 4) = true →
    off ∈ allBlocks pages ∧ h.blockUsed off = true
  point : AllocPoint h pages

/-- The same with the last page `p` cut into blocks only up to `endblocks`. -/
structure Vacant (h : Hive) (init : List PageMap) (p : PageMap) : Prop where
  flat : h.endpages % 4096 = 0
  tiling : Tiles h.pageSize 0x1000 h.endpages ((init ++ [p]).map PageMap.start)
  earlier : ∀ q ∈ init, Tiles h.blockLength (q.start + 0x20) (q.start + h.pageSize q.start) q.blocks
  front : Tiles h.blockLength (p.start + 0x20) h.endblocks p.blocks
  whole : ∀ b ∈ allBlocks (init ++ [p]), 4 ≤ h.blockLength b
  aligned : h.endblocks % 8 = 0
  room : h.endblocks ≤ h.endpages
  short : h.endpages - h.endblocks < 2 ^ 31
  inside : h.endpages ≤ h.size
  bits : ∀ off, off % 4 = 0 → off / 32 < bitmapLen h.size → PackedBits.test h.bitmap (off / 4) = true →
    off ∈ allBlocks (init ++ [p]) ∧ h.blockUsed off = true

/-- The images agree below `bound`. -/
def SameBelow (h g : Hive) (bound : Nat) : Prop := ∀ i < bound, g.addr i = h.addr i

section Reading
variable {h g : Hive} {pages init : List PageMap} {p q : PageMap} {b bound : Nat}

theorem SameBelow.blockWord (same : SameBelow h g bound) (below : b + 4 ≤ bound) : g.blockWord b = h.blockWord b :=
  getLe_congr _ _ _ _ _ fun k hk => same (b + k) (by omega)

theorem SameBelow.blockLength (same : SameBelow h g bound) (below : b + 4 ≤ bound) :
    g.blockLength b = h.blockLength b := by
  unfold Hive.blockLength
  rw [same.blockWord below]

theorem SameBelow.blockUsed (same : SameBelow h g bound) (below : b + 4 ≤ bound) : g.blockUsed b = h.blockUsed b := by
  unfold Hive.blockUsed
  rw [same.blockWord below]

theorem SameBelow.pageSize (same : SameBelow h g bound) (below : b + 0x20 ≤ bound) : g.pageSize b = h.pageSize b :=
  pageSize_congr fun k hk => same (b + k) (by omega)

theorem Arranged.page_bounds (arranged : Arranged h pages) (member : p ∈ pages) :
    0x1000 ≤ p.start ∧ p.start + 0x20 ≤ p.start + h.pageSize p.start ∧
      p.start + h.pageSize p.start ≤ h.endpages := by
  have bounds := arranged.tiling.mem (List.mem_map_of_mem member)
  exact ⟨bounds.1, (arranged.blocks p member).le, bounds.2.1⟩

theorem Arranged.block_bounds (arranged : Arranged h pages) (member : b ∈ allBlocks pages) :
    0x1020 ≤ b ∧ b + h.blockLength b ≤ h.endpages ∧ b + 4 ≤ h.endpages := by
  obtain ⟨p, inPages, inBlocks⟩ := mem_allBlocks.mp member
  have bounds := (arranged.blocks p inPages).mem inBlocks
  have page := arranged.page_bounds inPages
  have whole := arranged.whole b member
  omega

theorem Vacant.last_page (vacant : Vacant h init p) :
    Tiles h.pageSize 0x1000 p.start (init.map PageMap.start) ∧ 0 < h.pageSize p.start ∧
      p.start + h.pageSize p.start = h.endpages := by
  have tiling := vacant.tiling
  rw [List.map_append, List.map_singleton] at tiling
  exact tiling.dropLast

theorem Vacant.page_before (vacant : Vacant h init p) (member : q ∈ init ++ [p]) :
    0x1000 ≤ q.start ∧ q.start + 0x20 ≤ h.endblocks := by
  have low := vacant.last_page.1.le
  have room := vacant.front.le
  rcases List.mem_append.mp member with inInit | here
  · have bounds := vacant.last_page.1.mem (List.mem_map_of_mem inInit)
    have payload := (vacant.earlier q inInit).le
    omega
  · rw [List.mem_singleton.mp here]
    omega

theorem Vacant.block_before (vacant : Vacant h init p) (member : b ∈ allBlocks (init ++ [p])) :
    0x1020 ≤ b ∧ b + h.blockLength b ≤ h.endblocks ∧ b + 4 ≤ h.endblocks := by
  have low := vacant.last_page.1.le
  have room := vacant.front.le
  have whole := vacant.whole b member
  rcases allBlocks_concat.mp member with inInit | inLast
  · obtain ⟨q, inPages, inBlocks⟩ := mem_allBlocks.mp inInit
    have page := vacant.last_page.1.mem (List.mem_map_of_mem inPages)
    have bounds := (vacant.earlier q inPages).mem inBlocks
    omega
  · have bounds := vacant.front.mem inLast
    omega

end Reading

section Steps
variable {h g : Hive} {pages init : List PageMap} {p : PageMap} {newsize pageSize segLen : Nat} {id : List UInt8}

-- The free block that ends the last page is where the next block goes.
theorem Arranged.vacant (arranged : Arranged h pages) (begun : h.endblocks ≠ 0) :
    ∃ init p, Vacant h init p ∧ ∀ b ∈ allBlocks pages, h.blockUsed b = true → b ∈ allBlocks (init ++ [p]) := by
  rcases arranged.point with none | ⟨aligned, init, p, rfl, place⟩
  · exact absurd none begun
  have page := arranged.blocks p (by simp)
  have bounds := arranged.page_bounds (p := p) (by simp)
  have atEnd : p.start + h.pageSize p.start = h.endpages := by
    have tiling := arranged.tiling
    rw [List.map_append, List.map_singleton] at tiling
    exact tiling.dropLast.2.2
  rcases place with full | ⟨bs, last, unused⟩
  · refine ⟨init, p, ?_, fun _ member _ => member⟩
    constructor
    · exact arranged.flat
    · exact arranged.tiling
    · exact fun q member => arranged.blocks q (by simp [member])
    · rw [full, ← atEnd]
      exact page
    · exact arranged.whole
    · exact aligned
    · exact Nat.le_of_eq full
    · omega
    · exact arranged.inside
    · exact arranged.bits
  · have cut := page
    rw [last] at cut
    obtain ⟨front, -, ends⟩ := cut.dropLast
    have word : h.blockLength h.endblocks < 2 ^ 31 := by
      have low : h.blockWord h.endblocks < 2 ^ 31 := by
        unfold Hive.blockUsed segUsed at unused
        exact Nat.not_le.mp (of_decide_eq_false unused)
      unfold Hive.blockLength segLength
      rw [if_pos low]
      exact low
    have keep : ∀ b ∈ allBlocks (init ++ [p]), h.blockUsed b = true → b ∈ allBlocks (init ++ [⟨p.start, bs⟩]) := by
      intro b member used
      rcases allBlocks_concat.mp member with inInit | inLast
      · exact allBlocks_concat.mpr (Or.inl inInit)
      · rw [last] at inLast
        rcases List.mem_append.mp inLast with inFront | atFree
        · exact allBlocks_concat.mpr (Or.inr inFront)
        · rw [List.mem_singleton.mp atFree, unused] at used
          cases used
    refine ⟨init, ⟨p.start, bs⟩, ?_, keep⟩
    constructor
    · exact arranged.flat
    · simpa using arranged.tiling
    · exact fun q member => arranged.blocks q (by simp [member])
    · exact front
    · intro b member
      apply arranged.whole
      rcases allBlocks_concat.mp member with inInit | inFront
      · exact allBlocks_concat.mpr (Or.inl inInit)
      · refine allBlocks_concat.mpr (Or.inr ?_)
        rw [last]
        exact List.mem_append_left _ inFront
    · exact aligned
    · omega
    · omega
    · exact arranged.inside
    · intro off multiple within marked
      obtain ⟨member, used⟩ := arranged.bits off multiple within marked
      exact ⟨keep off member used, used⟩

theorem Arranged.grown (arranged : Arranged h pages) (grows : h.size ≤ newsize) : Arranged (h.grown newsize) pages := by
  have same : SameBelow h (h.grown newsize) h.size := fun i inside => grown_addr inside
  have within := arranged.inside
  have length : ∀ b ∈ allBlocks pages, (h.grown newsize).blockLength b = h.blockLength b := fun b member => by
    have bounds := arranged.block_bounds member
    exact same.blockLength (by omega)
  have used : ∀ b ∈ allBlocks pages, (h.grown newsize).blockUsed b = h.blockUsed b := fun b member => by
    have bounds := arranged.block_bounds member
    exact same.blockUsed (by omega)
  have size : ∀ p ∈ pages, (h.grown newsize).pageSize p.start = h.pageSize p.start := fun p member => by
    have bounds := arranged.page_bounds member
    exact same.pageSize (by omega)
  constructor
  · exact arranged.flat
  · apply arranged.tiling.congr
    intro x member
    obtain ⟨p, inPages, rfl⟩ := List.mem_map.mp member
    exact size p inPages
  · intro p member
    rw [size p member]
    exact (arranged.blocks p member).congr fun b inBlocks => length b (mem_allBlocks.mpr ⟨p, member, inBlocks⟩)
  · intro b member
    rw [length b member]
    exact arranged.whole b member
  · exact within.trans grows
  · intro off multiple inBits marked
    rw [grown_test grows inBits, Bool.and_eq_true, decide_eq_true_eq] at marked
    obtain ⟨member, isUsed⟩ := arranged.bits off multiple marked.1 marked.2
    exact ⟨member, by rw [used off member]; exact isUsed⟩
  · rcases arranged.point with none | ⟨aligned, init, p, shape, place⟩
    · exact Or.inl none
    · refine Or.inr ⟨aligned, init, p, shape, place.imp_right ?_⟩
      rintro ⟨bs, last, unused⟩
      refine ⟨bs, last, ?_⟩
      have member : h.endblocks ∈ allBlocks pages := by
        rw [shape]
        apply allBlocks_concat.mpr
        rw [last]
        exact Or.inr (by simp)
      exact (used h.endblocks member).trans unused

-- A new page is vacant from its header on.
theorem Arranged.paged (arranged : Arranged h pages) (fits : h.endpages + pageSize ≤ h.size)
    (multiple : pageSize % 4096 = 0) (large : 4096 ≤ pageSize) (small : pageSize < 2 ^ 31) :
    Vacant (h.paged pageSize) pages ⟨h.endpages, []⟩ := by
  have same : SameBelow h (h.paged pageSize) h.endpages := fun i before => paged_addr before
  have flat := arranged.flat
  have member_iff : ∀ b, b ∈ allBlocks (pages ++ [⟨h.endpages, []⟩]) ↔ b ∈ allBlocks pages := by
    intro b
    rw [allBlocks_concat]
    simp
  have size : ∀ p ∈ pages, (h.paged pageSize).pageSize p.start = h.pageSize p.start := fun p member => by
    have bounds := arranged.page_bounds member
    exact same.pageSize (by omega)
  have length : ∀ b ∈ allBlocks pages, (h.paged pageSize).blockLength b = h.blockLength b := fun b member =>
    same.blockLength (arranged.block_bounds member).2.2
  have last : (h.paged pageSize).pageSize h.endpages = pageSize := paged_size (by omega)
  have ends : (h.paged pageSize).endpages = h.endpages + pageSize := rfl
  have starts : (h.paged pageSize).endblocks = h.endpages + 0x20 := rfl
  constructor
  · omega
  · rw [List.map_append, List.map_singleton]
    have front : Tiles (h.paged pageSize).pageSize 0x1000 h.endpages (pages.map PageMap.start) := by
      apply arranged.tiling.congr
      intro x member
      obtain ⟨p, inPages, rfl⟩ := List.mem_map.mp member
      exact size p inPages
    exact front.concat (by omega) (by rw [last, ends])
  · intro p member
    rw [size p member]
    exact (arranged.blocks p member).congr fun b inBlocks => length b (mem_allBlocks.mpr ⟨p, member, inBlocks⟩)
  · exact rfl
  · intro b member
    have old := (member_iff b).mp member
    rw [length b old]
    exact arranged.whole b old
  · omega
  · omega
  · omega
  · exact fits
  · intro off multiple' within marked
    obtain ⟨member, used⟩ := arranged.bits off multiple' within marked
    refine ⟨(member_iff off).mpr member, ?_⟩
    rw [same.blockUsed (arranged.block_bounds member).2.2]
    exact used

end Steps

/-- The free block behind a new block, if the page has room left. -/
def restOf (h : Hive) (len : Nat) : List Nat :=
  if h.endblocks + len < h.endpages then [h.endblocks + len] else []

/-- The last page with the new block and the free rest. -/
def PageMap.taken (p : PageMap) (h : Hive) (len : Nat) : PageMap :=
  ⟨p.start, p.blocks ++ h.endblocks :: restOf h len⟩

section Placing
variable {h : Hive} {init : List PageMap} {p : PageMap} {len b : Nat} {id : List UInt8}

theorem allBlocks_taken : b ∈ allBlocks (init ++ [p.taken h len]) ↔
    b ∈ allBlocks (init ++ [p]) ∨ b = h.endblocks ∨ b ∈ restOf h len := by
  rw [allBlocks_concat, allBlocks_concat]
  simp only [PageMap.taken, List.mem_append, List.mem_cons, or_assoc]

theorem placed_own (small : len < 2 ^ 31) (idFits : 4 + id.length ≤ len) :
    (h.placed len id).blockLength h.endblocks = len ∧ (h.placed len id).blockUsed h.endblocks = true := by
  have word : (h.placed len id).blockWord h.endblocks = 2 ^ 32 - len := placed_word small idFits
  simp only [Hive.blockLength, Hive.blockUsed, word, segLength, segUsed, decide_eq_true_eq]
  split_ifs <;> omega

theorem Vacant.rest (id : List UInt8) (vacant : Vacant h init p) (multiple : len % 8 = 0) (member : b ∈ restOf h len) :
    b = h.endblocks + len ∧ (h.placed len id).blockUsed b = false ∧
      (h.placed len id).blockLength b = h.endpages - b ∧ b + 8 ≤ h.endpages := by
  have flat := vacant.flat
  have aligned := vacant.aligned
  have short := vacant.short
  unfold restOf at member
  split at member
  · rename_i room
    obtain rfl := List.mem_singleton.mp member
    have word : (h.placed len id).blockWord (h.endblocks + len) = h.endpages - (h.endblocks + len) :=
      placed_rest room short
    have low : h.endpages - (h.endblocks + len) < 2 ^ 31 := by omega
    refine ⟨rfl, ?_, ?_, by omega⟩
    · rw [Hive.blockUsed, word, segUsed]
      exact decide_eq_false (Nat.not_le.mpr low)
    · rw [Hive.blockLength, word, segLength, if_pos low]
  · cases member

theorem Vacant.pieces (vacant : Vacant h init p) (fits : h.endblocks + len ≤ h.endpages)
    (multiple : len % 8 = 0) (idFits : 4 + id.length ≤ len) (small : len < 2 ^ 31) :
    Tiles (h.placed len id).blockLength h.endblocks h.endpages (h.endblocks :: restOf h len) := by
  have own := (placed_own (h := h) small idFits).1
  refine ⟨rfl, by omega, ?_⟩
  rw [own]
  by_cases room : h.endblocks + len < h.endpages
  · have member : h.endblocks + len ∈ restOf h len := by simp [restOf, room]
    have free := vacant.rest id multiple member
    have alone : restOf h len = [h.endblocks + len] := if_pos room
    rw [alone]
    apply Tiles.single
    · omega
    · omega
  · have nothing : restOf h len = [] := if_neg room
    rw [nothing]
    show h.endblocks + len = h.endpages
    omega

-- Taking a block keeps the arrangement: the old blocks, the new one, and the free rest.
theorem Vacant.placed (vacant : Vacant h init p) (fits : h.endblocks + len ≤ h.endpages)
    (multiple : len % 8 = 0) (idFits : 4 + id.length ≤ len) (small : len < 2 ^ 31) :
    Arranged (h.placed len id) (init ++ [p.taken h len]) := by
  have same : SameBelow h (h.placed len id) h.endblocks := fun i before => placed_before idFits before
  have own := placed_own (h := h) small idFits
  have length : ∀ b ∈ allBlocks (init ++ [p]), (h.placed len id).blockLength b = h.blockLength b :=
    fun b member => same.blockLength (vacant.block_before member).2.2
  have size : ∀ q ∈ init ++ [p], (h.placed len id).pageSize q.start = h.pageSize q.start :=
    fun q member => same.pageSize (vacant.page_before member).2
  constructor
  · exact vacant.flat
  · have starts : (init ++ [p.taken h len]).map PageMap.start = (init ++ [p]).map PageMap.start := by
      simp [PageMap.taken]
    rw [starts]
    apply vacant.tiling.congr
    intro x member
    obtain ⟨q, inPages, rfl⟩ := List.mem_map.mp member
    exact size q inPages
  · intro q member
    rcases List.mem_append.mp member with inInit | here
    · rw [size q (by simp [inInit])]
      exact (vacant.earlier q inInit).congr fun b inBlocks =>
        length b (allBlocks_concat.mpr (Or.inl (mem_allBlocks.mpr ⟨q, inInit, inBlocks⟩)))
    · rw [List.mem_singleton.mp here]
      show Tiles _ (p.start + 0x20) (p.start + (h.placed len id).pageSize p.start) (p.blocks ++ _)
      rw [size p (by simp), vacant.last_page.2.2]
      have front := vacant.front.congr fun b inBlocks => length b (allBlocks_concat.mpr (Or.inr inBlocks))
      exact front.append (vacant.pieces fits multiple idFits small)
  · intro b member
    rcases allBlocks_taken.mp member with old | rfl | free
    · rw [length b old]
      exact vacant.whole b old
    · rw [own.1]
      omega
    · have rest := vacant.rest id multiple free
      omega
  · exact vacant.inside
  · intro off fourth within marked
    have bit : PackedBits.test (PackedBits.set h.bitmap (h.endblocks / 4)) (off / 4) = true := marked
    rw [PackedBits.test_set] at bit
    by_cases here : off = h.endblocks
    · subst here
      exact ⟨allBlocks_taken.mpr (Or.inr (Or.inl rfl)), own.2⟩
    · have aligned := vacant.aligned
      have different : off / 4 ≠ h.endblocks / 4 := by omega
      simp only [different, decide_false, Bool.false_or] at bit
      obtain ⟨member, used⟩ := vacant.bits off fourth within bit
      refine ⟨allBlocks_taken.mpr (Or.inl member), ?_⟩
      rw [same.blockUsed (vacant.block_before member).2.2]
      exact used
  · have aligned := vacant.aligned
    refine Or.inr ⟨?_, init, p.taken h len, rfl, ?_⟩
    · show (h.endblocks + len) % 8 = 0
      omega
    · by_cases room : h.endblocks + len < h.endpages
      · have member : h.endblocks + len ∈ restOf h len := by simp [restOf, room]
        have alone : restOf h len = [h.endblocks + len] := if_pos room
        refine Or.inr ⟨p.blocks ++ [h.endblocks], ?_, (vacant.rest id multiple member).2.1⟩
        show p.blocks ++ h.endblocks :: restOf h len = p.blocks ++ [h.endblocks] ++ [h.endblocks + len]
        rw [alone, List.append_assoc]
        rfl
      · refine Or.inl ?_
        show h.endblocks + len = h.endpages
        omega

end Placing

/-- `g` is ready to place the next block: the marks and the used blocks of `h` are still there. -/
structure Readied (h g : Hive) (pages init : List PageMap) (p : PageMap) : Prop where
  vacant : Vacant g init p
  same : SameBelow h g h.endpages
  keeps : ∀ x ∈ allBlocks pages, h.blockUsed x = true → x ∈ allBlocks (init ++ [p])
  marks : g.valid = h.valid

/-- What `allocate_block` grants: block `b` of `len` bytes in the arranged handle `g`. -/
structure Grants (h g : Hive) (pages : List PageMap) (b len : Nat) (id : List UInt8) : Prop where
  aligned : b % 8 = 0
  length : g.blockLength b = len
  used : g.blockUsed b = true
  inside : b + len ≤ g.size
  apart : ∀ x ∈ allBlocks pages, h.blockUsed x = true → x + h.blockLength x ≤ b
  kept : ∀ x ∈ allBlocks pages, h.blockUsed x = true → ∀ k < h.blockLength x, g.addr (x + k) = h.addr (x + k)
  stored : slice g.addr (b + 4) id.length = id
  zero : ∀ k, 4 + id.length ≤ k → k < len → g.addr (b + k) = 0
  fresh : h.valid b = false
  marks : ∀ off, g.valid off = true ↔ h.valid off = true ∨ off = b
  arranged : ∃ init p front rest, Arranged g (init ++ [p]) ∧ p.blocks = front ++ b :: rest ∧
    (∀ x ∈ allBlocks pages, h.blockUsed x = true → x ∈ allBlocks init ∨ x ∈ front) ∧
    p.start + 0x20 ≤ b ∧ b + len ≤ p.start + g.pageSize p.start ∧
    (rest = [] ∧ b + len = p.start + g.pageSize p.start ∨
      rest = [b + len] ∧ g.blockUsed (b + len) = false ∧ 8 ≤ g.blockLength (b + len) ∧
        b + len + g.blockLength (b + len) = p.start + g.pageSize p.start)

section Granting
variable {h g : Hive} {host : Host} {pages init : List PageMap} {p : PageMap} {newsize pageSize len b segLen : Nat}
  {id : List UInt8}

theorem LaidOut.arranged (laid : LaidOut h pages) (point : AllocPoint h pages) : Arranged h pages where
  flat := laid.page_aligned.1
  tiling := laid.tiling
  blocks p member := (laid.page p member).blocks
  whole b member := by
    have shape := laid.block_shape member
    omega
  inside := laid.inside
  bits off multiple within marked := (laid.bits off multiple within).mp marked
  point := point

-- A mark beyond the old buffer would belong to no block.
theorem Arranged.grown_valid (arranged : Arranged h pages) (grows : h.size ≤ newsize) :
    (h.grown newsize).valid = h.valid := by
  funext off
  rw [Bool.eq_iff_iff]
  simp only [Hive.valid, decide_eq_true_eq]
  constructor
  · rintro ⟨fourth, low, within, marked⟩
    have inBits : off / 32 < bitmapLen newsize := by
      have bound : off < newsize := within
      unfold bitmapLen
      omega
    rw [grown_test grows inBits, Bool.and_eq_true, decide_eq_true_eq] at marked
    obtain ⟨member, -⟩ := arranged.bits off fourth marked.1 marked.2
    have bounds := arranged.block_bounds member
    have inside := arranged.inside
    exact ⟨fourth, low, by omega, marked.2⟩
  · rintro ⟨fourth, low, within, marked⟩
    have inBits : off / 32 < bitmapLen newsize := by
      unfold bitmapLen
      omega
    have bound : off < newsize := by omega
    refine ⟨fourth, low, bound, ?_⟩
    rw [grown_test grows inBits, marked, Bool.and_true, decide_eq_true_eq]
    unfold bitmapLen
    omega

theorem Arranged.readied (arranged : Arranged h pages) (begun : h.endblocks ≠ 0) :
    ∃ init p, Readied h h pages init p := by
  obtain ⟨init, p, vacant, keeps⟩ := arranged.vacant begun
  exact ⟨init, p, vacant, fun _ _ => rfl, keeps, rfl⟩

theorem Arranged.readied_page (arranged : Arranged h pages) (roomy : Roomy host h g)
    (fits : h.endpages + pageSize ≤ g.size) (multiple : pageSize % 4096 = 0) (large : 4096 ≤ pageSize)
    (small : pageSize < 2 ^ 31) : Readied h (g.paged pageSize) pages pages ⟨h.endpages, []⟩ := by
  have roomier : Arranged g pages ∧ SameBelow h g h.endpages ∧ g.valid = h.valid ∧ g.endpages = h.endpages := by
    rcases roomy with rfl | ⟨newsize, -, grows, rfl⟩
    · exact ⟨arranged, fun _ _ => rfl, rfl, rfl⟩
    · have inside := arranged.inside
      exact ⟨arranged.grown grows, fun i below => grown_addr (by omega), arranged.grown_valid grows, rfl⟩
  obtain ⟨arranged', same, marks, ends⟩ := roomier
  rw [← ends] at fits ⊢
  constructor
  · exact arranged'.paged fits multiple large small
  · intro i below
    exact (paged_addr (by omega)).trans (same i below)
  · intro x member _
    exact allBlocks_concat.mpr (Or.inl member)
  · exact marks

theorem freshBytes_id (len : Nat) (id : List UInt8) : slice (freshCell len id).byte 4 id.length = id :=
  slice_blit (blit (fun _ => 0) 0 (leBytes 4 (2 ^ 32 - len))) 4 id

theorem placed_valid (aligned : h.endblocks % 8 = 0) (low : 0x1000 ≤ h.endblocks) (inside : h.endblocks < h.size)
    (off : Nat) : (h.placed len id).valid off = true ↔ h.valid off = true ∨ off = h.endblocks := by
  simp only [Hive.valid, decide_eq_true_eq]
  show (off % 4 = 0 ∧ 0x1000 ≤ off ∧ off < h.size ∧
    PackedBits.test (PackedBits.set h.bitmap (h.endblocks / 4)) (off / 4) = true) ↔ _
  rw [PackedBits.test_set, Bool.or_eq_true, decide_eq_true_eq]
  constructor
  · rintro ⟨fourth, lower, upper, own | old⟩
    · exact Or.inr (by omega)
    · exact Or.inl ⟨fourth, lower, upper, old⟩
  · rintro (⟨fourth, lower, upper, old⟩ | rfl)
    · exact ⟨fourth, lower, upper, Or.inr old⟩
    · exact ⟨by omega, low, inside, Or.inl rfl⟩

theorem Readied.places (arranged : Arranged h pages) (readied : Readied h g pages init p)
    (fits : g.endblocks + len ≤ g.endpages) (multiple : len % 8 = 0) (idFits : 4 + id.length ≤ len)
    (small : len < 2 ^ 31) : wp (placeBlock len id) (fun b g' => Grants h g' pages b len id) stop g := by
  have vacant := readied.vacant
  have aligned := vacant.aligned
  have flat := vacant.flat
  have inside := vacant.inside
  have run := placeBlock_run fits inside idFits fun rest => by omega
  have own := placed_own (h := g) small idFits
  have before : ∀ x ∈ allBlocks pages, h.blockUsed x = true →
      x + h.blockLength x ≤ g.endblocks ∧ x + h.blockLength x ≤ h.endpages := by
    intro x member used
    have bounds := arranged.block_bounds member
    have place := vacant.block_before (readied.keeps x member used)
    rw [readied.same.blockLength bounds.2.2] at place
    exact ⟨place.2.1, bounds.2.1⟩
  apply wp_of_ok run
  constructor
  · exact aligned
  · exact own.1
  · exact own.2
  · show g.endblocks + len ≤ g.size
    omega
  · exact fun x member used => (before x member used).1
  · intro x member used k within
    have bounds := before x member used
    exact (placed_before idFits (by omega)).trans (readied.same (x + k) (by omega))
  · refine Eq.trans ?_ (freshBytes_id len id)
    apply slice_congr
    intro k within
    rw [Nat.add_assoc, placed_inside (by omega)]
  · intro k behind within
    rw [placed_inside within]
    show blit (blit _ 0 _) 4 id k = 0
    rw [blit_outside _ _ _ _ (by omega), blit_outside _ _ _ _ (by simp; omega)]
  · rw [← readied.marks, Bool.eq_false_iff]
    intro marked
    simp only [Hive.valid, decide_eq_true_eq] at marked
    obtain ⟨member, -⟩ := vacant.bits g.endblocks marked.1 (by unfold bitmapLen; omega) marked.2.2.2
    have place := vacant.block_before member
    omega
  · intro off
    rw [← readied.marks]
    exact placed_valid aligned (by have := vacant.front.le; have := vacant.last_page.1.le; omega) (by omega) off
  · have arranged' := vacant.placed fits multiple idFits small
    have same : SameBelow g (g.placed len id) g.endblocks := fun i before => placed_before idFits before
    have size : (g.placed len id).pageSize p.start = g.pageSize p.start :=
      same.pageSize (vacant.page_before (by simp)).2
    have ends := vacant.last_page.2.2
    refine ⟨init, p.taken g len, p.blocks, restOf g len, arranged', rfl, ?_, vacant.front.le, ?_, ?_⟩
    · intro x member used
      exact allBlocks_concat.mp (readied.keeps x member used)
    · show g.endblocks + len ≤ p.start + (g.placed len id).pageSize p.start
      omega
    · show restOf g len = [] ∧ g.endblocks + len = p.start + (g.placed len id).pageSize p.start ∨ _
      by_cases room : g.endblocks + len < g.endpages
      · have member : g.endblocks + len ∈ restOf g len := by simp [restOf, room]
        have free := vacant.rest id multiple member
        refine Or.inr ⟨if_pos room, free.2.1, ?_, ?_⟩
        · omega
        · show g.endblocks + len + (g.placed len id).blockLength (g.endblocks + len) =
            p.start + (g.placed len id).pageSize p.start
          omega
      · exact Or.inl ⟨if_neg room, by omega⟩

-- Only a refused `realloc` stops `allocate_page`.
theorem allocatePage_refused (hint : Nat) :
    wp (allocatePage host hint) (fun _ _ => True) (fun _ _ => ∃ n, host.realloc n = false) h := by
  by_cases refused : ∃ n, host.realloc n = false
  · exact wp_mono (wp_any _ h) (fun _ _ _ => trivial) fun _ _ _ => refused
  have granted : ∀ n, host.realloc n = true := fun n => by
    have kept := not_exists.mp refused n
    simpa using kept
  unfold allocatePage
  simp only [Hbin.sizeof, Nat.add_succ_sub_one]
  set count := 1 + (hint + 31) / 4096 with countEq
  refine (wp_bind _ _ _).mpr ((wp_get _).mpr ?_)
  split
  · rename_i growth
    set newsize := h.size + (((h.endpages + count * 4096 : Nat) : Int) - (h.size : Int)).toNat with newsizeEq
    have grown : growImage host newsize h = .ok () (h.grown newsize) := by
      simp only [growImage, granted, if_true]
      rfl
    have fits : h.endpages + count * 4096 ≤ newsize := by omega
    exact (wp_bind _ _ _).mpr (wp_of_ok grown (wp_of_ok (writePage_run fits (by omega)) trivial))
  · exact wp_of_ok (writePage_run (by omega) (by omega)) trivial

end Granting

end Hivex
