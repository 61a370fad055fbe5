import Hivex.HiveCells

/-! Block allocation. `allocate_page` appends a page whose payload is not cut into
blocks yet; `placeBlock` takes the next block from the last page and marks the rest
of the page as one free block. -/
namespace Hivex

open ByteMemory Commands IntervalTiling

/-- The last page `p` is cut into blocks only up to `endblocks`. -/
structure Opened (h : Hive) (init : List PageMap) (p : PageMap) : Prop where
  tiling : Tiles h.pageSize 0x1000 h.endpages ((init ++ [p]).map PageMap.start)
  earlier : ∀ q ∈ init, PageOk h q
  magic : slice h.addr p.start 4 = Hbin.magic
  multiple : h.pageSize p.start % 4096 = 0
  blocks : Tiles h.blockLength (p.start + 0x20) h.endblocks p.blocks
  shape : ∀ b ∈ p.blocks, 4 < h.blockLength b ∧ h.blockLength b % 4 = 0
  room : h.endblocks ≤ h.endpages
  short : h.endpages - h.endblocks < 2 ^ 31
  inside : h.endpages ≤ h.size
  aligned : h.endblocks % 8 = 0
  bits : ∀ off, off % 4 = 0 → off / 32 < bitmapLen h.size →
    (PackedBits.test h.bitmap (off / 4) = true ↔
      off ∈ allBlocks (init ++ [p]) ∧ h.blockUsed off = true)

section Opening
variable {h : Hive} {pages init : List PageMap} {p q : PageMap} {b : Nat}

theorem allBlocks_concat : b ∈ allBlocks (init ++ [p]) ↔ b ∈ allBlocks init ∨ b ∈ p.blocks := by
  simp [allBlocks]

-- A sound handle that has allocated before has its last page open.
theorem LaidOut.opened (laid : LaidOut h pages) (point : AllocPoint h pages)
    (begun : h.endblocks ≠ 0) : ∃ init p, Opened h init p := by
  rcases point with none | ⟨aligned, init, p, rfl, place⟩
  · exact absurd none begun
  have page := laid.page p (by simp)
  have atEnd : p.start + h.pageSize p.start = h.endpages := by
    have tiling := laid.tiling
    rw [List.map_append, List.map_singleton] at tiling
    exact tiling.dropLast.2.2
  rcases place with full | ⟨bs, last, unused⟩
  · refine ⟨init, p, laid.tiling, fun q member => laid.page q (by simp [member]), page.magic,
      page.multiple, ?_, page.shape, Nat.le_of_eq full, by omega, laid.inside, aligned, laid.bits⟩
    rw [full, ← atEnd]
    exact page.blocks
  · have cut := page.blocks
    rw [last] at cut
    have front := cut.dropLast
    have small := laid.length_small (b := h.endblocks) (mem_allBlocks.mpr ⟨p, by simp, by simp [last]⟩)
    refine ⟨init, ⟨p.start, bs⟩, ?_, fun q member => laid.page q (by simp [member]), page.magic,
      page.multiple, front.1, fun b member => page.shape b (by simp [last, member]), ?_, ?_,
      laid.inside, aligned, fun off multiple within => ?_⟩
    · simpa using laid.tiling
    · omega
    · omega
    · rw [laid.bits off multiple within, allBlocks_concat, allBlocks_concat, last]
      constructor
      · rintro ⟨inInit | inLast, used⟩
        · exact ⟨Or.inl inInit, used⟩
        · rcases List.mem_append.mp inLast with inFront | atFree
          · exact ⟨Or.inr inFront, used⟩
          · rw [List.mem_singleton.mp atFree, unused] at used
            cases used
      · rintro ⟨inInit | inFront, used⟩
        · exact ⟨Or.inl inInit, used⟩
        · exact ⟨Or.inr (List.mem_append_left _ inFront), used⟩

namespace Opened

theorem last_page (opened : Opened h init p) :
    Tiles h.pageSize 0x1000 p.start (init.map PageMap.start) ∧ 0 < h.pageSize p.start ∧
      p.start + h.pageSize p.start = h.endpages := by
  have tiling := opened.tiling
  rw [List.map_append, List.map_singleton] at tiling
  exact tiling.dropLast

theorem last_bounds (opened : Opened h init p) :
    0x1000 ≤ p.start ∧ p.start + 0x20 ≤ h.endblocks := by
  exact ⟨opened.last_page.1.le, opened.blocks.le⟩

theorem earlier_before (opened : Opened h init p) (member : q ∈ init) :
    0x1000 ≤ q.start ∧ q.start + h.pageSize q.start ≤ p.start := by
  have bounds := opened.last_page.1.mem (List.mem_map_of_mem member)
  exact ⟨bounds.1, bounds.2.1⟩

-- Everything allocated lies before `endblocks`.
theorem block_before (opened : Opened h init p) (member : b ∈ allBlocks (init ++ [p])) :
    0x1020 ≤ b ∧ b + h.blockLength b ≤ h.endblocks ∧ 8 ≤ h.blockLength b := by
  have start := opened.last_bounds
  rcases allBlocks_concat.mp member with inInit | inLast
  · obtain ⟨q, inPages, inBlocks⟩ := mem_allBlocks.mp inInit
    have page := opened.earlier q inPages
    have bounds := page.blocks.mem inBlocks
    have before := opened.earlier_before inPages
    have shape := page.shape b inBlocks
    omega
  · have bounds := opened.blocks.mem inLast
    have shape := opened.shape b inLast
    omega

theorem header_before (opened : Opened h init p) (member : q ∈ init ++ [p]) :
    q.start + 0x20 ≤ h.endblocks := by
  have start := opened.last_bounds
  rcases List.mem_append.mp member with inInit | here
  · have before := opened.earlier_before inInit
    have page := opened.earlier q inInit
    have payload := page.blocks.le
    omega
  · rw [List.mem_singleton.mp here]
    omega

theorem block_multiple (opened : Opened h init p) (member : b ∈ allBlocks (init ++ [p])) :
    b % 4 = 0 := by
  have starts := opened.tiling.aligned 4096 (by decide) (fun x inside => by
    obtain ⟨q, inPages, rfl⟩ := List.mem_map.mp inside
    rcases List.mem_append.mp inPages with inInit | here
    · exact (opened.earlier q inInit).multiple
    · rw [List.mem_singleton.mp here]
      exact opened.multiple)
  rcases allBlocks_concat.mp member with inInit | inLast
  · obtain ⟨q, inPages, inBlocks⟩ := mem_allBlocks.mp inInit
    have page := opened.earlier q inPages
    have start := starts.2 q.start (List.mem_map_of_mem (by simp [inPages]))
    exact (page.blocks.aligned 4 (by omega) fun x inside => (page.shape x inside).2).2 b inBlocks
  · have start := starts.2 p.start (List.mem_map_of_mem (by simp))
    exact (opened.blocks.aligned 4 (by omega) fun x inside => (opened.shape x inside).2).2 b inLast

theorem valid_iff (opened : Opened h init p) :
    h.valid b = true ↔ b ∈ allBlocks (init ++ [p]) ∧ h.blockUsed b = true := by
  simp only [Hive.valid, decide_eq_true_eq]
  constructor
  · rintro ⟨aligned, _, inside, marked⟩
    exact (opened.bits b aligned (by unfold bitmapLen; omega)).mp marked
  · rintro ⟨member, used⟩
    have before := opened.block_before member
    have aligned := opened.block_multiple member
    have room := opened.room
    have within := opened.inside
    have marked := (opened.bits b aligned (by unfold bitmapLen; omega)).mpr ⟨member, used⟩
    exact ⟨aligned, by omega, by omega, marked⟩

end Opened

end Opening

/-- The header and id bytes of a new block, then zeros. -/
def freshCell (segLen : Nat) (id : List UInt8) : Cell :=
  ⟨segLen, blit (blit (fun _ => 0) 0 (leBytes 4 (2 ^ 32 - segLen))) 4 id⟩

/-- The handle after `placeBlock`. -/
def Hive.placed (h : Hive) (segLen : Nat) (id : List UInt8) : Hive :=
  let next := h.endblocks + segLen
  let taken := blit (blit (fill h.addr h.endblocks segLen 0) h.endblocks
    (leBytes 4 (2 ^ 32 - segLen))) (h.endblocks + 4) id
  { h with
    addr := if next < h.endpages then blit taken next (leBytes 4 (h.endpages - next)) else taken
    bitmap := PackedBits.set h.bitmap (h.endblocks / 4)
    endblocks := next }

section Placing
variable {h : Hive} {init : List PageMap} {p : PageMap} {segLen : Nat} {id : List UInt8}

theorem placeBlock_run (fits : h.endblocks + segLen ≤ h.endpages) (inside : h.endpages ≤ h.size)
    (idFits : 4 + id.length ≤ segLen)
    (rem : h.endblocks + segLen < h.endpages → h.endblocks + segLen + 4 ≤ h.endpages) :
    placeBlock segLen id h = .ok h.endblocks (h.placed segLen id) := by
  refine (run_ok rfl).trans ((run_ok (wrFill_run (by omega))).trans ?_)
  refine (run_ok (wrBytes_run (by simp only [leBytes_length]; omega))).trans ?_
  refine (run_ok (wrBytes_run (by dsimp only; omega))).trans ?_
  refine (run_ok (setBit_run (by dsimp only; unfold bitmapLen; omega))).trans ?_
  refine (run_ok rfl).trans ((run_ok rfl).trans ?_)
  by_cases rest : h.endblocks + segLen < h.endpages
  · have last := rem rest
    have amount : ((h.endpages : Int) - ((h.endblocks + segLen : Nat) : Int)).toNat =
        h.endpages - (h.endblocks + segLen) := by omega
    have positive : (h.endpages : Int) - ((h.endblocks + segLen : Nat) : Int) > 0 := by omega
    have enough : (h.endpages : Int) - ((h.endblocks + segLen : Nat) : Int) ≥ 4 := by omega
    simp only [positive, if_true, enough, decide_true, assert]
    refine (run_ok ((run_ok rfl).trans (wrBytes_run ?_))).trans ?_
    · simp only [leBytes_length]
      omega
    · simp only [Hive.placed, rest, if_true, amount]
      rfl
  · have done : ¬(h.endpages : Int) - ((h.endblocks + segLen : Nat) : Int) > 0 := by omega
    simp only [done, if_false]
    simp only [Hive.placed, rest, if_false]
    rfl

theorem placed_before (idFits : 4 + id.length ≤ segLen) {i : Nat} (before : i < h.endblocks) :
    (h.placed segLen id).addr i = h.addr i := by
  have taken : blit (blit (fill h.addr h.endblocks segLen 0) h.endblocks
      (leBytes 4 (2 ^ 32 - segLen))) (h.endblocks + 4) id i = h.addr i := by
    rw [blit_outside _ _ _ _ (by omega), blit_outside _ _ _ _ (by omega),
      fill_outside _ _ _ _ _ (by omega)]
  simp only [Hive.placed]
  split
  · rw [blit_outside _ _ _ _ (by omega)]
    exact taken
  · exact taken

-- Inside the new block the image holds the fresh cell.
theorem placed_inside {k : Nat} (inside : k < segLen) :
    (h.placed segLen id).addr (h.endblocks + k) = (freshCell segLen id).byte k := by
  have taken : blit (blit (fill h.addr h.endblocks segLen 0) h.endblocks
      (leBytes 4 (2 ^ 32 - segLen))) (h.endblocks + 4) id (h.endblocks + k) =
      (freshCell segLen id).byte k := by
    simp only [freshCell, blit, fill, Nat.add_le_add_iff_left, Nat.add_assoc,
      Nat.add_lt_add_iff_left, Nat.add_sub_add_left, Nat.zero_add, Nat.zero_le, true_and,
      Nat.sub_zero, leBytes_length, Nat.le_add_right, inside, if_true, Nat.add_sub_cancel_left]
  simp only [Hive.placed]
  split
  · rw [blit_outside _ _ _ _ (by omega)]
    exact taken
  · exact taken

theorem freshCell_word (small : segLen < 2 ^ 31) (positive : 0 < segLen) :
    (freshCell segLen id).get32 0 = 2 ^ 32 - segLen := by
  have outside : get32 (freshCell segLen id).byte 0 =
      get32 (blit (fun _ => 0) 0 (leBytes 4 (2 ^ 32 - segLen))) 0 :=
    getLe_blit_outside _ _ _ _ _ (by omega)
  rw [Cell.get32, Cell.get]
  refine outside.trans ?_
  rw [get32, getLe_blit_leBytes]
  omega

theorem freshCell_zero (i n : Nat) (behind : 4 + id.length ≤ i) :
    (freshCell segLen id).get n i = 0 := by
  apply getLe_zero
  intro k hk
  simp only [freshCell]
  rw [blit_outside _ _ _ _ (by omega), blit_outside _ _ _ _ (by simp; omega)]

theorem freshCell_id (twoBytes : id.length = 2) : (freshCell segLen id).id = id := by
  have stored := slice_blit (blit (fun _ => 0) 0 (leBytes 4 (2 ^ 32 - segLen))) 4 id
  rw [twoBytes] at stored
  exact stored

theorem placed_word (small : segLen < 2 ^ 31) (idFits : 4 + id.length ≤ segLen) :
    (h.placed segLen id).blockWord h.endblocks = 2 ^ 32 - segLen := by
  rw [← @freshCell_word segLen id small (by omega)]
  apply getLe_congr
  intro k hk
  rw [placed_inside (by omega), Nat.zero_add]

theorem placed_rest (rest : h.endblocks + segLen < h.endpages)
    (short : h.endpages - h.endblocks < 2 ^ 31) :
    (h.placed segLen id).blockWord (h.endblocks + segLen) = h.endpages - (h.endblocks + segLen) := by
  simp only [Hive.blockWord, Hive.placed, rest, if_true]
  rw [get32, getLe_blit_leBytes]
  omega

-- Placing a block cuts the open page completely and adds exactly one cell.
theorem Opened.placed (opened : Opened h init p) (fits : h.endblocks + segLen ≤ h.endpages)
    (multiple : segLen % 8 = 0) (idFits : 4 + id.length ≤ segLen) (small : segLen < 2 ^ 31) :
    Sound (h.placed segLen id) ∧
      (h.placed segLen id).cell = Function.update h.cell h.endblocks (some (freshCell segLen id)) := by
  have lastPage := opened.last_page
  have start := opened.last_bounds
  have short := opened.short
  have endMultiple := opened.aligned
  have pagesMultiple : h.endpages % 8 = 0 := by
    have aligned := opened.tiling.aligned 4096 (by decide) (fun x inside => by
      obtain ⟨q, inPages, rfl⟩ := List.mem_map.mp inside
      rcases List.mem_append.mp inPages with inInit | here
      · exact (opened.earlier q inInit).multiple
      · rw [List.mem_singleton.mp here]
        exact opened.multiple)
    have := aligned.1
    omega
  set h' := h.placed segLen id with placed
  have own : h'.blockWord h.endblocks = 2 ^ 32 - segLen := placed_word small idFits
  have ownLength : h'.blockLength h.endblocks = segLen := by
    simp only [Hive.blockLength, own, segLength]
    split_ifs <;> omega
  have ownUsed : h'.blockUsed h.endblocks = true := by
    simp only [Hive.blockUsed, own, segUsed, decide_eq_true_eq]
    omega
  have oldWord : ∀ b ∈ allBlocks (init ++ [p]), h'.blockWord b = h.blockWord b := by
    intro b member
    have before := opened.block_before member
    apply getLe_congr
    intro k hk
    exact placed_before idFits (by omega)
  have oldLength : ∀ b ∈ allBlocks (init ++ [p]), h'.blockLength b = h.blockLength b :=
    fun b member => by
      unfold Hive.blockLength
      rw [oldWord b member]
  have headers : ∀ q ∈ init ++ [p], ∀ k < 0x20, h'.addr (q.start + k) = h.addr (q.start + k) := by
    intro q member k hk
    have before := opened.header_before member
    exact placed_before idFits (by omega)
  -- The new page map: the taken block, and the free rest of the page if any.
  set rest : List Nat := if h.endblocks + segLen < h.endpages then [h.endblocks + segLen] else []
    with restEq
  have pieces : Tiles h'.blockLength h.endblocks h.endpages (h.endblocks :: rest) := by
    refine ⟨rfl, by omega, ?_⟩
    rw [ownLength, restEq]
    split
    · have word := @placed_rest h segLen id ‹_› short
      refine Tiles.single ?_ ?_ <;>
        simp only [Hive.blockLength, placed, word, segLength] <;> split_ifs <;> omega
    · show h.endblocks + segLen = h.endpages
      omega
  set p' : PageMap := ⟨p.start, p.blocks ++ h.endblocks :: rest⟩ with pageEq
  have restUnused : ∀ x ∈ rest, h'.blockUsed x = false ∧ 4 < h'.blockLength x ∧
      h'.blockLength x % 4 = 0 ∧ h.endblocks < x := by
    intro x member
    rw [restEq] at member
    split at member
    · obtain rfl := List.mem_singleton.mp member
      have word := @placed_rest h segLen id ‹_› short
      simp only [Hive.blockUsed, Hive.blockLength, placed, word, segUsed, segLength,
        decide_eq_false_iff_not]
      split_ifs <;> omega
    · cases member
  have memNew : ∀ x, x ∈ allBlocks (init ++ [p']) ↔
      x ∈ allBlocks (init ++ [p]) ∨ x = h.endblocks ∨ x ∈ rest := by
    intro x
    rw [allBlocks_concat, allBlocks_concat]
    simp only [pageEq, List.mem_append, List.mem_cons, or_assoc]
  have laid : LaidOut h' (init ++ [p']) := by
    refine ⟨?_, fun q member => ?_, opened.inside, fun off aligned within => ?_⟩
    · have tiling := opened.tiling
      simp only [List.map_append, List.map_singleton, pageEq] at tiling ⊢
      refine tiling.congr fun x member => ?_
      rw [← List.map_singleton, ← List.map_append] at member
      obtain ⟨q, inPages, rfl⟩ := List.mem_map.mp member
      exact pageSize_congr (headers q inPages)
    · rcases List.mem_append.mp member with inInit | here
      · exact (opened.earlier q inInit).congr (headers q (by simp [inInit])) fun b inside =>
          oldLength b (mem_allBlocks.mpr ⟨q, by simp [inInit], inside⟩)
      · obtain rfl := List.mem_singleton.mp here
        have sizeSame : h'.pageSize p.start = h.pageSize p.start :=
          pageSize_congr (headers p (by simp))
        have inLast : ∀ b ∈ p.blocks, b ∈ allBlocks (init ++ [p]) := fun b inside =>
          allBlocks_concat.mpr (Or.inr inside)
        refine ⟨?_, ?_, ?_, fun b inside => ?_⟩
        · rw [← opened.magic]
          exact slice_congr _ _ _ _ _ fun k hk => headers p (by simp) k (by omega)
        · rw [sizeSame]
          exact opened.multiple
        · rw [sizeSame, lastPage.2.2]
          exact (opened.blocks.congr fun b inside => oldLength b (inLast b inside)).append pieces
        · rcases List.mem_append.mp inside with old | new
          · rw [oldLength b (inLast b old)]
            exact opened.shape b old
          · rcases List.mem_cons.mp new with rfl | free
            · rw [ownLength]
              omega
            · exact ⟨(restUnused b free).2.1, (restUnused b free).2.2.1⟩
    · show PackedBits.test (PackedBits.set h.bitmap (h.endblocks / 4)) (off / 4) = true ↔ _
      rw [PackedBits.test_set, memNew]
      by_cases here : off = h.endblocks
      · subst here
        simp [ownUsed]
      · have different : off / 4 ≠ h.endblocks / 4 := by omega
        simp only [different, decide_false, Bool.false_or, opened.bits off aligned within]
        constructor
        · rintro ⟨member, used⟩
          refine ⟨Or.inl member, ?_⟩
          unfold Hive.blockUsed at *
          rw [oldWord off member]
          exact used
        · rintro ⟨member | here' | free, used⟩
          · refine ⟨member, ?_⟩
            unfold Hive.blockUsed at *
            rw [← oldWord off member]
            exact used
          · exact absurd here' here
          · rw [(restUnused off free).1] at used
            cases used
  have point : AllocPoint h' (init ++ [p']) := by
    refine Or.inr ⟨?_, init, p', rfl, ?_⟩
    · show (h.endblocks + segLen) % 8 = 0
      omega
    · show h.endblocks + segLen = h.endpages ∨ _
      by_cases more : h.endblocks + segLen < h.endpages
      · refine Or.inr ⟨p.blocks ++ [h.endblocks], ?_, ?_⟩
        · simp only [pageEq, restEq, more, if_true, List.append_assoc, List.singleton_append]
          rfl
        · exact (restUnused (h.endblocks + segLen) (by simp [restEq, more])).1
      · exact Or.inl (by omega)
  refine ⟨⟨_, laid, point⟩, ?_⟩
  funext x
  by_cases here : x = h.endblocks
  · subst here
    have valid : h'.valid h.endblocks = true :=
      laid.valid_iff.mpr ⟨(memNew _).mpr (Or.inr (Or.inl rfl)), ownUsed⟩
    rw [Function.update_self]
    simp only [Hive.cell, valid, if_true, ownLength, Option.some.injEq]
    ext k
    · rfl
    · dsimp only
      split
      · rw [placed_inside ‹_›]
      · simp only [freshCell]
        rw [blit_outside _ _ _ _ (by omega), blit_outside _ _ _ _ (by simp; omega)]
  · rw [Function.update_of_ne here]
    have valid : h'.valid x = h.valid x := by
      rw [Bool.eq_iff_iff, laid.valid_iff, opened.valid_iff, memNew]
      constructor
      · rintro ⟨member | here' | free, used⟩
        · refine ⟨member, ?_⟩
          unfold Hive.blockUsed at *
          rw [← oldWord x member]
          exact used
        · exact absurd here' here
        · rw [(restUnused x free).1] at used
          cases used
      · rintro ⟨member, used⟩
        refine ⟨Or.inl member, ?_⟩
        unfold Hive.blockUsed at *
        rw [oldWord x member]
        exact used
    refine cell_congr valid (fun marked => oldLength x (opened.valid_iff.mp marked).1)
      fun marked k within => ?_
    have before := opened.block_before (opened.valid_iff.mp marked).1
    exact placed_before idFits (by omega)

end Placing

/-- The handle after a successful `growImage`. -/
def Hive.grown (h : Hive) (newsize : Nat) : Hive := { h with
  size := newsize
  addr := fill h.addr h.size (newsize - h.size) 0
  bitmap := fill h.bitmap (bitmapLen h.size) (bitmapLen newsize - bitmapLen h.size) 0 }

/-- The handle with a page header written at the old end of pages, and the next
allocation right after it. -/
def Hive.paged (h : Hive) (pageSize : Nat) : Hive := { h with
  endpages := h.endpages + pageSize
  endblocks := h.endpages + 0x20
  addr := fill (blit (blit (blit h.addr h.endpages Hbin.magic) (h.endpages + 4)
    (leBytes 4 (h.endpages - 0x1000))) (h.endpages + 8) (leBytes 4 pageSize))
    (h.endpages + 12) 20 0 }

section Paging
variable {h : Hive} {pages : List PageMap} {pageSize newsize : Nat}

theorem grown_addr {i : Nat} (inside : i < h.size) : (h.grown newsize).addr i = h.addr i :=
  fill_outside _ _ _ _ _ (by omega)

-- A grown bitmap marks what the old one marked.
theorem grown_test (grows : h.size ≤ newsize) {off : Nat} (within : off / 32 < bitmapLen newsize) :
    PackedBits.test (h.grown newsize).bitmap (off / 4) =
      (decide (off / 32 < bitmapLen h.size) && PackedBits.test h.bitmap (off / 4)) := by
  have byte : off / 4 / 8 = off / 32 := by omega
  have longer : bitmapLen h.size ≤ bitmapLen newsize := by unfold bitmapLen; omega
  by_cases old : off / 32 < bitmapLen h.size
  · simp only [old, decide_true, Bool.true_and]
    apply PackedBits.test_congr
    exact fill_outside _ _ _ _ _ (by omega)
  · simp only [old, decide_false, Bool.false_and]
    apply PackedBits.test_zero
    rw [byte]
    exact fill_inside _ _ _ _ _ (by omega) (by omega)

theorem LaidOut.grown (laid : LaidOut h pages) (grows : h.size ≤ newsize) :
    LaidOut (h.grown newsize) pages := by
  have within := laid.inside
  have word : ∀ b ∈ allBlocks pages, (h.grown newsize).blockWord b = h.blockWord b := by
    intro b member
    have bounds := laid.block_inside member
    have shape := laid.block_shape member
    exact getLe_congr _ _ _ _ _ fun k hk => grown_addr (by omega)
  have header : ∀ p ∈ pages, ∀ k < 0x20, (h.grown newsize).addr (p.start + k) = h.addr (p.start + k) := by
    intro p member k hk
    have bounds := laid.page_bounds member
    have payload := (laid.page p member).blocks.le
    exact grown_addr (by omega)
  have length : ∀ b ∈ allBlocks pages, (h.grown newsize).blockLength b = h.blockLength b := by
    intro b member
    unfold Hive.blockLength
    rw [word b member]
  refine ⟨?_, fun p member => ?_, within.trans grows, fun off aligned inside => ?_⟩
  · refine laid.tiling.congr fun x member => ?_
    obtain ⟨p, inPages, rfl⟩ := List.mem_map.mp member
    exact pageSize_congr (header p inPages)
  · exact (laid.page p member).congr (header p member) fun b inside =>
      length b (mem_allBlocks.mpr ⟨p, member, inside⟩)
  · rw [grown_test grows inside]
    by_cases old : off / 32 < bitmapLen h.size
    · simp only [old, decide_true, Bool.true_and, laid.bits off aligned old]
      refine and_congr_right fun member => ?_
      unfold Hive.blockUsed
      rw [word off member]
    · simp only [old, decide_false, Bool.false_and, Bool.false_eq_true, false_iff, not_and]
      intro member
      have bounds := laid.block_inside member
      have shape := laid.block_shape member
      unfold bitmapLen at old
      omega

theorem LaidOut.grown_cell (laid : LaidOut h pages) (grows : h.size ≤ newsize) :
    (h.grown newsize).cell = h.cell := by
  have laid' := laid.grown grows
  have within := laid.inside
  funext b
  have length : ∀ b ∈ allBlocks pages, (h.grown newsize).blockWord b = h.blockWord b := by
    intro b member
    have bounds := laid.block_inside member
    have shape := laid.block_shape member
    exact getLe_congr _ _ _ _ _ fun k hk => grown_addr (by omega)
  refine cell_congr ?_ (fun marked => ?_) fun marked k inside => ?_
  · rw [Bool.eq_iff_iff, laid'.valid_iff, laid.valid_iff]
    refine and_congr_right fun member => ?_
    unfold Hive.blockUsed
    rw [length b member]
  · unfold Hive.blockLength
    rw [length b (laid.valid_iff.mp marked).1]
  · have bounds := laid.block_inside (laid.valid_iff.mp marked).1
    exact grown_addr (by omega)

theorem paged_addr {i : Nat} (before : i < h.endpages) : (h.paged pageSize).addr i = h.addr i := by
  simp only [Hive.paged]
  rw [fill_outside _ _ _ _ _ (by omega), blit_outside _ _ _ _ (by omega),
    blit_outside _ _ _ _ (by omega), blit_outside _ _ _ _ (by omega)]

theorem paged_magic : slice (h.paged pageSize).addr h.endpages 4 = Hbin.magic := by
  have stored := slice_blit h.addr h.endpages Hbin.magic
  rw [← stored]
  apply slice_congr
  intro k hk
  simp only [Hive.paged]
  rw [fill_outside _ _ _ _ _ (by omega), blit_outside _ _ _ _ (by omega),
    blit_outside _ _ _ _ (by omega)]

theorem paged_size (small : pageSize < 2 ^ 32) :
    (h.paged pageSize).pageSize h.endpages = pageSize := by
  simp only [Hive.pageSize, Hive.paged]
  rw [get32, getLe_congr _ (blit (blit (blit h.addr h.endpages Hbin.magic) (h.endpages + 4)
    (leBytes 4 (h.endpages - 0x1000))) (h.endpages + 8) (leBytes 4 pageSize)) _ (h.endpages + 8) _
    fun k hk => fill_outside _ _ _ _ _ (by omega), getLe_blit_leBytes]
  omega

-- A new page is open from its header on, and nothing else has changed.
theorem LaidOut.paged (laid : LaidOut h pages) (fits : h.endpages + pageSize ≤ h.size)
    (multiple : pageSize % 4096 = 0) (large : 4096 ≤ pageSize) (small : pageSize < 2 ^ 31) :
    Opened (h.paged pageSize) pages ⟨h.endpages, []⟩ ∧ (h.paged pageSize).cell = h.cell := by
  have aligned := laid.page_aligned.1
  have word : ∀ b ∈ allBlocks pages, (h.paged pageSize).blockWord b = h.blockWord b := by
    intro b member
    have bounds := laid.block_inside member
    have shape := laid.block_shape member
    exact getLe_congr _ _ _ _ _ fun k hk => paged_addr (by omega)
  have length : ∀ b ∈ allBlocks pages, (h.paged pageSize).blockLength b = h.blockLength b := by
    intro b member
    unfold Hive.blockLength
    rw [word b member]
  have header : ∀ p ∈ pages, ∀ k < 0x20, (h.paged pageSize).addr (p.start + k) = h.addr (p.start + k) := by
    intro p member k hk
    have bounds := laid.page_bounds member
    have payload := (laid.page p member).blocks.le
    exact paged_addr (by omega)
  have size : (h.paged pageSize).pageSize h.endpages = pageSize := paged_size (by omega)
  have room : (h.paged pageSize).endpages - (h.paged pageSize).endblocks = pageSize - 0x20 := by
    simp only [Hive.paged]
    omega
  have opened : Opened (h.paged pageSize) pages ⟨h.endpages, []⟩ := by
    refine ⟨?_, fun q member => ?_, paged_magic, ?_, rfl, fun b member => ?_, ?_,
      ?_, fits, ?_, fun off aligned' within => ?_⟩
    · rw [List.map_append, List.map_singleton]
      have front : Tiles (h.paged pageSize).pageSize 0x1000 h.endpages (pages.map PageMap.start) :=
        laid.tiling.congr fun x member => by
          obtain ⟨p, inPages, rfl⟩ := List.mem_map.mp member
          exact pageSize_congr (header p inPages)
      exact front.concat (by omega) (by rw [size]; rfl)
    · exact (laid.page q member).congr (header q member) fun b inside =>
        length b (mem_allBlocks.mpr ⟨q, member, inside⟩)
    · rw [size]
      exact multiple
    · cases member
    · show h.endpages + 0x20 ≤ h.endpages + pageSize
      omega
    · omega
    · show (h.endpages + 0x20) % 8 = 0
      omega
    · rw [allBlocks_concat]
      simp only [List.not_mem_nil, or_false]
      rw [show (h.paged pageSize).bitmap = h.bitmap from rfl, laid.bits off aligned' within]
      refine and_congr_right fun member => ?_
      unfold Hive.blockUsed
      rw [word off member]
  refine ⟨opened, funext fun b => cell_congr ?_ (fun marked => ?_) fun marked k inside => ?_⟩
  · rw [Bool.eq_iff_iff, opened.valid_iff, laid.valid_iff, allBlocks_concat]
    simp only [List.not_mem_nil, or_false]
    refine and_congr_right fun member => ?_
    unfold Hive.blockUsed
    rw [word b member]
  · exact length b (laid.valid_iff.mp marked).1
  · have bounds := laid.block_inside (laid.valid_iff.mp marked).1
    exact paged_addr (by omega)

end Paging

/-- `h'` is `h` with a new used block `b` of `len` bytes behind all earlier ones. -/
structure Allocated (h h' : Hive) (b len : Nat) (id : List UInt8) : Prop where
  becomes : Becomes h h' (Function.update h.cell b (some (freshCell len id)))
  fresh : h.frontier ≤ b
  next : b + len ≤ h'.frontier
  aligned : b % 8 = 0

/-- The image stays below 4 GiB: no larger buffer is granted. -/
def Host.Below4G (host : Host) : Prop := ∀ n, host.realloc n = true → n < 2 ^ 32

/-- Memory never runs out as long as the image stays below 4 GiB. -/
def Host.Ample (host : Host) : Prop := ∀ n, host.realloc n = decide (n < 2 ^ 32)

theorem Host.Ample.below4G {host : Host} (ample : host.Ample) : host.Below4G := fun n granted => by
  rw [ample n] at granted
  exact of_decide_eq_true granted

theorem Host.Ample.steady {host : Host} (ample : host.Ample) {n : Nat}
    (granted : host.realloc n = true) : host.realloc (bitmapLen n) = true := by
  have small := ample.below4G n granted
  rw [ample, decide_eq_true_eq]
  unfold bitmapLen
  omega

/-- A buffer was granted and its bitmap was not. -/
def Host.Unsteady (host : Host) : Prop :=
  ∃ n, host.realloc n = true ∧ host.realloc (bitmapLen n) = false

section Allocating
variable {h : Hive} {host : Host} {segLen : Nat} {id : List UInt8}

theorem writePage_run {pages : Nat} (fits : h.endpages + pages * 4096 ≤ h.size)
    (some_page : 0 < pages) :
    writePage pages h = .ok (h.endpages + 0x20)
      { h.paged (pages * 4096) with endblocks := h.endblocks } := by
  refine (run_ok rfl).trans ((run_ok rfl).trans ?_)
  refine (run_ok (wrBytes_run ?_)).trans ?_
  · simp only [Hbin.magic, List.length_cons, List.length_nil]
    omega
  refine (run_ok (wrBytes_run ?_)).trans ?_
  · simp only [leBytes_length, Hbin.offsetFirst]
    omega
  refine (run_ok (wrBytes_run ?_)).trans ?_
  · simp only [leBytes_length, Hbin.pageSize]
    omega
  exact (run_ok (wrFill_run (by dsimp only; omega))).trans rfl

/-- How `allocate_page` may find or make the room for a page. -/
def Roomy (host : Host) (h g : Hive) : Prop :=
  g = h ∨ ∃ n, host.realloc n = true ∧ h.size ≤ n ∧ g = h.grown n

-- The caller stores the result of `allocate_page` in `endblocks`.
theorem allocatePage_wp (hint : Nat) (pages : Nat) (count : 1 + (hint + 31) / 4096 = pages) :
    wp (allocatePage host hint)
      (fun offset h' => ∃ g, Roomy host h g ∧ h.endpages + pages * 4096 ≤ g.size ∧
        { h' with endblocks := offset } = g.paged (pages * 4096))
      (fun stop h' => (stop = .dangling ∧ host.Unsteady ∨ stop = .errno .ENOMEM) ∧ h' = h) h := by
  unfold allocatePage
  simp only [Hbin.sizeof, Nat.add_succ_sub_one, count]
  refine (wp_bind _ _ _).mpr ((wp_get _).mpr ?_)
  split
  · rename_i growth
    set newsize := h.size + (((h.endpages + pages * 4096 : Nat) : Int) - (h.size : Int)).toNat
      with newsizeEq
    refine (wp_bind _ _ _).mpr ?_
    by_cases granted : host.realloc newsize = true
    · by_cases bitmap : host.realloc (bitmapLen newsize) = true
      · have grown : growImage host newsize h = .ok () (h.grown newsize) := by
          simp only [growImage, granted, bitmap, if_true]
          rfl
        refine wp_of_ok grown ?_
        have fits : (h.grown newsize).endpages + pages * 4096 ≤ (h.grown newsize).size := by
          show h.endpages + pages * 4096 ≤ newsize
          omega
        exact wp_of_ok (writePage_run fits (by omega))
          ⟨_, Or.inr ⟨newsize, granted, by omega, rfl⟩, fits, rfl⟩
      · simp only [wp, growImage, granted, bitmap, if_true]
        exact ⟨Or.inl ⟨rfl, newsize, granted, by simpa using bitmap⟩, rfl⟩
    · simp [wp, growImage, granted]
  · have fits : h.endpages + pages * 4096 ≤ h.size := by omega
    exact wp_of_ok (writePage_run fits (by omega)) ⟨h, Or.inl rfl, fits, rfl⟩

-- A used block ends before the next allocation.
theorem Sound.cell_before (sound : Sound h) {b : Nat} {c : Cell} (found : h.cell b = some c) :
    b + c.len ≤ h.frontier := by
  obtain ⟨pages, laid, point⟩ := sound
  obtain ⟨member, used, _, upper, _⟩ := laid.cell_inside found
  unfold Hive.frontier
  split
  · omega
  · obtain ⟨init, p, opened⟩ := laid.opened point ‹_›
    have len := (cell_some found).2.1
    have valid := (opened.valid_iff (b := b)).mp (cell_some found).1
    have before := opened.block_before valid.1
    omega

theorem Sound.cell_beyond (sound : Sound h) {b : Nat} (beyond : h.frontier ≤ b) :
    h.cell b = none := by
  cases found : h.cell b with
  | none => rfl
  | some c =>
      have before := sound.cell_before found
      have bounds := sound.cell_bounds found
      omega

theorem Opened.place {g : Hive} {init : List PageMap} {p : PageMap} (opened : Opened g init p)
    (fits : g.endblocks + segLen ≤ g.endpages) (multiple : segLen % 8 = 0)
    (idFits : 4 + id.length ≤ segLen) (small : segLen < 2 ^ 31) :
    placeBlock segLen id g = .ok g.endblocks (g.placed segLen id) ∧
      Allocated g (g.placed segLen id) g.endblocks segLen id := by
  have pagesMultiple : g.endpages % 4096 = 0 := (opened.tiling.aligned 4096 (by decide) (fun x inside => by
    obtain ⟨q, inPages, rfl⟩ := List.mem_map.mp inside
    rcases List.mem_append.mp inPages with inInit | here
    · exact (opened.earlier q inInit).multiple
    · rw [List.mem_singleton.mp here]
      exact opened.multiple)).1
  have endMultiple := opened.aligned
  have start := opened.last_bounds
  have run := placeBlock_run fits opened.inside idFits fun rest => by omega
  have placed := opened.placed fits multiple idFits small
  have before : g.frontier = g.endblocks := if_neg (by omega)
  have after : (g.placed segLen id).frontier = g.endblocks + segLen :=
    if_neg (show g.endblocks + segLen ≠ 0 by omega)
  exact ⟨run, ⟨placed.1, ⟨rfl, rfl, Nat.le_refl _, fun fits => fits, by omega⟩, placed.2⟩,
    Nat.le_of_eq before, Nat.le_of_eq after.symm, endMultiple⟩

theorem Roomy.laid {g : Hive} {pages : List PageMap} (roomy : Roomy host h g)
    (laid : LaidOut h pages) :
    LaidOut g pages ∧ g.cell = h.cell ∧ h.size ≤ g.size ∧ g.endpages = h.endpages ∧
      g.rootoffs = h.rootoffs ∧ g.writable = h.writable ∧
      (host.Below4G → h.size < 2 ^ 32 → g.size < 2 ^ 32) := by
  rcases roomy with rfl | ⟨n, granted, grows, rfl⟩
  · exact ⟨laid, rfl, Nat.le_refl _, rfl, rfl, rfl, fun _ small => small⟩
  · exact ⟨laid.grown grows, laid.grown_cell grows, grows, rfl, rfl, rfl,
      fun below _ => below n granted⟩

/-- `allocate_block` on a sound handle: a fresh zeroed block behind all others, or an
error that changes nothing. -/
theorem Sound.allocateBlock (sound : Sound h) (below : host.Below4G) (idFits : id.length ≤ 2) :
    wp (allocateBlock host segLen id)
      (fun b h' => Allocated h h' b ((segLen + 7) / 8 * 8) id ∧
        4 ≤ segLen ∧ segLen ≤ hiveMaxAllocation ∧ h.writable = true)
      (fun stop h' => h' = h ∧ (stop = .dangling ∧ host.Unsteady ∨ stop = .errno .ENOMEM ∨
        stop = .errno .EROFS ∧ h.writable = false ∨
        stop = .errno .ERANGE ∧ (segLen < 4 ∨ hiveMaxAllocation < segLen))) h := by
  unfold Hivex.allocateBlock
  refine (wp_bind _ _ _).mpr ((wp_get _).mpr ?_)
  cases writable : h.writable with
  | false => simp [fail]
  | true =>
  simp only [Bool.not_true, Bool.false_eq_true, if_false]
  by_cases short : segLen < 4
  · simp [fail, short]
  by_cases long : segLen > hiveMaxAllocation
  · have large : hiveMaxAllocation < segLen := long
    simp [fail, short, large]
  simp only [short, long, if_false]
  have limit : segLen ≤ 1000000 := Nat.not_lt.mp long
  set len := (segLen + 7) / 8 * 8 with lenEq
  have lenBounds : 8 ≤ len ∧ len ≤ 1000000 ∧ len % 8 = 0 := by omega
  have within : segLen ≤ hiveMaxAllocation := limit
  have least : 4 ≤ segLen := by omega
  refine (wp_bind _ _ _).mpr ((wp_get _).mpr ?_)
  obtain ⟨pages, laid, point⟩ := sound
  split
  · -- A new page, open from its header on.
    refine wp_seq (wp_mono (allocatePage_wp len _ rfl) (fun _ _ done => done) ?_) ?_
    · rintro stop h' ⟨reason, rfl⟩
      exact ⟨rfl, reason.imp_right Or.inl⟩
    · rintro offset h' ⟨g, roomy, room, paged⟩
      refine (wp_bind _ _ _).mpr ((wp_modify _ _).mpr ?_)
      rw [paged]
      obtain ⟨laid', cells, larger, endpages, rootoffs, write, small⟩ := roomy.laid laid
      have fits : g.endpages + (1 + (len + 31) / 4096) * 4096 ≤ g.size := by rw [endpages]; exact room
      obtain ⟨opened, kept⟩ := laid'.paged fits (by omega) (by omega) (by omega)
      have low := laid.tiling.le
      have frontier : h.frontier ≤ (g.paged ((1 + (len + 31) / 4096) * 4096)).endblocks := by
        show h.frontier ≤ g.endpages + 0x20
        unfold Hive.frontier
        split
        · omega
        · obtain ⟨init, p, before⟩ := laid.opened point ‹_›
          have := before.room
          omega
      obtain ⟨run, placed⟩ := @Opened.place len id _ _ _ opened
        (show g.endpages + 0x20 + len ≤ g.endpages + (1 + (len + 31) / 4096) * 4096 by omega)
        (by omega) (by omega) (by omega)
      refine wp_of_ok run ⟨⟨⟨placed.becomes.sound, ⟨rootoffs, write, larger, small below, ?_⟩, ?_⟩,
        frontier, placed.next, placed.aligned⟩, least, within, trivial⟩
      · have := placed.next
        omega
      · rw [placed.becomes.cells, kept, cells]
  · rename_i roomLeft
    have begun : h.endblocks ≠ 0 := fun none => roomLeft (Or.inl none)
    have fits : h.endblocks + len ≤ h.endpages := Nat.not_lt.mp fun beyond => roomLeft (Or.inr beyond)
    obtain ⟨init, p, opened⟩ := laid.opened point begun
    obtain ⟨run, placed⟩ := @Opened.place len id _ _ _ opened fits (by omega) (by omega) (by omega)
    exact wp_of_ok run ⟨placed, least, within, trivial⟩

end Allocating

end Hivex
