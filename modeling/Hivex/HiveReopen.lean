import Hivex.HiveAgreement
import Hivex.HiveLayout

/-! Commit and reopen. `hivex_commit` updates the header and writes out the image,
and the page and block scan of `hivex_open` finds in it exactly the pages and
blocks that the writing handle has kept track of. -/
namespace Hivex

open ByteMemory Commands IntervalTiling

/-- What the scan records of the block at `b`. -/
def Hive.scanned (h : Hive) (scan : Scan) (b : Nat) : Scan where
  bitmap := if h.blockUsed b then PackedBits.set scan.bitmap (b / 4) else scan.bitmap
  seenRootBlock := scan.seenRootBlock || decide (b = h.rootoffs)
  badRootBlock := scan.badRootBlock

-- The root block is a used nk-block.
def Hive.RootOk (h : Hive) : Prop :=
  h.valid h.rootoffs = true ∧ slice h.addr (h.rootoffs + 4) 2 = Nk.id

section Scanning
variable {h : Hive} {pages : List PageMap} {file : File} {scan : Scan} {b : Nat}

theorem readBlock_run (laid : LaidOut h pages) (root : h.RootOk) (member : b ∈ allBlocks pages) :
    readBlock h.file h.rootoffs b scan = .ok (h.blockLength b, h.scanned scan b) := by
  have bounds := laid.block_inside member
  have shape := laid.block_shape member
  have within := laid.inside
  have word : h.file.rdLe 4 b = .ok (h.blockWord b) := rdLe_file (show b + 4 ≤ h.size by omega)
  have lengthOk : ¬(segLength (h.blockWord b) ≤ 4 ∨ segLength (h.blockWord b) % 4 ≠ 0) := by
    change ¬(h.blockLength b ≤ 4 ∨ h.blockLength b % 4 ≠ 0)
    omega
  have marks : b / 32 < bitmapLen h.file.size := by
    show b / 32 < bitmapLen h.size
    unfold bitmapLen
    omega
  unfold readBlock
  simp only [word, bind, Except.bind, lengthOk, if_false]
  by_cases isRoot : b = h.rootoffs
  · have used := (laid.valid_iff.mp root.1).2
    have idOk : rootIdBad h.file b = .ok false := by
      have id : h.file.magicIs (b + 4) Nk.id = .ok true := by
        rw [isRoot]
        refine magicIs_true (show h.rootoffs + 4 + 2 ≤ h.size by omega) ?_
        exact root.2
      simp only [rootIdBad, id, bind, Except.bind]
      rfl
    rw [← isRoot] at used
    have usedWord : segUsed (h.blockWord b) = true := used
    simp only [usedWord, Bool.not_true, Bool.false_eq_true, if_false, decide_eq_true isRoot, if_true, idOk,
      bitmapSet, marks, Hive.scanned, used, Bool.or_false]
    rfl
  · simp only [decide_eq_false isRoot, Bool.or_false, Bool.false_eq_true, if_false]
    cases used : h.blockUsed b with
    | true =>
        have usedWord : segUsed (h.blockWord b) = true := used
        simp only [usedWord, Bool.not_true, Bool.false_eq_true, if_false, bitmapSet, marks, if_true,
          Hive.scanned, used, Bool.or_false, decide_eq_false isRoot]
        rfl
    | false =>
        have usedWord : segUsed (h.blockWord b) = false := used
        simp only [usedWord, Bool.not_false, if_true, Hive.scanned, used, Bool.false_eq_true, if_false,
          decide_eq_false isRoot, Bool.or_false]
        rfl

theorem readBlocks_run (laid : LaidOut h pages) (root : h.RootOk) {start pageEnd fuel : Nat}
    {bs : List Nat} (tiles : Tiles h.blockLength start pageEnd bs)
    (members : ∀ b ∈ bs, b ∈ allBlocks pages) (enough : pageEnd - start < fuel)
    (small : pageEnd < 2 ^ 64) :
    readBlocks h.file h.rootoffs pageEnd fuel start scan = .ok (bs.foldl h.scanned scan) := by
  induction bs generalizing start fuel scan with
  | nil =>
      obtain rfl : start = pageEnd := tiles
      cases fuel with
      | zero => omega
      | succ fuel => simp only [readBlocks, Nat.lt_irrefl, if_false, List.foldl_nil]
  | cons b bs ih =>
      obtain ⟨rfl, positive, rest⟩ := tiles
      have upper := rest.le
      cases fuel with
      | zero => omega
      | succ fuel =>
          have inside : b < pageEnd := by omega
          have next : (b + h.blockLength b) % 2 ^ 64 = b + h.blockLength b :=
            Nat.mod_eq_of_lt (by omega)
          simp only [readBlocks, inside, if_true, readBlock_run laid root (members b (by simp)), bind,
            Except.bind, next, List.foldl_cons]
          exact ih rest (fun x member => members x (by simp [member])) (by omega)

theorem readPages_run (laid : LaidOut h pages) (root : h.RootOk) (small : h.endpages < 2 ^ 32)
    {start fuel : Nat} {ps : List PageMap}
    (tiles : Tiles h.pageSize start h.endpages (ps.map PageMap.start))
    (members : ∀ p ∈ ps, p ∈ pages) (enough : h.endpages - start + 1 < fuel) :
    readPages h.file h.rootoffs h.endpages fuel start scan =
      .ok ((allBlocks ps).foldl h.scanned scan) := by
  induction ps generalizing start fuel scan with
  | nil =>
      obtain rfl : start = h.endpages := tiles
      cases fuel with
      | zero => omega
      | succ fuel =>
          simp only [readPages, Nat.lt_irrefl, and_false, if_false]
          rfl
  | cons p ps ih =>
      rw [List.map_cons] at tiles
      obtain ⟨rfl, positive, rest⟩ := tiles
      have page := laid.page p (members p (by simp))
      have upper := rest.le
      have within := laid.inside
      have payload := page.blocks.le
      have multiple := page.multiple
      cases fuel with
      | zero => omega
      | succ fuel =>
          have inside : p.start < h.file.size ∧ p.start < h.endpages := by
            show p.start < h.size ∧ _
            omega
          have magic : h.file.magicIs p.start Hbin.magic = .ok true :=
            magicIs_true (show p.start + 4 ≤ h.size by omega) page.magic
          have size : h.file.rdLe 4 (p.start + Hbin.pageSize) = .ok (h.pageSize p.start) :=
            rdLe_file (show p.start + 8 + 4 ≤ h.size by omega)
          have sizeOk : ¬(h.pageSize p.start ≤ Hbin.sizeof ∨ h.pageSize p.start % 4096 ≠ 0) := by
            simp only [Hbin.sizeof]
            omega
          have next : (p.start + h.pageSize p.start) % 2 ^ 64 = p.start + h.pageSize p.start :=
            Nat.mod_eq_of_lt (by omega)
          have blocks := @readBlocks_run h pages scan laid root _ _ fuel _ page.blocks
            (fun b inBlocks => mem_allBlocks.mpr ⟨p, members p (by simp), inBlocks⟩)
            (by omega) (by omega)
          have later := @ih (p.blocks.foldl h.scanned scan) _ fuel rest
            (fun q member => members q (by simp [member])) (by omega)
          have read : readPage h.file h.rootoffs fuel p.start scan =
              .ok (h.pageSize p.start, p.blocks.foldl h.scanned scan) := by
            simp only [readPage, magic, if_true, bind, Except.bind, size, sizeOk, if_false]
            simp only [Hbin.sizeof, blocks]
            rfl
          simp only [readPages, inside, and_self, if_true, bind, Except.bind, read, next, later,
            allBlocks, List.flatMap_cons, List.foldl_append]

theorem scanned_root (scan : Scan) (bs : List Nat) :
    (bs.foldl h.scanned scan).seenRootBlock = (scan.seenRootBlock || decide (h.rootoffs ∈ bs)) ∧
      (bs.foldl h.scanned scan).badRootBlock = scan.badRootBlock := by
  induction bs generalizing scan with
  | nil => simp
  | cons b bs ih =>
      rw [List.foldl_cons]
      refine ⟨?_, (ih _).2⟩
      rw [(ih _).1]
      simp only [Hive.scanned, List.mem_cons, Bool.or_assoc, Bool.decide_or]
      congr 2
      simp only [eq_comm]

theorem scanned_bits (scan : Scan) (bs : List Nat) (aligned : ∀ b ∈ bs, b % 4 = 0) {off : Nat}
    (multiple : off % 4 = 0) :
    PackedBits.test (bs.foldl h.scanned scan).bitmap (off / 4) =
      (PackedBits.test scan.bitmap (off / 4) || decide (off ∈ bs ∧ h.blockUsed off = true)) := by
  induction bs generalizing scan with
  | nil => simp
  | cons b bs ih =>
      rw [List.foldl_cons, ih _ fun x member => aligned x (by simp [member])]
      have multiple' := aligned b (by simp)
      by_cases here : off = b
      · subst here
        cases used : h.blockUsed off <;> simp [Hive.scanned, used, PackedBits.test_set]
      · have different : off / 4 ≠ b / 4 := by omega
        cases used : h.blockUsed b <;> simp [Hive.scanned, used, PackedBits.test_set, here, different]

end Scanning

/-- The header fields that a commit rewrites. -/
def headerField (i : Nat) : Prop :=
  Header.sequence1 ≤ i ∧ i < Header.sequence2 + 4 ∨ Header.blocks ≤ i ∧ i < Header.blocks + 4 ∨
    Header.csum ≤ i ∧ i < Header.csum + 4

/-- The image with the new sequence numbers and end of pages. -/
def Hive.sequenced (h : Hive) : Mem :=
  let sequence := get32 h.addr Header.sequence1 + 1
  blit (blit (blit h.addr Header.sequence1 (leBytes 4 sequence)) Header.sequence2
    (leBytes 4 sequence)) Header.blocks (leBytes 4 (h.endpages - 0x1000))

/-- The handle after a commit, with the new checksum. -/
def Hive.committed (h : Hive) : Hive :=
  { h with addr := blit h.sequenced Header.csum (leBytes 4 (headerChecksum h.sequenced)) }

section Committing
variable {h h' : Hive} {pages : List PageMap} {file : File}

theorem committed_addr {i : Nat} (other : ¬headerField i) : h.committed.addr i = h.addr i := by
  unfold headerField at other
  simp only [Header.sequence1, Header.sequence2, Header.blocks, Header.csum] at other
  simp only [Hive.committed, Hive.sequenced, Header.sequence1, Header.sequence2, Header.blocks,
    Header.csum]
  rw [blit_outside _ _ _ _ (by simp only [leBytes_length]; omega),
    blit_outside _ _ _ _ (by simp only [leBytes_length]; omega),
    blit_outside _ _ _ _ (by simp only [leBytes_length]; omega),
    blit_outside _ _ _ _ (by simp only [leBytes_length]; omega)]

theorem committed_behind {i : Nat} (behind : 0x1000 ≤ i) : h.committed.addr i = h.addr i := by
  apply committed_addr
  simp only [headerField, Header.sequence1, Header.sequence2, Header.blocks, Header.csum]
  omega

theorem headerChecksum_congr {addr addr' : Mem} (same : ∀ i < Header.csum, addr' i = addr i) :
    headerChecksum addr' = headerChecksum addr := by
  have words : ∀ i ∈ List.range (Header.csum / 4), get32 addr' (4 * i) = get32 addr (4 * i) := by
    intro i member
    have bound : i < Header.csum / 4 := List.mem_range.mp member
    exact getLe_congr _ _ _ _ _ fun k hk => same _ (by simp only [Header.csum] at *; omega)
  unfold headerChecksum
  generalize List.range (Header.csum / 4) = xs at words
  generalize 0 = sum
  induction xs generalizing sum with
  | nil => rfl
  | cons x xs ih =>
      rw [List.foldl_cons, List.foldl_cons, words x (by simp)]
      exact ih (fun i member => words i (by simp [member])) _

theorem headerChecksum_lt (addr : Mem) : headerChecksum addr < 2 ^ 32 := by
  unfold headerChecksum
  have start : (0 : Nat) < 2 ^ 32 := by decide
  generalize List.range (Header.csum / 4) = xs
  revert start
  generalize (0 : Nat) = sum
  intro bound
  induction xs generalizing sum with
  | nil => exact bound
  | cons x xs ih => exact ih _ (Nat.xor_lt_two_pow bound (ByteMemory.get32_lt addr _))

-- The stored checksum is the checksum of the stored header.
theorem committed_checksum :
    headerChecksum h.committed.addr = get32 h.committed.addr Header.csum := by
  have before : headerChecksum h.committed.addr = headerChecksum h.sequenced :=
    headerChecksum_congr fun i inside => blit_outside _ _ _ _ (by omega)
  have stored : get32 h.committed.addr Header.csum = headerChecksum h.sequenced % 256 ^ 4 :=
    getLe_blit_leBytes _ _ _ _
  rw [before, stored]
  exact (Nat.mod_eq_of_lt (headerChecksum_lt _)).symm

theorem committed_blocks : get32 h.committed.addr Header.blocks = (h.endpages - 0x1000) % 2 ^ 32 := by
  have outer : get32 h.committed.addr Header.blocks = get32 h.sequenced Header.blocks :=
    getLe_blit_outside _ _ _ _ _ (by simp only [Header.blocks, Header.csum]; omega)
  have stored : get32 h.sequenced Header.blocks = (h.endpages - 0x1000) % 256 ^ 4 :=
    getLe_blit_leBytes _ _ _ _
  exact outer.trans stored

theorem updateHeader_run (large : 0x200 ≤ h.size) :
    updateHeader h = .ok () { h with addr := h.sequenced } := by
  have word : (read (rd32 0 Header.sequence1)) h = .ok (get32 h.addr Header.sequence1) h := by
    have inside : 0 + Header.sequence1 + 4 ≤ h.size := by simp only [Header.sequence1]; omega
    simp only [read, look, rd32, rdLe_view inside, Nat.zero_add, get32]
  refine (run_ok word).trans ((run_ok (wrBytes_run ?_)).trans ((run_ok (wrBytes_run ?_)).trans
    ((get_then _ _).trans (wrBytes_run ?_))))
  all_goals
    simp only [leBytes_length, Header.sequence1, Header.sequence2, Header.blocks]
    omega

theorem updateChecksum_run (large : 0x200 ≤ h.size) :
    updateChecksum { h with addr := h.sequenced } = .ok () h.committed := by
  refine (get_then _ _).trans ?_
  rw [if_neg (show ¬h.size < Header.csum by simp only [Header.csum]; omega)]
  exact wrBytes_run (by simp only [leBytes_length, Header.csum]; omega)

theorem updates_run (large : 0x200 ≤ h.size) (next : Command File) :
    (updateHeader >>= fun _ => updateChecksum >>= fun _ => next) h = next h.committed :=
  (run_ok (updateHeader_run large)).trans (run_ok (updateChecksum_run large))

/-- A successful commit writes out the handle it leaves behind. -/
theorem hivexCommit_ok {io : CommitIo} {flags : Nat} (large : 0x200 ≤ h.size)
    (commit : hivexCommit io flags h = .ok file h') : h' = h.committed ∧ file = h.committed.file := by
  simp only [hivexCommit, fail] at commit
  split at commit
  · cases commit
  rw [get_then] at commit
  split at commit
  · cases commit
  split at commit
  · cases commit
  rw [updates_run large] at commit
  split at commit
  · cases commit
  split at commit
  · cases commit
  rw [get_then] at commit
  cases commit
  exact ⟨rfl, rfl⟩

-- A commit without an error on the output file goes through.
theorem hivexCommit_run (large : 0x200 ≤ h.size) (writable : h.writable = true) :
    hivexCommit ⟨true, true, true⟩ 0 h = .ok h.committed.file h.committed := by
  simp only [hivexCommit, ne_eq, not_true_eq_false, if_false]
  rw [get_then]
  simp only [writable, Bool.not_true, Bool.false_eq_true, if_false]
  rw [updates_run large]
  rfl

-- The layout and the root block lie behind the header.
theorem LaidOut.committed (laid : LaidOut h pages) : LaidOut h.committed pages := by
  have word : ∀ b ∈ allBlocks pages, h.committed.blockWord b = h.blockWord b := by
    intro b member
    have bounds := laid.block_inside member
    exact getLe_congr _ _ _ _ _ fun k _ => committed_behind (by omega)
  refine laid.of_headers rfl rfl (fun p member k _ => ?_) (fun b member => ?_)
    fun off aligned within => ?_
  · have bounds := laid.page_bounds member
    exact committed_behind (by omega)
  · unfold Hive.blockLength
    rw [word b member]
  · rw [show h.committed.bitmap = h.bitmap from rfl, laid.bits off aligned within]
    refine and_congr_right fun member => ?_
    unfold Hive.blockUsed
    rw [word off member]

theorem committed_root (root : h.RootOk) : h.committed.RootOk := by
  refine ⟨root.1, ?_⟩
  rw [← root.2]
  have low : 0x1000 ≤ h.rootoffs := by
    have valid := root.1
    simp only [Hive.valid, decide_eq_true_eq] at valid
    exact valid.2.1
  exact slice_congr _ _ _ _ _ fun k _ => committed_behind (by
    show 0x1000 ≤ h.rootoffs + 4 + k
    omega)

/-- The handle that `hivex_open` makes of the image of `h`. -/
def Hive.reopened (h : Hive) (pages : List PageMap) (write : Bool) : Hive :=
  { h with
    bitmap := ((allBlocks pages).foldl h.scanned ⟨fun _ => 0, false, false⟩).bitmap
    writable := write
    lastModified := get64 h.addr Header.lastModified
    endblocks := 0 }

/-- `hivex_open` on an image that is laid out and whose header says so. -/
theorem hivexOpen_run (laid : LaidOut h pages) (root : h.RootOk) (small : h.endpages < 2 ^ 32)
    (magic : slice h.addr 0 4 = Header.magic) (major : get32 h.addr Header.majorVer = 1)
    (checksum : headerChecksum h.addr = get32 h.addr Header.csum)
    (rootoffs : h.rootoffs = get32 h.addr Header.offset + 0x1000)
    (blocks : get32 h.addr Header.blocks = h.endpages - 0x1000) (write : Bool) :
    hivexOpen (h.endpages + 2) h.file write = .ok (h.reopened pages write) := by
  have member := (laid.valid_iff.mp root.1).1
  have inside := laid.block_inside member
  have shape := laid.block_shape member
  have within := laid.inside
  have word : ∀ i, i + 4 ≤ 0x1000 → h.file.rdLe 4 i = .ok (get32 h.addr i) := fun i bound =>
    rdLe_file (show i + 4 ≤ h.size by omega)
  have time : h.file.rdLe 8 Header.lastModified = .ok (get64 h.addr Header.lastModified) :=
    rdLe_file (show 12 + 8 ≤ h.size by omega)
  have notEmpty : ¬((!write) = true ∧ h.file.size = 0) := by
    rintro ⟨_, empty⟩
    have : h.size = 0 := empty
    omega
  have magicOk : h.file.magicIs 0 Header.magic = .ok true :=
    magicIs_true (show 0 + 4 ≤ h.size by omega) magic
  have sum : h.file.checksum = .ok (headerChecksum h.addr) :=
    if_pos (show Header.csum ≤ h.size by simp only [Header.csum]; omega)
  have rootWord : (get32 h.addr Header.offset + 0x1000) % 2 ^ 32 = h.rootoffs := by
    rw [← rootoffs]
    exact Nat.mod_eq_of_lt (by omega)
  have endWord : (get32 h.addr Header.blocks + 0x1000) % 2 ^ 32 = h.endpages := by
    rw [blocks]
    have low := laid.tiling.le
    omega
  have scan := @readPages_run h pages ⟨fun _ => 0, false, false⟩ laid root small _ _ _ laid.tiling
    (fun p member => member) (show h.endpages - 0x1000 + 1 < h.endpages + 2 by omega)
  have found := scanned_root (h := h) ⟨fun _ => 0, false, false⟩ (allBlocks pages)
  simp only [member, decide_true, Bool.false_or] at found
  simp only [hivexOpen, notEmpty, if_false, magicOk, bind, Except.bind,
    word Header.majorVer (by decide), major, ne_eq, not_true_eq_false, sum,
    word Header.csum (by decide), checksum, time, word Header.offset (by decide),
    word Header.blocks (by decide), rootWord, endWord, scan, found, Bool.not_true,
    Bool.false_eq_true, if_true]
  rfl

-- The scan marks exactly the used blocks.
theorem reopened_marks (laid : LaidOut h pages) (write : Bool) {off : Nat}
    (within : off / 32 < bitmapLen h.size) :
    PackedBits.test (h.reopened pages write).bitmap (off / 4) =
      PackedBits.test h.bitmap (off / 4) := by
  unfold Hive.reopened
  have start : off / 4 = off / 4 * 4 / 4 := by omega
  have inside : off / 4 * 4 / 32 < bitmapLen h.size := by omega
  rw [start, scanned_bits _ _ (fun b member => laid.block_aligned member) (by omega),
    PackedBits.test_zero _ _ rfl, Bool.false_or, Bool.eq_iff_iff, decide_eq_true_eq,
    laid.bits _ (by omega) inside]

theorem view_agrees {g : Hive} (size : g.size = h.size) (rootoffs : g.rootoffs = h.rootoffs)
    (marks : ∀ off, off / 32 < bitmapLen h.size →
      PackedBits.test g.bitmap (off / 4) = PackedBits.test h.bitmap (off / 4))
    (bytes : ∀ i, 0x1000 ≤ i → g.addr i = h.addr i) : View.Agrees h.view g.view := by
  refine ⟨size, rootoffs, fun off => ?_, bytes, fun b i _ => ?_⟩
  · simp only [bitmapTst, Hive.view]
    by_cases inside : off / 32 < bitmapLen h.size
    · rw [marks off inside]
    · simp only [inside, if_false]
  · simp only [Hive.view, size]

/-- Every function of `lib/hivex.c` that reads through a node or value handle gives
the same result on both handles. -/
structure ReadsAlike (h h' : Hive) : Prop where
  root : Alike h.view h'.view hivexRoot
  nodeStructLength : ∀ node, Alike h.view h'.view (hivexNodeStructLength node)
  nodeName : ∀ node, Alike h.view h'.view (hivexNodeName node)
  nodeTimestamp : ∀ node, Alike h.view h'.view (hivexNodeTimestamp node)
  nodeChildren : ∀ node, Alike h.view h'.view (hivexNodeChildren node)
  nodeGetChild : ∀ node name, Alike h.view h'.view (hivexNodeGetChild node name)
  nodeParent : ∀ node, Alike h.view h'.view (hivexNodeParent node)
  nodeValues : ∀ node, Alike h.view h'.view (hivexNodeValues node)
  nodeGetValue : ∀ node key, Alike h.view h'.view (hivexNodeGetValue node key)
  valueStructLength : ∀ value, Alike h.view h'.view (hivexValueStructLength value)
  valueKeyLen : ∀ value, Alike h.view h'.view (hivexValueKeyLen value)
  valueKey : ∀ value, Alike h.view h'.view (hivexValueKey value)
  valueType : ∀ value, Alike h.view h'.view (hivexValueType value)
  valueValue : ∀ value, Alike h.view h'.view (hivexValueValue value)
  valueString : ∀ host value, Alike h.view h'.view (hivexValueString host value)
  valueMultipleStrings : ∀ host value, Alike h.view h'.view (hivexValueMultipleStrings host value)
  valueDword : ∀ value, Alike h.view h'.view (hivexValueDword value)
  valueQword : ∀ value, Alike h.view h'.view (hivexValueQword value)
  visitNode : ∀ (σ : Type) host (vtor : Visitor σ) skipBad node,
    hivexVisitNode (fun _ => h) host vtor skipBad node =
      hivexVisitNode (fun _ => h') host vtor skipBad node

theorem View.Agrees.readsAlike (agrees : View.Agrees h.view h'.view) : ReadsAlike h h' where
  root := hivexRoot_alike agrees
  nodeStructLength := hivexNodeStructLength_alike agrees
  nodeName := hivexNodeName_alike agrees
  nodeTimestamp := hivexNodeTimestamp_alike agrees
  nodeChildren := hivexNodeChildren_alike agrees
  nodeGetChild := hivexNodeGetChild_alike agrees
  nodeParent := hivexNodeParent_alike agrees
  nodeValues := hivexNodeValues_alike agrees
  nodeGetValue := hivexNodeGetValue_alike agrees
  valueStructLength := hivexValueStructLength_alike agrees
  valueKeyLen := hivexValueKeyLen_alike agrees
  valueKey := hivexValueKey_alike agrees
  valueType := hivexValueType_alike agrees
  valueValue := hivexValueValue_alike agrees
  valueString := hivexValueString_alike agrees
  valueMultipleStrings := hivexValueMultipleStrings_alike agrees
  valueDword := hivexValueDword_alike agrees
  valueQword := hivexValueQword_alike agrees
  visitNode := fun _ host vtor skipBad => hivexVisitNode_alike host vtor skipBad agrees

/-- What a handle needs before it is committed: a good header and the layout. -/
structure Committable (h : Hive) : Prop where
  magic : slice h.addr 0 4 = Header.magic
  major : get32 h.addr Header.majorVer = 1
  rootoffs : h.rootoffs = get32 h.addr Header.offset + 0x1000
  root : h.RootOk
  layout : Layout h
  small : h.endpages < 2 ^ 32

theorem Committable.opens (committable : Committable h) (laid : LaidOut h pages) (write : Bool) :
    hivexOpen (h.endpages + 2) h.committed.file write = .ok (h.committed.reopened pages write) := by
  have member := (laid.valid_iff.mp committable.root.1).1
  have bounds := laid.block_inside member
  have small := committable.small
  have word : ∀ i, i = Header.majorVer ∨ i = Header.offset →
      get32 h.committed.addr i = get32 h.addr i := by
    intro i which
    refine getLe_congr _ _ _ _ _ fun k _ => committed_addr ?_
    simp only [Header.majorVer, Header.offset, headerField, Header.sequence1, Header.sequence2,
      Header.blocks, Header.csum] at *
    omega
  have magic : slice h.committed.addr 0 4 = Header.magic := by
    rw [← committable.magic]
    refine slice_congr _ _ _ _ _ fun k _ => committed_addr ?_
    simp only [headerField, Header.sequence1, Header.sequence2, Header.blocks, Header.csum]
    omega
  exact hivexOpen_run laid.committed (committed_root committable.root) small magic
    ((word _ (Or.inl rfl)).trans committable.major) committed_checksum
    (committable.rootoffs.trans (by rw [word _ (Or.inr rfl)]))
    (committed_blocks.trans (Nat.mod_eq_of_lt (by omega))) write

/-- A committed image is accepted. -/
theorem Committable.accepted (committable : Committable h) (laid : LaidOut h pages) (write : Bool) :
    Accepts h.committed.file write (h.committed.reopened pages write) :=
  ⟨_, committable.opens laid write⟩

theorem reopened_fields (pages : List PageMap) (write : Bool) :
    (h.reopened pages write).rootoffs = h.rootoffs ∧ (h.reopened pages write).endpages = h.endpages ∧
      (h.reopened pages write).size = h.size ∧ (h.reopened pages write).addr = h.addr :=
  ⟨rfl, rfl, rfl, rfl⟩

-- What reads alike before and after the commit.
theorem reopened_agrees (laid : LaidOut h pages) (write : Bool) :
    View.Agrees h.view (h.committed.reopened pages write).view ∧
      View.Agrees h.committed.view (h.committed.reopened pages write).view := by
  have marks : ∀ off, off / 32 < bitmapLen h.size →
      PackedBits.test (h.committed.reopened pages write).bitmap (off / 4) =
        PackedBits.test h.bitmap (off / 4) := fun off inside =>
    reopened_marks laid.committed write inside
  obtain ⟨rootoffs, _, size, addr⟩ := reopened_fields (h := h.committed) pages write
  refine ⟨view_agrees size rootoffs marks fun i behind => ?_,
    view_agrees size rootoffs marks fun i _ => by rw [addr]⟩
  rw [addr]
  exact committed_behind behind

/-- Commit and reopen is faithful: what a successful commit writes is accepted, read
only or for writing, and reads back as the committed handle. -/
theorem hivexCommit_reopens (committable : Committable h) {io : CommitIo} {flags : Nat}
    (commit : hivexCommit io flags h = .ok file h') (write : Bool) :
    ∃ g, Accepts file write g ∧ g.rootoffs = h.rootoffs ∧ g.endpages = h.endpages ∧
      g.size = h.size ∧ (∀ off, g.valid off = h.valid off) ∧
      (∀ i, ¬headerField i → g.addr i = h.addr i) ∧ ReadsAlike h g ∧ ReadsAlike h' g := by
  obtain ⟨pages, laid⟩ := committable.layout
  have member := (laid.valid_iff.mp committable.root.1).1
  have bounds := laid.block_inside member
  have within := laid.inside
  obtain ⟨rfl, rfl⟩ := hivexCommit_ok (by omega) commit
  obtain ⟨agrees, agrees'⟩ := reopened_agrees laid write
  obtain ⟨rootoffs, endpages, size, addr⟩ := reopened_fields (h := h.committed) pages write
  refine ⟨h.committed.reopened pages write, committable.accepted laid write, rootoffs, endpages, size,
    fun off => ?_, fun i other => ?_, agrees.readsAlike, agrees'.readsAlike⟩
  · have same : (h.committed.reopened pages write).size = h.size := size
    unfold Hive.valid
    rw [same]
    by_cases inside : off < h.size
    · rw [reopened_marks laid.committed write (show off / 32 < bitmapLen h.size by
        unfold bitmapLen; omega)]
      rfl
    · simp only [inside, false_and, and_false]
  · rw [addr]
    exact committed_addr other

end Committing

theorem minimal_committable : Committable minimal where
  magic := by decide
  major := by decide
  rootoffs := by decide
  root := by
    refine ⟨minimal_laidOut.valid_iff.mpr ⟨by decide, by decide⟩, by decide⟩
  layout := ⟨_, minimal_laidOut⟩
  small := by decide

theorem minimal_reopens : ∃ g, Accepts minimal.committed.file false g ∧ g.rootoffs = minimal.rootoffs ∧
    g.endpages = minimal.endpages ∧ g.size = minimal.size ∧ (∀ off, g.valid off = minimal.valid off) ∧
    (∀ i, ¬headerField i → g.addr i = minimal.addr i) ∧ ReadsAlike minimal g ∧
    ReadsAlike minimal.committed g :=
  hivexCommit_reopens minimal_committable (hivexCommit_run (by decide) rfl) false

end Hivex
