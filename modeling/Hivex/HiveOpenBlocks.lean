import Hivex.HiveOpenBounds
import Hivex.HiveReopen

/-! Which blocks an accepted hive has. The scan marks what its two loops meet; they do
not compare the end of a block with the end of its page. -/
namespace Hivex

open ByteMemory Commands Relation

namespace File

/-- A block header that the scan reads in the page at `off`. -/
def ScannedIn (file : File) (off b : Nat) : Prop :=
  file.BlockReached off b ∧ b < off + file.pageSize off

/-- A page that the scan reads, from the page at `off` on. -/
def PageReached (file : File) (endpages off p : Nat) : Prop :=
  ReflTransGen (file.PageStep endpages) off p ∧ p < file.size ∧ p < endpages

def Scanned (file : File) (endpages off b : Nat) : Prop :=
  ∃ p, file.PageReached endpages off p ∧ file.ScannedIn p b

/-- A root block that is used and has the id nk. -/
def GoodRoot (file : File) (b : Nat) : Prop :=
  segUsed (get32 file.byte b) = true ∧ slice file.byte (b + 4) 2 = Nk.id

end File

/-- What the scan of the block headers in `met` has added. -/
structure Collected (file : File) (rootoffs : Nat) (met : Nat → Prop) (scan scan' : Scan) : Prop where
  whole : ∀ b, met b → b + 4 ≤ file.size
  bits : ∀ bit, PackedBits.test scan'.bitmap bit = true ↔ PackedBits.test scan.bitmap bit = true ∨
    ∃ b, met b ∧ segUsed (get32 file.byte b) = true ∧ b / 4 = bit
  seen : scan'.seenRootBlock = true ↔ scan.seenRootBlock = true ∨ met rootoffs
  bad : scan'.badRootBlock = true ↔ scan.badRootBlock = true ∨ met rootoffs ∧ ¬file.GoodRoot rootoffs

section Collected
variable {file : File} {rootoffs pageEnd start endpages off b : Nat} {met met' : Nat → Prop}
  {scan scan' scan'' : Scan} {fuel : Nat}

theorem Collected.none (scan : Scan) : Collected file rootoffs (fun _ => False) scan scan where
  whole _ met := met.elim
  bits bit := by simp
  seen := by simp
  bad := by simp

theorem Collected.union (first : Collected file rootoffs met scan scan')
    (later : Collected file rootoffs met' scan' scan'') :
    Collected file rootoffs (fun b => met b ∨ met' b) scan scan'' where
  whole b either := either.elim (first.whole b) (later.whole b)
  bits bit := by
    rw [later.bits, first.bits, or_assoc]
    refine or_congr_right ⟨?_, ?_⟩
    · rintro (⟨b, here, rest⟩ | ⟨b, here, rest⟩)
      · exact ⟨b, Or.inl here, rest⟩
      · exact ⟨b, Or.inr here, rest⟩
    · rintro ⟨b, here | here, rest⟩
      · exact Or.inl ⟨b, here, rest⟩
      · exact Or.inr ⟨b, here, rest⟩
  seen := by rw [later.seen, first.seen, or_assoc]
  bad := by rw [later.bad, first.bad, or_assoc, or_and_right]

theorem Collected.congr (collected : Collected file rootoffs met scan scan')
    (same : ∀ b, met b ↔ met' b) : Collected file rootoffs met' scan scan' := by
  obtain rfl : met = met' := funext fun b => propext (same b)
  exact collected

theorem readBlock_collected {len : Nat} (read : readBlock file rootoffs b scan = .ok (len, scan')) :
    Collected file rootoffs (· = b) scan scan' := by
  have spec := readBlock_spec file rootoffs b scan
  rw [read] at spec
  have whole : b + 4 ≤ file.size := spec.1
  have good := spec.2.1
  have word : file.rdLe 4 b = .ok (get32 file.byte b) := if_pos whole
  have length : ¬(segLength (get32 file.byte b) ≤ 4 ∨ segLength (get32 file.byte b) % 4 ≠ 0) := by
    unfold File.GoodLength at good
    omega
  simp only [readBlock, word, bind, Except.bind, length, if_false] at read
  cases used : segUsed (get32 file.byte b) with
  | false =>
      simp only [used, Bool.not_false, if_true] at read
      cases read
      refine ⟨fun c met => met ▸ whole, fun bit => ?_, ?_, ?_⟩
      · simp only [iff_self_or]
        rintro ⟨c, rfl, marked, _⟩
        rw [used] at marked
        cases marked
      · simp only [Bool.or_eq_true, decide_eq_true_eq, @eq_comm _ b]
      · simp only [Bool.or_eq_true, decide_eq_true_eq, File.GoodRoot]
        refine or_congr Iff.rfl ⟨?_, fun met => met.1.symm⟩
        rintro rfl
        simp [used]
  | true =>
      simp only [used, Bool.not_true, Bool.false_eq_true, if_false] at read
      have marks : b / 32 < bitmapLen file.size := by
        unfold bitmapLen
        omega
      have marked : ∀ bits : Mem, ∀ bit, PackedBits.test (PackedBits.set bits (b / 4)) bit = true ↔
          PackedBits.test bits bit = true ∨
            ∃ c, c = b ∧ segUsed (get32 file.byte c) = true ∧ c / 4 = bit := by
        intro bits bit
        rw [PackedBits.test_set, Bool.or_eq_true, decide_eq_true_eq, or_comm]
        refine or_congr Iff.rfl ⟨fun same => ⟨b, rfl, used, same.symm⟩, ?_⟩
        rintro ⟨c, rfl, _, same⟩
        exact same.symm
      by_cases isRoot : b = rootoffs
      · subst isRoot
        have id := file.magicIs_spec (b + 4) Nk.id
        simp only [decide_true, if_true, rootIdBad, bind, Except.bind] at read
        cases same : file.magicIs (b + 4) Nk.id with
        | error stop => rw [same] at read; cases read
        | ok same' =>
            rw [same] at read id
            simp only [bitmapSet, marks, if_true] at read
            cases read
            refine ⟨fun c met => met ▸ whole, marked _, by simp, ?_⟩
            have meaning : same' = true ↔ slice file.byte (b + 4) 2 = Nk.id := id.2
            simp only [File.GoodRoot, used, true_and, ← meaning]
            cases same' <;> simp
      · simp only [isRoot, decide_false, Bool.false_eq_true, if_false, bitmapSet, marks, if_true] at read
        cases read
        refine ⟨fun c met => met ▸ whole, marked _, ?_, ?_⟩
        · have other : ¬rootoffs = b := fun same => isRoot same.symm
          simp [other]
        · have other : ¬rootoffs = b := fun same => isRoot same.symm
          simp [other]

theorem readBlocks_collected (read : readBlocks file rootoffs pageEnd fuel start scan = .ok scan') :
    Collected file rootoffs (fun b => ReflTransGen (file.BlockStep pageEnd) start b ∧ b < pageEnd)
      scan scan' := by
  induction fuel generalizing start scan with
  | zero => cases read
  | succ fuel ih =>
      simp only [readBlocks] at read
      split at read
      · rename_i inside
        have spec := readBlock_spec file rootoffs start scan
        simp only [bind, Except.bind] at read
        cases block : readBlock file rootoffs start scan with
        | error stop => rw [block] at read; cases read
        | ok next =>
            rw [block] at read spec
            obtain ⟨len, scan''⟩ := next
            obtain ⟨whole, good, length, _⟩ := spec
            simp only at length
            subst length
            have step : file.BlockStep pageEnd start ((start + segLength (get32 file.byte start)) % 2 ^ 64) :=
              ⟨inside, whole, good, rfl⟩
            refine ((readBlock_collected block).union (ih read)).congr fun b => ⟨?_, ?_⟩
            · rintro (rfl | ⟨reached, before⟩)
              · exact ⟨.refl, inside⟩
              · exact ⟨reached.head step, before⟩
            · rintro ⟨reached, before⟩
              rcases ReflTransGen.cases_head reached with rfl | ⟨c, first, rest⟩
              · exact Or.inl rfl
              · obtain ⟨_, _, _, rfl⟩ := first
                exact Or.inr ⟨rest, before⟩
      · rename_i past
        cases read
        refine (Collected.none _).congr fun b => ⟨False.elim, ?_⟩
        rintro ⟨reached, before⟩
        rcases ReflTransGen.cases_head reached with rfl | ⟨c, first, _⟩
        · exact past before
        · exact past first.1

theorem readPage_collected {size : Nat} (read : readPage file rootoffs fuel off scan = .ok (size, scan')) :
    Collected file rootoffs (file.ScannedIn off) scan scan' ∧ file.PageEnds off ∧
      size = file.pageSize off := by
  have spec := readPage_spec file rootoffs fuel off scan
  rw [read] at spec
  obtain ⟨⟨magic, whole, good, ends⟩, rfl⟩ := spec
  rw [readPage_header whole magic good] at read
  cases blocks : readBlocks file rootoffs (off + file.pageSize off) fuel (off + Hbin.sizeof) scan with
  | error stop => rw [blocks] at read; cases read
  | ok found =>
      rw [blocks] at read
      cases read
      exact ⟨readBlocks_collected blocks, ⟨magic, whole, good, ends⟩, rfl⟩

theorem readPages_collected (read : readPages file rootoffs endpages fuel off scan = .ok scan') :
    Collected file rootoffs (file.Scanned endpages off) scan scan' := by
  induction fuel generalizing off scan with
  | zero => cases read
  | succ fuel ih =>
      simp only [readPages] at read
      by_cases inside : off < file.size ∧ off < endpages
      · simp only [inside, and_self, if_true, bind, Except.bind] at read
        cases page : readPage file rootoffs fuel off scan with
        | error stop => rw [page] at read; cases read
        | ok next =>
            rw [page] at read
            obtain ⟨size, scan''⟩ := next
            obtain ⟨collected, ⟨magic, whole, good, ends⟩, rfl⟩ := readPage_collected page
            have step : file.PageStep endpages off ((off + file.pageSize off) % 2 ^ 64) :=
              ⟨inside.1, inside.2, magic, whole, good, ends, rfl⟩
            refine (collected.union (ih read)).congr fun b => ⟨?_, ?_⟩
            · rintro (here | ⟨p, ⟨reached, bounds⟩, met⟩)
              · exact ⟨off, ⟨.refl, inside⟩, here⟩
              · exact ⟨p, ⟨reached.head step, bounds⟩, met⟩
            · rintro ⟨p, ⟨reached, bounds⟩, met⟩
              rcases ReflTransGen.cases_head reached with rfl | ⟨next, first, rest⟩
              · exact Or.inl met
              · obtain ⟨_, _, _, _, _, _, rfl⟩ := first
                exact Or.inr ⟨p, ⟨rest, bounds⟩, met⟩
      · rw [if_neg inside] at read
        cases read
        refine (Collected.none _).congr fun b => ⟨False.elim, ?_⟩
        rintro ⟨p, ⟨reached, bounds⟩, _⟩
        rcases ReflTransGen.cases_head reached with rfl | ⟨next, first, _⟩
        · exact inside bounds
        · exact inside ⟨first.1, first.2.1⟩

end Collected

theorem guard_ok {ε α : Type} {bad : Prop} [Decidable bad] {reason : ε} {next : Unit → Except ε α}
    {result : α} (run : (if bad then throw reason >>= next else next ()) = .ok result) :
    ¬bad ∧ next () = .ok result := by
  split at run
  · cases run
  · exact ⟨‹_›, run⟩

section Rooted
variable {file : File} {rootoffs pageEnd endpages fuel start off len : Nat} {scan scan' : Scan}

theorem magicIs_inside {magic : List UInt8} {base : Nat} (same : file.magicIs base magic = .ok true)
    (some : magic ≠ []) : base + magic.length ≤ file.size := by
  induction magic generalizing base with
  | nil => exact absurd rfl some
  | cons c cs ih =>
      unfold File.magicIs at same
      obtain ⟨b, read, same⟩ := bind_ok_iff.mp same
      unfold File.rd8 at read
      split at read
      · rename_i inside
        split at same
        · cases same
        · by_cases last : cs = []
          · rw [last, List.length_singleton]
            omega
          · have later := ih same last
            rw [List.length_cons]
            omega
      · cases read

/-- Once the scan has met a good root block, the id of it lies in the file. -/
def Scan.Rooted (file : File) (rootoffs : Nat) (scan : Scan) : Prop :=
  scan.seenRootBlock = true → scan.badRootBlock = false → rootoffs + 6 ≤ file.size

theorem readBlock_rooted (rooted : scan.Rooted file rootoffs)
    (read : readBlock file rootoffs start scan = .ok (len, scan')) : scan'.Rooted file rootoffs := by
  unfold readBlock at read
  obtain ⟨word, whole, read⟩ := bind_ok_iff.mp read
  obtain ⟨_, read⟩ := guard_ok read
  intro seen good
  by_cases isRoot : start = rootoffs
  · split at read
    · cases read
      simp [isRoot] at good
    · simp only [isRoot, decide_true, if_true] at read
      obtain ⟨badId, id, read⟩ := bind_ok_iff.mp read
      obtain ⟨bitmap, _, read⟩ := bind_ok_iff.mp read
      cases read
      unfold rootIdBad at id
      obtain ⟨same, matched, id⟩ := bind_ok_iff.mp id
      cases id
      simp only [Bool.or_eq_false_iff, Bool.not_eq_false'] at good
      rw [good.2] at matched
      exact magicIs_inside matched (by decide)
  · have before : scan'.seenRootBlock = scan.seenRootBlock ∧ scan'.badRootBlock = scan.badRootBlock := by
      simp only [isRoot, decide_false, Bool.or_false, Bool.false_eq_true, if_false] at read
      split at read
      · cases read
        exact ⟨rfl, rfl⟩
      · obtain ⟨badId, id, read⟩ := bind_ok_iff.mp read
        obtain ⟨bitmap, _, read⟩ := bind_ok_iff.mp read
        cases id
        cases read
        exact ⟨rfl, Bool.or_false _⟩
    exact rooted (before.1 ▸ seen) (before.2 ▸ good)

/-- Every marked block has a good length. -/
def Scan.GoodMarks (file : File) (scan : Scan) : Prop :=
  ∀ bit, PackedBits.test scan.bitmap bit = true → ∃ c, c / 4 = bit ∧ c % 4 = 0 ∧ file.GoodLength c

theorem readBlock_goodMarks (aligned : start % 4 = 0) (good : scan.GoodMarks file)
    (read : readBlock file rootoffs start scan = .ok (len, scan')) : scan'.GoodMarks file := by
  have collected := readBlock_collected read
  have spec := readBlock_spec file rootoffs start scan
  rw [read] at spec
  intro bit marked
  rcases (collected.bits bit).mp marked with before | ⟨c, rfl, _, same⟩
  · exact good bit before
  · exact ⟨c, same, aligned, spec.2.1⟩

variable {kept : Scan → Prop}

/-- What reading one block header keeps of the scan, reading a page keeps. -/
theorem readBlocks_keeps
    (step : ∀ {start len scan scan'}, start % 4 = 0 → readBlock file rootoffs start scan = .ok (len, scan') →
      kept scan → kept scan')
    (aligned : start % 4 = 0) (holds : kept scan)
    (read : readBlocks file rootoffs pageEnd fuel start scan = .ok scan') : kept scan' := by
  induction fuel generalizing start scan with
  | zero => cases read
  | succ fuel ih =>
      unfold readBlocks at read
      split at read
      · obtain ⟨⟨len, next⟩, block, read⟩ := bind_ok_iff.mp read
        have spec := readBlock_spec file rootoffs start scan
        rw [block] at spec
        obtain ⟨_, good, length, _⟩ := spec
        have multiple := good.2
        have same : len = segLength (get32 file.byte start) := length
        exact ih (by omega) (step aligned block holds) read
      · cases read
        exact holds

theorem readPages_keeps
    (step : ∀ {start len scan scan'}, start % 4 = 0 → readBlock file rootoffs start scan = .ok (len, scan') →
      kept scan → kept scan')
    (aligned : off % 4096 = 0) (holds : kept scan)
    (read : readPages file rootoffs endpages fuel off scan = .ok scan') : kept scan' := by
  induction fuel generalizing off scan with
  | zero => cases read
  | succ fuel ih =>
      unfold readPages at read
      split at read
      · obtain ⟨⟨size, next⟩, page, read⟩ := bind_ok_iff.mp read
        unfold readPage at page
        obtain ⟨same, _, page⟩ := bind_ok_iff.mp page
        split at page
        · obtain ⟨pageSize, _, page⟩ := bind_ok_iff.mp page
          obtain ⟨whole, page⟩ := guard_ok page
          obtain ⟨found, blocks, page⟩ := bind_ok_iff.mp page
          cases page
          have first : (off + Hbin.sizeof) % 4 = 0 := by
            simp only [Hbin.sizeof]
            omega
          exact ih (by omega) (readBlocks_keeps step first holds blocks) read
        · cases page
      · cases read
        exact holds

end Rooted

section Accepted
variable {file : File} {write : Bool} {h : Hive} {b c p q endpages : Nat}

/-- The handle of an accepted file: its fields, and the blocks it takes for valid. -/
structure ReadFrom (file : File) (h : Hive) : Prop where
  size : h.size = file.size
  addr : h.addr = file.byte
  rootoffs : h.rootoffs = file.rootoffs
  endpages : h.endpages = file.endpages
  scan : ∃ scan, Collected file file.rootoffs (file.Scanned file.endpages 0x1000)
    ⟨fun _ => 0, false, false⟩ scan ∧ h.bitmap = scan.bitmap ∧ scan.seenRootBlock = true ∧
    scan.badRootBlock = false

theorem word_ok {n i word : Nat} (read : file.rdLe n i = .ok word) : word = getLe file.byte i n := by
  unfold File.rdLe at read
  split at read
  · exact (Except.ok.inj read).symm
  · cases read

/-- The scan behind an accepted file and the fields that `hivex_open` has set. -/
theorem Accepts.scan (accepted : Accepts file write h) : ∃ fuel scan,
    readPages file file.rootoffs file.endpages fuel 0x1000 ⟨fun _ => 0, false, false⟩ = .ok scan ∧
      scan.seenRootBlock = true ∧ scan.badRootBlock = false ∧ h.size = file.size ∧ h.addr = file.byte ∧
      h.rootoffs = file.rootoffs ∧ h.endpages = file.endpages ∧ h.bitmap = scan.bitmap := by
  obtain ⟨fuel, run⟩ := accepted
  unfold hivexOpen at run
  obtain ⟨_, run⟩ := guard_ok run
  obtain ⟨magic, _, run⟩ := bind_ok_iff.mp run
  cases magic with
  | false => cases run
  | true =>
  obtain ⟨majorVer, _, run⟩ := bind_ok_iff.mp run
  obtain ⟨_, run⟩ := guard_ok run
  obtain ⟨sum, _, run⟩ := bind_ok_iff.mp run
  obtain ⟨csum, _, run⟩ := bind_ok_iff.mp run
  obtain ⟨_, run⟩ := guard_ok run
  obtain ⟨lastModified, _, run⟩ := bind_ok_iff.mp run
  obtain ⟨rootWord, root, run⟩ := bind_ok_iff.mp run
  obtain ⟨blocksWord, blocks, run⟩ := bind_ok_iff.mp run
  obtain ⟨scan, read, run⟩ := bind_ok_iff.mp run
  obtain ⟨seen, run⟩ := guard_ok run
  obtain ⟨good, run⟩ := guard_ok run
  have rootSame : rootWord = get32 file.byte Header.offset := word_ok root
  have blocksSame : blocksWord = get32 file.byte Header.blocks := word_ok blocks
  subst rootSame blocksSame
  cases run
  exact ⟨fuel, scan, read, by simpa using seen, by simpa using good, rfl, rfl, rfl, rfl, rfl⟩

theorem Accepts.readFrom (accepted : Accepts file write h) : ReadFrom file h := by
  obtain ⟨fuel, scan, read, seen, good, size, addr, rootoffs, endpages, bitmap⟩ := accepted.scan
  exact ⟨size, addr, rootoffs, endpages, scan, readPages_collected read, bitmap, seen, good⟩

theorem Accepts.rootInside (accepted : Accepts file write h) : file.rootoffs + 6 ≤ file.size := by
  obtain ⟨fuel, scan, read, seen, good, _⟩ := accepted.scan
  have rooted : scan.Rooted file file.rootoffs := by
    apply readPages_keeps (fun _ block rooted => readBlock_rooted rooted block) (by decide) _ read
    intro seen _
    cases seen
  exact rooted seen good

theorem Accepts.goodLength (accepted : Accepts file write h) (valid : h.valid b = true) :
    4 < h.blockLength b ∧ h.blockLength b % 4 = 0 := by
  obtain ⟨fuel, scan, read, _, _, _, addr, _, _, bitmap⟩ := accepted.scan
  have marks : scan.GoodMarks file := by
    apply readPages_keeps (fun aligned block good => readBlock_goodMarks aligned good block) (by decide) _ read
    intro bit marked
    rw [PackedBits.test_zero _ _ rfl] at marked
    cases marked
  simp only [Hive.valid, decide_eq_true_eq, bitmap] at valid
  obtain ⟨c, same, aligned, good⟩ := marks _ valid.2.2.2
  obtain rfl : c = b := by omega
  unfold Hive.blockLength Hive.blockWord
  rw [addr]
  exact good

theorem ReadFrom.endpages_small (readFrom : ReadFrom file h) : h.endpages < 2 ^ 32 := by
  rw [readFrom.endpages]
  exact Nat.mod_lt _ (by decide)

theorem pageSize_small (file : File) (p : Nat) : file.pageSize p < 2 ^ 32 := get32_lt file.byte _

theorem pageReached_aligned (reached : ReflTransGen (file.PageStep endpages) 0x1000 p) :
    p % 4096 = 0 ∧ (endpages < 2 ^ 32 → 0x1000 ≤ p) := by
  induction reached with
  | refl => exact ⟨rfl, fun _ => Nat.le_refl _⟩
  | @tail q next _ step ih =>
      refine ⟨pageStep_aligned ih.1 step, fun small => ?_⟩
      obtain ⟨_, before, _, _, _, _, rfl⟩ := step
      have low := ih.2 small
      have size := pageSize_small file q
      omega

theorem scanned_aligned (page : p % 4096 = 0) (met : file.ScannedIn p b) : b % 4 = 0 :=
  blockStep_aligned (by simp only [Hbin.sizeof]; omega) met.1

/-- The blocks that `IS_VALID_BLOCK` accepts are the used blocks of the scan. -/
theorem ReadFrom.valid_iff (readFrom : ReadFrom file h) : h.valid b = true ↔
    0x1000 ≤ b ∧ file.Scanned h.endpages 0x1000 b ∧ segUsed (get32 file.byte b) = true := by
  obtain ⟨scan, collected, bitmap, _⟩ := readFrom.scan
  have aligned : ∀ {b}, file.Scanned file.endpages 0x1000 b → b % 4 = 0 := by
    rintro b ⟨p, page, met⟩
    exact scanned_aligned (pageReached_aligned page.1).1 met
  simp only [Hive.valid, decide_eq_true_eq, bitmap, collected.bits, readFrom.endpages, readFrom.size]
  rw [PackedBits.test_zero _ _ rfl]
  constructor
  · rintro ⟨flat, low, _, marked | ⟨c, met, used, same⟩⟩
    · cases marked
    · obtain rfl : c = b := by
        have := aligned met
        omega
      exact ⟨low, met, used⟩
  · rintro ⟨low, met, used⟩
    have whole := collected.whole b met
    exact ⟨aligned met, low, by omega, Or.inr ⟨b, met, used, rfl⟩⟩

theorem ReadFrom.goodRoot (readFrom : ReadFrom file h) :
    file.Scanned file.endpages 0x1000 file.rootoffs ∧ file.GoodRoot file.rootoffs := by
  obtain ⟨scan, collected, _, seen, good⟩ := readFrom.scan
  have met : file.Scanned file.endpages 0x1000 file.rootoffs := by
    have found := collected.seen.mp seen
    simpa using found
  refine ⟨met, ?_⟩
  by_contra bad
  have marked := collected.bad.mpr (Or.inr ⟨met, bad⟩)
  rw [good] at marked
  cases marked

/-- The extents of the valid blocks are disjoint, each lies in the payload of one page and
below both ends, and the root is one of them. -/
structure Separated (file : File) (h : Hive) : Prop where
  apart : ∀ b c, h.valid b = true → h.valid c = true → b ≠ c →
    b + h.blockLength b ≤ c ∨ c + h.blockLength c ≤ b
  paged : ∀ b, h.valid b = true → ∃ p, file.PageReached h.endpages 0x1000 p ∧
    p + Hbin.sizeof ≤ b ∧ b + h.blockLength b ≤ p + file.pageSize p
  below : ∀ b, h.valid b = true → b + h.blockLength b ≤ h.size ∧ b + h.blockLength b ≤ h.endpages
  root : h.valid h.rootoffs = true ∧ slice h.addr (h.rootoffs + 4) 2 = Nk.id

/-- Every used block that the scan meets ends with its page, with the pages and with the
file at the latest. -/
def BlocksFit (file : File) : Prop :=
  ∀ p b, file.PageReached file.endpages 0x1000 p → file.ScannedIn p b →
    segUsed (get32 file.byte b) = true →
    b + segLength (get32 file.byte b) ≤ p + file.pageSize p ∧
    b + segLength (get32 file.byte b) ≤ file.endpages ∧
    b + segLength (get32 file.byte b) ≤ file.size

/-- The used blocks of the page at `p` that lie behind its header end with it. -/
def PageFits (file : File) (p : Nat) : Prop :=
  ∀ b, file.ScannedIn p b → p + Hbin.sizeof ≤ b → segUsed (get32 file.byte b) = true →
    b + segLength (get32 file.byte b) ≤ p + file.pageSize p

-- Then the scan of the page only goes forward.
theorem PageFits.step (fits : PageFits file p) (small : p < 2 ^ 32) (low : p + Hbin.sizeof ≤ b)
    (reached : file.BlockReached p b) (step : file.BlockStep (p + file.pageSize p) b c) :
    c = b + segLength (get32 file.byte b) := by
  obtain ⟨before, _, _, rfl⟩ := step
  have size := pageSize_small file p
  refine Nat.mod_eq_of_lt ?_
  cases used : segUsed (get32 file.byte b) with
  | true =>
      have fit := fits b ⟨reached, before⟩ low used
      omega
  | false =>
      have short : get32 file.byte b < 2 ^ 31 := by simpa [segUsed] using used
      simp only [segLength, short, if_true]
      omega

theorem PageFits.forward (fits : PageFits file p) (small : p < 2 ^ 32) (low : p + Hbin.sizeof ≤ b)
    (reached : file.BlockReached p b)
    (later : ReflTransGen (file.BlockStep (p + file.pageSize p)) b c) : b ≤ c := by
  induction later with
  | refl => exact Nat.le_refl _
  | @tail d e path step ih =>
      have next := fits.step small (Nat.le_trans low ih) (reached.trans path) step
      omega

theorem PageFits.low (fits : PageFits file p) (small : p < 2 ^ 32) (reached : file.BlockReached p b) :
    p + Hbin.sizeof ≤ b :=
  fits.forward small (Nat.le_refl _) .refl reached

theorem PageFits.ordered (fits : PageFits file p) (small : p < 2 ^ 32) (reached : file.BlockReached p b)
    (later : ReflTransGen (file.BlockStep (p + file.pageSize p)) b c) (different : b ≠ c) :
    b + segLength (get32 file.byte b) ≤ c := by
  have low := fits.low small reached
  rcases ReflTransGen.cases_head later with same | ⟨d, step, rest⟩
  · exact absurd same different
  · have next := fits.step small low reached step
    subst next
    exact fits.forward small (by omega) (reached.tail step) rest

-- Two used blocks of one page.
theorem PageFits.apart (fits : PageFits file p) (small : p < 2 ^ 32) (left : file.BlockReached p b)
    (right : file.BlockReached p c) (different : b ≠ c) :
    b + segLength (get32 file.byte b) ≤ c ∨ c + segLength (get32 file.byte c) ≤ b := by
  have unique : Relator.RightUnique (file.BlockStep (p + file.pageSize p)) := by
    rintro x y z ⟨_, _, _, rfl⟩ ⟨_, _, _, rfl⟩
    rfl
  rcases ReflTransGen.total_of_right_unique unique left right with later | later
  · exact Or.inl (fits.ordered small left later different)
  · exact Or.inr (fits.ordered small right later different.symm)

-- Two pages of the scan.
theorem pages_ordered (small : endpages < 2 ^ 32) (path : ReflTransGen (file.PageStep endpages) p q)
    (different : p ≠ q) : p + file.pageSize p ≤ q := by
  induction path using ReflTransGen.head_induction_on with
  | refl => exact absurd rfl different
  | @head a d step rest ih =>
      obtain ⟨_, before, _, _, _, _, rfl⟩ := step
      have size := pageSize_small file a
      have plain : (a + file.pageSize a) % 2 ^ 64 = a + file.pageSize a := Nat.mod_eq_of_lt (by omega)
      rw [plain] at ih rest
      by_cases same : a + file.pageSize a = q
      · exact Nat.le_of_eq same
      · have := ih same
        omega

theorem pages_total (left : ReflTransGen (file.PageStep endpages) 0x1000 p)
    (right : ReflTransGen (file.PageStep endpages) 0x1000 q) :
    ReflTransGen (file.PageStep endpages) p q ∨ ReflTransGen (file.PageStep endpages) q p := by
  refine ReflTransGen.total_of_right_unique ?_ left right
  rintro x y z ⟨_, _, _, _, _, _, rfl⟩ ⟨_, _, _, _, _, _, rfl⟩
  rfl

theorem BlocksFit.page (fits : BlocksFit file) (page : file.PageReached file.endpages 0x1000 p) :
    PageFits file p := fun b met _ used => (fits p b page met used).1

theorem ReadFrom.separated (readFrom : ReadFrom file h) (fits : BlocksFit file) : Separated file h := by
  have small := readFrom.endpages_small
  have length : ∀ b, h.blockLength b = segLength (get32 file.byte b) := fun b => by
    rw [Hive.blockLength, Hive.blockWord, readFrom.addr]
  have located : ∀ b, h.valid b = true → ∃ p, file.PageReached h.endpages 0x1000 p ∧
      file.ScannedIn p b ∧ segUsed (get32 file.byte b) = true := by
    intro b valid
    obtain ⟨_, ⟨p, page, met⟩, used⟩ := readFrom.valid_iff.mp valid
    exact ⟨p, page, met, used⟩
  refine ⟨fun b c left right different => ?_, fun b valid => ?_, fun b valid => ?_, ?_⟩
  · obtain ⟨p, page, met, used⟩ := located b left
    obtain ⟨q, page', met', used'⟩ := located c right
    rw [length, length]
    rw [readFrom.endpages] at page page'
    have fit := fits p b page met used
    have fit' := fits q c page' met' used'
    rw [readFrom.endpages] at small
    have low := (fits.page page).low (by have := page.2.2; omega) met.1
    have low' := (fits.page page').low (by have := page'.2.2; omega) met'.1
    by_cases same : p = q
    · subst same
      exact (fits.page page).apart (by have := page.2.2; omega) met.1 met'.1 different
    · rcases pages_total page.1 page'.1 with path | path
      · have ordered := pages_ordered small path same
        exact Or.inl (by omega)
      · have ordered := pages_ordered small path (Ne.symm same)
        exact Or.inr (by omega)
  · obtain ⟨p, page, met, used⟩ := located b valid
    have page' := page
    rw [readFrom.endpages] at page' small
    refine ⟨p, page, (fits.page page').low (by have := page'.2.2; omega) met.1, ?_⟩
    rw [length]
    exact (fits p b page' met used).1
  · obtain ⟨p, page, met, used⟩ := located b valid
    rw [readFrom.endpages] at page
    rw [length, readFrom.size, readFrom.endpages]
    exact ⟨(fits p b page met used).2.2, (fits p b page met used).2.1⟩
  · obtain ⟨met, root⟩ := readFrom.goodRoot
    have valid : h.valid h.rootoffs = true := by
      rw [readFrom.valid_iff, readFrom.rootoffs, readFrom.endpages]
      refine ⟨?_, met, root.1⟩
      obtain ⟨p, page, met⟩ := met
      rw [readFrom.endpages] at small
      have low := (fits.page page).low (by have := page.2.2; omega) met.1
      have first := (pageReached_aligned page.1).2 small
      omega
    refine ⟨valid, ?_⟩
    rw [readFrom.addr, readFrom.rootoffs]
    exact root.2

theorem ReadFrom.fits (readFrom : ReadFrom file h) (separated : Separated file h) : BlocksFit file := by
  have small := readFrom.endpages_small
  have length : ∀ b, h.blockLength b = segLength (get32 file.byte b) := fun b => by
    rw [Hive.blockLength, Hive.blockWord, readFrom.addr]
  have bounds : ∀ p b, file.PageReached h.endpages 0x1000 p → file.ScannedIn p b →
      p + Hbin.sizeof ≤ b → segUsed (get32 file.byte b) = true →
      h.valid b = true ∧ b + segLength (get32 file.byte b) ≤ p + file.pageSize p := by
    intro p b page met low used
    have first := (pageReached_aligned page.1).2 small
    have valid : h.valid b = true := readFrom.valid_iff.mpr ⟨by omega, ⟨p, page, met⟩, used⟩
    refine ⟨valid, ?_⟩
    obtain ⟨q, page', low', within⟩ := separated.paged b valid
    rw [length] at within
    have before := met.2
    -- The page that holds the block is not behind the page that the scan met it in.
    by_cases same : q = p
    · subst same
      exact within
    · rcases pages_total page.1 page'.1 with path | path
      · have ordered := pages_ordered small path (Ne.symm same)
        omega
      · have ordered := pages_ordered small path same
        omega
  intro p b page met used
  rw [← readFrom.endpages] at page
  have fits : PageFits file p := fun b met low used => (bounds p b page met low used).2
  have low := fits.low (by have := page.2.2; omega) met.1
  obtain ⟨valid, within⟩ := bounds p b page met low used
  have below := separated.below b valid
  rw [length, readFrom.size, readFrom.endpages] at below
  exact ⟨within, below.2, below.1⟩

/-- The valid blocks of an accepted file are well separated exactly when every used block
that the scan meets ends with its page, the pages and the file. -/
theorem separated_iff (accepted : Accepts file write h) : Separated file h ↔ BlocksFit file :=
  ⟨accepted.readFrom.fits, accepted.readFrom.separated⟩

end Accepted

theorem minimal_separated : ∃ file g, Accepts file true g ∧ (Separated file g ↔ BlocksFit file) :=
  ⟨_, _, minimal_committable.accepted minimal_laidOut true,
    separated_iff (minimal_committable.accepted minimal_laidOut true)⟩

/-- The smallest hive with a last block that is used and runs over the end of its page. -/
def overlong : Hive :=
  { minimal with addr := blit minimalImage 0x1090 (leBytes 4 (2 ^ 32 - 0x1000)) }

theorem overlong_accepted : ∃ g, Accepts overlong.committed.file false g := by
  have opens : (hivexOpen 5 overlong.committed.file false).isOk = true := by decide +kernel
  cases run : hivexOpen 5 overlong.committed.file false with
  | ok g => exact ⟨g, 5, run⟩
  | error stop =>
      rw [run] at opens
      cases opens

theorem overlong_not_fit : ¬BlocksFit overlong.committed.file := by
  intro fits
  have size : overlong.committed.file.pageSize 0x1000 = 0x1000 := by decide +kernel
  have root : get32 overlong.committed.file.byte 0x1020 = 2 ^ 32 - 88 := by decide +kernel
  have sk : get32 overlong.committed.file.byte 0x1078 = 2 ^ 32 - 24 := by decide +kernel
  have last : get32 overlong.committed.file.byte 0x1090 = 2 ^ 32 - 0x1000 := by decide +kernel
  have ends : overlong.committed.file.endpages = 0x2000 := by decide +kernel
  have whole : overlong.committed.file.size = 0x2000 := rfl
  have page : overlong.committed.file.PageReached overlong.committed.file.endpages 0x1000 0x1000 :=
    ⟨.refl, by rw [whole]; decide, by rw [ends]; decide⟩
  have first : overlong.committed.file.BlockStep (0x1000 + 0x1000) 0x1020 0x1078 := by
    simp [File.BlockStep, File.GoodLength, root, whole, segLength]
  have second : overlong.committed.file.BlockStep (0x1000 + 0x1000) 0x1078 0x1090 := by
    simp [File.BlockStep, File.GoodLength, sk, whole, segLength]
  have met : overlong.committed.file.ScannedIn 0x1000 0x1090 := by
    rw [File.ScannedIn, File.BlockReached, size]
    exact ⟨(ReflTransGen.single first).tail second, by decide⟩
  have fit := fits 0x1000 0x1090 page met (by rw [last]; decide)
  rw [last, whole] at fit
  exact absurd fit.2.2 (by decide)

/-- `hivex_open` accepts a file with a used block that runs over the end of its page. -/
theorem overlong_not_separated : ∃ file g, Accepts file false g ∧ ¬Separated file g := by
  obtain ⟨g, accepted⟩ := overlong_accepted
  exact ⟨_, g, accepted, fun separated => overlong_not_fit (accepted.readFrom.fits separated)⟩

end Hivex
