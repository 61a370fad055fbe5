import Hivex.HiveOpen

/-! Which files make `hivex_open` read outside them. The scan follows the chain of
page sizes and, in each page, the chain of block lengths; it leaves the file where
one of the chains does so before the scan can refuse the file. -/
namespace Hivex

open ByteMemory Relation

namespace File

variable {file : File} {base b : Nat} {magic : List UInt8}

/-- The file ends inside a magic number that matches as far as it goes. -/
def CutMagic (file : File) (base : Nat) (magic : List UInt8) : Prop :=
  ∃ k < magic.length, file.size ≤ base + k ∧ slice file.byte base k = magic.take k

theorem magicIs_spec (file : File) (base : Nat) (magic : List UInt8) :
    match file.magicIs base magic with
    | .ok same => ¬file.CutMagic base magic ∧
        (same = true ↔ slice file.byte base magic.length = magic)
    | .error stop => stop = .outside ∧ file.CutMagic base magic := by
  induction magic generalizing base with
  | nil => exact ⟨fun ⟨k, inside, _⟩ => absurd inside (Nat.not_lt_zero k), by simp [slice]⟩
  | cons c cs ih =>
      unfold magicIs rd8
      by_cases inside : base < file.size
      · simp only [inside, if_true, bind, Except.bind]
        by_cases same : file.byte base = c
        · simp only [same, ne_eq, not_true_eq_false, if_false]
          have later := ih (base + 1)
          have cut : file.CutMagic base (c :: cs) ↔ file.CutMagic (base + 1) cs := by
            constructor
            · rintro ⟨k, short, ends, matched⟩
              cases k with
              | zero => omega
              | succ k =>
                  rw [slice_succ, List.take_succ_cons] at matched
                  injection matched with _ tail
                  exact ⟨k, by simpa using short, by omega, tail⟩
            · rintro ⟨k, short, ends, matched⟩
              refine ⟨k + 1, by simpa using short, by omega, ?_⟩
              rw [slice_succ, List.take_succ_cons, same, matched]
          cases result : file.magicIs (base + 1) cs with
          | ok whole =>
              rw [result] at later
              refine ⟨fun isCut => later.1 (cut.mp isCut), later.2.trans ?_⟩
              rw [List.length_cons, slice_succ, same, List.cons.injEq]
              exact ⟨fun tail => ⟨rfl, tail⟩, fun both => both.2⟩
          | error stop =>
              rw [result] at later
              exact ⟨later.1, cut.mpr later.2⟩
        · simp only [same, ne_eq, not_false_eq_true, if_true]
          refine ⟨?_, ?_⟩
          · rintro ⟨k, short, ends, matched⟩
            cases k with
            | zero => omega
            | succ k =>
                rw [slice_succ, List.take_succ_cons] at matched
                injection matched with head _
                exact same head
          · rw [List.length_cons, slice_succ, List.cons.injEq]
            exact ⟨fun none => absurd none (by simp), fun both => absurd both.1 same⟩
      · simp only [inside, if_false]
        exact ⟨rfl, 0, by simp, by omega, by simp [slice]⟩

/-- A block length that the scan does not refuse. -/
def GoodLength (file : File) (b : Nat) : Prop :=
  4 < segLength (get32 file.byte b) ∧ segLength (get32 file.byte b) % 4 = 0

/-- The root block is used and its id does not fit in the file. -/
def RootCut (file : File) (rootoffs b : Nat) : Prop :=
  b = rootoffs ∧ file.GoodLength b ∧ segUsed (get32 file.byte b) = true ∧
    file.CutMagic (b + 4) Nk.id

/-- From one block header of a page, whole and with a good length, to the next. -/
def BlockStep (file : File) (pageEnd b c : Nat) : Prop :=
  b < pageEnd ∧ b + 4 ≤ file.size ∧ file.GoodLength b ∧
    c = (b + segLength (get32 file.byte b)) % 2 ^ 64

def pageSize (file : File) (off : Nat) : Nat := get32 file.byte (off + Hbin.pageSize)

def GoodPage (file : File) (off : Nat) : Prop :=
  Hbin.sizeof < file.pageSize off ∧ file.pageSize off % 4096 = 0

/-- The blocks that the scan reaches in the page at `off`. -/
def BlockReached (file : File) (off b : Nat) : Prop :=
  ReflTransGen (file.BlockStep (off + file.pageSize off)) (off + Hbin.sizeof) b

/-- From one page that is read to its end to the next. -/
def PageStep (file : File) (endpages off next : Nat) : Prop :=
  off < file.size ∧ off < endpages ∧ slice file.byte off 4 = Hbin.magic ∧ off + 12 ≤ file.size ∧
    file.GoodPage off ∧ (∃ b, file.BlockReached off b ∧ off + file.pageSize off ≤ b) ∧
    next = (off + file.pageSize off) % 2 ^ 64

/-- The page at `off` makes the scan leave the file: in its header, in a block header
of a page that runs over the end of the file, or in the id of the root block. -/
def PageCut (file : File) (rootoffs endpages off : Nat) : Prop :=
  off < file.size ∧ off < endpages ∧ (file.CutMagic off Hbin.magic ∨
    slice file.byte off 4 = Hbin.magic ∧ (file.size < off + 12 ∨
      file.GoodPage off ∧ ∃ b, file.BlockReached off b ∧ b < off + file.pageSize off ∧
        (file.size < off + file.pageSize off ∧ file.size < b + 4 ∨
          b + 4 ≤ file.size ∧ file.RootCut rootoffs b)))

end File

section Blocks
variable {file : File} {rootoffs pageEnd start b : Nat} {scan : Scan}

/-- How reading the block header at `b` ends. -/
def BlockOutcome (file : File) (rootoffs b : Nat) : Except Stop (Nat × Scan) → Prop
  | .ok read => b + 4 ≤ file.size ∧ file.GoodLength b ∧ read.1 = segLength (get32 file.byte b) ∧
      ¬file.RootCut rootoffs b
  | .error .outside => file.size < b + 4 ∨ b + 4 ≤ file.size ∧ file.RootCut rootoffs b
  | .error stop => stop ≠ .fuel ∧ b + 4 ≤ file.size ∧ ¬file.GoodLength b

theorem readBlock_spec (file : File) (rootoffs b : Nat) (scan : Scan) :
    BlockOutcome file rootoffs b (readBlock file rootoffs b scan) := by
  unfold readBlock
  by_cases inside : b + 4 ≤ file.size
  · have word : file.rdLe 4 b = .ok (get32 file.byte b) := if_pos inside
    have marks : b / 32 < bitmapLen file.size := by unfold bitmapLen; omega
    simp only [word, bind, Except.bind]
    by_cases bad : segLength (get32 file.byte b) ≤ 4 ∨ segLength (get32 file.byte b) % 4 ≠ 0
    · rw [if_pos bad]
      refine ⟨by simp, inside, fun good => ?_⟩
      unfold File.GoodLength at good
      omega
    have goodLength : file.GoodLength b := by
      unfold File.GoodLength
      omega
    rw [if_neg bad]
    cases used : segUsed (get32 file.byte b) with
    | false =>
        exact ⟨inside, goodLength, rfl, fun cut => by simp [cut.2.2.1] at used⟩
    | true =>
    simp only [Bool.not_true, Bool.false_eq_true, if_false]
    by_cases isRoot : b = rootoffs
    · have spec := file.magicIs_spec (b + 4) Nk.id
      simp only [isRoot, decide_true, if_true, rootIdBad]
      rw [isRoot] at spec inside goodLength used marks
      cases id : file.magicIs (rootoffs + 4) Nk.id with
      | ok same =>
          rw [id] at spec
          simp only [bind, Except.bind, bitmapSet, marks, if_true]
          exact ⟨inside, goodLength, rfl, fun cut => spec.1 cut.2.2.2⟩
      | error stop =>
          rw [id] at spec
          rw [spec.1]
          exact Or.inr ⟨inside, rfl, goodLength, used, spec.2⟩
    · simp only [isRoot, decide_false, Bool.false_eq_true, if_false, bitmapSet, marks, if_true]
      exact ⟨inside, goodLength, rfl, fun cut => isRoot cut.1⟩
  · have word : file.rdLe 4 b = .error .outside := if_neg inside
    simp only [word, bind, Except.bind]
    exact Or.inl (by omega)

theorem readBlocks_mono {fuel fuel' : Nat} (more : fuel ≤ fuel')
    (done : readBlocks file rootoffs pageEnd fuel start scan ≠ .error .fuel) :
    readBlocks file rootoffs pageEnd fuel' start scan =
      readBlocks file rootoffs pageEnd fuel start scan := by
  induction fuel generalizing fuel' start scan with
  | zero => exact absurd rfl done
  | succ fuel ih =>
      obtain ⟨fuel', rfl⟩ : ∃ n, fuel' = n + 1 := ⟨fuel' - 1, by omega⟩
      simp only [readBlocks] at done ⊢
      split
      · rename_i inside
        rw [if_pos inside] at done
        simp only [bind, Except.bind] at done ⊢
        cases read : readBlock file rootoffs start scan with
        | error stop => rfl
        | ok next =>
            rw [read] at done
            exact ih (by omega) done
      · rfl

/-- Reading the blocks of a page leaves the file exactly at a reached block header
that is not whole, or at the id of the root block. -/
theorem readBlocks_outside_iff : (∃ fuel, readBlocks file rootoffs pageEnd fuel start scan = .error .outside) ↔
    ∃ b, ReflTransGen (file.BlockStep pageEnd) start b ∧ b < pageEnd ∧
      (file.size < b + 4 ∨ b + 4 ≤ file.size ∧ file.RootCut rootoffs b) := by
  constructor
  · rintro ⟨fuel, outside⟩
    induction fuel generalizing start scan with
    | zero => cases outside
    | succ fuel ih =>
        simp only [readBlocks] at outside
        split at outside
        · rename_i inside
          have spec := readBlock_spec file rootoffs start scan
          simp only [bind, Except.bind] at outside
          cases read : readBlock file rootoffs start scan with
          | error stop =>
              rw [read] at outside spec
              cases outside
              exact ⟨start, .refl, inside, spec⟩
          | ok next =>
              rw [read] at outside spec
              obtain ⟨len, scan'⟩ := next
              obtain ⟨whole, good, length, _⟩ := spec
              simp only at length
              subst length
              obtain ⟨b, reached, cut⟩ := ih outside
              exact ⟨b, reached.head ⟨inside, whole, good, rfl⟩, cut⟩
        · cases outside
  · rintro ⟨b, reached, inside, cut⟩
    induction reached using ReflTransGen.head_induction_on generalizing scan with
    | refl =>
        refine ⟨1, ?_⟩
        have spec := readBlock_spec file rootoffs b scan
        simp only [readBlocks, inside, if_true, bind, Except.bind]
        cases read : readBlock file rootoffs b scan with
        | ok next =>
            rw [read] at spec
            rcases cut with cut | cut
            · have := spec.1
              omega
            · exact absurd cut.2 spec.2.2.2
        | error stop =>
            rw [read] at spec
            cases stop with
            | outside => rfl
            | _ => rcases cut with cut | cut
                   · have := spec.2.1
                     omega
                   · exact absurd cut.2.2.1 spec.2.2
    | @head here next step _ ih =>
        obtain ⟨within, whole, good, rfl⟩ := step
        have spec := readBlock_spec file rootoffs here scan
        cases read : readBlock file rootoffs here scan with
        | ok next =>
            rw [read] at spec
            obtain ⟨fuel, outside⟩ := @ih next.2
            refine ⟨fuel + 1, ?_⟩
            simp only [readBlocks, within, if_true, bind, Except.bind, read]
            rw [spec.2.2.1]
            exact outside
        | error stop =>
            rw [read] at spec
            cases stop with
            | outside => exact ⟨1, by simp only [readBlocks, within, if_true, bind, Except.bind, read]⟩
            | _ => exact absurd good spec.2.2

/-- Reading the blocks of a page ends well only past the end of the page, and a chain
that gets there is read to its end unless it leaves the file on the way. -/
theorem readBlocks_ok {fuel : Nat} {scan' : Scan}
    (done : readBlocks file rootoffs pageEnd fuel start scan = .ok scan') :
    ∃ b, ReflTransGen (file.BlockStep pageEnd) start b ∧ pageEnd ≤ b := by
  induction fuel generalizing start scan with
  | zero => cases done
  | succ fuel ih =>
      simp only [readBlocks] at done
      split at done
      · rename_i inside
        have spec := readBlock_spec file rootoffs start scan
        simp only [bind, Except.bind] at done
        cases read : readBlock file rootoffs start scan with
        | error stop => rw [read] at done; cases done
        | ok next =>
            rw [read] at done spec
            obtain ⟨len, scan''⟩ := next
            obtain ⟨whole, good, length, _⟩ := spec
            simp only at length
            subst length
            obtain ⟨b, reached, past⟩ := ih done
            exact ⟨b, reached.head ⟨inside, whole, good, rfl⟩, past⟩
      · exact ⟨start, .refl, by omega⟩

theorem readBlocks_ends {b : Nat} (reached : ReflTransGen (file.BlockStep pageEnd) start b)
    (past : pageEnd ≤ b) :
    ∃ fuel, readBlocks file rootoffs pageEnd fuel start scan = .error .outside ∨
      ∃ scan', readBlocks file rootoffs pageEnd fuel start scan = .ok scan' := by
  induction reached using ReflTransGen.head_induction_on generalizing scan with
  | refl =>
      exact ⟨1, Or.inr ⟨scan, by simp only [readBlocks, Nat.not_lt.mpr past, if_false]⟩⟩
  | @head here next step _ ih =>
      obtain ⟨within, whole, good, rfl⟩ := step
      have spec := readBlock_spec file rootoffs here scan
      cases read : readBlock file rootoffs here scan with
      | ok next =>
          rw [read] at spec
          obtain ⟨fuel, ends⟩ := @ih next.2
          refine ⟨fuel + 1, ?_⟩
          simp only [readBlocks, within, if_true, bind, Except.bind, read]
          rw [spec.2.2.1]
          exact ends
      | error stop =>
          rw [read] at spec
          cases stop with
          | outside =>
              exact ⟨1, Or.inl (by simp only [readBlocks, within, if_true, bind, Except.bind, read])⟩
          | _ => exact absurd good spec.2.2

-- Every block header reached in a page is aligned to four bytes.
theorem blockStep_aligned (aligned : start % 4 = 0)
    (reached : ReflTransGen (file.BlockStep pageEnd) start b) : b % 4 = 0 := by
  induction reached with
  | refl => exact aligned
  | tail _ step ih =>
      obtain ⟨_, _, good, rfl⟩ := step
      have multiple := good.2
      omega

end Blocks

section Pages
variable {file : File} {rootoffs endpages off : Nat} {scan : Scan}

/-- The part of `PageCut` that one page decides. -/
def File.PageLeaves (file : File) (rootoffs off : Nat) : Prop :=
  file.CutMagic off Hbin.magic ∨ slice file.byte off 4 = Hbin.magic ∧ (file.size < off + 12 ∨
    file.GoodPage off ∧ ∃ b, file.BlockReached off b ∧ b < off + file.pageSize off ∧
      (file.size < b + 4 ∨ b + 4 ≤ file.size ∧ file.RootCut rootoffs b))

/-- The part of `PageStep` that one page decides. -/
def File.PageEnds (file : File) (off : Nat) : Prop :=
  slice file.byte off 4 = Hbin.magic ∧ off + 12 ≤ file.size ∧ file.GoodPage off ∧
    ∃ b, file.BlockReached off b ∧ off + file.pageSize off ≤ b

/-- How reading the page at `off` ends. -/
def PageOutcome (file : File) (rootoffs off : Nat) : Except Stop (Nat × Scan) → Prop
  | .ok read => file.PageEnds off ∧ read.1 = file.pageSize off
  | .error .outside => file.PageLeaves rootoffs off
  | .error _ => True

theorem readPage_header (whole : off + 12 ≤ file.size) (magic : slice file.byte off 4 = Hbin.magic)
    (good : file.GoodPage off) (fuel : Nat) :
    readPage file rootoffs fuel off scan =
      (readBlocks file rootoffs (off + file.pageSize off) fuel (off + Hbin.sizeof) scan).map
        fun scan => (file.pageSize off, scan) := by
  have spec := file.magicIs_spec off Hbin.magic
  have size : file.rdLe 4 (off + Hbin.pageSize) = .ok (file.pageSize off) :=
    if_pos (by simp only [Hbin.pageSize]; omega)
  have sizeOk : ¬(file.pageSize off ≤ Hbin.sizeof ∨ file.pageSize off % 4096 ≠ 0) := by
    have bounds := good
    unfold File.GoodPage at bounds
    omega
  have same : file.magicIs off Hbin.magic = .ok true := by
    cases result : file.magicIs off Hbin.magic with
    | ok same =>
        rw [result] at spec
        rw [spec.2.mpr magic]
    | error stop =>
        rw [result] at spec
        obtain ⟨k, short, ends, _⟩ := spec.2
        have : k < 4 := short
        omega
  simp only [readPage, same, if_true, bind, Except.bind, size, sizeOk, if_false]
  cases readBlocks file rootoffs (off + file.pageSize off) fuel (off + Hbin.sizeof) scan <;> rfl

theorem readPage_spec (file : File) (rootoffs fuel off : Nat) (scan : Scan) :
    PageOutcome file rootoffs off (readPage file rootoffs fuel off scan) := by
  have spec := file.magicIs_spec off Hbin.magic
  cases result : file.magicIs off Hbin.magic with
  | error stop =>
      rw [result] at spec
      simp only [readPage, result, bind, Except.bind]
      rw [spec.1]
      exact Or.inl spec.2
  | ok same =>
  rw [result] at spec
  cases same with
  | false =>
      simp only [readPage, result, bind, Except.bind]
      trivial
  | true =>
  have magic : slice file.byte off 4 = Hbin.magic := spec.2.mp rfl
  by_cases whole : off + 12 ≤ file.size
  · have size : file.rdLe 4 (off + Hbin.pageSize) = .ok (file.pageSize off) :=
      if_pos (by simp only [Hbin.pageSize]; omega)
    by_cases bad : file.pageSize off ≤ Hbin.sizeof ∨ file.pageSize off % 4096 ≠ 0
    · simp only [readPage, result, if_true, bind, Except.bind, size, bad]
      trivial
    have good : file.GoodPage off := by
      unfold File.GoodPage
      omega
    rw [readPage_header whole magic good]
    cases blocks : readBlocks file rootoffs (off + file.pageSize off) fuel (off + Hbin.sizeof) scan with
    | ok scan' => exact ⟨⟨magic, whole, good, readBlocks_ok blocks⟩, rfl⟩
    | error stop =>
        cases stop with
        | outside => exact Or.inr ⟨magic, Or.inr ⟨good, readBlocks_outside_iff.mp ⟨fuel, blocks⟩⟩⟩
        | _ => trivial
  · have size : file.rdLe 4 (off + Hbin.pageSize) = .error .outside :=
      if_neg (by simp only [Hbin.pageSize]; omega)
    simp only [readPage, result, if_true, bind, Except.bind, size]
    exact Or.inr ⟨magic, Or.inl (by omega)⟩

theorem readPage_mono {fuel fuel' : Nat} (more : fuel ≤ fuel')
    (done : readPage file rootoffs fuel off scan ≠ .error .fuel) :
    readPage file rootoffs fuel' off scan = readPage file rootoffs fuel off scan := by
  simp only [readPage, bind, Except.bind] at done ⊢
  cases result : file.magicIs off Hbin.magic with
  | error stop => rfl
  | ok same =>
  cases same with
  | false => rfl
  | true =>
  simp only [result, if_true] at done ⊢
  cases size : file.rdLe 4 (off + Hbin.pageSize) with
  | error stop => rfl
  | ok pageSize =>
  simp only [size] at done ⊢
  by_cases bad : pageSize ≤ Hbin.sizeof ∨ pageSize % 4096 ≠ 0
  · rw [if_pos bad, if_pos bad]
    rfl
  · simp only [bad, if_false] at done ⊢
    rw [readBlocks_mono more]
    intro noFuel
    rw [noFuel] at done
    exact done rfl

theorem readPage_leaves (leaves : file.PageLeaves rootoffs off) :
    ∃ fuel, readPage file rootoffs fuel off scan = .error .outside := by
  have spec := file.magicIs_spec off Hbin.magic
  cases result : file.magicIs off Hbin.magic with
  | error stop =>
      rw [result] at spec
      refine ⟨0, ?_⟩
      simp only [readPage, result, bind, Except.bind, spec.1]
  | ok same =>
      rw [result] at spec
      rcases leaves with cut | ⟨magic, rest⟩
      · exact absurd cut spec.1
      obtain rfl := spec.2.mpr magic
      by_cases whole : off + 12 ≤ file.size
      · rcases rest with short | ⟨good, blocks⟩
        · omega
        obtain ⟨fuel, outside⟩ := (@readBlocks_outside_iff file rootoffs _ _ scan).mpr blocks
        refine ⟨fuel, ?_⟩
        rw [readPage_header whole magic good, outside]
        rfl
      · have size : file.rdLe 4 (off + Hbin.pageSize) = .error .outside :=
          if_neg (by simp only [Hbin.pageSize]; omega)
        refine ⟨0, ?_⟩
        simp only [readPage, result, if_true, bind, Except.bind, size]

theorem readPage_ends (ends : file.PageEnds off) :
    ∃ fuel, readPage file rootoffs fuel off scan = .error .outside ∨
      ∃ scan', readPage file rootoffs fuel off scan = .ok (file.pageSize off, scan') := by
  obtain ⟨magic, whole, good, b, reached, past⟩ := ends
  obtain ⟨fuel, outcome⟩ := @readBlocks_ends file rootoffs _ _ scan _ reached past
  refine ⟨fuel, ?_⟩
  rw [readPage_header whole magic good]
  rcases outcome with outside | ⟨scan', done⟩
  · exact Or.inl (by rw [outside]; rfl)
  · exact Or.inr ⟨scan', by rw [done]; rfl⟩

theorem readPages_mono {fuel fuel' : Nat} (more : fuel ≤ fuel')
    (done : readPages file rootoffs endpages fuel off scan ≠ .error .fuel) :
    readPages file rootoffs endpages fuel' off scan =
      readPages file rootoffs endpages fuel off scan := by
  induction fuel generalizing fuel' off scan with
  | zero => exact absurd rfl done
  | succ fuel ih =>
      obtain ⟨fuel', rfl⟩ : ∃ n, fuel' = n + 1 := ⟨fuel' - 1, by omega⟩
      simp only [readPages] at done ⊢
      by_cases inside : off < file.size ∧ off < endpages
      · simp only [inside, and_self, if_true, bind, Except.bind] at done ⊢
        have later := @readPage_mono file rootoffs off scan fuel fuel' (by omega)
        cases read : readPage file rootoffs fuel off scan with
        | error stop =>
            rw [read] at done later
            rw [later fun noFuel => done (by rw [noFuel])]
        | ok next =>
            rw [read] at done later
            rw [later (by simp)]
            exact ih (by omega) done
      · rw [if_neg inside, if_neg inside]

-- In a page that ends inside the file every reached block header is whole.
theorem pageCut_iff (aligned : off % 4096 = 0) (inside : off < file.size) (before : off < endpages) :
    file.PageCut rootoffs endpages off ↔ file.PageLeaves rootoffs off := by
  simp only [File.PageCut, inside, before, true_and, File.PageLeaves]
  refine or_congr Iff.rfl (and_congr_right fun _ => or_congr Iff.rfl (and_congr_right fun good =>
    exists_congr fun b => and_congr_right fun reached => and_congr_right fun within => ?_))
  refine or_congr ⟨fun both => both.2, fun short => ⟨?_, short⟩⟩ Iff.rfl
  have multiple := blockStep_aligned (by simp only [Hbin.sizeof]; omega) reached
  have page := good.2
  omega

theorem pageStep_aligned {next : Nat} (aligned : off % 4096 = 0)
    (step : file.PageStep endpages off next) : next % 4096 = 0 := by
  obtain ⟨_, _, _, _, good, _, rfl⟩ := step
  have page := good.2
  omega

/-- The scan leaves the file exactly at a reached page that makes it leave. -/
theorem readPages_outside_iff (aligned : off % 4096 = 0) :
    (∃ fuel, readPages file rootoffs endpages fuel off scan = .error .outside) ↔
      ∃ p, ReflTransGen (file.PageStep endpages) off p ∧ file.PageCut rootoffs endpages p := by
  constructor
  · rintro ⟨fuel, outside⟩
    induction fuel generalizing off scan with
    | zero => cases outside
    | succ fuel ih =>
        simp only [readPages] at outside
        by_cases inside : off < file.size ∧ off < endpages
        · have spec := readPage_spec file rootoffs fuel off scan
          simp only [inside, and_self, if_true, bind, Except.bind] at outside
          cases read : readPage file rootoffs fuel off scan with
          | error stop =>
              rw [read] at outside spec
              cases outside
              exact ⟨off, .refl, (pageCut_iff aligned inside.1 inside.2).mpr spec⟩
          | ok next =>
              rw [read] at outside spec
              obtain ⟨size, scan'⟩ := next
              obtain ⟨⟨magic, whole, good, ends⟩, same⟩ := spec
              simp only at same
              subst same
              have step : file.PageStep endpages off ((off + file.pageSize off) % 2 ^ 64) :=
                ⟨inside.1, inside.2, magic, whole, good, ends, rfl⟩
              obtain ⟨p, reached, cut⟩ := ih (pageStep_aligned aligned step) outside
              exact ⟨p, reached.head step, cut⟩
        · rw [if_neg inside] at outside
          cases outside
  · rintro ⟨p, reached, cut⟩
    induction reached using ReflTransGen.head_induction_on generalizing scan with
    | refl =>
        have inside := cut.1
        have before := cut.2.1
        obtain ⟨fuel, outside⟩ := @readPage_leaves file rootoffs _ scan
          ((pageCut_iff aligned inside before).mp cut)
        refine ⟨fuel + 1, ?_⟩
        simp only [readPages, inside, before, and_self, if_true, bind, Except.bind, outside]
    | @head here next step _ ih =>
        have alignedNext := pageStep_aligned aligned step
        obtain ⟨inside, before, magic, whole, good, ends, rfl⟩ := step
        obtain ⟨fuel, outcome⟩ := @readPage_ends file rootoffs _ scan
          ⟨magic, whole, good, ends⟩
        rcases outcome with outside | ⟨scan', done⟩
        · refine ⟨fuel + 1, ?_⟩
          simp only [readPages, inside, before, and_self, if_true, bind, Except.bind, outside]
        · obtain ⟨fuel', outside⟩ := @ih scan' alignedNext
          refine ⟨max fuel fuel' + 1, ?_⟩
          have read : readPage file rootoffs (max fuel fuel') here scan =
              .ok (file.pageSize here, scan') := by
            rw [readPage_mono (Nat.le_max_left fuel fuel') (by rw [done]; simp), done]
          simp only [readPages, inside, before, and_self, if_true, bind, Except.bind, read]
          rw [readPages_mono (Nat.le_max_right fuel fuel') (by rw [outside]; simp), outside]

end Pages

section Header
variable {file : File} {write : Bool}

namespace File

def rootoffs (file : File) : Nat := (get32 file.byte Header.offset + 0x1000) % 2 ^ 32

def endpages (file : File) : Nat := (get32 file.byte Header.blocks + 0x1000) % 2 ^ 32

/-- The file ends before the header checks have refused it. An empty file cannot be
mapped, so it is refused at once unless it is opened for writing. -/
def HeaderCut (file : File) (write : Bool) : Prop :=
  (write = true ∨ 0 < file.size) ∧ (file.CutMagic 0 Header.magic ∨
    slice file.byte 0 4 = Header.magic ∧ (file.size < 24 ∨
      get32 file.byte Header.majorVer = 1 ∧ file.size < 0x200))

structure HeaderGood (file : File) : Prop where
  whole : 0x200 ≤ file.size
  magic : slice file.byte 0 4 = Header.magic
  major : get32 file.byte Header.majorVer = 1
  checksum : headerChecksum file.byte = get32 file.byte Header.csum

end File

theorem magicIs_whole {base : Nat} {magic : List UInt8} (whole : base + magic.length ≤ file.size) :
    ∃ same, file.magicIs base magic = .ok same ∧
      (same = true ↔ slice file.byte base magic.length = magic) := by
  have spec := file.magicIs_spec base magic
  cases result : file.magicIs base magic with
  | ok same =>
      rw [result] at spec
      exact ⟨same, rfl, spec.2⟩
  | error stop =>
      rw [result] at spec
      obtain ⟨k, short, ends, _⟩ := spec.2
      omega

-- Behind a good header only the scan stops without an error code.
theorem hivexOpen_good (good : file.HeaderGood) (fuel : Nat) {stop : Stop} (silent : stop.code? = none) :
    hivexOpen fuel file write = .error stop ↔
      readPages file file.rootoffs file.endpages fuel 0x1000 ⟨fun _ => 0, false, false⟩ =
        .error stop := by
  have coded : ∀ code, Stop.errno code ≠ stop := by
    rintro code rfl
    cases silent
  have whole := good.whole
  obtain ⟨same, magic, isSame⟩ := @magicIs_whole file 0 Header.magic
    (show 0 + 4 ≤ file.size by omega)
  obtain rfl := isSame.mpr good.magic
  have notEmpty : ¬((!write) = true ∧ file.size = 0) := by
    rintro ⟨_, empty⟩
    omega
  have word : ∀ i, i + 4 ≤ 0x200 → file.rdLe 4 i = .ok (get32 file.byte i) := fun i bound =>
    rdLe_file (by omega)
  have time : file.rdLe 8 Header.lastModified = .ok (get64 file.byte Header.lastModified) :=
    rdLe_file (by simp only [Header.lastModified]; omega)
  have sum : file.checksum = .ok (headerChecksum file.byte) :=
    if_pos (by simp only [Header.csum]; omega)
  have rootWord : (get32 file.byte Header.offset + 0x1000) % 2 ^ 32 = file.rootoffs := rfl
  have endWord : (get32 file.byte Header.blocks + 0x1000) % 2 ^ 32 = file.endpages := rfl
  simp only [hivexOpen, notEmpty, if_false, magic, bind, Except.bind, if_true,
    word Header.majorVer (by decide), good.major, ne_eq, not_true_eq_false, sum,
    word Header.csum (by decide), good.checksum, time, word Header.offset (by decide),
    word Header.blocks (by decide), rootWord, endWord]
  cases readPages file file.rootoffs file.endpages fuel 0x1000 ⟨fun _ => 0, false, false⟩ with
  | error stop => simp
  | ok scan =>
      cases seen : scan.seenRootBlock <;> cases bad : scan.badRootBlock <;> simp [seen, bad, throw,
        throwThe, MonadExceptOf.throw, pure, Except.pure, coded]

-- Before that it leaves the file exactly when the header is cut.
theorem hivexOpen_bad (bad : ¬file.HeaderGood) (fuel : Nat) :
    hivexOpen fuel file write = .error .outside ↔ file.HeaderCut write := by
  have spec := file.magicIs_spec 0 Header.magic
  unfold hivexOpen
  by_cases empty : (!write) = true ∧ file.size = 0
  · rw [if_pos empty]
    have refused : ¬file.HeaderCut write := by
      rintro ⟨opened | some, _⟩
      · simp [opened] at empty
      · omega
    simp [refused, bind, Except.bind, throw, throwThe, MonadExceptOf.throw]
  rw [if_neg empty]
  have opened : write = true ∨ 0 < file.size := by
    cases write with
    | true => exact Or.inl rfl
    | false => exact Or.inr (Nat.pos_of_ne_zero fun none => empty ⟨rfl, none⟩)
  simp only [File.HeaderCut, opened, true_and, bind, Except.bind]
  cases magic : file.magicIs 0 Header.magic with
  | error stop =>
      rw [magic] at spec
      simp only [spec.1, spec.2, true_or]
  | ok same =>
  rw [magic] at spec
  cases same with
  | false =>
      have other : slice file.byte 0 4 ≠ Header.magic := fun same => by
        have := spec.2.mpr same
        simp at this
      simp [spec.1, other, throw, throwThe, MonadExceptOf.throw]
  | true =>
  have good : slice file.byte 0 4 = Header.magic := spec.2.mp rfl
  simp only [spec.1, good, true_and, false_or, if_true]
  by_cases short : file.size < 24
  · have word : file.rdLe 4 Header.majorVer = .error .outside :=
      if_neg (by simp only [Header.majorVer]; omega)
    simp only [word, short, true_or]
  have word : file.rdLe 4 Header.majorVer = .ok (get32 file.byte Header.majorVer) :=
    rdLe_file (by simp only [Header.majorVer]; omega)
  simp only [word, short, false_or]
  by_cases major : get32 file.byte Header.majorVer = 1
  · simp only [major, ne_eq, not_true_eq_false, if_false, true_and]
    by_cases whole : 0x200 ≤ file.size
    · have sum : file.checksum = .ok (headerChecksum file.byte) :=
        if_pos (by simp only [Header.csum]; omega)
      have csum : file.rdLe 4 Header.csum = .ok (get32 file.byte Header.csum) :=
        rdLe_file (by simp only [Header.csum]; omega)
      have wrong : headerChecksum file.byte ≠ get32 file.byte Header.csum := fun checksum =>
        bad ⟨whole, good, major, checksum⟩
      have long : ¬file.size < 0x200 := by omega
      simp [sum, csum, wrong, long, throw, throwThe, MonadExceptOf.throw]
    · have long : file.size < 0x200 := by omega
      simp only [long, iff_true]
      by_cases most : Header.csum ≤ file.size
      · have sum : file.checksum = .ok (headerChecksum file.byte) := if_pos most
        have csum : file.rdLe 4 Header.csum = .error .outside :=
          if_neg (by simp only [Header.csum] at *; omega)
        simp only [sum, csum]
      · have sum : file.checksum = .error .outside := if_neg most
        simp only [sum]
  · simp [major, throw, throwThe, MonadExceptOf.throw]

end Header

end Hivex
